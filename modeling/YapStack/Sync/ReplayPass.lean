import YapStack.Sync.Quarantine

set_option linter.unusedSectionVars false

namespace YapStack.Sync

/-- The database statements of one pass that fail: its reads, those of a candidate, and the ones
that record the counts. -/
structure PassFaults where
  read : Bool
  row : Nat → Bool
  persist : Bool

section Pass

variable (sc : LocalSchema) (applies : Nat → Bool) (faults : PassFaults)

/-- The candidates of a pass one after another. No result is an error. -/
def replayFrom : List (Nat × Bytes) → Inbox → ReplayPass → Inbox × Option ReplayPass
  | [], db, p => (db, some p)
  | c :: rest, db, p =>
    if faults.row c.1 then (db, none)
    else
      match replayRow sc db p c.1 c.2 rest (applies c.1) with
      | (db, none) => (db, none)
      | (db, some p) => replayFrom rest db p

def replayPending (db : Inbox) : Inbox × Option ReplayReport :=
  if faults.read then (db, none)
  else
    match replayFrom sc applies faults (beginReplay db).candidates db (beginReplay db) with
    | (db, none) => (db, none)
    | (db, some p) =>
      if faults.persist then (db, none)
      else (persistReplayOutcome db p.report, some p.report)

end Pass

def candidates (pending : List Stashed) : List (Nat × Bytes) :=
  pending.map (fun s => (s.id, s.rowBlob))

/-- What a pass does with one candidate. -/
inductive Fate
  | dropped
  | blocked
  | waiting
  | replayed
  | failed
  deriving DecidableEq

def Inbox.settle (db : Inbox) (id : Nat) : Fate → Inbox
  | .dropped => deletePending db id
  | .replayed => applyPending db id
  | _ => db

def ReplayReport.count (report : ReplayReport) : Fate → ReplayReport
  | .dropped => report
  | .blocked => { report with blocked := report.blocked + 1 }
  | .waiting => { report with waiting := report.waiting + 1 }
  | .replayed => { report with replayed := report.replayed + 1 }
  | .failed => { report with failed := report.failed + 1 }

def ReplayReport.total (report : ReplayReport) : Nat :=
  report.replayed + report.waiting + report.failed + report.blocked

section Rule

variable (sc : LocalSchema) (applies : Nat → Bool)

/-- A ready row whose apply fails. -/
def Fails (s : Stashed) (key : RowKey) : Prop :=
  ∃ r, firstRow s.rowBlob = some r ∧ r.key = key ∧ sc.ready r.table r.cid = true ∧
    applies s.id = false

/-- What becomes of a stashed row that comes after `earlier`, when `failed` are the keys that
failed before all of these. -/
structure Settled (failed : List RowKey) (earlier : List Stashed) (s : Stashed) (db : Inbox) :
    Prop where
  dropped : firstRow s.rowBlob = none → s.id ∉ db.pending.map Stashed.id
  applied : ∀ r, firstRow s.rowBlob = some r → sc.ready r.table r.cid = true → r.key ∉ failed →
    (∀ u ∈ earlier, ¬Fails sc applies u r.key) → applies s.id = true →
      s.id ∉ db.pending.map Stashed.id ∧ s.arrival ∈ db.applied
  kept : ∀ r, firstRow s.rowBlob = some r → (sc.ready r.table r.cid = false ∨ r.key ∈ failed ∨
    (∃ u ∈ earlier, Fails sc applies u r.key) ∨ applies s.id = false) → s ∈ db.pending

/-- A pass stops early only at a failing statement, and a pass that ends has settled and counted
every row of the stash. -/
def NeverWedges (db : Inbox) : Prop :=
  ∀ faults,
    ((replayPending sc applies faults db).2 = none →
      faults.read = true ∨ faults.persist = true ∨ ∃ s ∈ db.pending, faults.row s.id = true) ∧
    ∀ report, (replayPending sc applies faults db).2 = some report →
      report.total + db.pending.countP (fun s => (firstRow s.rowBlob).isNone) = db.pending.length ∧
      ∀ earlier s later, db.pending = earlier ++ s :: later →
        Settled sc applies [] earlier s (replayPending sc applies faults db).1

end Rule

variable {sc : LocalSchema} {applies : Nat → Bool} {faults : PassFaults} {db db' : Inbox}
variable {p p' : ReplayPass} {s u : Stashed} {r : ChangeRow} {id : Nat} {blob : Bytes}
variable {rest : List (Nat × Bytes)} {todo : List Stashed}

theorem fails_iff (hfirst : firstRow s.rowBlob = some r) (key : RowKey) :
    Fails sc applies s key ↔
      r.key = key ∧ sc.ready r.table r.cid = true ∧ applies s.id = false := by
  constructor
  · rintro ⟨a, ha, hrest⟩
    rw [hfirst, Option.some.injEq] at ha
    exact ha ▸ hrest
  · exact fun h => ⟨r, hfirst, h⟩

/-- The fate of a candidate that holds a row, and the keys that have failed after it. -/
theorem replayRow_fate (hc : p.crr.Agrees sc) {cs : Changeset}
    (hd : Changeset.decode s.rowBlob = .ok cs) (hfirst : firstRow s.rowBlob = some r) :
    ∃ fate crr failed, CrrCache.Agrees sc crr ∧
      replayRow sc db p s.id s.rowBlob rest (applies s.id) =
        (db.settle s.id fate, some ⟨rest, crr, failed, p.report.count fate⟩) ∧
      (∀ key, key ∈ failed ↔ key ∈ p.failedKeys ∨ Fails sc applies s key) ∧ fate ≠ .dropped ∧
      (fate = .replayed ↔ sc.ready r.table r.cid = true ∧ r.key ∉ p.failedKeys ∧
        applies s.id = true) := by
  have hrow : cs.rows.head? = some r := by
    simpa [firstRow, hd, Except.toOption] using hfirst
  have hready := isDeferrable_fst hc r
  have hagrees := isDeferrable_agrees hc r
  simp only [replayRow, hd, hrow, hready, fails_iff hfirst]
  split
  · rename_i hb
    have hb : r.key ∈ p.failedKeys := List.contains_iff_mem.mp hb
    refine ⟨.blocked, _, _, hc, rfl, fun key => ?_, by simp, by simp [hb]⟩
    refine ⟨Or.inl, fun h => h.elim (fun h => h) ?_⟩
    rintro ⟨rfl, _⟩
    exact hb
  · rename_i hb
    have hb : r.key ∉ p.failedKeys := by simpa using hb
    split
    · rename_i hw
      have hw : sc.ready r.table r.cid = false := by simpa using hw
      exact ⟨.waiting, _, _, hagrees, rfl, fun key => by simp [hw], by simp, by simp [hw]⟩
    · rename_i hw
      have hw : sc.ready r.table r.cid = true := by simpa using hw
      split
      · rename_i ha
        exact ⟨.replayed, _, _, hagrees, rfl, fun key => by simp [ha], by simp, by simp [*]⟩
      · rename_i ha
        have ha : applies s.id = false := by simpa using ha
        refine ⟨.failed, _, _, hagrees, rfl, fun key => ?_, by simp, by simp [ha]⟩
        rw [List.mem_cons, or_comm, eq_comm]
        simp [hw, ha]

theorem replayRow_empty {cs : Changeset} (hd : Changeset.decode s.rowBlob = .ok cs)
    (hfirst : firstRow s.rowBlob = none) (applied : Bool) :
    replayRow sc db p s.id s.rowBlob rest applied =
      (db.settle s.id .dropped, some { p with candidates := rest }) := by
  have hrow : cs.rows.head? = none := by
    simpa [firstRow, hd, Except.toOption] using hfirst
  simp only [replayRow, hd, hrow]
  rfl

variable (db applies rest) in
/-- What one candidate whose blob decodes does to the database and to the pass. -/
theorem replayRow_decoded (hc : p.crr.Agrees sc) {cs : Changeset}
    (hd : Changeset.decode s.rowBlob = .ok cs) :
    ∃ fate crr failed, CrrCache.Agrees sc crr ∧
      replayRow sc db p s.id s.rowBlob rest (applies s.id) =
        (db.settle s.id fate, some ⟨rest, crr, failed, p.report.count fate⟩) ∧
      (∀ key, key ∈ failed ↔ key ∈ p.failedKeys ∨ Fails sc applies s key) ∧
      (fate = .dropped ↔ firstRow s.rowBlob = none) ∧
      ∀ r, firstRow s.rowBlob = some r →
        (fate = .replayed ↔ sc.ready r.table r.cid = true ∧ r.key ∉ p.failedKeys ∧
          applies s.id = true) := by
  cases hfirst : firstRow s.rowBlob with
  | none =>
    refine ⟨.dropped, p.crr, p.failedKeys, hc, replayRow_empty hd hfirst _, fun key => ?_,
      by simp, by simp⟩
    simp [Fails, hfirst]
  | some r =>
    obtain ⟨fate, crr, failed, hagrees, heq, hfailed, hdropped, hreplayed⟩ :=
      replayRow_fate hc hd hfirst
    refine ⟨fate, crr, failed, hagrees, heq, hfailed, by simp [hdropped], ?_⟩
    rintro a ⟨⟩
    exact hreplayed

section Settle

variable {fate : Fate}

theorem mem_settle : u ∈ (db.settle id fate).pending ↔
    u ∈ db.pending ∧ (u.id = id → fate ≠ .dropped ∧ fate ≠ .replayed) := by
  cases fate <;>
    simp [Inbox.settle, deletePending, applyPending, List.mem_filter]

theorem settle_applied : db.applied ⊆ (db.settle id fate).applied := by
  cases fate <;> simp [Inbox.settle, deletePending, applyPending]

theorem mem_settle_applied (hs : s ∈ db.pending) :
    s.arrival ∈ (db.settle s.id .replayed).applied := by
  apply List.mem_append_right
  exact List.mem_map_of_mem (List.mem_filter.mpr ⟨hs, by simp⟩)

theorem count_total (report : ReplayReport) :
    (report.count fate).total = report.total + if fate = .dropped then 0 else 1 := by
  cases fate <;> simp [ReplayReport.count, ReplayReport.total] <;> omega

end Settle

/-- What a pass has done to the candidates `todo`, from `db` and `p` to `db'` and `p'`. -/
structure Passed (sc : LocalSchema) (applies : Nat → Bool) (todo : List Stashed) (db : Inbox)
    (p : ReplayPass) (db' : Inbox) (p' : ReplayPass) : Prop where
  total : p'.report.total + todo.countP (fun s => (firstRow s.rowBlob).isNone) =
    p.report.total + todo.length
  settled : ∀ earlier s later, todo = earlier ++ s :: later →
    Settled sc applies p.failedKeys earlier s db'
  others : ∀ s ∈ db.pending, s.id ∉ todo.map Stashed.id → s ∈ db'.pending
  pending : db'.pending ⊆ db.pending
  applied : db.applied ⊆ db'.applied

/-- The candidate `s` before the candidates `todo`. -/
theorem Passed.cons {fate : Fate} {crr : CrrCache} {failed : List RowKey}
    (h : Passed sc applies todo (db.settle s.id fate) ⟨rest, crr, failed, p.report.count fate⟩
      db' p')
    (hs : s ∈ db.pending) (hhead : s.id ∉ todo.map Stashed.id)
    (hfailed : ∀ key, key ∈ failed ↔ key ∈ p.failedKeys ∨ Fails sc applies s key)
    (hdropped : fate = .dropped ↔ firstRow s.rowBlob = none)
    (hreplayed : ∀ r, firstRow s.rowBlob = some r →
      (fate = .replayed ↔ sc.ready r.table r.cid = true ∧ r.key ∉ p.failedKeys ∧
        applies s.id = true)) : Passed sc applies (s :: todo) db p db' p' := by
  have hgone : fate = .dropped ∨ fate = .replayed → s.id ∉ db'.pending.map Stashed.id := by
    intro hfate hin
    obtain ⟨u, hu, heq⟩ := List.mem_map.mp hin
    obtain ⟨hd, hr⟩ := (mem_settle.mp (h.pending hu)).2 heq
    exact hfate.elim hd hr
  refine ⟨?_, ?_, ?_, ?_, ?_⟩
  · have htotal := h.total
    simp only [count_total] at htotal
    rw [List.countP_cons, List.length_cons]
    cases hfirst : firstRow s.rowBlob with
    | none =>
      rw [if_pos (hdropped.mpr hfirst)] at htotal
      simp only [Option.isNone_none, if_true]
      omega
    | some r =>
      rw [if_neg (fun heq => by simp [hdropped.mp heq] at hfirst)] at htotal
      simp only [Option.isNone_some, Bool.false_eq_true, if_false]
      omega
  · intro earlier u later hsplit
    cases earlier with
    | nil =>
      obtain ⟨rfl, rfl⟩ := List.cons.inj hsplit
      refine ⟨fun hfirst => hgone (Or.inl (hdropped.mpr hfirst)),
        fun r hr hready hkey _ ha => ?_, fun r hr hwhy => h.others s (mem_settle.mpr ⟨hs, ?_⟩) hhead⟩
      · have heq := (hreplayed r hr).mpr ⟨hready, hkey, ha⟩
        refine ⟨hgone (Or.inr heq), h.applied ?_⟩
        rw [heq]
        exact mem_settle_applied hs
      · refine fun _ => ⟨fun heq => ?_, fun heq => ?_⟩
        · rw [hdropped.mp heq] at hr
          cases hr
        · obtain ⟨hready, hkey, ha⟩ := (hreplayed r hr).mp heq
          simp [hready, hkey, ha] at hwhy
    | cons v earlier =>
      rw [List.cons_append] at hsplit
      obtain ⟨rfl, htail⟩ := List.cons.inj hsplit
      have hu := h.settled earlier u later htail
      refine ⟨hu.dropped, fun r hr hready hkey hno ha => ?_, fun r hr hwhy => hu.kept r hr ?_⟩
      · have hnew : r.key ∉ failed := by
          rw [hfailed, not_or]
          exact ⟨hkey, hno s List.mem_cons_self⟩
        exact hu.applied r hr hready hnew (fun x hx => hno x (List.mem_cons_of_mem _ hx)) ha
      · obtain hready | hkey | ⟨x, hx, hfails⟩ | ha := hwhy
        · exact Or.inl hready
        · exact Or.inr (Or.inl ((hfailed _).mpr (Or.inl hkey)))
        · obtain rfl | hx := List.mem_cons.mp hx
          · exact Or.inr (Or.inl ((hfailed _).mpr (Or.inr hfails)))
          · exact Or.inr (Or.inr (Or.inl ⟨x, hx, hfails⟩))
        · exact Or.inr (Or.inr (Or.inr ha))
  · intro u hu hnot
    rw [List.map_cons, List.mem_cons, not_or] at hnot
    exact h.others u (mem_settle.mpr ⟨hu, fun heq => absurd heq hnot.1⟩) hnot.2
  · exact fun u hu => (mem_settle.mp (h.pending hu)).1
  · exact fun n hn => h.applied (settle_applied hn)

variable (sc applies faults db) in
/-- All that the next candidate can do: the pass stops at it, or goes on after it. -/
theorem replayFrom_cons (hc : p.crr.Agrees sc) (s : Stashed) (todo : List Stashed) :
    (replayFrom sc applies faults (candidates (s :: todo)) db p = (db, none) ∧
        (faults.row s.id = true ∨ ∀ cs, Changeset.decode s.rowBlob ≠ .ok cs)) ∨
      ∃ cs fate crr failed, Changeset.decode s.rowBlob = .ok cs ∧ CrrCache.Agrees sc crr ∧
        replayFrom sc applies faults (candidates (s :: todo)) db p =
          replayFrom sc applies faults (candidates todo) (db.settle s.id fate)
            ⟨candidates todo, crr, failed, p.report.count fate⟩ ∧
        (∀ key, key ∈ failed ↔ key ∈ p.failedKeys ∨ Fails sc applies s key) ∧
        (fate = .dropped ↔ firstRow s.rowBlob = none) ∧
        ∀ r, firstRow s.rowBlob = some r →
          (fate = .replayed ↔ sc.ready r.table r.cid = true ∧ r.key ∉ p.failedKeys ∧
            applies s.id = true) := by
  simp only [candidates, List.map_cons, replayFrom]
  split
  · rename_i hfault
    exact Or.inl ⟨rfl, Or.inl hfault⟩
  · cases hd : Changeset.decode s.rowBlob with
    | error e =>
      simp only [replayRow, hd]
      exact Or.inl ⟨trivial, Or.inr (by simp)⟩
    | ok cs =>
      obtain ⟨fate, crr, failed, hagrees, heq, hrest⟩ :=
        replayRow_decoded applies db (candidates todo) hc hd
      simp only [candidates] at heq
      rw [heq]
      exact Or.inr ⟨cs, fate, crr, failed, rfl, hagrees, rfl, hrest⟩

/-- A pass that ends has decoded and settled every candidate. -/
theorem replayFrom_passed (hc : p.crr.Agrees sc) (hmem : todo ⊆ db.pending)
    (hids : (todo.map Stashed.id).Nodup)
    (h : replayFrom sc applies faults (candidates todo) db p = (db', some p')) :
    Passed sc applies todo db p db' p' ∧ ∀ s ∈ todo, ∃ cs, Changeset.decode s.rowBlob = .ok cs := by
  induction todo generalizing db p with
  | nil =>
    cases h
    exact ⟨⟨rfl, by simp, fun s hs _ => hs, List.Subset.refl _, List.Subset.refl _⟩, by simp⟩
  | cons s todo ih =>
    obtain ⟨hstop, _⟩ | ⟨cs, fate, crr, failed, hd, hagrees, heq, hfailed, hdropped, hreplayed⟩ :=
      replayFrom_cons sc applies faults db hc s todo
    · rw [hstop] at h
      cases h
    · rw [heq] at h
      obtain ⟨hhead, hids⟩ := List.nodup_cons.mp hids
      have hne : ∀ u ∈ todo, u.id ≠ s.id := fun u hu heq =>
        hhead (heq ▸ List.mem_map_of_mem hu)
      have hkept : todo ⊆ (db.settle s.id fate).pending := fun u hu =>
        mem_settle.mpr ⟨hmem (List.mem_cons_of_mem _ hu), fun heq => absurd heq (hne u hu)⟩
      obtain ⟨hpassed, hdecoded⟩ := ih hagrees hkept hids h
      refine ⟨hpassed.cons (hmem List.mem_cons_self) hhead hfailed hdropped hreplayed, ?_⟩
      exact List.forall_mem_cons.mpr ⟨⟨cs, hd⟩, hdecoded⟩

/-- A pass stops only at a failing statement, or at a blob that does not decode. -/
theorem replayFrom_stops (hc : p.crr.Agrees sc)
    (h : replayFrom sc applies faults (candidates todo) db p = (db', none)) :
    ∃ s ∈ todo, faults.row s.id = true ∨ ∀ cs, Changeset.decode s.rowBlob ≠ .ok cs := by
  induction todo generalizing db p with
  | nil => cases h
  | cons s todo ih =>
    obtain ⟨_, hwhy⟩ | ⟨cs, fate, crr, failed, _, hagrees, heq, _⟩ :=
      replayFrom_cons sc applies faults db hc s todo
    · exact ⟨s, List.mem_cons_self, hwhy⟩
    · rw [heq] at h
      obtain ⟨u, hu, hwhy⟩ := ih hagrees h
      exact ⟨u, List.mem_cons_of_mem _ hu, hwhy⟩

/-- A pass is never wedged exactly when every stashed blob decodes: the first one that does not
stops it, and every later pass at the same row. -/
theorem neverWedges_iff (hids : db.pending.Pairwise (fun a b => a.id < b.id)) :
    NeverWedges sc applies db ↔
      ∀ s ∈ db.pending, ∃ cs, Changeset.decode s.rowBlob = .ok cs := by
  have hnodup : (db.pending.map Stashed.id).Nodup := by
    apply List.pairwise_map.mpr
    exact hids.imp (fun hlt => Nat.ne_of_lt hlt)
  have hagrees : (beginReplay db).crr.Agrees sc := CrrCache.agrees_nil
  have hpass : (beginReplay db).candidates = candidates db.pending := rfl
  constructor
  · intro h
    have hnone := (h ⟨false, fun _ => false, false⟩).1
    simp only [replayPending, Bool.false_eq_true, if_false, hpass, false_or, and_false,
      exists_false] at hnone
    split at hnone
    · exact absurd rfl hnone
    · rename_i heq
      exact (replayFrom_passed hagrees (List.Subset.refl _) hnodup heq).2
  · intro h faults
    simp only [replayPending, hpass]
    split
    · rename_i hread
      exact ⟨fun _ => Or.inl hread, (fun _ h => by cases h)⟩
    · split
      · rename_i heq
        refine ⟨fun _ => ?_, (fun _ h => by cases h)⟩
        obtain ⟨s, hs, hfault | hbad⟩ := replayFrom_stops hagrees heq
        · exact Or.inr (Or.inr ⟨s, hs, hfault⟩)
        · obtain ⟨cs, hd⟩ := h s hs
          exact absurd hd (hbad cs)
      · rename_i db' p' heq
        split
        · rename_i hpersist
          exact ⟨fun _ => Or.inr (Or.inl hpersist), (fun _ h => by cases h)⟩
        · refine ⟨(by rintro ⟨⟩), ?_⟩
          rintro report ⟨⟩
          obtain ⟨hpassed, _⟩ := replayFrom_passed hagrees (List.Subset.refl _) hnodup heq
          have htotal := hpassed.total
          refine ⟨by simpa [beginReplay, ReplayReport.total] using htotal, ?_⟩
          intro earlier s later hsplit
          have hs := hpassed.settled earlier s later hsplit
          exact ⟨hs.dropped, hs.applied, hs.kept⟩

/-- The stash of one delete, behind a blob. -/
def stashedBehind (blob : Bytes) : Inbox :=
  let r : ChangeRow := ⟨"notes", [1], sentinelCid, .null, 1, 1, some [1], 2, 0⟩
  { Inbox.empty with
    pending := [⟨1, "notes", sentinelCid, blob, 0⟩,
      ⟨2, "notes", sentinelCid, (Changeset.mk [r]).encode, 1⟩]
    nextId := 3
    arrived := [r, r] }

theorem neverWedges_empty_blob :
    NeverWedges ⟨["notes"], []⟩ (fun _ => true) (stashedBehind (Changeset.mk []).encode) := by
  apply (neverWedges_iff (by decide)).mpr
  intro s hs
  simp only [stashedBehind, List.mem_cons, List.not_mem_nil, or_false] at hs
  obtain rfl | rfl := hs
  · exact ⟨⟨[]⟩, by decide +kernel⟩
  · exact ⟨_, decode_stored (by decide +kernel)⟩

theorem undecodable_blob_wedges_replay :
    ¬NeverWedges ⟨["notes"], []⟩ (fun _ => true) (stashedBehind [255]) := by
  intro h
  obtain hfault | hfault | ⟨s, _, hfault⟩ := (h ⟨false, fun _ => false, false⟩).1 rfl
  · cases hfault
  · cases hfault
  · cases hfault

end YapStack.Sync
