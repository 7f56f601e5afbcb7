import Mathlib.Data.List.Range
import Mathlib.Data.List.Perm.Basic
import YapStack.Foundation.Runs
import YapStack.Sync.Quarantine

namespace YapStack.Sync

/-- The pull inbox of a device with its open merge and its running replay pass. -/
structure Quarantine where
  schema : LocalSchema
  db : Inbox
  merge : Option MergeTx
  replay : Option ReplayPass

namespace Quarantine

inductive Event
  | beginMerge (cs : Changeset)
  | mergeRow (applies : Bool)
  | commitMerge
  | abortMerge
  | beginReplay
  | replayRow (applies : Bool)
  | endReplay
  | abortReplay
  | migrate (tables : List String) (cols : List (String × String))
  | crash

/-- A merge holds the write lock, so the writes of a replay pass wait for it. -/
def step (q : Quarantine) : Event → Option Quarantine
  | .beginMerge cs =>
    match q.merge with
    | some _ => none
    | none => some { q with merge := some (beginMerge q.schema q.db cs) }
  | .mergeRow applies =>
    match q.merge with
    | none => none
    | some m =>
      match m.rest with
      | [] => none
      | r :: rest =>
        some { q with merge := applyOrQuarantine q.schema { m with rest := rest } r applies }
  | .commitMerge =>
    match q.merge with
    | none => none
    | some m => if m.rest.isEmpty then some { q with db := m.work, merge := none } else none
  | .abortMerge => some { q with merge := none }
  | .beginReplay =>
    match q.replay with
    | some _ => none
    | none => some { q with replay := some (beginReplay q.db) }
  | .replayRow applies =>
    match q.merge, q.replay with
    | none, some p =>
      match p.candidates with
      | [] => none
      | c :: rest =>
        let out := replayRow q.schema q.db p c.1 c.2 rest applies
        some { q with db := out.1, replay := out.2 }
    | _, _ => none
  | .endReplay =>
    match q.merge, q.replay with
    | none, some p =>
      if p.candidates.isEmpty then
        some { q with db := persistReplayOutcome q.db p.report, replay := none }
      else none
    | _, _ => none
  | .abortReplay => some { q with replay := none }
  | .migrate tables cols =>
    if q.merge.isNone && q.replay.isNone then some { q with schema := q.schema.add tables cols }
    else none
  | .crash => some { q with merge := none, replay := none }

def init (schema : LocalSchema) : Quarantine := ⟨schema, Inbox.empty, none, none⟩

/-- The inbox as the open transaction sees it. -/
def inbox (q : Quarantine) : Inbox := (q.merge.map MergeTx.work).getD q.db

end Quarantine

/-- A stashed row holds the arrived row it stands for. -/
structure Stashed.Holds (s : Stashed) (r : ChangeRow) : Prop where
  tbl : s.tbl = r.table
  cid : s.cid = r.cid
  decodes : Changeset.decode s.rowBlob = .ok ⟨[r]⟩

/-- Every arrived row is in exactly one of applied and stashed, and the stash
lists its rows in arrival order. -/
structure Inbox.Sound (i : Inbox) : Prop where
  ordered : i.pending.Pairwise (fun a b => a.id < b.id ∧ a.arrival < b.arrival)
  fresh : ∀ s ∈ i.pending, s.id < i.nextId
  exact : (i.applied ++ i.pending.map Stashed.arrival).Perm (List.range i.arrived.length)
  holds : ∀ s ∈ i.pending, ∃ r, i.arrived[s.arrival]? = some r ∧ s.Holds r

/-- What the merge's barrier must cover: every stashed row that is ready and
shares its key with a row still to come. -/
structure MergeTx.Sound (sc : LocalSchema) (db : Inbox) (m : MergeTx) : Prop where
  work : m.work.Sound
  crr : m.crr.Agrees sc
  barrier : ∀ r ∈ m.rest, ∀ s ∈ m.work.pending, ∀ a, s.Holds a → a.key = r.key →
    sc.ready a.table a.cid = true → r.key ∈ m.stashedReady
  extends_db : ∃ new, m.work.pending = db.pending ++ new ∧ ∀ s ∈ new, db.nextId ≤ s.id
  nextId : db.nextId ≤ m.work.nextId
  taken : ∃ done, m.work.arrived = db.arrived ++ done ∧ done ++ m.rest = m.cs.rows
  applied : ∀ n ∈ db.applied, n ∈ m.work.applied

/-- A ready stashed row is still to be tried, or its key has failed in this
pass, or it arrived after every row still to be tried. -/
structure ReplayPass.Sound (sc : LocalSchema) (db : Inbox) (p : ReplayPass) : Prop where
  crr : p.crr.Agrees sc
  sorted : p.candidates.Pairwise (fun a b => a.1 < b.1)
  stashed : ∀ c ∈ p.candidates, ∃ s ∈ db.pending, s.id = c.1 ∧ s.rowBlob = c.2
  tried : ∀ s ∈ db.pending, ∀ r, s.Holds r → sc.ready r.table r.cid = true →
    (s.id, s.rowBlob) ∈ p.candidates ∨ r.key ∈ p.failedKeys ∨ ∀ c ∈ p.candidates, c.1 < s.id

structure Quarantine.Sound (q : Quarantine) : Prop where
  db : q.db.Sound
  merge : ∀ m, q.merge = some m → m.Sound q.schema q.db
  replay : ∀ p, q.replay = some p → p.Sound q.schema q.db

variable {sc : LocalSchema} {i db : Inbox} {r a : ChangeRow} {s : Stashed}

theorem Stashed.Holds.firstRow (h : s.Holds r) : firstRow s.rowBlob = some r := by
  simp [Sync.firstRow, h.decodes, Except.toOption]

theorem Stashed.Holds.unique (h : s.Holds r) (h' : s.Holds a) : a = r := by
  have heq := h'.decodes.symm.trans h.decodes
  cases heq
  rfl

theorem Inbox.sound_empty : Inbox.empty.Sound :=
  ⟨List.Pairwise.nil, (fun _ h => by cases h), List.Perm.refl _, (fun _ h => by cases h)⟩

theorem Inbox.Sound.arrival_lt (h : i.Sound) (hs : s ∈ i.pending) :
    s.arrival < i.arrived.length := by
  obtain ⟨r, hr, _⟩ := h.holds s hs
  exact (List.getElem?_eq_some_iff.mp hr).1

theorem Inbox.Sound.order (h : i.Sound) {u v : Stashed} (hu : u ∈ i.pending)
    (hv : v ∈ i.pending) : u = v ∨ (u.id < v.id ∧ u.arrival < v.arrival) ∨
      (v.id < u.id ∧ v.arrival < u.arrival) := by
  obtain ⟨as, bs, hsplit⟩ := List.append_of_mem hv
  have hord := h.ordered
  rw [hsplit] at hu hord
  obtain ⟨_, hright, hleft⟩ := List.pairwise_append.mp hord
  obtain hu | hu := List.mem_append.mp hu
  · exact Or.inr (Or.inl (hleft u hu v List.mem_cons_self))
  · obtain rfl | hu := List.mem_cons.mp hu
    · exact Or.inl rfl
    · exact Or.inr (Or.inr ((List.pairwise_cons.mp hright).1 u hu))

theorem Inbox.Sound.arrivals_perm_concat (h : i.Sound) :
    ((i.applied ++ i.pending.map Stashed.arrival) ++ [i.arrived.length]).Perm
      (List.range (i.arrived ++ [r]).length) := by
  rw [List.length_append, List.length_singleton, List.range_succ]
  exact h.exact.append_right _

theorem Inbox.Sound.holds_concat (h : i.Sound) (hs : s ∈ i.pending) :
    ∃ a, (i.arrived ++ [r])[s.arrival]? = some a ∧ s.Holds a := by
  obtain ⟨a, ha, hh⟩ := h.holds s hs
  refine ⟨a, ?_, hh⟩
  rw [List.getElem?_append_left (h.arrival_lt hs), ha]

theorem Inbox.Sound.apply (h : i.Sound) (r : ChangeRow) : (i.apply r).Sound := by
  refine ⟨h.ordered, h.fresh, ?_, fun s hs => h.holds_concat hs⟩
  refine List.Perm.trans ?_ h.arrivals_perm_concat
  simp only [Inbox.apply, List.append_assoc]
  exact List.Perm.append_left _ List.perm_append_comm

theorem stash_some {j : Inbox} (h : stash i r = some j) :
    ∃ s, s.Holds r ∧ s.id = i.nextId ∧ s.arrival = i.arrived.length ∧
      j = { i with pending := i.pending ++ [s], nextId := i.nextId + 1, arrived := i.arrived ++ [r] } := by
  simp only [stash] at h
  split at h
  · rename_i hlen
    cases h
    exact ⟨_, ⟨rfl, rfl, decode_stored hlen⟩, rfl, rfl, rfl⟩
  · cases h

theorem Inbox.Sound.stash {j : Inbox} (h : i.Sound) (hj : Sync.stash i r = some j) : j.Sound := by
  obtain ⟨s, hholds, hid, harr, rfl⟩ := stash_some hj
  refine ⟨?_, ?_, ?_, ?_⟩
  · refine List.pairwise_append.mpr ⟨h.ordered, List.pairwise_singleton _ _, fun u hu v hv => ?_⟩
    rw [List.mem_singleton.mp hv, hid, harr]
    exact ⟨h.fresh u hu, h.arrival_lt hu⟩
  · intro u hu
    obtain hu | hu := List.mem_append.mp hu
    · have hlt := h.fresh u hu
      simp only
      omega
    · rw [List.mem_singleton.mp hu, hid]
      exact Nat.lt_succ_self _
  · simp only [List.map_append, List.map_cons, List.map_nil, harr, ← List.append_assoc]
    exact h.arrivals_perm_concat
  · intro u hu
    obtain hu | hu := List.mem_append.mp hu
    · exact h.holds_concat hu
    · rw [List.mem_singleton.mp hu, harr]
      exact ⟨r, by simp, hholds⟩

theorem Inbox.Sound.applyPending (h : db.Sound) (id : Nat) : (applyPending db id).Sound := by
  refine ⟨h.ordered.sublist List.filter_sublist, ?_, ?_, ?_⟩
  · exact fun s hs => h.fresh s (List.mem_of_mem_filter hs)
  · refine List.Perm.trans ?_ h.exact
    simp only [Sync.applyPending, deletePending, List.append_assoc, ← List.map_append]
    have hsplit := List.filter_append_perm (fun s : Stashed => decide (s.id = id)) db.pending
    simp only [← decide_not] at hsplit
    exact List.Perm.append_left _ (hsplit.map _)
  · exact fun s hs => h.holds s (List.mem_of_mem_filter hs)

/-- All that taking in one row can do: it is stashed, behind its key or not ready, or
it is applied and nothing holds its key. -/
theorem applyOrQuarantine_cases {m m' : MergeTx} {applies : Bool} (hc : m.crr.Agrees sc)
    (h : applyOrQuarantine sc m r applies = some m') : ∃ crr n, CrrCache.Agrees sc crr ∧
      ((∃ j, stash m.work r = some j ∧
          (r.key ∈ m.stashedReady ∨ sc.ready r.table r.cid = false) ∧
          m' = { m with work := j, crr := crr, quarantined := n }) ∨
        (r.key ∉ m.stashedReady ∧ sc.ready r.table r.cid = true ∧
          m' = { m with work := m.work.apply r, crr := crr, applied := n })) := by
  have hready := isDeferrable_fst hc r
  have hagrees := isDeferrable_agrees hc r
  simp only [applyOrQuarantine] at h
  by_cases hb : r.key ∈ m.stashedReady
  · have hne : m.stashedReady ≠ [] := List.ne_nil_of_mem hb
    simp only [List.isEmpty_eq_false_iff.mpr hne, List.contains_iff_mem.mpr hb, Bool.not_false,
      Bool.and_self, if_pos, Option.map_eq_some_iff] at h
    obtain ⟨j, hj, rfl⟩ := h
    exact ⟨m.crr, _, hc, Or.inl ⟨j, hj, Or.inl hb, rfl⟩⟩
  · have hnot : m.stashedReady.contains r.key = false := by simpa using hb
    simp only [hnot, Bool.and_false, Bool.false_eq_true, if_false, hready] at h
    split at h
    · rename_i hd
      obtain ⟨j, hj, rfl⟩ := Option.map_eq_some_iff.mp h
      exact ⟨_, _, hagrees, Or.inl ⟨j, hj, Or.inr (by simpa using hd), rfl⟩⟩
    · rename_i hd
      split at h <;> cases h
      exact ⟨_, _, hagrees, Or.inr ⟨hb, by simpa using hd, rfl⟩⟩

variable (db) in
/-- All that one candidate can do: it stays, because it is not ready or its key has
failed in this pass, or it is applied. -/
theorem replayRow_cases {p : ReplayPass} {id : Nat} {blob : Bytes} {rest : List (Nat × Bytes)}
    {applies : Bool} (hc : p.crr.Agrees sc) (hd : Changeset.decode blob = .ok ⟨[r]⟩) :
    ∃ crr failed report, CrrCache.Agrees sc crr ∧ p.failedKeys ⊆ failed ∧
      (((r.key ∈ failed ∨ sc.ready r.table r.cid = false) ∧
          replayRow sc db p id blob rest applies = (db, some ⟨rest, crr, failed, report⟩)) ∨
        (r.key ∉ p.failedKeys ∧ sc.ready r.table r.cid = true ∧
          replayRow sc db p id blob rest applies =
            (applyPending db id, some ⟨rest, crr, failed, report⟩))) := by
  have hready := isDeferrable_fst hc r
  have hagrees := isDeferrable_agrees hc r
  have hkeep : p.failedKeys ⊆ p.failedKeys := List.Subset.refl _
  simp only [replayRow, hd, List.head?_cons, hready]
  split
  · rename_i hb
    exact ⟨_, _, _, hc, hkeep, Or.inl ⟨Or.inl (List.contains_iff_mem.mp hb), rfl⟩⟩
  · rename_i hb
    have hb : r.key ∉ p.failedKeys := by simpa using hb
    split
    · rename_i hw
      exact ⟨_, _, _, hagrees, hkeep, Or.inl ⟨Or.inr (by simpa using hw), rfl⟩⟩
    · rename_i hw
      have hw : sc.ready r.table r.cid = true := by simpa using hw
      split
      · exact ⟨_, _, _, hagrees, hkeep, Or.inr ⟨hb, hw, rfl⟩⟩
      · exact ⟨_, _, _, hagrees, List.subset_cons_self _ _,
          Or.inl ⟨Or.inl List.mem_cons_self, rfl⟩⟩

theorem beginMerge_sound (h : db.Sound) (cs : Changeset) : (beginMerge sc db cs).Sound sc db := by
  refine ⟨h, readyStashedKeys_agrees _ CrrCache.agrees_nil, ?_, ⟨[], by simp [beginMerge], (fun _ h => by cases h)⟩,
    Nat.le_refl _, ⟨[], by simp [beginMerge], rfl⟩, fun n hn => hn⟩
  intro r hr s hs a hh hk hready
  have htbl : s.tbl ∈ cs.tables := by
    rw [hh.tbl, show a.table = r.table from congrArg Prod.fst hk]
    exact mem_tables hr
  rw [← hh.tbl, ← hh.cid] at hready
  rw [← hk]
  exact mem_readyStashedKeys CrrCache.agrees_nil hs htbl hready hh.firstRow

theorem mergeRow_sound {m m' : MergeTx} {rest : List ChangeRow} {applies : Bool}
    (h : m.Sound sc db) (hrest : m.rest = r :: rest)
    (hm : applyOrQuarantine sc { m with rest := rest } r applies = some m') : m'.Sound sc db := by
  have hbarrier := h.barrier
  obtain ⟨new, hnew, hids⟩ := h.extends_db
  obtain ⟨done, hdone, hrows⟩ := h.taken
  rw [hrest] at hbarrier hrows
  have htaken : (done ++ [r]) ++ rest = m.cs.rows := by simpa using hrows
  obtain ⟨crr, n, hagrees, ⟨j, hj, hwhy, rfl⟩ | ⟨hkey, _, rfl⟩⟩ :=
    applyOrQuarantine_cases (m := { m with rest := rest }) h.crr hm
  · have hsound := h.work.stash hj
    obtain ⟨s, hs, hid, _, rfl⟩ := stash_some hj
    refine ⟨hsound, hagrees, ?_, ⟨new ++ [s], ?_, ?_⟩, ?_, ⟨done ++ [r], ?_, htaken⟩, h.applied⟩
    · intro b hb u hu a hh hk hready
      obtain hu | hu := List.mem_append.mp hu
      · exact hbarrier b (List.mem_cons_of_mem _ hb) u hu a hh hk hready
      · rw [List.mem_singleton.mp hu] at hh
        obtain rfl := hs.unique hh
        rw [hready] at hwhy
        obtain hwhy | hwhy := hwhy
        · exact hk ▸ hwhy
        · cases hwhy
    · simp only [hnew, List.append_assoc]
    · intro u hu
      obtain hu | hu := List.mem_append.mp hu
      · exact hids u hu
      · rw [List.mem_singleton.mp hu, hid]
        exact h.nextId
    · exact Nat.le_succ_of_le h.nextId
    · simp only [hdone, List.append_assoc]
  · refine ⟨h.work.apply r, hagrees, ?_, ⟨new, hnew, hids⟩, h.nextId,
      ⟨done ++ [r], ?_, htaken⟩, ?_⟩
    · exact fun b hb => hbarrier b (List.mem_cons_of_mem _ hb)
    · simp only [Inbox.apply, hdone, List.append_assoc]
    · exact fun n hn => List.mem_append_left _ (h.applied n hn)

theorem beginReplay_sound (h : db.Sound) : (beginReplay db).Sound sc db := by
  refine ⟨CrrCache.agrees_nil, ?_, ?_, ?_⟩
  · simp only [beginReplay, List.pairwise_map]
    exact h.ordered.imp (fun hab => hab.1)
  · intro c hc
    obtain ⟨s, hs, rfl⟩ := List.mem_map.mp hc
    exact ⟨s, hs, rfl, rfl⟩
  · exact fun s hs _ _ _ => Or.inl (List.mem_map_of_mem hs)

/-- A merge that commits beside a pass only adds rows behind its candidates. -/
theorem ReplayPass.Sound.commit {p : ReplayPass} {m : MergeTx} (h : p.Sound sc db)
    (hdb : db.Sound) (hm : m.Sound sc db) : p.Sound sc m.work := by
  obtain ⟨new, hnew, hids⟩ := hm.extends_db
  refine ⟨h.crr, h.sorted, ?_, ?_⟩
  · intro c hc
    obtain ⟨s, hs, hid, hblob⟩ := h.stashed c hc
    exact ⟨s, hnew ▸ List.mem_append_left _ hs, hid, hblob⟩
  · intro s hs r hh hready
    rw [hnew] at hs
    obtain hs | hs := List.mem_append.mp hs
    · exact h.tried s hs r hh hready
    · refine Or.inr (Or.inr (fun c hc => ?_))
      obtain ⟨u, hu, hid, _⟩ := h.stashed c hc
      have hlt := hdb.fresh u hu
      have hge := hids s hs
      omega

theorem ReplayPass.Sound.skip {p : ReplayPass} {rest : List (Nat × Bytes)} {id : Nat}
    {cache : CrrCache} {failed : List RowKey} {report : ReplayReport} (h : p.Sound sc db)
    (hdb : db.Sound) (hcand : p.candidates = (id, s.rowBlob) :: rest) (hs : s ∈ db.pending)
    (hid : s.id = id) (hr : s.Holds r) (hc : cache.Agrees sc) (hf : p.failedKeys ⊆ failed)
    (hwhy : r.key ∈ failed ∨ sc.ready r.table r.cid = false) :
    ReplayPass.Sound sc db ⟨rest, cache, failed, report⟩ := by
  obtain ⟨hhead, hsorted⟩ := List.pairwise_cons.mp (hcand ▸ h.sorted)
  refine ⟨hc, hsorted, ?_, ?_⟩
  · exact fun c hm => h.stashed c (hcand ▸ List.mem_cons_of_mem _ hm)
  · intro u hu a hh hready
    obtain hm | hm | hm := h.tried u hu a hh hready
    · rw [hcand] at hm
      obtain hm | hm := List.mem_cons.mp hm
      · have hid' : u.id = id := congrArg Prod.fst hm
        obtain rfl | hlt | hlt := hdb.order hu hs
        · obtain rfl := hr.unique hh
          rw [hready] at hwhy
          obtain hwhy | hwhy := hwhy
          · exact Or.inr (Or.inl hwhy)
          · cases hwhy
        · omega
        · omega
      · exact Or.inl hm
    · exact Or.inr (Or.inl (hf hm))
    · exact Or.inr (Or.inr (fun c hcm => hm c (hcand ▸ List.mem_cons_of_mem _ hcm)))

theorem ReplayPass.Sound.land {p : ReplayPass} {rest : List (Nat × Bytes)} {id : Nat}
    {blob : Bytes} {cache : CrrCache} {failed : List RowKey} {report : ReplayReport}
    (h : p.Sound sc db) (hcand : p.candidates = (id, blob) :: rest) (hc : cache.Agrees sc)
    (hf : p.failedKeys ⊆ failed) :
    ReplayPass.Sound sc (applyPending db id) ⟨rest, cache, failed, report⟩ := by
  obtain ⟨hhead, hsorted⟩ := List.pairwise_cons.mp (hcand ▸ h.sorted)
  refine ⟨hc, hsorted, ?_, ?_⟩
  · intro c hm
    obtain ⟨s, hs, hid, hblob⟩ := h.stashed c (hcand ▸ List.mem_cons_of_mem _ hm)
    have hlt : id < c.1 := hhead c hm
    refine ⟨s, List.mem_filter.mpr ⟨hs, ?_⟩, hid, hblob⟩
    simp only [decide_eq_true_eq]
    omega
  · intro u hu a hh hready
    obtain ⟨hu, hne⟩ := List.mem_filter.mp hu
    simp only [decide_eq_true_eq] at hne
    obtain hm | hm | hm := h.tried u hu a hh hready
    · rw [hcand] at hm
      obtain hm | hm := List.mem_cons.mp hm
      · exact absurd (congrArg Prod.fst hm) hne
      · exact Or.inl hm
    · exact Or.inr (Or.inl (hf hm))
    · exact Or.inr (Or.inr (fun c hcm => hm c (hcand ▸ List.mem_cons_of_mem _ hcm)))

/-- When a candidate applies, no ready row of its key that arrived before it is left. -/
theorem ReplayPass.Sound.first {p : ReplayPass} {rest : List (Nat × Bytes)} {id : Nat} {blob : Bytes}
    (h : p.Sound sc db) (hdb : db.Sound) (hcand : p.candidates = (id, blob) :: rest)
    (hs : s ∈ db.pending) (hid : s.id = id) (hkey : r.key ∉ p.failedKeys) {u : Stashed}
    (hu : u ∈ db.pending) (hlt : u.arrival < s.arrival) (hh : u.Holds a) (hk : a.key = r.key) :
    sc.ready a.table a.cid = false := by
  by_contra hready
  rw [Bool.not_eq_false] at hready
  have hids : u.id < id := by
    obtain rfl | hlt' | hlt' := hdb.order hu hs <;> omega
  obtain ⟨hhead, _⟩ := List.pairwise_cons.mp (hcand ▸ h.sorted)
  obtain hm | hm | hm := h.tried u hu a hh hready
  · rw [hcand] at hm
    obtain hm | hm := List.mem_cons.mp hm
    · have heq : u.id = id := congrArg Prod.fst hm
      omega
    · have hgt : id < u.id := hhead _ hm
      omega
  · exact hkey (hk ▸ hm)
  · have hgt : id < u.id := hm (id, blob) (hcand ▸ List.mem_cons_self)
    omega

theorem applyPending_keeps {id : Nat} (hs : s ∈ db.pending) :
    s ∈ (applyPending db id).pending ∨ s.arrival ∈ (applyPending db id).applied := by
  by_cases hid : s.id = id
  · have hmem : s ∈ db.pending.filter (fun u => u.id = id) := by simp [hs, hid]
    exact Or.inr (List.mem_append_right _ (List.mem_map_of_mem hmem))
  · exact Or.inl (List.mem_filter.mpr ⟨hs, by simpa using hid⟩)

/-- What a step does to the committed stash and to the arrived rows. -/
structure Keeps (db t : Inbox) : Prop where
  pending : ∀ s ∈ db.pending, s ∈ t.pending ∨ s.arrival ∈ t.applied
  arrived : ∃ done, t.arrived = db.arrived ++ done

theorem Keeps.refl (db : Inbox) : Keeps db db :=
  ⟨fun s hs => Or.inl hs, ⟨[], by simp⟩⟩

theorem MergeTx.Sound.keeps {m : MergeTx} (h : m.Sound sc db) : Keeps db m.work := by
  obtain ⟨new, hnew, _⟩ := h.extends_db
  obtain ⟨done, hdone, _⟩ := h.taken
  exact ⟨fun s hs => Or.inl (hnew ▸ List.mem_append_left _ hs), ⟨done, hdone⟩⟩

namespace Quarantine

variable {q t : Quarantine} {schema : LocalSchema} {e : Event}

/-- All that a pass does with one candidate: it stays, or it applies and leaves the stash. -/
theorem replayRow_step {applies : Bool} (h : q.Sound) (hst : step q (.replayRow applies) = some t) :
    q.merge = none ∧ ∃ p', (t = { q with replay := some p' } ∧ p'.Sound q.schema q.db) ∨
      ∃ p rest s r, q.replay = some p ∧ p.candidates = (s.id, s.rowBlob) :: rest ∧
        s ∈ q.db.pending ∧ s.Holds r ∧ r.key ∉ p.failedKeys ∧
        t = { q with db := applyPending q.db s.id, replay := some p' } ∧
        p'.Sound q.schema (applyPending q.db s.id) := by
  simp only [step] at hst
  split at hst
  · rename_i p hm hp
    split at hst
    · cases hst
    · rename_i c rest hcand
      have hpass := h.replay p hp
      obtain ⟨s, hs, hid, hblob⟩ := hpass.stashed c (hcand ▸ List.mem_cons_self)
      obtain ⟨r, _, hholds⟩ := h.db.holds s hs
      obtain ⟨id, blob⟩ := c
      obtain rfl : s.id = id := hid
      obtain rfl : s.rowBlob = blob := hblob
      obtain ⟨cache, failed, report, hc, hf, ⟨hwhy, hout⟩ | ⟨hkey, _, hout⟩⟩ :=
        replayRow_cases q.db hpass.crr hholds.decodes
      all_goals
        rw [hout] at hst
        cases hst
        refine ⟨hm, ⟨rest, cache, failed, report⟩, ?_⟩
      · exact Or.inl ⟨rfl, hpass.skip h.db hcand hs rfl hholds hc hf hwhy⟩
      · exact Or.inr ⟨p, rest, s, r, hp, hcand, hs, hholds, hkey, rfl, hpass.land hcand hc hf⟩
  · cases hst

theorem sound_init : (init schema).Sound :=
  ⟨Inbox.sound_empty, (fun _ h => by cases h), (fun _ h => by cases h)⟩

theorem step_sound (h : q.Sound) (hst : step q e = some t) : t.Sound := by
  cases e with
  | beginMerge cs =>
    simp only [step] at hst
    split at hst <;> cases hst
    refine ⟨h.db, fun m hm => ?_, h.replay⟩
    cases hm
    exact beginMerge_sound h.db cs
  | mergeRow applies =>
    simp only [step] at hst
    split at hst
    · cases hst
    · rename_i m hm
      split at hst <;> cases hst
      rename_i r rest hrest
      exact ⟨h.db, fun m' hm' => mergeRow_sound (h.merge m hm) hrest hm', h.replay⟩
  | commitMerge =>
    simp only [step] at hst
    split at hst
    · cases hst
    · rename_i m hm
      split at hst <;> cases hst
      have hsound := h.merge m hm
      exact ⟨hsound.work, (fun _ h => by cases h), fun p hp => (h.replay p hp).commit h.db hsound⟩
  | abortMerge =>
    cases hst
    exact ⟨h.db, (fun _ h => by cases h), h.replay⟩
  | beginReplay =>
    simp only [step] at hst
    split at hst <;> cases hst
    refine ⟨h.db, h.merge, fun p hp => ?_⟩
    cases hp
    exact beginReplay_sound h.db
  | replayRow applies =>
    obtain ⟨hm, p', ⟨rfl, hp'⟩ | ⟨p, rest, s, r, hp, hcand, hs, hh, hkey, rfl, hp'⟩⟩ :=
      replayRow_step h hst
    · refine ⟨h.db, h.merge, fun p hp => ?_⟩
      cases hp
      exact hp'
    · refine ⟨h.db.applyPending s.id, fun m hm' => ?_, fun p hp => ?_⟩
      · cases hm.symm.trans hm'
      · cases hp
        exact hp'
  | endReplay =>
    simp only [step] at hst
    split at hst
    · rename_i hm hp
      split at hst <;> cases hst
      refine ⟨⟨h.db.ordered, h.db.fresh, h.db.exact, h.db.holds⟩, fun m hm' => ?_, (fun _ h => by cases h)⟩
      cases hm.symm.trans hm'
    · cases hst
  | abortReplay =>
    cases hst
    exact ⟨h.db, h.merge, (fun _ h => by cases h)⟩
  | migrate tables cols =>
    simp only [step] at hst
    split at hst <;> cases hst
    rename_i hnone
    simp only [Bool.and_eq_true, Option.isNone_iff_eq_none] at hnone
    refine ⟨h.db, fun m hm => ?_, fun p hp => ?_⟩
    · cases hnone.1.symm.trans hm
    · cases hnone.2.symm.trans hp
  | crash =>
    cases hst
    exact ⟨h.db, (fun _ h => by cases h), (fun _ h => by cases h)⟩

/-- A row that this step applies finds no stashed row of its key that arrived
before it and is ready. -/
def LandsInOrder (q : Quarantine) (_ : Event) (t : Quarantine) : Prop :=
  ∀ n ∈ t.inbox.applied, n ∉ q.inbox.applied → ∀ s ∈ q.inbox.pending, s.arrival < n →
    ∀ a b, t.inbox.arrived[s.arrival]? = some a → t.inbox.arrived[n]? = some b → a.key = b.key →
      q.schema.ready a.table a.cid = false

/-- Every arrived row is exactly once among the applied and the stashed rows,
and a stashed row is stored as it arrived. -/
structure Accounted (i : Inbox) : Prop where
  exact : (i.applied ++ i.pending.map Stashed.arrival).Perm (List.range i.arrived.length)
  holds : ∀ s ∈ i.pending, ∃ r, i.arrived[s.arrival]? = some r ∧ s.Holds r

theorem inbox_of_none (hm : q.merge = none) : q.inbox = q.db := by
  simp [inbox, hm]

theorem inbox_of_some {m : MergeTx} (hm : q.merge = some m) : q.inbox = m.work := by
  simp [inbox, hm]

theorem Sound.inbox (h : q.Sound) : q.inbox.Sound := by
  cases hm : q.merge with
  | none => exact inbox_of_none hm ▸ h.db
  | some m => exact inbox_of_some hm ▸ (h.merge m hm).work

theorem Sound.accounted (h : q.Sound) : Accounted q.db ∧ Accounted q.inbox :=
  ⟨⟨h.db.exact, h.db.holds⟩, ⟨h.inbox.exact, h.inbox.holds⟩⟩

theorem landsInOrder_of_applied (h : ∀ n ∈ t.inbox.applied, n ∈ q.inbox.applied) :
    LandsInOrder q e t :=
  fun n hn hnew => absurd (h n hn) hnew

theorem dropMerge_applied (h : q.Sound) : ∀ n ∈ q.db.applied, n ∈ q.inbox.applied := by
  intro n hn
  cases hm : q.merge with
  | none => rwa [inbox_of_none hm]
  | some m => exact inbox_of_some hm ▸ (h.merge m hm).applied n hn

theorem mergeRow_lands {applies : Bool} (h : q.Sound) (hst : step q (.mergeRow applies) = some t) :
    LandsInOrder q (.mergeRow applies) t := by
  simp only [step] at hst
  split at hst
  · cases hst
  · rename_i m hm
    split at hst
    · cases hst
    · rename_i r rest hrest
      have hsound := h.merge m hm
      cases hout : applyOrQuarantine q.schema { m with rest := rest } r applies with
      | none =>
        rw [hout] at hst
        cases hst
        exact landsInOrder_of_applied (dropMerge_applied h)
      | some m' =>
        rw [hout] at hst
        cases hst
        have hcases := applyOrQuarantine_cases (m := { m with rest := rest }) hsound.crr hout
        obtain ⟨cache, k, _, ⟨j, hj, _, rfl⟩ | ⟨hkey, _, rfl⟩⟩ := hcases
        · obtain ⟨s, _, _, _, rfl⟩ := stash_some hj
          exact landsInOrder_of_applied (fun n hn => inbox_of_some hm ▸ hn)
        · intro n hn hnew s hs hlt a b ha hb hk
          rw [inbox_of_some hm] at hnew hs
          have hn : n = m.work.arrived.length := by
            simpa [hnew] using List.mem_append.mp hn
          have hb : (m.work.arrived ++ [r])[n]? = some b := hb
          rw [hn, List.getElem?_concat_length, Option.some.injEq] at hb
          obtain ⟨a', ha', hh⟩ := hsound.work.holds_concat hs
          obtain rfl : a' = a := Option.some.inj (ha'.symm.trans ha)
          by_contra hready
          rw [Bool.not_eq_false] at hready
          exact hkey (hsound.barrier r (hrest ▸ List.mem_cons_self) s hs a' hh (hb ▸ hk) hready)

theorem replayRow_lands {applies : Bool} (h : q.Sound)
    (hst : step q (.replayRow applies) = some t) : LandsInOrder q (.replayRow applies) t := by
  obtain ⟨hm, p', ⟨rfl, _⟩ | ⟨p, rest, s, r, hp, hcand, hs, hh, hkey, rfl, _⟩⟩ :=
    replayRow_step h hst
  · exact landsInOrder_of_applied (fun n hn => hn)
  · intro n hn hnew u hu hlt a b ha hb hk
    simp only [inbox, hm, Option.map_none, Option.getD_none] at hn hnew hu ha hb
    obtain ⟨v, hv, rfl⟩ := List.mem_map.mp ((List.mem_append.mp hn).resolve_left hnew)
    obtain ⟨hv, hid⟩ := List.mem_filter.mp hv
    obtain rfl : v = s := by
      obtain heq | hlt | hlt := h.db.order hv hs
      · exact heq
      · simp only [decide_eq_true_eq] at hid
        omega
      · simp only [decide_eq_true_eq] at hid
        omega
    obtain ⟨b', hb', hhb⟩ := h.db.holds v hs
    obtain rfl : b' = b := Option.some.inj (hb'.symm.trans hb)
    obtain rfl := hh.unique hhb
    obtain ⟨a', ha', hha⟩ := h.db.holds u hu
    obtain rfl : a' = a := Option.some.inj (ha'.symm.trans ha)
    exact (h.replay p hp).first h.db hcand hs rfl hkey hu hlt hha hk

theorem step_lands (h : q.Sound) (hst : step q e = some t) : LandsInOrder q e t := by
  cases e with
  | mergeRow applies => exact mergeRow_lands h hst
  | replayRow applies => exact replayRow_lands h hst
  | beginMerge cs =>
    simp only [step] at hst
    split at hst <;> cases hst
    exact landsInOrder_of_applied (dropMerge_applied h)
  | commitMerge =>
    simp only [step] at hst
    split at hst
    · cases hst
    · rename_i m hm
      split at hst <;> cases hst
      exact landsInOrder_of_applied (fun n hn => inbox_of_some hm ▸ hn)
  | abortMerge =>
    cases hst
    exact landsInOrder_of_applied (dropMerge_applied h)
  | beginReplay =>
    simp only [step] at hst
    split at hst <;> cases hst
    exact landsInOrder_of_applied (fun n hn => hn)
  | endReplay =>
    simp only [step] at hst
    split at hst
    · rename_i hm hp
      split at hst <;> cases hst
      refine landsInOrder_of_applied (fun n hn => ?_)
      simp only [inbox, hm, Option.map_none, Option.getD_none] at hn ⊢
      exact hn
    · cases hst
  | abortReplay =>
    cases hst
    exact landsInOrder_of_applied (fun n hn => hn)
  | migrate tables cols =>
    simp only [step] at hst
    split at hst <;> cases hst
    exact landsInOrder_of_applied (fun n hn => hn)
  | crash =>
    cases hst
    exact landsInOrder_of_applied (dropMerge_applied h)

/-- A stashed row leaves the stash only by being applied. -/
theorem step_keeps (h : q.Sound) (hst : step q e = some t) : Keeps q.db t.db := by
  cases e with
  | beginMerge cs =>
    simp only [step] at hst
    split at hst <;> cases hst
    exact Keeps.refl q.db
  | mergeRow applies =>
    simp only [step] at hst
    split at hst
    · cases hst
    · split at hst <;> cases hst
      exact Keeps.refl q.db
  | commitMerge =>
    simp only [step] at hst
    split at hst
    · cases hst
    · rename_i m hm
      split at hst <;> cases hst
      exact (h.merge m hm).keeps
  | abortMerge =>
    cases hst
    exact Keeps.refl q.db
  | beginReplay =>
    simp only [step] at hst
    split at hst <;> cases hst
    exact Keeps.refl q.db
  | replayRow applies =>
    obtain ⟨_, p', ⟨rfl, _⟩ | ⟨p, rest, s, r, _, _, _, _, _, rfl, _⟩⟩ := replayRow_step h hst
    · exact Keeps.refl q.db
    · exact ⟨fun u hu => applyPending_keeps hu, ⟨[], by simp [applyPending, deletePending]⟩⟩
  | endReplay =>
    simp only [step] at hst
    split at hst
    · split at hst <;> cases hst
      exact ⟨fun s hs => Or.inl hs, ⟨[], by simp [persistReplayOutcome]⟩⟩
    · cases hst
  | abortReplay =>
    cases hst
    exact Keeps.refl q.db
  | migrate tables cols =>
    simp only [step] at hst
    split at hst <;> cases hst
    exact Keeps.refl q.db
  | crash =>
    cases hst
    exact Keeps.refl q.db

/-- Rows of one key land in arrival order, and none is lost or doubled: merges and
replay passes in any order, with any apply failures, crashes and migrations. -/
theorem rows_land_in_order (schema : LocalSchema) (events : List Event) :
    Runs.Along step (fun q e t => LandsInOrder q e t ∧ Accounted t.db ∧ Accounted t.inbox)
      (init schema) events := by
  refine Runs.along_of_invariant (I := Sound) (fun q e t h _ hst => step_sound h hst) ?_
    sound_init (Runs.along_true _ _)
  intro q e t h _ hst
  exact ⟨step_lands h hst, (step_sound h hst).accounted⟩

end Quarantine

end YapStack.Sync
