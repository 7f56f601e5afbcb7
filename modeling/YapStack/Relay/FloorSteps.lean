import YapStack.Relay.Floor

set_option linter.unusedSectionVars false

namespace YapStack.Relay.Tenant

open Capability Sequence Table

section Own

variable {Tx Client Hash : Type} [DecidableEq Tx] [DecidableEq Client] [DecidableEq Hash]
variable {s s' : State Tx Client Hash} {t u : Tx} {c : Call Client Hash} {l : Levels}
variable {p : Pc Client Hash} {w w' : Work Client Hash}

theorem statement_invariant (hi : FloorInvariant s) (hs : Statement s t p s')
    (hrise : Rising s'.floor t) (hc : s'.changesets.Every (fun r => r.declared ≤ inForce s.floor))
    (hsn : s'.snapshots.Every (fun r => r.declared ≤ inForce s.floor))
    (hd : DevicesAt s'.floor s'.devices t) (hl : FloorAt s'.floor s'.devices t p)
    (hp : Readable p) : FloorInvariant s' := by
  have hbase : inForce s'.floor = inForce s.floor := by
    simp only [inForce, hs.floor_touched.committed]
  have hother : ∀ u, u ≠ t → Undisturbed u s s' := fun u hne => hs.undisturbed hne
  refine ⟨fun u => ?_, hbase ▸ hc, hbase ▸ hsn, fun u => ?_, fun u => ?_, fun u => ?_⟩
  · by_cases hu : u = t
    · exact hu ▸ hrise
    · exact rising_of_isolated (hi.rising u) (hother u hu).floor
  · by_cases hu : u = t
    · exact hu ▸ hd
    · exact devicesAt_of_isolated (hi.devices u) (hother u hu).floor (hother u hu).devices
  · by_cases hu : u = t
    · subst u
      exact hs.pc_self.symm ▸ hl
    · rw [(hother u hu).pc]
      refine floorAt_of_isolated (hi.floors u) (hother u hu).floor (fun _ d => ?_)
      rw [hs.devices_touched.view_of_ne hu]
      exact Tame.refl _
  · by_cases hu : u = t
    · subst u
      exact hs.pc_self.symm ▸ hp
    · rw [(hother u hu).pc]
      exact hi.readable u

theorem read_invariant (hi : FloorInvariant s) (hl : FloorAt s.floor s.devices t p)
    (hp : Readable p) : FloorInvariant (s.goto t p) :=
  statement_invariant hi .read (hi.rising t) hi.changesets hi.snapshots (hi.devices t) hl hp

theorem floor_invariant {tb : Table Tx Unit Levels} (hi : FloorInvariant s)
    (ht : Touched t s.floor tb) (hr : Rising tb t) (hl : FloorAt tb s.devices t p)
    (hp : Readable p) : FloorInvariant ({ s with floor := tb }.goto t p) :=
  statement_invariant hi (.floor ht) hr hi.changesets hi.snapshots
    ((hi.devices t).imp (fun hh => ht.holds hh) (fun hd => hd)) hl hp

theorem devices_invariant {tb : Table Tx Client Device} (hi : FloorInvariant s)
    (ht : Touched t s.devices tb) (hh : s.floor.Holds t ()) (hl : FloorAt s.floor tb t p)
    (hp : Readable p) : FloorInvariant ({ s with devices := tb }.goto t p) :=
  statement_invariant hi (.devices ht) (hi.rising t) hi.changesets hi.snapshots (Or.inl hh) hl hp

theorem rising_of_pending {tb : Table Tx Unit Levels} (hi : FloorInvariant s)
    (hp : tb.pending = s.floor.pending) (hc : tb.committed = s.floor.committed) : Rising tb t := by
  intro v hv
  rw [hp] at hv
  simp only [inForce, hc]
  exact hi.rising t v hv

/-- A new version of the floor row that is not below the one in force. -/
theorem rising_write {tb : Table Tx Unit Levels} {r : Levels}
    (hw : s.floor.write t () (some r) = some tb) (hle : inForce s.floor ≤ r.required) :
    Rising tb t := by
  intro v hv
  rw [write_pending_self hw, Option.some.injEq] at hv
  simp only [inForce, write_committed hw] at hle ⊢
  exact ⟨r, hv.symm, hle⟩

theorem inForce_le_view (hi : FloorInvariant s) (hv : s.floor.view t () = some l) :
    inForce s.floor ≤ l.required := by
  cases hp : s.floor.pending t () with
  | none =>
    rw [view_of_pending_none hp] at hv
    simp only [inForce, hv, Option.map_some, Option.getD_some, Int.le_refl]
  | some v =>
    obtain ⟨r, rfl, hle⟩ := hi.rising t v hp
    rw [view_of_pending hp, Option.some.injEq] at hv
    exact hv ▸ hle

theorem checkCaller_invariant (hi : FloorInvariant s) (hpc : s.pc t = .caller c) :
    FloorInvariant (checkCaller s t c) := by
  have hl := hi.floors t
  rw [hpc] at hl
  unfold checkCaller
  split
  · exact read_invariant hi hl trivial
  · exact read_invariant hi trivial trivial

theorem bootstrapFloor_invariant (hi : FloorInvariant s) (hpc : s.pc t = .bootstrap c)
    (h : bootstrapFloor s t c = some s') : FloorInvariant s' := by
  have hn : s.floor.pending t () = none := by
    have hl := hi.floors t
    rwa [hpc] at hl
  obtain ⟨tb, b, hins, rfl⟩ := bootstrapFloor_cases h
  obtain ⟨_, rfl, _⟩ | ⟨_, hv, hw⟩ := insertIgnore_cases hins
  · exact floor_invariant hi .none (hi.rising t) (Or.inl hn) trivial
  · rw [view_of_pending_none hn] at hv
    have hle : inForce s.floor ≤ Levels.initial.required := by
      simp only [inForce, hv, Option.map_none, Option.getD_none]
      exact Int.le_refl 0
    refine floor_invariant hi (.row _ _ hw) (rising_write hw hle) (Or.inr ⟨?_, ?_⟩) trivial
    · exact write_pending_self hw
    · rw [write_committed hw, hv]

theorem lockFloor_invariant (hi : FloorInvariant s) (hpc : s.pc t = .lock c)
    (h : lockFloor s t c = some s') : FloorInvariant s' := by
  have hl := hi.floors t
  rw [hpc] at hl
  obtain ⟨tb, htb, hs⟩ := lockFloor_cases h
  have hlock : Touched t s.floor tb ∧ tb.pending = s.floor.pending ∧
      tb.committed = s.floor.committed ∧ tb.Holds t () ∧
      (c.op.exclusive = true → tb.owner () = some t) := by
    split at htb
    · exact ⟨.lock _ htb, lock_pending htb, lock_committed htb, Or.inl (lock_holds htb),
        fun _ => lock_holds htb⟩
    · rename_i hx
      exact ⟨.share _ htb, share_pending htb, share_committed htb, share_holds htb,
        fun he => absurd he hx⟩
  obtain ⟨ht, hp, hc, hh, hx⟩ := hlock
  have hr : Rising tb t := rising_of_pending hi hp hc
  obtain rfl | ⟨l, hv, rfl⟩ := hs
  · exact floor_invariant hi ht hr trivial trivial
  · refine floor_invariant hi ht hr ⟨hh, ?_, hx, trivial, trivial⟩ trivial
    obtain hn | ⟨hp', hc'⟩ := hl
    · rw [view_of_pending_none (by rw [hp, hn])] at hv
      simp only [inForce, hv, Option.map_some, Option.getD_some]
    · rw [view_of_pending (by rw [hp, hp']), Option.some.injEq] at hv
      simp only [inForce, hc, hc', ← hv, Levels.initial, Option.map_none, Option.getD_none]

/-- What a transaction under the floor lock knows, whatever it does next. -/
theorem holding_known (hi : FloorInvariant s) (hpc : s.pc t = .holding c l w) :
    s.floor.Holds t () ∧ inForce s.floor = l.required ∧
      (c.op.exclusive = true → s.floor.owner () = some t) ∧ Admitted c l w ∧
        Surveyed s.floor s.devices t c l w := by
  have hl := hi.floors t
  rwa [hpc] at hl

theorem holding_at (hi : FloorInvariant s) (hpc : s.pc t = .holding c l w)
    (ha : Admitted c l w') (hs : Surveyed s.floor s.devices t c l w') :
    FloorAt s.floor s.devices t (.holding c l w') := by
  obtain ⟨hh, hb, hx, _⟩ := holding_known hi hpc
  exact ⟨hh, hb, hx, ha, hs⟩

theorem readable_nil {o : Outcome Client Hash} (h : o.contents = []) :
    Readable (.holding c l (.ready o)) := by
  intro d hd
  rw [h] at hd
  cases hd

theorem admitContent_invariant {level : Int} (hi : FloorInvariant s)
    (hpc : s.pc t = .holding c l w) (ha : level ≤ l.required → Admitted c l w')
    (hs : Surveyed s.floor s.devices t c l w') (hp : Readable (.holding c l w')) :
    FloorInvariant (admitContent s t c l level w') := by
  obtain ⟨hle, heq⟩ | ⟨e, heq⟩ := admitContent_cases s t c l level w'
  · rw [heq]
    exact read_invariant hi (holding_at hi hpc (ha hle) hs) hp
  · rw [heq]
    exact read_invariant hi trivial trivial

theorem lockCaller_invariant (hi : FloorInvariant s) (hpc : s.pc t = .holding c l w)
    (ha : Admitted c l .recording) (h : lockCaller s t c l = some s') : FloorInvariant s' := by
  obtain ⟨hh, hb, hx, _⟩ := holding_known hi hpc
  obtain rfl | ⟨d, tb, hs, rfl | rfl⟩ := lockCaller_cases h
  · exact read_invariant hi trivial trivial
  · exact devices_invariant hi (.share d hs) hh trivial trivial
  · exact devices_invariant hi (.share d hs) hh ⟨hh, hb, hx, ha, trivial⟩ trivial

theorem afterLock_invariant (hi : FloorInvariant s) (hpc : s.pc t = .holding c l w)
    (h : afterLock s t c l = some s') : FloorInvariant s' := by
  have hnone : c.op.declared = none → Admitted c l .recording := by
    intro hd d hm
    rw [hd] at hm
    cases hm
  unfold afterLock at h
  split at h
  case h_4 target ho => exact lockCaller_invariant hi hpc (hnone (by rw [ho]; rfl)) h
  all_goals
    rename_i ho
    cases h
    try exact read_invariant hi (holding_at hi hpc (hnone (by rw [ho]; rfl)) trivial) trivial
  all_goals
    refine admitContent_invariant hi hpc (fun hle d hm => ?_) trivial trivial
    rw [ho] at hm
    cases hm
    exact hle

theorem recordLevel_invariant (hi : FloorInvariant s) (hpc : s.pc t = .holding c l .recording)
    (h : recordLevel s t c l = some s') : FloorInvariant s' := by
  obtain ⟨hh, hb, hx, ha, _⟩ := holding_known hi hpc
  obtain rfl | ⟨d, tb, hm, rfl⟩ := recordLevel_cases h
  · exact read_invariant hi (holding_at hi hpc ha trivial) trivial
  · exact devices_invariant hi (modify_touched hm) hh ⟨hh, hb, hx, ha, trivial⟩ trivial

theorem readPage_contents (hi : FloorInvariant s) (hb : inForce s.floor = l.required)
    (hle : l.required ≤ c.level) (since : Int) (limit : Option Int) :
    ∀ d ∈ (readPage s t l since limit : Answer Client Hash).contents, d ≤ c.level := by
  intro d hd
  simp only [readPage, Answer.contents, pullResponse, List.mem_map] at hd
  obtain ⟨⟨k, r⟩, hr, rfl⟩ := hd
  have hm := List.mem_of_mem_take hr
  simp only [readChanges, List.mem_filterMap, Option.map_eq_some_iff, Prod.mk.injEq] at hm
  obtain ⟨_, _, v, hv, rfl, rfl⟩ := hm
  have := hi.changesets.view hv
  simp only at this ⊢
  omega

theorem readLatest_readable (hi : FloorInvariant s) (hb : inForce s.floor = l.required)
    (hle : l.required ≤ c.level) : Readable (.holding c l (readLatest s t)) := by
  unfold readLatest
  split
  · exact readable_nil rfl
  · rename_i g r hg
    simp only [latestSnapshot, Option.bind_eq_some_iff, Option.map_eq_some_iff,
      Prod.mk.injEq] at hg
    obtain ⟨_, _, v, hv, _, rfl⟩ := hg
    have := hi.snapshots.view hv
    intro d hd
    simp only [Outcome.contents, List.mem_singleton] at hd
    omega

theorem gatedRead_invariant (hi : FloorInvariant s) (hpc : s.pc t = .holding c l .recorded)
    (hs : Surveyed s.floor s.devices t c l w) (ha : Admitted c l w)
    (hr : l.required ≤ c.level → Readable (.holding c l w)) :
    FloorInvariant (gatedRead s t c l w) := by
  unfold gatedRead
  split
  · exact read_invariant hi (holding_at hi hpc (holding_known hi hpc).2.2.2.1 trivial)
      (readable_nil rfl)
  · exact read_invariant hi (holding_at hi hpc ha hs) (hr (by omega))

theorem readLatest_surveyed (floor : Table Tx Unit Levels) (devices : Table Tx Client Device) :
    Surveyed floor devices t c l (readLatest s t) := by
  unfold readLatest
  split <;> trivial

theorem readLatest_admitted (h : ∀ d ∈ c.op.declared, d ≤ l.required) :
    Admitted c l (readLatest s t) := by
  unfold readLatest
  split <;> exact h

/-- No blocker at the scan: whoever is in the window and below is revoked. -/
theorem covered_of_scan {target : Int} (h : readBlockers s t c target = []) :
    Covered s.devices t c.now target
      (s.devices.scan t (fun _ d => d.status = Devices.Status.revoked)) := by
  intro d r hr hb
  refine mem_scan.mpr ⟨r, hr, ?_⟩
  by_contra hne
  have hblocks : blocks c.now target r = true := by
    simp only [decide_eq_true_eq] at hne
    simp [blocks, hne, hb]
  have hlen := congrArg List.length h
  rw [readBlockers, List.length_insertionSort, List.length_nil, List.length_eq_zero_iff] at hlen
  have hd := (mem_scan (p := fun _ d => blocks c.now target d)).mpr ⟨r, hr, hblocks⟩
  have := List.filterMap_eq_nil_iff.mp hlen d hd
  rw [hr] at this
  cases this

theorem scanDevices_invariant {target : Int} (hi : FloorInvariant s)
    (hpc : s.pc t = .holding c l .recorded) (ho : c.op = .raise target) :
    FloorInvariant (scanDevices s t c l target) := by
  have ha := (holding_known hi hpc).2.2.2.1
  have hop : ∀ target', c.op = .raise target' → target' = target := by
    intro target' ho'
    rw [ho, Op.raise.injEq] at ho'
    exact ho'.symm
  unfold scanDevices
  split
  · rename_i hle
    refine read_invariant hi (holding_at hi hpc ha ⟨rfl, fun target' ho' => ?_⟩) (readable_nil rfl)
    exact hop target' ho' ▸ hle
  · refine read_invariant hi (holding_at hi hpc ha (fun target' ho' hb => ?_)) trivial
    rw [hop target' ho']
    exact covered_of_scan hb

theorem afterRecord_invariant (hi : FloorInvariant s) (hpc : s.pc t = .holding c l .recorded)
    (h : afterRecord s t c l = some s') : FloorInvariant s' := by
  obtain ⟨_, hb, _, ha, _⟩ := holding_known hi hpc
  unfold afterRecord at h
  split at h
  · cases h
    exact gatedRead_invariant hi hpc trivial ha (fun hle => readPage_contents hi hb hle _ _)
  · cases h
    exact gatedRead_invariant hi hpc (readLatest_surveyed _ _) (readLatest_admitted ha)
      (readLatest_readable hi hb)
  · cases h
    unfold gateContent
    split
    · exact read_invariant hi (holding_at hi hpc ha trivial) (readable_nil rfl)
    · split
      · exact admitContent_invariant hi hpc (fun _ => ha) trivial (readable_nil rfl)
      · exact read_invariant hi trivial trivial
  · rename_i target ho
    cases h
    exact scanDevices_invariant hi hpc ho
  · cases h

theorem updateFloor_invariant {f : Levels → Levels} {v : Levels → Work Client Hash}
    (hi : FloorInvariant s) (hpc : s.pc t = .holding c l w) (ha : ∀ r, Admitted c l (v r))
    (hf : ∀ r, r.required ≤ (f r).required)
    (hs : ∀ tb r, tb.view t () = some (f r) → Surveyed tb s.devices t c l (v (f r)))
    (hp : ∀ r, Readable (.holding c l (v r))) (h : updateFloor s t c l f v = some s') :
    FloorInvariant s' := by
  obtain ⟨_, hb, _⟩ := holding_known hi hpc
  obtain rfl | ⟨cur, tb, hv, hw, rfl⟩ := updateFloor_cases h
  · exact read_invariant hi trivial trivial
  · have hle := Int.le_trans (inForce_le_view hi hv) (hf cur)
    refine floor_invariant hi (.row _ _ hw) (rising_write hw hle) ?_ (hp (f cur))
    have hbase : inForce tb = l.required := by
      simpa only [inForce, write_committed hw] using hb
    refine ⟨Or.inl (write_holds hw), hbase, fun _ => write_holds hw, ha (f cur), ?_⟩
    exact hs tb cur (view_of_pending (write_pending_self hw))

theorem decideRaise_invariant {target : Int} {blockers : List (CapabilityBlocker Client)}
    {revoked : List Client} (hi : FloorInvariant s) (ho : c.op = .raise target)
    (hpc : s.pc t = .holding c l (.scanned blockers revoked))
    (h : decideRaise s t c l target blockers revoked = some s') : FloorInvariant s' := by
  obtain ⟨_, _, _, ha, hs⟩ := holding_known hi hpc
  unfold decideRaise at h
  split at h
  · rename_i hb
    refine updateFloor_invariant (v := fun r => .raised r revoked) hi hpc (fun _ => ha)
      (fun r => ?_) (fun tb r hv => ?_) (fun _ => trivial) h
    · simp only [raiseRequired]
      omega
    · refine ⟨hv, fun target' ho' => ⟨?_, hs target' ho' hb⟩⟩
      rw [ho, Op.raise.injEq] at ho'
      simp only [raiseRequired]
      omega
  · exact updateFloor_invariant (f := raiseRequested target)
      (v := fun r => .ready (.answer (.error (.capabilityBlocked (blocked r blockers))))) hi hpc
      (fun _ => ha) (fun r => Int.le_refl _) (fun _ _ _ => trivial) (fun _ => readable_nil rfl) h

theorem afterAdmit_known (next : Metered Client) (h : ∀ d ∈ c.op.declared, d ≤ l.required)
    (floor : Table Tx Unit Levels) (devices : Table Tx Client Device) :
    Admitted c l (afterAdmit c next) ∧ Surveyed floor devices t c l (afterAdmit c next) ∧
      Readable (.holding c l (afterAdmit c next)) := by
  unfold afterAdmit
  split
  · exact ⟨h, trivial, trivial⟩
  · split
    · exact ⟨h, trivial, readable_nil rfl⟩
    · exact ⟨h, trivial, trivial⟩
  · exact ⟨h, trivial, trivial⟩

theorem admitBytes_invariant {next : Metered Client} {stage : Choke.Stage}
    (hi : FloorInvariant s) (hpc : s.pc t = .holding c l (.admitting next stage))
    (h : admitBytes s t c l next stage = some s') : FloorInvariant s' := by
  obtain ⟨_, _, _, ha, _⟩ := holding_known hi hpc
  obtain ⟨ha', hs', hp'⟩ := afterAdmit_known (t := t) next ha s.floor s.devices
  have husage : ∀ {tb : Table Tx Unit Choke.Usage} {p : Pc Client Hash}, Touched t s.usage tb →
      FloorAt s.floor s.devices t p → Readable p →
        FloorInvariant ({ s with usage := tb }.goto t p) := fun ht hl hp =>
    statement_invariant hi (.usage ht) (hi.rising t) hi.changesets hi.snapshots (hi.devices t) hl hp
  obtain ⟨tb, ht, ⟨stage', rfl⟩ | rfl | ⟨e, rfl⟩⟩ := admitBytes_cases h
  · exact husage ht (holding_at hi hpc ha trivial) trivial
  · exact husage ht (holding_at hi hpc ha' hs') hp'
  · exact husage ht trivial trivial

theorem seq_invariant {tb : Table Tx Unit Nat} (hi : FloorInvariant s) (ht : Touched t s.seq tb)
    (hl : FloorAt s.floor s.devices t p) (hp : Readable p) :
    FloorInvariant ({ s with seq := tb }.goto t p) :=
  statement_invariant hi (.seq ht) (hi.rising t) hi.changesets hi.snapshots (hi.devices t) hl hp

theorem resolve_invariant {changes : List (PushChange Client)} {next : Nat}
    (hi : FloorInvariant s) (hpc : s.pc t = .holding c l (.numbered next)) :
    FloorInvariant (resolve s t c l changes next) := by
  obtain ⟨_, _, _, ha, _⟩ := holding_known hi hpc
  unfold resolve
  split
  · exact read_invariant hi trivial trivial
  · split
    · exact read_invariant hi (holding_at hi hpc ha trivial) (readable_nil rfl)
    · exact read_invariant hi (holding_at hi hpc ha trivial) trivial

theorem insertChange_invariant {level : Int} {a : Assigned Client}
    {row : Nat × PushChange Client} {rest : List (Nat × PushChange Client)}
    (hi : FloorInvariant s) (hpc : s.pc t = .holding c l (.inserting a (row :: rest)))
    (hd : c.op.declared = some level) (h : insertChange s t c l level a row rest = some s') :
    FloorInvariant s' := by
  obtain ⟨_, hb, _, ha, _⟩ := holding_known hi hpc
  have hlevel : level ≤ l.required := ha level hd
  obtain rfl | ⟨tb, hw, rfl⟩ := insertChange_cases h
  · exact read_invariant hi trivial trivial
  · have hl : FloorAt s.floor s.devices t (.holding c l (.inserting a rest)) :=
      holding_at hi hpc ha trivial
    refine statement_invariant hi (.changesets (.row _ _ hw)) (hi.rising t) ?_ hi.snapshots
      (hi.devices t) hl trivial
    refine hi.changesets.write hw (fun r hr => ?_)
    rw [← Option.some.inj hr, hb]
    exact hlevel

theorem snapshots_invariant {tb : Table Tx Int (Snapshot Hash)} (hi : FloorInvariant s)
    (ht : Touched t s.snapshots tb) (hsn : tb.Every (fun r => r.declared ≤ inForce s.floor))
    (hl : FloorAt s.floor s.devices t p) (hp : Readable p) :
    FloorInvariant ({ s with snapshots := tb }.goto t p) :=
  statement_invariant hi (.snapshots ht) (hi.rising t) hi.changesets hsn (hi.devices t) hl hp

theorem insertSnapshot_invariant {r : SnapshotPresignRequest Hash} (hi : FloorInvariant s)
    (hpc : s.pc t = .holding c l .insertSnapshot) (ho : c.op = .publish r)
    (h : insertSnapshot s t c l r = some s') : FloorInvariant s' := by
  obtain ⟨_, hb, _, ha, _⟩ := holding_known hi hpc
  have hlevel : r.contentLevel ≤ l.required := ha _ (by rw [ho]; rfl)
  obtain rfl | ⟨tb, hw, rfl⟩ := insertSnapshot_cases h
  · exact read_invariant hi trivial trivial
  · refine snapshots_invariant hi (.row _ _ hw) (hi.snapshots.write hw (fun r' hr => ?_))
      (holding_at hi hpc ha trivial) trivial
    rw [← Option.some.inj hr, hb]
    exact hlevel

theorem swapSnapshot_invariant {r : SnapshotPresignRequest Hash} {old : Hash} {size : Nat}
    (hi : FloorInvariant s) (hpc : s.pc t = .holding c l .swap) (ho : c.op = .repoint r old size)
    (h : swapSnapshot s t c l r old = some s') : FloorInvariant s' := by
  obtain ⟨_, hb, _, ha, _⟩ := holding_known hi hpc
  have hlevel : r.contentLevel ≤ l.required := ha _ (by rw [ho]; rfl)
  obtain ⟨e, rfl⟩ | ⟨tb, hm, rfl⟩ := swapSnapshot_cases h
  · exact read_invariant hi trivial trivial
  · refine snapshots_invariant hi (modify_touched hm) ?_ (holding_at hi hpc ha trivial)
      (readable_nil rfl)
    refine hi.snapshots.modify hm (fun _ r' _ hr => ?_)
    rw [← Option.some.inj hr, hb]
    exact hlevel

theorem committed_readable {o : Outcome Client Hash} (h : Readable (.holding c l (.ready o))) :
    Readable (committed c o) := by
  cases o <;> exact h

theorem committed_at {o : Outcome Client Hash} (floor : Table Tx Unit Levels)
    (devices : Table Tx Client Device) (h : floor.pending t () = none) :
    FloorAt floor devices t (committed c o) := by
  cases o <;> exact h

theorem work_invariant (hi : FloorInvariant s) (hpc : s.pc t = .holding c l w)
    (h : work s t c l w = some s') : FloorInvariant s' := by
  have ha := (holding_known hi hpc).2.2.2.1
  have hread := hi.readable t
  rw [hpc] at hread
  unfold work at h
  split at h
  · exact afterLock_invariant hi hpc h
  · obtain ⟨_, _, hins, rfl⟩ := insertSeq_cases h
    exact seq_invariant hi (insertIgnore_touched hins) (holding_at hi hpc ha trivial) trivial
  · obtain ⟨_, hlock, rfl | ⟨_, _, rfl⟩⟩ := lockSeq_cases h
    · exact seq_invariant hi (.lock _ hlock) trivial trivial
    · exact seq_invariant hi (.lock _ hlock) (holding_at hi hpc ha trivial) trivial
  · split at h
    · cases h
      exact resolve_invariant hi hpc
    · cases h
  · exact admitBytes_invariant hi hpc h
  · split at h
    · rename_i ho
      exact insertChange_invariant hi hpc (by rw [ho]; rfl) h
    · cases h
  · obtain ⟨_, hm, rfl⟩ := advanceSeq_cases h
    exact seq_invariant hi (modify_touched hm) (holding_at hi hpc ha trivial) (readable_nil rfl)
  · split at h
    · cases h
      unfold readSnapshot
      split
      · exact read_invariant hi (holding_at hi hpc ha trivial) trivial
      · exact read_invariant hi (holding_at hi hpc ha trivial) (readable_nil rfl)
    · cases h
  · split at h
    · rename_i ho
      exact insertSnapshot_invariant hi hpc ho h
    · cases h
  · split at h
    · rename_i ho
      exact swapSnapshot_invariant hi hpc ho h
    · cases h
  · exact recordLevel_invariant hi hpc h
  · exact afterRecord_invariant hi hpc h
  · split at h
    · rename_i ho
      exact decideRaise_invariant hi ho hpc h
    · cases h
  · cases h
    refine close_invariant hi true ?_ (fun _ _ hn => hn)
    intro d hd
    cases hd
  · cases h
    exact close_invariant hi true (committed_readable hread) (fun _ _ => committed_at _ _)

theorem execute_invariant (hi : FloorInvariant s) (h : execute s t = some s') :
    FloorInvariant s' := by
  unfold execute at h
  split at h
  · rename_i hpc
    cases h
    exact checkCaller_invariant hi hpc
  · exact bootstrapFloor_invariant hi (by assumption) h
  · exact lockFloor_invariant hi (by assumption) h
  · exact work_invariant hi (by assumption) h
  · cases h
    exact close_invariant hi true trivial (fun _ _ hn => hn)
  · cases h

end Own

end YapStack.Relay.Tenant
