import YapStack.Relay.Tenant

set_option linter.unusedSectionVars false

namespace YapStack.Relay.Tenant

open Capability Sequence Table

section Shape

variable {Tx Client Hash : Type} [DecidableEq Tx] [DecidableEq Client] [DecidableEq Hash]
variable {s s' : State Tx Client Hash} {t u : Tx} {c : Call Client Hash} {l : Levels}

/-- One statement of `t`: at most one row of one table, and `t` moves on. -/
inductive Statement (s : State Tx Client Hash) (t : Tx) (p : Pc Client Hash) :
    State Tx Client Hash → Prop where
  | read : Statement s t p (s.goto t p)
  | floor {tb : Table Tx Unit Levels} (h : Touched t s.floor tb) :
    Statement s t p ({ s with floor := tb }.goto t p)
  | seq {tb : Table Tx Unit Nat} (h : Touched t s.seq tb) :
    Statement s t p ({ s with seq := tb }.goto t p)
  | changesets {tb : Table Tx Nat (Changeset Client)} (h : Touched t s.changesets tb) :
    Statement s t p ({ s with changesets := tb }.goto t p)
  | snapshots {tb : Table Tx Int (Snapshot Hash)} (h : Touched t s.snapshots tb) :
    Statement s t p ({ s with snapshots := tb }.goto t p)
  | usage {tb : Table Tx Unit Choke.Usage} (h : Touched t s.usage tb) :
    Statement s t p ({ s with usage := tb }.goto t p)
  | devices {tb : Table Tx Client Device} (h : Touched t s.devices tb) :
    Statement s t p ({ s with devices := tb }.goto t p)

theorem bootstrapFloor_cases (h : bootstrapFloor s t c = some s') :
    ∃ tb b, s.floor.insertIgnore t () .initial = some (tb, b) ∧
      s' = { s with floor := tb }.goto t (.lock c) := by
  obtain ⟨⟨tb, b⟩, hi, rfl⟩ := Option.map_eq_some_iff.mp h
  exact ⟨tb, b, hi, rfl⟩

theorem lockFloor_cases (h : lockFloor s t c = some s') :
    ∃ tb, (if c.op.exclusive then s.floor.lock t () else s.floor.share t ()) = some tb ∧
      (s' = { s with floor := tb }.goto t (.failed c .db) ∨
        ∃ l, tb.view t () = some l ∧
          s' = { s with floor := tb }.goto t (.holding c l .locked)) := by
  obtain ⟨tb, hl, rfl⟩ := Option.map_eq_some_iff.mp h
  refine ⟨tb, hl, ?_⟩
  cases hv : tb.view t () with
  | none => exact Or.inl rfl
  | some l => exact Or.inr ⟨l, rfl, rfl⟩

theorem admitContent_cases (s : State Tx Client Hash) (t : Tx) (c : Call Client Hash) (l : Levels)
    (level : Int) (w : Work Client Hash) :
    (level ≤ l.required ∧ admitContent s t c l level w = s.goto t (.holding c l w)) ∨
      ∃ e, admitContent s t c l level w = s.goto t (.failed c e) := by
  simp only [admitContent, admitsPublication, decide_eq_true_eq]
  split
  · exact Or.inl ⟨by assumption, rfl⟩
  · exact Or.inr ⟨_, rfl⟩

theorem lockCaller_cases (h : lockCaller s t c l = some s') :
    s' = s.goto t (.failed c .forbidden) ∨
      ∃ d tb, s.devices.share t d = some tb ∧
        (s' = { s with devices := tb }.goto t (.failed c .forbidden) ∨
          s' = { s with devices := tb }.goto t (.holding c l .recording)) := by
  simp only [lockCaller] at h
  split at h
  · exact Or.inl (Option.some.inj h).symm
  · split at h
    · exact Or.inl (Option.some.inj h).symm
    · obtain ⟨tb, hs, rfl⟩ := Option.map_eq_some_iff.mp h
      refine Or.inr ⟨_, tb, hs, ?_⟩
      split
      · exact Or.inr rfl
      · exact Or.inl rfl

theorem recordLevel_cases (h : recordLevel s t c l = some s') :
    s' = s.goto t (.holding c l .recorded) ∨
      ∃ d tb, s.devices.modify t d (stampDue c.now c.level)
          (fun r => some (stamp c.now c.level r)) = some tb ∧
        s' = { s with devices := tb }.goto t (.holding c l .recorded) := by
  simp only [recordLevel] at h
  split at h
  · exact Or.inl (Option.some.inj h).symm
  · obtain ⟨tb, hm, rfl⟩ := Option.map_eq_some_iff.mp h
    exact Or.inr ⟨_, tb, hm, rfl⟩

theorem insertSeq_cases (h : insertSeq s t c l = some s') :
    ∃ tb b, s.seq.insertIgnore t () 1 = some (tb, b) ∧
      s' = { s with seq := tb }.goto t (.holding c l .lockSeq) := by
  obtain ⟨⟨tb, b⟩, hi, rfl⟩ := Option.map_eq_some_iff.mp h
  exact ⟨tb, b, hi, rfl⟩

theorem lockSeq_cases (h : lockSeq s t c l = some s') :
    ∃ tb, s.seq.lock t () = some tb ∧
      (s' = { s with seq := tb }.goto t (.failed c .db) ∨
        ∃ next, tb.view t () = some next ∧
          s' = { s with seq := tb }.goto t (.holding c l (.numbered next))) := by
  obtain ⟨tb, hl, rfl⟩ := Option.map_eq_some_iff.mp h
  refine ⟨tb, hl, ?_⟩
  cases hv : tb.view t () with
  | none => exact Or.inl rfl
  | some next => exact Or.inr ⟨next, rfl, rfl⟩

theorem admitBytes_cases {next : Metered Client} {stage : Choke.Stage}
    (h : admitBytes s t c l next stage = some s') :
    ∃ tb, Touched t s.usage tb ∧
      ((∃ stage', s' = { s with usage := tb }.goto t (.holding c l (.admitting next stage'))) ∨
        s' = { s with usage := tb }.goto t (.holding c l (afterAdmit c next)) ∨
        ∃ e, s' = { s with usage := tb }.goto t (.failed c e)) := by
  obtain ⟨⟨tb, verdict⟩, ha, rfl⟩ := Option.map_eq_some_iff.mp h
  refine ⟨tb, Choke.admit_touched ha, ?_⟩
  cases verdict with
  | next stage' => exact Or.inl ⟨stage', rfl⟩
  | admitted => exact Or.inr (Or.inl rfl)
  | refused r => exact Or.inr (Or.inr ⟨_, rfl⟩)

theorem insertChange_cases {level : Int} {a : Assigned Client} {row : Nat × PushChange Client}
    {rest : List (Nat × PushChange Client)} (h : insertChange s t c l level a row rest = some s') :
    s' = s.goto t (.failed c .db) ∨
      ∃ tb, s.changesets.write t row.1 (some ⟨row.2, level⟩) = some tb ∧
        s' = { s with changesets := tb }.goto t (.holding c l (.inserting a rest)) := by
  simp only [insertChange] at h
  split at h
  · obtain ⟨tb, hw, rfl⟩ := Option.map_eq_some_iff.mp h
    exact Or.inr ⟨tb, hw, rfl⟩
  · exact Or.inl (Option.some.inj h).symm

theorem advanceSeq_cases {a : Assigned Client} (h : advanceSeq s t c l a = some s') :
    ∃ tb, s.seq.modify t () (fun _ => true) (fun n => some (n + a.newRows.length)) = some tb ∧
      s' = { s with seq := tb }.goto t
        (.holding c l (.ready (.answer (.pushed ⟨a.acks, a.nextSeq - 1⟩)))) := by
  obtain ⟨tb, hm, rfl⟩ := Option.map_eq_some_iff.mp h
  exact ⟨tb, hm, rfl⟩

theorem insertSnapshot_cases {r : SnapshotPresignRequest Hash}
    (h : insertSnapshot s t c l r = some s') :
    s' = s.goto t (.failed c .db) ∨
      ∃ tb, s.snapshots.write t (generation r) (some (snapshotRow r)) = some tb ∧
        s' = { s with snapshots := tb }.goto t (.holding c l (.admitting .publish .ensure)) := by
  simp only [insertSnapshot] at h
  split at h
  · exact Or.inl (Option.some.inj h).symm
  · obtain ⟨tb, hw, rfl⟩ := Option.map_eq_some_iff.mp h
    exact Or.inr ⟨tb, hw, rfl⟩

theorem swapSnapshot_cases {r : SnapshotPresignRequest Hash} {old : Hash}
    (h : swapSnapshot s t c l r old = some s') :
    (∃ e, s' = s.goto t (.failed c e)) ∨
      ∃ tb, s.snapshots.modify t (generation r) (fun row => row.sha256 = old)
          (fun _ => some (snapshotRow r)) = some tb ∧
        s' = { s with snapshots := tb }.goto t
          (.holding c l (.ready (.answer (.presigned ⟨false, some r.size, r.sha256⟩)))) := by
  simp only [swapSnapshot] at h
  split at h
  · obtain ⟨tb, hm, rfl⟩ := Option.map_eq_some_iff.mp h
    exact Or.inr ⟨tb, hm, rfl⟩
  · exact Or.inl ⟨_, (Option.some.inj h).symm⟩

theorem updateFloor_cases {f : Levels → Levels} {w : Levels → Work Client Hash}
    (h : updateFloor s t c l f w = some s') :
    s' = s.goto t (.failed c .db) ∨
      ∃ cur tb, s.floor.view t () = some cur ∧ s.floor.write t () (some (f cur)) = some tb ∧
        s' = { s with floor := tb }.goto t (.holding c l (w (f cur))) := by
  simp only [updateFloor] at h
  split at h
  · exact Or.inl (Option.some.inj h).symm
  · rename_i cur hv
    obtain ⟨tb, hw, rfl⟩ := Option.map_eq_some_iff.mp h
    exact Or.inr ⟨cur, tb, hv, hw, rfl⟩

/-- The transaction is open, and serves the request `c`. -/
def Pc.Serves (c : Call Client Hash) : Pc Client Hash → Prop
  | .caller d | .bootstrap d | .lock d | .holding d _ _ | .failed d _ => d = c
  | _ => False

/-- The reads and the pure checks go on with the same call and the same levels, or fail. -/
def Continues (s : State Tx Client Hash) (t : Tx) (c : Call Client Hash) (l : Levels)
    (s' : State Tx Client Hash) : Prop :=
  (∃ w, s' = s.goto t (.holding c l w)) ∨ ∃ e, s' = s.goto t (.failed c e)

theorem admitContent_continues (s : State Tx Client Hash) (t : Tx) (c : Call Client Hash)
    (l : Levels) (level : Int) (w : Work Client Hash) :
    Continues s t c l (admitContent s t c l level w) := by
  obtain ⟨_, h⟩ | ⟨e, h⟩ := admitContent_cases s t c l level w
  · exact Or.inl ⟨w, h⟩
  · exact Or.inr ⟨e, h⟩

theorem resolve_continues (changes : List (PushChange Client)) (next : Nat) :
    Continues s t c l (resolve s t c l changes next) := by
  simp only [resolve]
  split
  · exact Or.inr ⟨_, rfl⟩
  · exact Or.inl ⟨_, rfl⟩

theorem gateContent_continues (r : SnapshotPresignRequest Hash) :
    Continues s t c l (gateContent s t c l r) := by
  simp only [gateContent]
  split
  · exact Or.inl ⟨_, rfl⟩
  · split
    · exact admitContent_continues s t c l _ _
    · exact Or.inr ⟨_, rfl⟩

theorem afterRecord_continues (h : afterRecord s t c l = some s') : Continues s t c l s' := by
  unfold afterRecord at h
  split at h
  · cases h
    exact Or.inl ⟨_, rfl⟩
  · cases h
    exact Or.inl ⟨_, rfl⟩
  · cases h
    exact gateContent_continues _
  · cases h
    exact Or.inl ⟨_, rfl⟩
  · cases h

theorem Continues.statement (h : Continues s t c l s') : ∃ p, Statement s t p s' ∧ p.Serves c := by
  obtain ⟨w, rfl⟩ | ⟨e, rfl⟩ := h
  · exact ⟨_, .read, rfl⟩
  · exact ⟨_, .read, rfl⟩

theorem afterLock_statement (h : afterLock s t c l = some s') : ∃ p, Statement s t p s' ∧ p.Serves c := by
  unfold afterLock at h
  split at h
  · cases h
    exact (admitContent_continues s t c l _ _).statement
  · cases h
    exact (admitContent_continues s t c l _ _).statement
  · cases h
    exact (admitContent_continues s t c l _ _).statement
  · obtain rfl | ⟨d, tb, hs, rfl | rfl⟩ := lockCaller_cases h
    · exact ⟨_, .read, rfl⟩
    · exact ⟨_, .devices (.share d hs), rfl⟩
    · exact ⟨_, .devices (.share d hs), rfl⟩
  · cases h
    exact ⟨_, .read, rfl⟩
  · cases h
    exact ⟨_, .read, rfl⟩
  · cases h
    exact ⟨_, .read, rfl⟩

theorem decideRaise_statement {target : Int} {blockers : List (CapabilityBlocker Client)}
    {revoked : List Client} (h : decideRaise s t c l target blockers revoked = some s') :
    ∃ p, Statement s t p s' ∧ p.Serves c := by
  unfold decideRaise at h
  split at h
  · obtain rfl | ⟨_, _, _, hw, rfl⟩ := updateFloor_cases h
    · exact ⟨_, .read, rfl⟩
    · exact ⟨_, .floor (.row _ _ hw), rfl⟩
  · obtain rfl | ⟨_, _, _, hw, rfl⟩ := updateFloor_cases h
    · exact ⟨_, .read, rfl⟩
    · exact ⟨_, .floor (.row _ _ hw), rfl⟩

/-- Where a transaction stands before and after its commit. -/
inductive Commits : Pc Client Hash → Pc Client Hash → Prop where
  | edit : Commits .editing .idle
  | raised (c : Call Client Hash) (l r : Levels) (revoked : List Client) :
    Commits (.holding c l (.raised r revoked)) (.answered c (.levels r))
  | ready (c : Call Client Hash) (l : Levels) (o : Outcome Client Hash) :
    Commits (.holding c l (.ready o)) (committed c o)

/-- A transaction that holds the floor row runs one statement or commits. -/
theorem work_shape {w : Work Client Hash} (h : work s t c l w = some s') :
    (∃ p, Statement s t p s' ∧ p.Serves c) ∨
      ∃ p, s' = s.close t true p ∧ Commits (.holding c l w) p := by
  unfold work at h
  split at h
  · exact Or.inl (afterLock_statement h)
  · obtain ⟨_, _, hi, rfl⟩ := insertSeq_cases h
    exact Or.inl ⟨_, .seq (insertIgnore_touched hi), rfl⟩
  · obtain ⟨_, hl, rfl | ⟨_, _, rfl⟩⟩ := lockSeq_cases h
    · exact Or.inl ⟨_, .seq (.lock _ hl), rfl⟩
    · exact Or.inl ⟨_, .seq (.lock _ hl), rfl⟩
  · split at h
    · cases h
      exact Or.inl (resolve_continues _ _).statement
    · cases h
  · obtain ⟨_, hu, ⟨_, rfl⟩ | rfl | ⟨_, rfl⟩⟩ := admitBytes_cases h
    · exact Or.inl ⟨_, .usage hu, rfl⟩
    · exact Or.inl ⟨_, .usage hu, rfl⟩
    · exact Or.inl ⟨_, .usage hu, rfl⟩
  · split at h
    · obtain rfl | ⟨_, hw, rfl⟩ := insertChange_cases h
      · exact Or.inl ⟨_, .read, rfl⟩
      · exact Or.inl ⟨_, .changesets (.row _ _ hw), rfl⟩
    · cases h
  · obtain ⟨_, hm, rfl⟩ := advanceSeq_cases h
    exact Or.inl ⟨_, .seq (modify_touched hm), rfl⟩
  · split at h
    · cases h
      exact Or.inl ⟨_, .read, rfl⟩
    · cases h
  · split at h
    · obtain rfl | ⟨_, hw, rfl⟩ := insertSnapshot_cases h
      · exact Or.inl ⟨_, .read, rfl⟩
      · exact Or.inl ⟨_, .snapshots (.row _ _ hw), rfl⟩
    · cases h
  · split at h
    · obtain ⟨_, rfl⟩ | ⟨_, hm, rfl⟩ := swapSnapshot_cases h
      · exact Or.inl ⟨_, .read, rfl⟩
      · exact Or.inl ⟨_, .snapshots (modify_touched hm), rfl⟩
    · cases h
  · obtain rfl | ⟨_, _, hm, rfl⟩ := recordLevel_cases h
    · exact Or.inl ⟨_, .read, rfl⟩
    · exact Or.inl ⟨_, .devices (modify_touched hm), rfl⟩
  · exact Or.inl (afterRecord_continues h).statement
  · split at h
    · exact Or.inl (decideRaise_statement h)
    · cases h
  · cases h
    exact Or.inr ⟨_, rfl, .raised c l _ _⟩
  · cases h
    exact Or.inr ⟨_, rfl, .ready c l _⟩

theorem execute_shape (h : execute s t = some s') :
    (∃ c p, (s.pc t).Serves c ∧ Statement s t p s' ∧ p.Serves c) ∨
      ∃ p, s' = s.close t true p ∧ Commits (s.pc t) p := by
  unfold execute at h
  split at h
  · rename_i c hpc
    cases h
    refine Or.inl ⟨c, _, hpc ▸ rfl, .read, ?_⟩
    split <;> rfl
  · rename_i c hpc
    obtain ⟨_, _, hi, rfl⟩ := bootstrapFloor_cases h
    exact Or.inl ⟨c, _, hpc ▸ rfl, .floor (insertIgnore_touched hi), rfl⟩
  · rename_i c hpc
    obtain ⟨tb, hl, hs⟩ := lockFloor_cases h
    have ht : Touched t s.floor tb := by
      split at hl
      · exact .lock _ hl
      · exact .share _ hl
    obtain rfl | ⟨_, _, rfl⟩ := hs
    · exact Or.inl ⟨c, _, hpc ▸ rfl, .floor ht, rfl⟩
    · exact Or.inl ⟨c, _, hpc ▸ rfl, .floor ht, rfl⟩
  · rename_i c l w hpc
    obtain ⟨p, hs, hp⟩ | ⟨p, rfl, hp⟩ := work_shape h
    · exact Or.inl ⟨c, p, hpc ▸ rfl, hs, hp⟩
    · exact Or.inr ⟨p, rfl, hpc ▸ hp⟩
  · rename_i hpc
    cases h
    exact Or.inr ⟨_, rfl, hpc ▸ .edit⟩
  · cases h

/-- What the other transactions rely on. -/
structure Undisturbed (u : Tx) (s s' : State Tx Client Hash) : Prop where
  floor : Isolated u s.floor s'.floor
  seq : Isolated u s.seq s'.seq
  changesets : Isolated u s.changesets s'.changesets
  devices : Isolated u s.devices s'.devices
  pc : s'.pc u = s.pc u

theorem Statement.undisturbed {p : Pc Client Hash} (h : Statement s t p s') (hne : u ≠ t) :
    Undisturbed u s s' := by
  have hp : ∀ r : State Tx Client Hash, r.pc = s.pc → (r.goto t p).pc u = s.pc u :=
    fun r hr => by simp only [State.goto, hr, Function.update_of_ne hne]
  cases h with
  | read => exact ⟨.refl _ _, .refl _ _, .refl _ _, .refl _ _, hp _ rfl⟩
  | floor h => exact ⟨h.isolated hne, .refl _ _, .refl _ _, .refl _ _, hp _ rfl⟩
  | seq h => exact ⟨.refl _ _, h.isolated hne, .refl _ _, .refl _ _, hp _ rfl⟩
  | changesets h => exact ⟨.refl _ _, .refl _ _, h.isolated hne, .refl _ _, hp _ rfl⟩
  | snapshots h => exact ⟨.refl _ _, .refl _ _, .refl _ _, .refl _ _, hp _ rfl⟩
  | usage h => exact ⟨.refl _ _, .refl _ _, .refl _ _, .refl _ _, hp _ rfl⟩
  | devices h => exact ⟨.refl _ _, .refl _ _, .refl _ _, h.isolated hne, hp _ rfl⟩

theorem close_undisturbed (s : State Tx Client Hash) (keep : Bool) (p : Pc Client Hash)
    (hne : u ≠ t) : Undisturbed u s (s.close t keep p) where
  floor := close_isolated _ keep hne
  seq := close_isolated _ keep hne
  changesets := close_isolated _ keep hne
  devices := close_isolated _ keep hne
  pc := Function.update_of_ne hne _ _

theorem Statement.floor_touched {p : Pc Client Hash} (h : Statement s t p s') :
    Touched t s.floor s'.floor := by
  cases h with
  | floor h => exact h
  | _ => exact .none

theorem Statement.seq_touched {p : Pc Client Hash} (h : Statement s t p s') :
    Touched t s.seq s'.seq := by
  cases h with
  | seq h => exact h
  | _ => exact .none

theorem Statement.changesets_touched {p : Pc Client Hash} (h : Statement s t p s') :
    Touched t s.changesets s'.changesets := by
  cases h with
  | changesets h => exact h
  | _ => exact .none

theorem Statement.devices_touched {p : Pc Client Hash} (h : Statement s t p s') :
    Touched t s.devices s'.devices := by
  cases h with
  | devices h => exact h
  | _ => exact .none

theorem Statement.pc_self {p : Pc Client Hash} (h : Statement s t p s') : s'.pc t = p := by
  cases h <;> simp [State.goto]

/-- A step of any kind: one statement of one transaction, or the end of one. -/
theorem step_shape {a : Action Tx Client Hash} (h : step s a = some s') :
    (∃ t p, Statement s t p s') ∨ (∃ t keep p, s' = s.close t keep p) ∨
      ∃ t d label platform status, s.pc t = .editing ∧
        setDevice s t d label platform status = some s' := by
  cases a with
  | receive t hd c =>
    simp only [step] at h
    split at h
    · cases h
      exact Or.inl ⟨t, _, .read⟩
    · cases h
  | execute t =>
    obtain ⟨_, p, _, hs, _⟩ | ⟨p, rfl, _⟩ := execute_shape h
    · exact Or.inl ⟨t, p, hs⟩
    · exact Or.inr (Or.inl ⟨t, true, p, rfl⟩)
  | respond t now present =>
    simp only [step] at h
    split at h
    · obtain ⟨p, _, rfl⟩ := Option.map_eq_some_iff.mp h
      exact Or.inl ⟨t, p, .read⟩
    · cases h
  | rollback t =>
    simp only [step] at h
    split at h
    · cases h
      exact Or.inr (Or.inl ⟨t, false, _, rfl⟩)
    · cases h
  | edit t =>
    simp only [step] at h
    split at h
    · cases h
      exact Or.inl ⟨t, _, .read⟩
    · cases h
  | setDevice t d label platform status =>
    simp only [step] at h
    split at h
    · exact Or.inr (Or.inr ⟨t, d, label, platform, status, by assumption, h⟩)
    · cases h

theorem setDevice_cases {d : Client} {label platform : String} {status : Devices.Status}
    (h : setDevice s t d label platform status = some s') :
    ∃ tb, s.devices.write t d (some (edit label platform status (s.devices.view t d))) = some tb ∧
      s' = { s with devices := tb } := by
  obtain ⟨tb, hw, rfl⟩ := Option.map_eq_some_iff.mp h
  exact ⟨tb, hw, rfl⟩

def Action.tx : Action Tx Client Hash → Tx
  | .receive t _ _ | .execute t | .respond t _ _ | .rollback t | .edit t | .setDevice t _ _ _ _ => t

/-- A step of one transaction leaves the others what they rely on. -/
theorem step_undisturbed {a : Action Tx Client Hash} (h : step s a = some s') (hne : u ≠ a.tx) :
    Undisturbed u s s' := by
  cases a with
  | receive t hd c =>
    simp only [step] at h
    split at h
    · cases h
      exact Statement.read.undisturbed hne
    · cases h
  | execute t =>
    obtain ⟨_, p, _, hs, _⟩ | ⟨p, rfl, _⟩ := execute_shape h
    · exact hs.undisturbed hne
    · exact close_undisturbed s true p hne
  | respond t now present =>
    simp only [step] at h
    split at h
    · obtain ⟨p, _, rfl⟩ := Option.map_eq_some_iff.mp h
      exact Statement.read.undisturbed hne
    · cases h
  | rollback t =>
    simp only [step] at h
    split at h
    · cases h
      exact close_undisturbed s false _ hne
    · cases h
  | edit t =>
    simp only [step] at h
    split at h
    · cases h
      exact Statement.read.undisturbed hne
    · cases h
  | setDevice t d label platform status =>
    simp only [step] at h
    split at h
    · obtain ⟨tb, hw, rfl⟩ := setDevice_cases h
      exact ⟨.refl _ _, .refl _ _, .refl _ _, write_isolated hw hne, rfl⟩
    · cases h

end Shape

end YapStack.Relay.Tenant
