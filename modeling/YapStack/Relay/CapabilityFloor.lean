import YapStack.Relay.FloorSteps

set_option linter.unusedSectionVars false

namespace YapStack.Relay.Tenant

open Capability Sequence Table

section Theorem

variable {Tx Client Hash : Type} [DecidableEq Tx] [DecidableEq Client] [DecidableEq Hash]
variable {s s' : State Tx Client Hash} {t u : Tx} {c : Call Client Hash} {l : Levels}

theorem answered_at {a : Answer Client Hash} (h : a.contents = [])
    (hn : s.floor.pending t () = none) :
    FloorAt s.floor s.devices t (.answered c a) ∧ Readable (.answered c a) := by
  refine ⟨hn, fun d hd => ?_⟩
  rw [h] at hd
  cases hd

theorem receiveGated_at {v : Option (List Char)} {op : Op Client Hash}
    (hn : s.floor.pending t () = none) :
    FloorAt s.floor s.devices t (receiveGated c v op) ∧ Readable (receiveGated c v op) := by
  unfold receiveGated
  split
  · exact answered_at rfl hn
  · exact ⟨hn, trivial⟩

theorem receive_at {h : Headers} (hn : s.floor.pending t () = none) :
    FloorAt s.floor s.devices t (receive c h) ∧ Readable (receive c h) := by
  unfold receive
  split
  · unfold receivePush
    split
    · exact answered_at rfl hn
    · split
      · exact answered_at rfl hn
      · split
        · exact answered_at rfl hn
        · split
          · exact answered_at rfl hn
          · exact ⟨hn, trivial⟩
  · exact receiveGated_at hn
  · exact receiveGated_at hn
  · split
    · exact answered_at rfl hn
    · exact receiveGated_at hn
  · split
    · exact answered_at rfl hn
    · exact receiveGated_at hn
  · exact ⟨hn, trivial⟩
  · exact ⟨hn, trivial⟩

theorem respond_at {o : Outcome Client Hash} {now : Int} {present : Bool} {p : Pc Client Hash}
    (hn : s.floor.pending t () = none) (hr : Readable (.between c o))
    (h : respond c now present o = some p) : FloorAt s.floor s.devices t p ∧ Readable p := by
  cases o with
  | answer a => cases h
  | gated r =>
    cases h
    exact ⟨hn, trivial⟩
  | latest g r =>
    cases h
    refine ⟨hn, fun d hd => ?_⟩
    cases present with
    | false => cases hd
    | true => exact hr d hd
  | found r old size =>
    simp only [respond] at h
    split at h
    · split at h
      · cases h
        exact answered_at rfl hn
      · cases h
        exact answered_at rfl hn
    · split at h
      · cases h
        exact answered_at rfl hn
      · cases h
        exact ⟨hn, trivial⟩

theorem rolledBack_at (p : Pc Client Hash) (floor : Table Tx Unit Levels)
    (devices : Table Tx Client Device) (hn : floor.pending t () = none) :
    FloorAt floor devices t (rolledBack p) := by
  cases p <;> exact hn

theorem rolledBack_readable (p : Pc Client Hash) : Readable (rolledBack p) := by
  cases p <;> simp [rolledBack, Readable, Answer.contents]

theorem setDevice_invariant {d : Client} {label platform : String} {status : Devices.Status}
    (hi : FloorInvariant s) (hpc : s.pc t = .editing)
    (h : setDevice s t d label platform status = some s') : FloorInvariant s' := by
  obtain ⟨tb, hw, rfl⟩ := setDevice_cases h
  have ht : Touched t s.devices tb := .row _ _ hw
  refine ⟨hi.rising, hi.changesets, hi.snapshots, fun u => ?_, fun u => ?_, hi.readable⟩
  · by_cases hu : u = t
    · subst u
      obtain hh | hd := hi.devices t
      · exact Or.inl hh
      · refine Or.inr (fun j v hv => ?_)
        rw [write_committed hw]
        by_cases hj : j = d
        · subst j
          rw [write_pending_self hw] at hv
          cases hv
          refine Tame.trans ?_ (tame_edit label platform status _)
          cases hp : s.devices.pending t d with
          | none => exact view_of_pending_none hp ▸ Tame.refl _
          | some v => exact view_of_pending hp ▸ hd d v hp
        · exact hd j v (by rwa [write_pending_of_ne hw hj] at hv)
    · exact devicesAt_of_isolated (hi.devices u) (.refl _ _) (ht.isolated hu)
  · by_cases hu : u = t
    · subst u
      have hl := hi.floors t
      rw [hpc] at hl ⊢
      exact hl
    · refine floorAt_of_isolated (hi.floors u) (.refl _ _) (fun _ j => ?_)
      rw [ht.view_of_ne hu]
      exact Tame.refl _

theorem step_invariant {a : Action Tx Client Hash} (hi : FloorInvariant s)
    (h : step s a = some s') : FloorInvariant s' := by
  cases a with
  | receive t hd c =>
    simp only [step] at h
    split at h
    · rename_i hpc
      cases h
      have hl := hi.floors t
      rw [hpc] at hl
      obtain ⟨ha, hr⟩ := receive_at (c := c) (h := hd) hl
      exact read_invariant hi ha hr
    · cases h
  | execute t => exact execute_invariant hi h
  | respond t now present =>
    simp only [step] at h
    split at h
    · rename_i c o hpc
      obtain ⟨p, hp, rfl⟩ := Option.map_eq_some_iff.mp h
      have hl := hi.floors t
      have hr := hi.readable t
      rw [hpc] at hl hr
      obtain ⟨ha, hr⟩ := respond_at hl hr hp
      exact read_invariant hi ha hr
    · cases h
  | rollback t =>
    simp only [step] at h
    split at h
    · cases h
      exact close_invariant hi false (rolledBack_readable _) (rolledBack_at _)
    · cases h
  | edit t =>
    simp only [step] at h
    split at h
    · rename_i hpc
      cases h
      have hl := hi.floors t
      rw [hpc] at hl
      exact read_invariant hi hl trivial
    · cases h
  | setDevice t d label platform status =>
    simp only [step] at h
    split at h
    · exact setDevice_invariant hi (by assumption) h
    · cases h

theorem empty_invariant : FloorInvariant (State.empty : State Tx Client Hash) where
  rising _ _ h := by cases h
  changesets := every_empty _
  snapshots := every_empty _
  devices _ := Or.inr (fun _ _ h => by cases h)
  floors _ := rfl
  readable _ := trivial

/-- The floor in force never goes down. -/
theorem inForce_step {a : Action Tx Client Hash} (hi : FloorInvariant s)
    (h : step s a = some s') : inForce s.floor ≤ inForce s'.floor := by
  obtain ⟨t, p, hs⟩ | ⟨t, keep, p, rfl⟩ | ⟨t, d, _, _, _, _, hd⟩ := step_shape h
  · simp only [inForce, hs.floor_touched.committed, Int.le_refl]
  · exact inForce_commit hi t keep
  · obtain ⟨tb, _, rfl⟩ := setDevice_cases hd
    exact Int.le_refl _

theorem receive_not_levels (c c' : Call Client Hash) (h : Headers) (r : Levels) :
    receive c h ≠ .answered c' (.levels r) := by
  unfold receive receivePush receiveGated
  repeat' split
  all_goals rintro ⟨⟩

theorem respond_not_levels {o : Outcome Client Hash} {now : Int} {present : Bool}
    (c' : Call Client Hash) (r : Levels) :
    respond c now present o ≠ some (.answered c' (.levels r)) := by
  unfold respond
  repeat' split
  all_goals rintro ⟨⟩

theorem rolledBack_not_levels (p : Pc Client Hash) (c' : Call Client Hash) (r : Levels) :
    rolledBack p ≠ .answered c' (.levels r) := by
  cases p <;> rintro ⟨⟩

theorem committed_levels {o : Outcome Client Hash} {c' : Call Client Hash} {r : Levels}
    (h : committed c o = .answered c' (.levels r)) : c = c' ∧ o = .answer (.levels r) := by
  cases o <;> cases h
  exact ⟨rfl, rfl⟩

/-- A raise answers with levels when it has nothing to raise, or when it commits a raise. -/
theorem step_levels {a : Action Tx Client Hash} {r : Levels} (h : step s a = some s')
    (hn : s.pc t ≠ .answered c (.levels r)) (ha : s'.pc t = .answered c (.levels r)) :
    (∃ l, s.pc t = .holding c l (.ready (.answer (.levels r)))) ∨
      ∃ l revoked, s.pc t = .holding c l (.raised r revoked) ∧
        s' = s.close t true (.answered c (.levels r)) := by
  have hstatement : ∀ {u : Tx} {p : Pc Client Hash}, Statement s u p s' →
      p ≠ .answered c (.levels r) → False := by
    intro u p hs hp
    by_cases hu : t = u
    · subst u
      exact hp (hs.pc_self.symm.trans ha)
    · exact hn ((hs.undisturbed hu).pc.symm.trans ha)
  have hclose : ∀ {u : Tx} {keep : Bool} {p : Pc Client Hash}, s' = s.close u keep p →
      t = u ∧ p = .answered c (.levels r) := by
    rintro u keep p rfl
    by_cases hu : t = u
    · subst u
      simp only [State.close, Function.update_self] at ha
      exact ⟨rfl, ha⟩
    · exact absurd ((close_undisturbed s keep p hu).pc.symm.trans ha) hn
  cases a with
  | receive u hd c' =>
    simp only [step] at h
    split at h
    · cases h
      exact (hstatement .read (receive_not_levels c' c hd r)).elim
    · cases h
  | execute u =>
    obtain ⟨_, p, _, hs, ho⟩ | ⟨p, heq, hc⟩ := execute_shape h
    · exact (hstatement hs (fun hp => by rw [hp] at ho; cases ho)).elim
    · obtain ⟨rfl, rfl⟩ := hclose heq
      generalize hq : s.pc t = q at hc
      generalize hp : Pc.answered c (Answer.levels r) = p at hc
      cases hc with
      | edit => cases hp
      | raised c l r revoked =>
        cases hp
        exact Or.inr ⟨l, revoked, rfl, heq⟩
      | ready c' l o =>
        obtain ⟨rfl, rfl⟩ := committed_levels hp.symm
        exact Or.inl ⟨l, rfl⟩
  | respond u now present =>
    simp only [step] at h
    split at h
    · obtain ⟨p, hp, rfl⟩ := Option.map_eq_some_iff.mp h
      exact (hstatement .read (fun heq => respond_not_levels c r (heq ▸ hp))).elim
    · cases h
  | rollback u =>
    simp only [step] at h
    split at h
    · cases h
      exact absurd (hclose rfl).2 (rolledBack_not_levels _ c r)
    · cases h
  | edit u =>
    simp only [step] at h
    split at h
    · cases h
      exact (hstatement .read (by rintro ⟨⟩)).elim
    · cases h
  | setDevice u d label platform status =>
    simp only [step] at h
    split at h
    · obtain ⟨tb, _, rfl⟩ := setDevice_cases h
      exact absurd ha hn
    · cases h

theorem afterRecord_scanned {blockers : List (CapabilityBlocker Client)} {revoked : List Client}
    (h : afterRecord s t c l = some s')
    (hp : s'.pc t = .holding c l (.scanned blockers revoked)) :
    revoked = s.devices.scan t (fun _ d => d.status = Devices.Status.revoked) := by
  have hready : ∀ {o : Outcome Client Hash} {w : Work Client Hash} {b : Prop} [Decidable b],
      (if b then Work.ready o else w) = .scanned blockers revoked →
        w = .scanned blockers revoked := by
    intro o w b _ hw
    split at hw
    · cases hw
    · exact hw
  unfold afterRecord at h
  split at h
  · cases h
    simp only [gatedRead, State.goto, Function.update_self, Pc.holding.injEq, true_and] at hp
    cases hready hp
  · cases h
    simp only [gatedRead, State.goto, Function.update_self, Pc.holding.injEq, true_and] at hp
    cases hready hp
  · cases h
    simp only [gateContent, admitContent] at hp
    split at hp
    · simp [State.goto] at hp
    · split at hp
      · simp only [State.goto, Function.update_self] at hp
        split at hp <;> cases hp
      · simp [State.goto] at hp
  · cases h
    simp only [scanDevices, State.goto, Function.update_self, Pc.holding.injEq, true_and] at hp
    cases hready hp
    rfl
  · cases h

theorem decideRaise_raised {target : Int} {blockers : List (CapabilityBlocker Client)}
    {revoked revoked' : List Client} {r : Levels}
    (h : decideRaise s t c l target blockers revoked = some s')
    (hp : s'.pc t = .holding c l (.raised r revoked')) : revoked' = revoked := by
  unfold decideRaise at h
  split at h
  · obtain rfl | ⟨_, _, _, _, rfl⟩ := updateFloor_cases h
    · simp [State.goto] at hp
    · simp only [State.goto, Function.update_self, Pc.holding.injEq, Work.raised.injEq,
        true_and] at hp
      exact hp.2.symm
  · obtain rfl | ⟨_, _, _, _, rfl⟩ := updateFloor_cases h
    · simp [State.goto] at hp
    · simp [State.goto] at hp

/-- A raise scans the devices under the floor lock; it succeeds at or below the floor,
or over the devices alone that were revoked at its scan. -/
structure RaiseRules (s : State Tx Client Hash) (a : Action Tx Client Hash)
    (s' : State Tx Client Hash) : Prop where
  scan : ∀ t c l blockers revoked, a = .execute t → s.pc t = .holding c l .recorded →
    s'.pc t = .holding c l (.scanned blockers revoked) →
    ∀ d ∈ revoked, ∃ r, s.devices.view t d = some r ∧ r.status = .revoked
  lift : ∀ t c l blockers revoked r revoked', a = .execute t →
    s.pc t = .holding c l (.scanned blockers revoked) →
    s'.pc t = .holding c l (.raised r revoked') → revoked' = revoked
  success : ∀ t c r target, s.pc t ≠ .answered c (.levels r) → s'.pc t = .answered c (.levels r) →
    c.op = .raise target →
    target ≤ inForce s.floor ∨
      ∃ l revoked, s.pc t = .holding c l (.raised r revoked) ∧ target ≤ inForce s'.floor ∧
        ∀ now d row, c.now ≤ now → s'.devices.committed d = some row →
          below now target row = true → d ∈ revoked

theorem step_raise {a : Action Tx Client Hash} (hi : FloorInvariant s) (h : step s a = some s') :
    RaiseRules s a s' := by
  refine ⟨?_, ?_, ?_⟩
  · rintro t c l blockers revoked rfl hpc hp d hd
    simp only [step, execute, hpc, work] at h
    rw [afterRecord_scanned h hp] at hd
    obtain ⟨r, hr, hs⟩ := mem_scan.mp hd
    exact ⟨r, hr, of_decide_eq_true hs⟩
  · rintro t c l blockers revoked r revoked' rfl hpc hp
    simp only [step, execute, hpc, work] at h
    split at h
    · exact decideRaise_raised h hp
    · cases h
  · intro t c r target hn ha ho
    obtain ⟨l, hpc⟩ | ⟨l, revoked, hpc, rfl⟩ := step_levels h hn ha
    · obtain ⟨_, hb, _, _, hs⟩ := holding_known hi hpc
      exact Or.inl (hb ▸ hs.2 target ho)
    · obtain ⟨_, _, _, _, hv, hs⟩ := holding_known hi hpc
      obtain ⟨hle, hc⟩ := hs target ho
      refine Or.inr ⟨l, revoked, hpc, ?_, fun now d row hnow hr hb => ?_⟩
      · have hv' : (s.floor.close t true).committed () = some r := hv
        simpa only [State.close, inForce, hv', Option.map_some, Option.getD_some] using hle
      · exact hc d row hr (below_mono hnow hb)

/-- What the gate guarantees of every step. -/
structure FloorRules (s : State Tx Client Hash) (a : Action Tx Client Hash)
    (s' : State Tx Client Hash) : Prop where
  monotone : inForce s.floor ≤ inForce s'.floor
  changesets : s'.changesets.Every (fun r => r.declared ≤ inForce s'.floor)
  snapshots : s'.snapshots.Every (fun r => r.declared ≤ inForce s'.floor)
  returned : ∀ t c r, s'.pc t = .answered c r → ∀ d ∈ r.contents, d ≤ c.level
  raises : RaiseRules s a s'

theorem step_floor {a : Action Tx Client Hash} (hi : FloorInvariant s)
    (h : step s a = some s') : FloorRules s a s' := by
  have hi' := step_invariant hi h
  refine ⟨inForce_step hi h, hi'.changesets, hi'.snapshots, fun t c r ha => ?_, step_raise hi h⟩
  have hr := hi'.readable t
  rwa [ha] at hr

/-- In every interleaving the floor only rises, dominates all content, keeps content
from readers below it, and is raised over nobody but devices revoked at the scan. -/
theorem capability_floor (as : List (Action Tx Client Hash)) :
    Runs.Along step FloorRules State.empty as :=
  Runs.along_of_invariant (fun _ _ _ hi _ h => step_invariant hi h)
    (fun _ _ _ hi _ h => step_floor hi h) empty_invariant (Runs.along_true _ as)

end Theorem

section Schedules

/-- A raise succeeds over no device that is in the window, not revoked, and below. -/
def RaisesOverNobody {Tx Client Hash : Type} (s : State Tx Client Hash) (_ : Action Tx Client Hash)
    (s' : State Tx Client Hash) : Prop :=
  ∀ t c r target d row, s.pc t ≠ .answered c (.levels r) → s'.pc t = .answered c (.levels r) →
    c.op = .raise target → s'.devices.committed d = some row → row.status ≠ .revoked →
    below c.now target row = false

abbrev Small := State (Fin 4) (Fin 3) Nat

def enrol (t : Fin 4) (d : Fin 3) (status : Devices.Status) : List (Action (Fin 4) (Fin 3) Nat) :=
  [.edit t, .setDevice t d "" "" status, .execute t]

def request (d : Fin 3) (op : Op (Fin 3) Nat) : Call (Fin 3) Nat :=
  ⟨some d, 0, .unlimited, "", 0, op⟩

def send (t : Fin 4) (header : Option (List Char)) (c : Call (Fin 3) Nat) (statements : Nat) :
    List (Action (Fin 4) (Fin 3) Nat) :=
  .receive t ⟨header, none, none⟩ c :: List.replicate statements (.execute t)

/-- Device 2 pulls at level 0 and is revoked; device 1 scans for a raise to level 1;
device 2 logs in again; the raise writes the floor and is about to commit. -/
def reenrolled : List (Action (Fin 4) (Fin 3) Nat) :=
  enrol 1 1 .active ++ enrol 1 2 .active ++ send 2 none (request 2 (.pull 0 none)) 6 ++
    enrol 1 2 .revoked ++ send 0 (some ['1']) (request 1 (.raise 1)) 5 ++
    enrol 1 2 .pending ++ [.execute 0]

/-- Device 1 raises the floor to 1, device 2 is refused at level 0, and device 1 asks
for level 1 again. -/
def repeated : List (Action (Fin 4) (Fin 3) Nat) :=
  enrol 1 1 .active ++ enrol 1 2 .active ++ send 2 (some ['1']) (request 1 (.raise 1)) 7 ++
    send 3 none (request 2 (.pull 0 none)) 6 ++ send 0 (some ['1']) (request 1 (.raise 1)) 5

/-- The next statement of transaction 0 answers a raise over an active or pending device 2. -/
def raisesOver (u : Small) : Bool :=
  (step u (.execute 0)).any (fun v =>
    match v.pc 0 with
    | .answered c (.levels r) =>
      match c.op with
      | .raise target =>
        (u.pc 0).isOpen && (v.devices.committed 2).any (fun row =>
          decide (row.status ≠ .revoked) && below c.now target row)
      | _ => false
    | _ => false)

theorem raisesOver_step {u : Small} (h : raisesOver u = true) :
    ∃ v, step u (.execute 0) = some v ∧ ¬ RaisesOverNobody u (.execute 0) v := by
  obtain ⟨v, hv, hm⟩ := (Option.any_eq_true _ _).mp h
  refine ⟨v, hv, fun hno => ?_⟩
  split at hm
  · rename_i c r ha
    split at hm
    · rename_i target ho
      simp only [Bool.and_eq_true, Option.any_eq_true, decide_eq_true_eq] at hm
      obtain ⟨hopen, row, hrow, hstatus, hbelow⟩ := hm
      have hn : u.pc 0 ≠ .answered c (.levels r) := fun heq => by rw [heq] at hopen; cases hopen
      rw [hno 0 c r target 2 row hn ha ho hrow hstatus] at hbelow
      cases hbelow
    · cases hm
  · cases hm

theorem not_along_of_last {as : List (Action (Fin 4) (Fin 3) Nat)} {u : Small}
    (hu : Runs.exec step State.empty as = some u) (h : raisesOver u = true) :
    ¬ Runs.Along step RaisesOverNobody State.empty (as ++ [.execute 0]) := by
  intro ha
  obtain ⟨v, hv, hno⟩ := raisesOver_step h
  exact hno (Runs.along_append ha hu v hv).1

/-- A raise can succeed over a device in the window that reports less: one that
logged in again after the scan, and any, when there is nothing to raise. -/
theorem raises_over_low_devices :
    (¬ ∀ as : List (Action (Fin 4) (Fin 3) Nat),
      Runs.Along step RaisesOverNobody State.empty as) ∧
    ¬ Runs.Along step RaisesOverNobody State.empty (reenrolled ++ [.execute 0]) ∧
    ¬ Runs.Along step RaisesOverNobody State.empty (repeated ++ [.execute 0]) := by
  have hreenrolled : ¬ Runs.Along step RaisesOverNobody State.empty (reenrolled ++ [.execute 0]) := by
    obtain ⟨u, hu, h⟩ := Runs.exec_evaluates (P := fun u : Small => raisesOver u = true)
      (by decide +kernel : (Runs.exec step State.empty reenrolled).any _ = true)
    exact not_along_of_last hu h
  refine ⟨fun h => hreenrolled (h _), hreenrolled, ?_⟩
  obtain ⟨u, hu, h⟩ := Runs.exec_evaluates (P := fun u : Small => raisesOver u = true)
    (by decide +kernel : (Runs.exec step State.empty repeated).any _ = true)
  exact not_along_of_last hu h

end Schedules

end YapStack.Relay.Tenant
