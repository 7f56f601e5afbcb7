import YapStack.Volume.Restored

set_option linter.unusedSectionVars false

namespace YapStack.Volume

open Runs

variable {D : Type} [DecidableEq D]

/-- A run together with the levels to which the devices belong. -/
abbrev duckStep : State D × (D → Level) → Event D → Option (State D × (D → Level)) :=
  watch step rebase

theorem watched_inv (p : State D × (D → Level)) (e : Event D) (q : State D × (D → Level))
    (h : Inv p.1 p.2) (hfresh : readFresh p.1 e = true) (hstep : duckStep p e = some q) :
    Inv q.1 q.2 := by
  obtain ⟨hst, hbase⟩ := (watch_eq_some rebase p q e).mp hstep
  rw [hbase]
  exact step_inv h hfresh hst

theorem watched_duckSet (p : State D × (D → Level)) (e : Event D) (q : State D × (D → Level))
    (h : Inv p.1 p.2) (hstep : duckStep p e = some q) (he : IsDuckSet p.1 e) (d : D) :
    q.1.vol d ≤ p.1.vol d ∧ q.1.vol d ≤ p.2 d := by
  have hle := duckSet_le h ((watch_eq_some rebase p q e).mp hstep).1 he d
  exact ⟨hle, hle.trans (h.le d)⟩

/-- In a run in which every snapshot is taken of a fresh reading, the slot holds the level of its
device, `apply_duck_inner` raises no device, and after a `restore_inner` that is later than every
`apply_duck_inner` all devices are at their own levels. -/
theorem duck_is_undone (vol : D → Level) (default : D) {es : List (Event D)} {u : State D}
    {base : D → Level} (hrun : exec duckStep (start vol default, vol) es = some (u, base))
    (hfresh : Along duckStep (fun p e _ => readFresh p.1 e = true) (start vol default, vol) es) :
    (∀ snap, u.slot = some snap → snap.level = base snap.device) ∧
    Along duckStep (fun p e q => IsDuckSet p.1 e → ∀ d, q.1.vol d ≤ p.1.vol d ∧
      q.1.vol d ≤ p.2 d) (start vol default, vol) es ∧
    ∀ r front back v b, es = front ++ .restore r :: back →
      exec duckStep (start vol default, vol) front = some (v, b) →
      (∀ i, ¬(v.pc i).Applying) → (∀ i amount, .applyDuck i amount ∉ back) →
      u.pc r = .returned true → u.vol = base := by
  have hinv₀ : Inv (start vol default) vol := start_inv vol default
  have hinv : ∀ {front v}, exec duckStep (start vol default, vol) front = some v →
      Along duckStep (fun p e _ => readFresh p.1 e = true) (start vol default, vol) front →
      Inv v.1 v.2 :=
    fun hfront hf => exec_invariant_along (I := fun p => Inv p.1 p.2)
      (fun p e q h hg hstep => watched_inv p e q h hg hstep) hinv₀ hf hfront
  refine ⟨fun snap hslot => (hinv hrun hfresh).slot_level hslot, ?_, ?_⟩
  · exact along_of_invariant (I := fun p => Inv p.1 p.2)
      (fun p e q h hg hstep => watched_inv p e q h hg hstep)
      (fun p e q h _ hstep he d => watched_duckSet p e q h hstep he d) hinv₀ hfresh
  · rintro r front back v b rfl hfront hquiet hback hret
    obtain ⟨w, hw, hu⟩ := (exec_append _ _ front _).mp hrun
    obtain rfl : w = (v, b) := Option.some.inj (hw.symm.trans hfront)
    have habsent : v.pc r = .absent := by
      obtain ⟨q, hq, _⟩ := (exec_cons _ _ _ back).mp hu
      have hst := ((watch_eq_some rebase _ q _).mp hq).1
      simp only [step, Option.ite_none_right_eq_some] at hst
      exact hst.1
    have hguard : Along duckStep (fun p e _ => readFresh p.1 e = true ∧
        ∀ i amount, e ≠ .applyDuck i amount) (v, b) (.restore r :: back) := by
      refine (along_append hfresh hfront).and_events (fun e he i amount heq => ?_)
      subst heq
      obtain heq | hmem := List.mem_cons.mp he
      · simp at heq
      · exact hback i amount hmem
    have hlast := exec_invariant_along (I := fun p => Inv p.1 p.2 ∧ Last r p.1)
      (fun p e q h hg hstep => ⟨watched_inv p e q h.1 hg.1 hstep,
        step_last h.2 h.1 hg.2 ((watch_eq_some rebase p q e).mp hstep).1⟩)
      ⟨hinv hfront (along_left hfresh), hquiet, Or.inl habsent⟩ hguard hu
    exact hlast.2.restored hlast.1 hret

def full : Level := ⟨1, by norm_num⟩

/-- The default switches while the first device is ducked, and a second call finds the
snapshot. -/
def switchedRun : List (Event Bool) :=
  [.applyDuck 0 (4 / 5), .next 0 true, .next 0 true, .next 0 true, .next 0 true,
    .switchDefault false, .applyDuck 1 (4 / 5), .next 1 true, .next 1 true, .next 1 true]

theorem switchedRun_snapshot : ∃ u base snap,
    exec duckStep (start (fun _ => full) true, fun _ => full) switchedRun = some (u, base) ∧
      u.slot = some snap ∧ snap.level = base snap.device := by
  obtain ⟨⟨u, base⟩, hrun, hslot⟩ : ∃ p, exec duckStep (start (fun _ => full) true, fun _ => full)
      switchedRun = some p ∧ p.1.slot.isSome = true := exec_evaluates (by decide +kernel)
  obtain ⟨snap, hsnap⟩ := Option.isSome_iff_exists.mp hslot
  have hfresh : Along duckStep (fun p e _ => readFresh p.1 e = true)
      (start (fun _ => full) true, fun _ => full) switchedRun := by decide +kernel
  exact ⟨u, base, snap, hrun, hsnap, (duck_is_undone _ _ hrun hfresh).1 snap hsnap⟩

/-- A set of `restore_inner` fails, and the slot is cleared all the same. -/
def failedRestore : List (Event Unit) :=
  [.applyDuck 0 (1 / 2), .next 0 true, .next 0 true, .next 0 true, .next 0 true,
    .restore 1, .next 1 true, .next 1 false]

/-- A second call reads the level that the first one ducked, and takes the lock after a
restore. -/
def staleReading : List (Event Unit) :=
  [.applyDuck 0 (1 / 2), .next 0 true, .next 0 true, .next 0 true, .next 0 true,
    .applyDuck 1 (1 / 2), .next 1 true, .next 1 true, .restore 2, .next 2 true, .next 2 true,
    .next 1 true, .next 1 true]

/-- The call an event belongs to. -/
def Event.call : Event D → Option ℕ
  | .applyDuck i _ | .restore i | .next i _ => some i
  | .switchDefault _ => none

theorem next_pc {s t : State D} {i : ℕ} {ok : Bool} (h : next s i ok = some t) :
    ∃ p, t.pc = Function.update s.pc i p := by
  cases hpc : s.pc i with
  | absent | returned result => simp [next, hpc] at h
  | applyStarted amount | applyDevice amount device =>
    simp only [next, hpc, Option.some.injEq] at h
    subst h
    exact ⟨_, rfl⟩
  | applyRead amount device current =>
    simp only [next, hpc, Option.ite_none_right_eq_some, Option.some.injEq] at h
    obtain ⟨_, rfl⟩ := h
    cases hslot : s.slot <;> simp only [applyLocked, hslot] <;> exact ⟨_, rfl⟩
  | restoreStarted =>
    simp only [next, hpc, Option.ite_none_right_eq_some, Option.some.injEq] at h
    obtain ⟨_, rfl⟩ := h
    cases hslot : s.slot <;> simp only [restoreLocked, hslot] <;> exact ⟨_, rfl⟩
  | reapplyGet device absolute =>
    simp only [next, hpc] at h
    cases ok with
    | false => exact Option.some.inj h ▸ ⟨_, rfl⟩
    | true =>
      by_cases hlt : absolute < s.vol device
      · rw [if_pos rfl, if_pos hlt, Option.some.injEq] at h
        exact h ▸ ⟨_, rfl⟩
      · rw [if_pos rfl, if_neg hlt, Option.some.injEq] at h
        exact h ▸ ⟨_, rfl⟩
  | reapplySet device absolute | applySet device absolute | restoreSet device level =>
    simp only [next, hpc] at h
    cases ok <;> exact Option.some.inj h ▸ ⟨_, rfl⟩

/-- A step moves no other call. -/
theorem step_frame {s t : State D} {e : Event D} {i : ℕ} (hi : e.call ≠ some i)
    (h : step s e = some t) : t.pc i = s.pc i := by
  cases e with
  | switchDefault device => exact Option.some.inj h ▸ rfl
  | applyDuck j amount | restore j =>
    simp only [step, Option.ite_none_right_eq_some, Option.some.injEq] at h
    obtain ⟨_, rfl⟩ := h
    exact Function.update_of_ne (fun hij => hi (congrArg some hij.symm)) _ _
  | next j ok =>
    obtain ⟨p, hp⟩ := next_pc h
    rw [hp]
    exact Function.update_of_ne (fun hij => hi (congrArg some hij.symm)) _ _

theorem exec_frame {s u : State D} {es : List (Event D)} {i : ℕ}
    (hi : ∀ e ∈ es, e.call ≠ some i) (h : exec step s es = some u) : u.pc i = s.pc i := by
  induction es generalizing s with
  | nil => exact Option.some.inj h ▸ rfl
  | cons e es ih =>
    obtain ⟨t, ht, hu⟩ := (exec_cons s u e es).mp h
    rw [ih (fun e he => hi e (List.mem_cons_of_mem _ he)) hu]
    exact step_frame (hi e List.mem_cons_self) ht

/-- After the failed restore a further one, whose controller calls all succeed, is later than
every duck and leaves the device ducked; and so does a restore after a stale reading, in a run
without any failure. -/
theorem last_restore_leaves_ducked :
    (¬∀ (vol : Unit → Level) r front back u v,
      exec step (start vol ()) front = some v →
      exec step (start vol ()) (front ++ .restore r :: back) = some u →
      (∀ i, ¬(v.pc i).Applying) → (∀ i amount, .applyDuck i amount ∉ back) →
      u.pc r = .returned true → u.vol = vol) ∧
    ∃ u, exec step (start (fun _ => full) ())
      (staleReading ++ [.restore 3, .next 3 true, .next 3 true]) = some u ∧
        u.pc 3 = .returned true ∧ u.vol () ≠ full := by
  refine ⟨fun h => ?_, exec_evaluates (by decide +kernel)⟩
  obtain ⟨v, hv, hpc0, hpc1⟩ : ∃ v, exec step (start (fun _ => full) ()) failedRestore = some v ∧
      v.pc 0 = .returned true ∧ v.pc 1 = .returned false := exec_evaluates (by decide +kernel)
  obtain ⟨u, hu, hret, hvol⟩ : ∃ u, exec step (start (fun _ => full) ())
      (failedRestore ++ [.restore 2, .next 2 true]) = some u ∧
        u.pc 2 = .returned true ∧ u.vol () ≠ full := exec_evaluates (by decide +kernel)
  have hquiet : ∀ i, ¬(v.pc i).Applying := by
    intro i
    by_cases h0 : i = 0
    · rw [h0, hpc0]
      exact id
    by_cases h1 : i = 1
    · rw [h1, hpc1]
      exact id
    have hcalls : ∀ e ∈ failedRestore, e.call = some 0 ∨ e.call = some 1 := by decide
    have hframe := exec_frame (i := i) (fun e he heq => ?_) hv
    · rw [hframe]
      exact id
    · obtain hc | hc := hcalls e he <;> rw [heq, Option.some.injEq] at hc
      · exact h0 hc
      · exact h1 hc
  have hall := h _ 2 failedRestore [.next 2 true] u v hv hu hquiet (by simp) hret
  exact hvol (congrFun hall ())

end YapStack.Volume
