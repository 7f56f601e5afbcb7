import YapStack.Volume.Duck

set_option linter.unusedSectionVars false

namespace YapStack.Volume

open Runs

variable {D : Type} [DecidableEq D] {s t : State D} {base : D → Level} {i j : ℕ} {ok : Bool}
variable {snap : Snapshot D} {p : Pc D}

/-- The device of a snapshot is at most at the level recorded, all others are at their own. -/
def Ducked (s : State D) (base : D → Level) (snap : Snapshot D) : Prop :=
  snap.level = base snap.device ∧ s.vol snap.device ≤ snap.level ∧
    ∀ d, d ≠ snap.device → s.vol d = base d

/-- What the slot says when no call is inside the lock. -/
structure Kept (s : State D) (base : D → Level) : Prop where
  settled : s.slot = none → s.vol = base
  ducked : ∀ snap, s.slot = some snap → Ducked s base snap

/-- What the call inside the lock relies on. -/
def Inside (s : State D) (base : D → Level) : Pc D → Prop
  | .reapplyGet device absolute =>
    ∃ level, s.slot = some ⟨device, level⟩ ∧ Ducked s base ⟨device, level⟩ ∧ absolute ≤ level
  | .reapplySet device absolute =>
    ∃ level, s.slot = some ⟨device, level⟩ ∧ Ducked s base ⟨device, level⟩ ∧
      absolute ≤ s.vol device
  | .applySet device absolute =>
    s.slot = some ⟨device, base device⟩ ∧ s.vol = base ∧ absolute ≤ base device
  | .restoreSet device level => s.slot = none ∧ Ducked s base ⟨device, level⟩
  | _ => False

structure Inv (s : State D) (base : D → Level) : Prop where
  others : ∀ i, s.holder ≠ some i → ¬(s.pc i).Locked
  free : s.holder = none → Kept s base
  inside : ∀ i, s.holder = some i → Inside s base (s.pc i)

theorem start_inv (vol : D → Level) (default : D) : Inv (start vol default) vol where
  others := fun _ _ h => h
  free := fun _ => ⟨fun _ => rfl, fun _ h => by simp [start] at h⟩
  inside := fun _ h => by simp [start] at h

theorem locked_of_inside (h : Inside s base p) : p.Locked := by
  cases p <;> trivial

theorem ducked_le (h : Ducked s base snap) (d : D) : s.vol d ≤ base d := by
  obtain ⟨hlevel, hle, hother⟩ := h
  by_cases hd : d = snap.device
  · rw [hd, ← hlevel]
    exact hle
  · exact (hother d hd).le

theorem Inv.le (h : Inv s base) (d : D) : s.vol d ≤ base d := by
  cases hholder : s.holder with
  | none =>
    obtain ⟨hsettled, hducked⟩ := h.free hholder
    cases hslot : s.slot with
    | none => rw [hsettled hslot]
    | some snap => exact ducked_le (hducked snap hslot) d
  | some i =>
    have hin := h.inside i hholder
    cases hpc : s.pc i with
    | reapplyGet device absolute | reapplySet device absolute =>
      rw [hpc] at hin
      obtain ⟨level, _, hd, _⟩ := hin
      exact ducked_le hd d
    | applySet device absolute =>
      rw [hpc] at hin
      rw [hin.2.1]
    | restoreSet device level =>
      rw [hpc] at hin
      exact ducked_le hin.2 d
    | _ =>
      rw [hpc] at hin
      exact hin.elim

theorem Inv.slot_level (h : Inv s base) (hslot : s.slot = some snap) :
    snap.level = base snap.device := by
  cases hholder : s.holder with
  | none => exact ((h.free hholder).ducked snap hslot).1
  | some i =>
    have hin := h.inside i hholder
    cases hpc : s.pc i with
    | reapplyGet device absolute | reapplySet device absolute =>
      rw [hpc] at hin
      obtain ⟨level, hs, hd, _⟩ := hin
      obtain rfl := Option.some.inj (hs.symm.trans hslot)
      exact hd.1
    | applySet device absolute =>
      rw [hpc] at hin
      obtain rfl := Option.some.inj (hin.1.symm.trans hslot)
      rfl
    | restoreSet device level =>
      rw [hpc] at hin
      simp [hin.1] at hslot
    | _ =>
      rw [hpc] at hin
      exact hin.elim

/-- A call outside the lock goes on without touching it. -/
theorem Inv.goto (h : Inv s base) (hi : ¬(s.pc i).Locked) (hp : ¬p.Locked) :
    Inv (s.goto i p) base := by
  have hholder : ∀ j, s.holder = some j → j ≠ i := by
    rintro j hj rfl
    exact hi (locked_of_inside (h.inside j hj))
  refine ⟨fun j hj => ?_, fun hfree => ?_, fun j hj => ?_⟩
  · by_cases hji : j = i
    · simpa [State.goto, hji] using hp
    · simpa [State.goto, hji] using h.others j hj
  · obtain ⟨hsettled, hducked⟩ := h.free hfree
    exact ⟨hsettled, hducked⟩
  · have hin := h.inside j hj
    simp only [State.goto, Function.update_of_ne (hholder j hj)]
    exact hin

/-- A call takes the lock, or goes on inside it. -/
theorem inv_inside (hothers : ∀ j, j ≠ i → ¬(s.pc j).Locked) (hholder : t.holder = some i)
    (hpc : t.pc = Function.update s.pc i p) (hin : Inside t base p) : Inv t base := by
  refine ⟨fun j hj => ?_, fun hfree => ?_, fun j hj => ?_⟩
  · have hji : j ≠ i := by
      rintro rfl
      exact hj hholder
    rw [hpc, Function.update_of_ne hji]
    exact hothers j hji
  · simp [hholder] at hfree
  · obtain rfl := Option.some.inj (hholder.symm.trans hj)
    rwa [hpc, Function.update_self]

/-- The call inside the lock returns. -/
theorem inv_leave (hothers : ∀ j, j ≠ i → ¬(s.pc j).Locked) (hkept : Kept s base) :
    Inv (s.leave i ok) base := by
  refine ⟨fun j _ => ?_, fun _ => ⟨hkept.settled, hkept.ducked⟩, fun j hj => ?_⟩
  · by_cases hji : j = i
    · simp [State.leave, State.goto, hji, Pc.Locked]
    · simpa [State.leave, State.goto, hji] using hothers j hji
  · simp [State.leave] at hj

theorem Inv.holder_of_locked (h : Inv s base) (hi : (s.pc i).Locked) : s.holder = some i := by
  by_contra hne
  exact h.others i hne hi

theorem Inv.others_of_holder (h : Inv s base) (hi : s.holder = some i) (hji : j ≠ i) :
    ¬(s.pc j).Locked := by
  refine h.others j (fun hj => hji ?_)
  exact Option.some.inj (hj.symm.trans hi)

theorem applyLocked_inv (h : Inv s base) (hfree : s.holder = none) {amount : ℚ} {device : D}
    {current : Level} (hfresh : s.slot = none → current = s.vol device) :
    Inv (applyLocked s i amount device current) base := by
  obtain ⟨hsettled, hducked⟩ := h.free hfree
  have hothers : ∀ j, j ≠ i → ¬(s.pc j).Locked := fun j _ => h.others j (by simp [hfree])
  cases hslot : s.slot with
  | none =>
    have hvol := hsettled hslot
    have hcurrent : current = base device := (hfresh hslot).trans (congrFun hvol device)
    simp only [applyLocked, hslot]
    refine inv_inside hothers rfl rfl ⟨?_, hvol, ?_⟩
    · rw [← hcurrent]
      rfl
    · rw [← hcurrent]
      exact lowered_le current amount
  | some snapped =>
    simp only [applyLocked, hslot]
    refine inv_inside hothers rfl rfl ⟨snapped.level, ?_, ?_, lowered_le _ amount⟩
    · rfl
    · exact hducked snapped hslot

theorem restoreLocked_inv (h : Inv s base) (hfree : s.holder = none) (hi : ¬(s.pc i).Locked) :
    Inv (restoreLocked s i) base := by
  obtain ⟨hsettled, hducked⟩ := h.free hfree
  cases hslot : s.slot with
  | none =>
    simp only [restoreLocked, hslot]
    exact h.goto hi id
  | some snapped =>
    simp only [restoreLocked, hslot]
    refine inv_inside (fun j _ => h.others j (by simp [hfree])) rfl rfl ⟨rfl, ?_⟩
    exact hducked snapped hslot

/-- A device that was ducked is set to a level up to its own. -/
theorem Ducked.set (h : Ducked s base snap) {level : Level} (hle : level ≤ snap.level) :
    Ducked (s.set snap.device level) base snap := by
  obtain ⟨hlevel, _, hother⟩ := h
  refine ⟨hlevel, ?_, fun d hd => ?_⟩
  · simpa [State.set] using hle
  · simpa [State.set, hd] using hother d hd

theorem kept_of_slot (hslot : s.slot = some snap) (h : Ducked s base snap) :
    Kept s base where
  settled := fun hnone => by simp [hslot] at hnone
  ducked := fun snap' h' => by
    obtain rfl := Option.some.inj (hslot.symm.trans h')
    exact h

theorem next_inv (h : Inv s base) (hfresh : readFresh s (.next i ok) = true)
    (hstep : next s i ok = some t) : Inv t (rebase base s (.next i ok)) := by
  have hbase : (∀ d l, s.pc i ≠ .restoreSet d l) → rebase base s (.next i ok) = base := by
    intro hne
    cases ok with
    | true => rfl
    | false =>
      cases hpc : s.pc i with
      | restoreSet d l => exact absurd hpc (hne d l)
      | _ => simp [rebase, hpc]
  cases hpc : s.pc i with
  | absent | returned r => simp [next, hpc] at hstep
  | applyStarted amount =>
    rw [hbase (by simp [hpc])]
    simp only [next, hpc, Option.some.injEq] at hstep
    subst hstep
    refine h.goto (by simp [hpc, Pc.Locked]) ?_
    cases ok <;> exact id
  | applyDevice amount device =>
    rw [hbase (by simp [hpc])]
    simp only [next, hpc, Option.some.injEq] at hstep
    subst hstep
    refine h.goto (by simp [hpc, Pc.Locked]) ?_
    cases ok <;> exact id
  | applyRead amount device current =>
    rw [hbase (by simp [hpc])]
    simp only [next, hpc, Option.ite_none_right_eq_some, Option.some.injEq] at hstep
    obtain ⟨hfree, rfl⟩ := hstep
    simp only [readFresh, hpc, Bool.or_eq_true, decide_eq_true_eq] at hfresh
    refine applyLocked_inv h hfree (fun hslot => hfresh.resolve_left ?_)
    simp [hslot]
  | restoreStarted =>
    rw [hbase (by simp [hpc])]
    simp only [next, hpc, Option.ite_none_right_eq_some, Option.some.injEq] at hstep
    obtain ⟨hfree, rfl⟩ := hstep
    exact restoreLocked_inv h hfree (by simp [hpc, Pc.Locked])
  | reapplyGet device absolute =>
    rw [hbase (by simp [hpc])]
    have hholder := h.holder_of_locked (i := i) (by simp [hpc, Pc.Locked])
    have hothers : ∀ j, j ≠ i → ¬(s.pc j).Locked := fun j => h.others_of_holder hholder
    have hin := h.inside i hholder
    rw [hpc] at hin
    obtain ⟨level, hslot, hducked, habs⟩ := hin
    simp only [next, hpc] at hstep
    cases ok with
    | false =>
      obtain rfl := Option.some.inj hstep
      exact inv_leave hothers (kept_of_slot hslot hducked)
    | true =>
      by_cases hlt : absolute < s.vol device
      · rw [if_pos rfl, if_pos hlt, Option.some.injEq] at hstep
        subst hstep
        exact inv_inside hothers hholder rfl ⟨level, hslot, hducked, hlt.le⟩
      · rw [if_pos rfl, if_neg hlt, Option.some.injEq] at hstep
        subst hstep
        exact inv_leave hothers (kept_of_slot hslot hducked)
  | reapplySet device absolute =>
    rw [hbase (by simp [hpc])]
    have hholder := h.holder_of_locked (i := i) (by simp [hpc, Pc.Locked])
    have hothers : ∀ j, j ≠ i → ¬(s.pc j).Locked := fun j => h.others_of_holder hholder
    have hin := h.inside i hholder
    rw [hpc] at hin
    obtain ⟨level, hslot, hducked, habs⟩ := hin
    simp only [next, hpc] at hstep
    cases ok with
    | false =>
      obtain rfl := Option.some.inj hstep
      exact inv_leave hothers (kept_of_slot hslot hducked)
    | true =>
      obtain rfl := Option.some.inj hstep
      have hset := hducked.set (habs.trans hducked.2.1)
      exact inv_leave hothers (kept_of_slot hslot hset)
  | applySet device absolute =>
    rw [hbase (by simp [hpc])]
    have hholder := h.holder_of_locked (i := i) (by simp [hpc, Pc.Locked])
    have hothers : ∀ j, j ≠ i → ¬(s.pc j).Locked := fun j => h.others_of_holder hholder
    have hin := h.inside i hholder
    rw [hpc] at hin
    obtain ⟨hslot, hvol, habs⟩ := hin
    simp only [next, hpc] at hstep
    cases ok with
    | false =>
      obtain rfl := Option.some.inj hstep
      exact inv_leave hothers ⟨fun _ => hvol, fun _ hnone => by simp at hnone⟩
    | true =>
      obtain rfl := Option.some.inj hstep
      have hducked : Ducked s base ⟨device, base device⟩ :=
        ⟨rfl, (congrFun hvol device).le, fun d _ => congrFun hvol d⟩
      exact inv_leave hothers (kept_of_slot hslot (hducked.set habs))
  | restoreSet device level =>
    have hholder := h.holder_of_locked (i := i) (by simp [hpc, Pc.Locked])
    have hothers : ∀ j, j ≠ i → ¬(s.pc j).Locked := fun j => h.others_of_holder hholder
    have hin := h.inside i hholder
    rw [hpc] at hin
    obtain ⟨hslot, hlevel, _, hother⟩ := hin
    simp only [next, hpc] at hstep
    cases ok with
    | false =>
      obtain rfl := Option.some.inj hstep
      refine inv_leave hothers ⟨fun _ => ?_, fun snap hs => by simp [hslot] at hs⟩
      funext d
      by_cases hd : d = device
      · simp [rebase, hpc, hd]
      · simpa [rebase, hpc, hd] using hother d hd
    | true =>
      obtain rfl := Option.some.inj hstep
      refine inv_leave hothers ⟨fun _ => ?_, fun snap hs => by simp [State.set, hslot] at hs⟩
      funext d
      by_cases hd : d = device
      · subst hd
        simpa [State.set, rebase] using hlevel
      · simpa [State.set, rebase, hd] using hother d hd

theorem step_inv (h : Inv s base) {e : Event D} (hfresh : readFresh s e = true)
    (hstep : step s e = some t) : Inv t (rebase base s e) := by
  cases e with
  | next i ok => exact next_inv h hfresh hstep
  | switchDefault device =>
    obtain rfl := Option.some.inj hstep
    exact ⟨h.others, fun hfree => ⟨(h.free hfree).settled, (h.free hfree).ducked⟩, h.inside⟩
  | applyDuck i amount | restore i =>
    simp only [step, Option.ite_none_right_eq_some, Option.some.injEq] at hstep
    obtain ⟨habsent, rfl⟩ := hstep
    exact h.goto (by simp [habsent, Pc.Locked]) id

theorem Inv.setting_le (h : Inv s base) {device : D} {absolute : Level}
    (hi : s.pc i = .applySet device absolute ∨ s.pc i = .reapplySet device absolute) :
    absolute ≤ s.vol device := by
  obtain hpc | hpc := hi
  · have hin := h.inside i (h.holder_of_locked (by simp [hpc, Pc.Locked]))
    rw [hpc] at hin
    exact hin.2.2.trans (congrFun hin.2.1 device).ge
  · have hin := h.inside i (h.holder_of_locked (by simp [hpc, Pc.Locked]))
    rw [hpc] at hin
    obtain ⟨_, _, _, habs⟩ := hin
    exact habs

theorem vol_set_le {device : D} {level : Level} (h : level ≤ s.vol device) (d : D) :
    (s.set device level).vol d ≤ s.vol d := by
  by_cases hd : d = device
  · subst hd
    simpa [State.set] using h
  · simp [State.set, hd]

/-- A set made by `apply_duck_inner` raises no device. -/
theorem duckSet_le (h : Inv s base) {e : Event D} (hstep : step s e = some t)
    (he : IsDuckSet s e) (d : D) : t.vol d ≤ s.vol d := by
  cases e with
  | applyDuck i amount | restore i | switchDefault device => exact he.elim
  | next i ok =>
    cases hpc : s.pc i with
    | applySet device absolute =>
      simp only [step, next, hpc] at hstep
      cases ok with
      | false =>
        obtain rfl := Option.some.inj hstep
        exact le_refl _
      | true =>
        obtain rfl := Option.some.inj hstep
        exact vol_set_le (h.setting_le (Or.inl hpc)) d
    | reapplySet device absolute =>
      simp only [step, next, hpc] at hstep
      cases ok with
      | false =>
        obtain rfl := Option.some.inj hstep
        exact le_refl _
      | true =>
        obtain rfl := Option.some.inj hstep
        exact vol_set_le (h.setting_le (Or.inr hpc)) d
    | _ => simp [IsDuckSet, hpc] at he

/-- The slot is empty, and no call but `r` holds what was in it. -/
def Emptied (r : ℕ) (s : State D) : Prop :=
  s.slot = none ∧ ∀ i, i ≠ r → ∀ d l, s.pc i ≠ .restoreSet d l

/-- No call of `apply_duck_inner` is under way, and once `r` has had the lock the slot is
empty. -/
structure Last (r : ℕ) (s : State D) : Prop where
  quiet : ∀ i, ¬(s.pc i).Applying
  emptied : s.pc r = .absent ∨ s.pc r = .restoreStarted ∨ Emptied r s

theorem quiet_update (h : ∀ i, ¬(s.pc i).Applying) (hp : ¬p.Applying) (i j : ℕ) :
    ¬(Function.update s.pc i p j).Applying := by
  by_cases hji : j = i
  · rw [hji, Function.update_self]
    exact hp
  · rw [Function.update_of_ne hji]
    exact h j

theorem emptied_update {r : ℕ} (h : ∀ i, i ≠ r → ∀ d l, s.pc i ≠ .restoreSet d l)
    (hp : i = r ∨ ∀ d l, p ≠ .restoreSet d l) (j : ℕ) (hj : j ≠ r) (d : D) (l : Level) :
    Function.update s.pc i p j ≠ .restoreSet d l := by
  by_cases hji : j = i
  · rw [hji, Function.update_self]
    exact hp.resolve_left (hji ▸ hj) d l
  · rw [Function.update_of_ne hji]
    exact h j hj d l

theorem restoreLocked_last {r : ℕ} (h : Last r s) (hinv : Inv s base) (hfree : s.holder = none) :
    Last r (restoreLocked s i) := by
  have hunlocked : ∀ j, j ≠ r → ∀ d l, s.pc j ≠ .restoreSet d l := by
    intro j _ d l hpc
    exact hinv.others j (by simp [hfree]) (by simp [hpc, Pc.Locked])
  cases hslot : s.slot with
  | none =>
    simp only [restoreLocked, hslot]
    refine ⟨fun j => quiet_update h.quiet id i j, Or.inr (Or.inr ⟨hslot, ?_⟩)⟩
    exact emptied_update hunlocked (Or.inr (by simp))
  | some snapped =>
    simp only [restoreLocked, hslot]
    refine ⟨fun j => quiet_update h.quiet id i j, ?_⟩
    by_cases hir : i = r
    · exact Or.inr (Or.inr ⟨rfl, emptied_update hunlocked (Or.inl hir)⟩)
    · obtain hr | hr | hr := h.emptied
      · exact Or.inl (by simpa [State.goto, Ne.symm hir] using hr)
      · exact Or.inr (Or.inl (by simpa [State.goto, Ne.symm hir] using hr))
      · simp [hr.1] at hslot

theorem leave_last {r : ℕ} (h : Last r s) (vol : D → Level) {d : D} {l : Level}
    (hpc : s.pc i = .restoreSet d l) : Last r ({ s with vol := vol }.leave i ok) := by
  refine ⟨fun j => quiet_update h.quiet id i j, ?_⟩
  by_cases hir : i = r
  · subst hir
    obtain hr | hr | hr := h.emptied
    · simp [hpc] at hr
    · simp [hpc] at hr
    · exact Or.inr (Or.inr ⟨hr.1, emptied_update hr.2 (Or.inl rfl)⟩)
  · refine h.emptied.imp ?_ (Or.imp ?_ ?_)
    · simp [State.leave, State.goto, Ne.symm hir]
    · simp [State.leave, State.goto, Ne.symm hir]
    · exact fun hr => ⟨hr.1, emptied_update hr.2 (Or.inr (by simp))⟩

theorem step_last {r : ℕ} (h : Last r s) (hinv : Inv s base) {e : Event D}
    (he : ∀ i amount, e ≠ .applyDuck i amount) (hstep : step s e = some t) : Last r t := by
  cases e with
  | applyDuck i amount => exact absurd rfl (he i amount)
  | switchDefault device =>
    obtain rfl := Option.some.inj hstep
    exact ⟨h.quiet, h.emptied⟩
  | restore i =>
    simp only [step, Option.ite_none_right_eq_some, Option.some.injEq] at hstep
    obtain ⟨_, rfl⟩ := hstep
    refine ⟨fun j => quiet_update h.quiet id i j, ?_⟩
    by_cases hir : i = r
    · exact Or.inr (Or.inl (by simp [State.goto, hir]))
    · refine h.emptied.imp ?_ (Or.imp ?_ ?_)
      · simp [State.goto, Ne.symm hir]
      · simp [State.goto, Ne.symm hir]
      · exact fun hr => ⟨hr.1, emptied_update hr.2 (Or.inr (by simp))⟩
  | next i ok =>
    have hquiet := h.quiet i
    cases hpc : s.pc i with
    | restoreStarted =>
      simp only [step, next, hpc, Option.ite_none_right_eq_some, Option.some.injEq] at hstep
      obtain ⟨hfree, rfl⟩ := hstep
      exact restoreLocked_last h hinv hfree
    | restoreSet device level =>
      simp only [step, next, hpc] at hstep
      cases ok with
      | false =>
        obtain rfl := Option.some.inj hstep
        exact leave_last h s.vol hpc
      | true =>
        obtain rfl := Option.some.inj hstep
        exact leave_last h _ hpc
    | absent | returned result => simp [step, next, hpc] at hstep
    | _ =>
      rw [hpc] at hquiet
      exact absurd trivial hquiet

/-- When the last call has restored the slot, every device is at its own level. -/
theorem Last.restored {r : ℕ} (h : Last r s) (hinv : Inv s base) {result : Bool}
    (hr : s.pc r = .returned result) : s.vol = base := by
  obtain habsent | hstarted | ⟨hslot, hothers⟩ := h.emptied
  · simp [hr] at habsent
  · simp [hr] at hstarted
  · cases hholder : s.holder with
    | none => exact (hinv.free hholder).settled hslot
    | some i =>
      have hin := hinv.inside i hholder
      have hquiet := h.quiet i
      cases hpc : s.pc i with
      | restoreSet d l =>
        by_cases hir : i = r
        · simp [← hir, hpc] at hr
        · exact absurd hpc (hothers i hir d l)
      | _ =>
        rw [hpc] at hin hquiet
        first
          | exact hin.elim
          | exact absurd trivial hquiet

end YapStack.Volume
