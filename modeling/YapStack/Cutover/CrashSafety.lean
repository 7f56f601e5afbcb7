import YapStack.Cutover.Writes

set_option linter.unusedSectionVars false

namespace YapStack.Cutover

open YapStack.Files YapStack.Runs

variable {W κ : Type*} {s t : State W κ} {T : Tables W κ}

namespace State

/-- The places from which the database is opened. -/
def opens : Pc → Bool
  | .boot .openService | .cutover .reopen | .cutover .reopenAfter | .rollback .reopen => true
  | _ => false

def booting : Pc → Bool
  | .down | .boot _ => true
  | _ => false

/-- What a crash at any moment of the cutover, the rollback or the recovery must not break. -/
structure CrashSafe (s : State W κ) (e : Event W κ) (t : State W κ) : Prop where
  opened : opens s.pc = true → Holds s.files .live (Complete s.acked)
  survives : ∃ p, Holds t.files p (Complete t.acked)
  created : s.files .live = none → ∀ d, t.files .live = some d → d.form ≠ .created
  unchanged : booting s.pc = true → s.journal = none → t.files .live = s.files .live

/-- A run whose writes all fall outside the cutovers misses none of them. -/
def Calm (s : State W κ) : Prop := s.late = [] ∧ s.after = []

variable [DecidableEq κ]

theorem Calm.allowed {e : Event W κ} (h : Calm s) : Allowed contents s e := by
  have hcopied : ∀ d : Db W κ, contents.copied s.acked s.late d → Complete s.acked d := by
    rw [h.1]
    exact fun d => complete_of_copied
  have hkept : ∀ d : Db W κ, contents.kept s.acked s.after d → Complete s.acked d := by
    rw [h.2]
    exact fun d => complete_of_kept
  have hswapped : ∀ d : Db W κ,
      contents.swapped s.acked s.late s.after d → Complete s.acked d := by
    rw [h.1]
    exact fun d => complete_of_swapped
  unfold Allowed
  split
  · exact fun d => ⟨hcopied d, hkept d, hswapped d⟩
  · exact fun _ => hswapped
  · rw [h.2]
    exact fun d => ⟨complete_of_kept, copied_of_swapped⟩
  · exact fun _ => hcopied
  · trivial

/-- What a crash would leave is what is there. -/
theorem Places.settled_or_gap {r : Roles W κ} (h : Places r s) (hal : Allowed r s .crash) :
    Settled r s ∨ Gap r s (r.data s.acked) :=
  crash_places h hal

theorem Places.live_of_opens {r : Roles W κ} (h : Places r s) (ho : opens s.pc = true) :
    s.files .live ≠ none := by
  unfold opens at ho
  split at ho
  · rename_i hpc
    simp only [Places, hpc] at h
    exact Holds.ne_none h
  · rename_i hpc
    simp only [Places, hpc] at h
    exact h.1.ne_none
  · rename_i hpc
    simp only [Places, hpc] at h
    exact Holds.ne_none h
  · rename_i hpc
    simp only [Places, hpc] at h
    exact Holds.ne_none h
  · cases ho

theorem Places.settled_of_opens {r : Roles W κ} (h : Places r s) (hal : Allowed r s .crash)
    (ho : opens s.pc = true) : Settled r s :=
  (h.settled_or_gap hal).resolve_right (fun hg => h.live_of_opens ho hg.1)

omit [DecidableEq κ] in
theorem recover_unchanged {r : Roles W κ} {p : BootPc} {e : Event W κ}
    (h : placesBoot r s p) (hj : s.journal = none) (ht : s.recover T p e = some t) :
    t.files .live = s.files .live := by
  unfold State.recover at ht
  split at ht
  · exact absurd hj h.1.2.2.1
  · exact absurd hj h.2.2.1
  · exact absurd hj h.1.2.2.1
  · rename_i ok
    cases ok <;> exact Option.some.inj ht ▸ rfl
  · rename_i ok
    obtain rfl := Option.some.inj ht
    cases ok with
    | false => rfl
    | true => exact congrFun (T.poolOpen_of_ne_none (Holds.ne_none h)) .live
  · cases ht

/-- With the journal gone a boot leaves the live file alone. -/
theorem Places.boot_unchanged [DecidableEq W] {r : Roles W κ} {e : Event W κ} (h : Places r s)
    (hb : booting s.pc = true) (hj : s.journal = none) (ht : step T s e = some t) :
    t.files .live = s.files .live := by
  rcases step_cases ht with ⟨rfl, rfl⟩ | ⟨w, rfl, rfl⟩ | ⟨w, ok, rfl, hserves, -⟩ |
    ⟨p, rfl, -, rfl⟩ | ⟨answered, rfl, hpc, -⟩ | ⟨p, hpc, -⟩ | ⟨p, hpc, -⟩ | ⟨p, hpc, ht⟩
  · rfl
  · unfold State.call
    split <;> rfl
  · cases hpc : s.pc <;> simp [hpc, booting, serves] at hb hserves
  · rfl
  · simp [hpc, booting] at hb
  · simp [hpc, booting] at hb
  · simp [hpc, booting] at hb
  · simp only [Places, hpc] at h
    exact recover_unchanged h hj ht

omit [DecidableEq κ] in
theorem Calm.vacuumInto {ok : Bool} (h : Calm s) : Calm (s.vacuumInto ok) := by
  unfold State.vacuumInto
  split
  · exact ⟨rfl, h.2⟩
  · exact h

omit [DecidableEq κ] in
theorem Calm.closeForSwap {ok : Bool} (h : Calm s) : Calm (s.closeForSwap ok) := by
  unfold State.closeForSwap
  split <;> exact h

omit [DecidableEq κ] in
theorem Calm.prepareStaging {rows : κ} (h : Calm s) (ht : s.prepareStaging rows = some t) :
    Calm t := by
  unfold State.prepareStaging at ht
  split at ht
  · cases ht
  · exact Option.some.inj ht ▸ h

theorem cutoverWithFault_calm {p : CutoverPc} {e : Event W κ} (h : Calm s)
    (ht : s.cutoverWithFault T p e = some t) : Calm t := by
  unfold State.cutoverWithFault at ht
  split at ht
  · rename_i ok
    cases ok <;> exact Option.some.inj ht ▸ h
  · split at ht <;> exact Option.some.inj ht ▸ h
  · exact Option.some.inj ht ▸ h.vacuumInto
  · exact h.prepareStaging ht
  · exact Option.some.inj ht ▸ h
  · exact Option.some.inj ht ▸ h
  · exact Option.some.inj ht ▸ h.closeForSwap
  · rename_i stamp ok
    cases ok <;> exact Option.some.inj ht ▸ h
  · rename_i ok
    cases ok <;> exact Option.some.inj ht ▸ h
  · rename_i ok
    cases ok <;> exact Option.some.inj ht ▸ h
  · rename_i ok
    cases ok <;> exact Option.some.inj ht ▸ h
  · rename_i ok
    split at ht
    · cases ok <;> exact Option.some.inj ht ▸ ⟨h.1, rfl⟩
    · exact Option.some.inj ht ▸ h
  · rename_i ok
    cases ok <;> exact Option.some.inj ht ▸ h
  · rename_i ok
    cases ok <;> exact Option.some.inj ht ▸ h
  · rename_i ok
    cases ok <;> exact Option.some.inj ht ▸ h
  · exact Option.some.inj ht ▸ h
  · rename_i ok
    cases ok <;> exact Option.some.inj ht ▸ h
  · rename_i ok
    cases ok <;> exact Option.some.inj ht ▸ h
  · rename_i ok
    cases ok <;> exact Option.some.inj ht ▸ h
  · rename_i ok
    cases ok <;> exact Option.some.inj ht ▸ h
  · cases ht

omit [DecidableEq κ] in
theorem rollbackToBackup_calm {p : RollbackPc} {e : Event W κ} (h : Calm s)
    (ht : s.rollbackToBackup T p e = some t) : Calm t := by
  unfold State.rollbackToBackup at ht
  split at ht
  · exact Option.some.inj ht ▸ h
  · exact Option.some.inj ht ▸ h
  · rename_i ok
    cases ok <;> exact Option.some.inj ht ▸ h
  · rename_i ok
    cases ok <;> exact Option.some.inj ht ▸ h
  · rename_i moved ok
    cases ok <;> exact Option.some.inj ht ▸ h
  · rename_i ok
    cases ok <;> exact Option.some.inj ht ▸ h
  · rename_i ok
    cases ok <;> exact Option.some.inj ht ▸ h
  · rename_i ok
    cases ok <;> exact Option.some.inj ht ▸ h
  · rename_i ok
    cases ok <;> exact Option.some.inj ht ▸ h
  · cases ht

omit [DecidableEq κ] in
theorem recover_calm {p : BootPc} {e : Event W κ} (h : Calm s)
    (ht : s.recover T p e = some t) : Calm t := by
  unfold State.recover at ht
  split at ht
  · rename_i ok
    cases ok <;> exact Option.some.inj ht ▸ h
  · split at ht <;> exact Option.some.inj ht ▸ h
  · rename_i ok
    cases ok <;> exact Option.some.inj ht ▸ h
  · rename_i ok
    cases ok <;> exact Option.some.inj ht ▸ h
  · rename_i ok
    cases ok <;> exact Option.some.inj ht ▸ h
  · cases ht

variable [DecidableEq W]

omit [DecidableEq κ] in
theorem execute_calm {w : W} {ok : Bool} (h : Calm s) (hpc : s.pc = .idle)
    (ht : s.execute T w ok = some t) : Calm t := by
  rcases execute_cases ht with rfl | ⟨d, -, -, rfl⟩
  · exact h
  · simpa only [Calm, commit, hpc, copying, unverified, Bool.false_eq_true, if_false] using h

theorem step_calm {e : Event W κ} (h : Calm s) (ho : Outside s e) (ht : step T s e = some t) :
    Calm t := by
  rcases step_cases ht with ⟨rfl, rfl⟩ | ⟨w, rfl, rfl⟩ | ⟨w, ok, rfl, -, ht⟩ |
    ⟨p, rfl, -, rfl⟩ | ⟨answered, rfl, -, rfl⟩ | ⟨p, -, ht⟩ | ⟨p, -, ht⟩ | ⟨p, -, ht⟩
  · exact h
  · unfold State.call
    split <;> exact h
  · exact execute_calm h ho ht
  · exact h
  · unfold State.enable
    split
    · exact h
    · split <;> exact h
  · exact cutoverWithFault_calm h ht
  · exact rollbackToBackup_calm h ht
  · exact recover_calm h ht

/-- The runs of the crash argument: the operations that restore an empty live path work, and
the app writes outside the cutovers. -/
def CrashOnly (s : State W κ) (e : Event W κ) (_ : State W κ) : Prop :=
  RestoreOk s e ∧ Outside s e

instance (s : State W κ) (e : Event W κ) (t : State W κ) : Decidable (CrashOnly s e t) :=
  inferInstanceAs (Decidable (RestoreOk s e ∧ Outside s e))

def Recoverable (s : State W κ) : Prop := Whole s ∧ Calm s

theorem step_recoverable {e : Event W κ} (h : Recoverable s) (hg : CrashOnly s e t)
    (ht : step T s e = some t) : Recoverable t :=
  ⟨⟨step_places (contents_grows T) h.1.1 h.1.2 hg.1 h.2.allowed ht, step_quiesced h.1.2 ht⟩,
    step_calm h.2 hg.2 ht⟩

theorem Recoverable.settled_or_gap (h : Recoverable s) :
    Settled contents s ∨ Gap contents s (Complete s.acked) :=
  h.1.1.settled_or_gap h.2.allowed

theorem Recoverable.survives (h : Recoverable s) : ∃ p, Holds s.files p (Complete s.acked) := by
  rcases h.settled_or_gap with hlive | hgap
  · exact ⟨.live, hlive⟩
  · exact ⟨.backup, hgap.2.1⟩

theorem Recoverable.live_complete {d : Db W κ} (h : Recoverable s)
    (hd : s.files .live = some d) : Complete s.acked d := by
  rcases h.settled_or_gap with ⟨d', hd', hdata⟩ | hgap
  · exact Option.some.inj (hd.symm.trans hd') ▸ hdata
  · exact absurd (hd.symm.trans hgap.1) (by rintro ⟨⟩)

theorem step_crashSafe {e : Event W κ} (h : Recoverable s) (hg : CrashOnly s e t)
    (ht : step T s e = some t) : CrashSafe s e t where
  opened := h.1.1.settled_of_opens h.2.allowed
  survives := (step_recoverable h hg ht).survives
  created _ d hd hform := by
    rcases ((step_recoverable h hg ht).live_complete hd).1 with hf | hf
    · exact absurd (hf.symm.trans hform) (by rintro ⟨⟩)
    · exact absurd (hf.symm.trans hform) (by rintro ⟨⟩)
  unchanged hb hj := h.1.1.boot_unchanged hb hj ht

/-- Whatever is interrupted by whatever crashes, the database is only ever opened on the
user's complete data, a complete copy is there at every moment, no empty database takes its
place, and a boot without a journal changes nothing. -/
theorem cutover_crash_safe (T : Tables W κ) {s₀ : State W κ} {as : List (Event W κ)}
    (hdown : s₀.pc = .down) (hlive : Holds s₀.files .live (Complete s₀.acked))
    (hcalm : Calm s₀) (hg : Along (step T) CrashOnly s₀ as) :
    Along (step T) CrashSafe s₀ as := by
  have hstep : ∀ s e t, Recoverable s → CrashOnly s e t → step T s e = some t →
      Recoverable t := fun _ _ _ h hg ht => step_recoverable h hg ht
  have hout : ∀ s e t, Recoverable s → CrashOnly s e t → step T s e = some t →
      CrashSafe s e t := fun _ _ _ h hg ht => step_crashSafe h hg ht
  have hinit : Recoverable s₀ := by
    refine ⟨⟨?_, quiesced_of_still (by simp [hdown, moving])⟩, hcalm⟩
    simp only [Places, hdown]
    exact Or.inl hlive
  exact along_of_invariant hstep hout hinit hg

def installed : State ℕ ℕ := { running with pc := .down, pool := false }

def bootUp : Event ℕ ℕ := .boot ⟨true, true, true⟩

/-- A crash between the two renames, and another one inside the recovery. -/
def crashingCutover : List (Event ℕ ℕ) :=
  [bootUp, .go true] ++ oneWrite 0 ++ copyLive 2 ++ quiesce ++
    [.moveAside 0 true, .go true, .go true, .crash, bootUp, .go true, .crash, bootUp, .go true,
      .go true, .enable true]

theorem cutover_crash_safe_crashing :
    (∃ u, exec (step tables) installed crashingCutover = some u ∧ u.pc = .idle) ∧
      Along (step tables) CrashSafe installed crashingCutover :=
  ⟨exec_evaluates (by decide +kernel),
    cutover_crash_safe tables rfl (by decide) ⟨rfl, rfl⟩ (by decide +kernel)⟩

end State

end YapStack.Cutover
