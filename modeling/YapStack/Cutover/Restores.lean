import YapStack.Cutover.CrashSafety

set_option linter.unusedSectionVars false

namespace YapStack.Cutover

open YapStack.Files YapStack.Runs

variable {W κ : Type*} {s t : State W κ} {T : Tables W κ}

/-- Every place of the swap holds data of the user. -/
def presence : Roles W κ where
  data _ := UserData
  copied _ _ := UserData
  kept _ _ := UserData
  swapped _ _ _ := UserData
  copy _ _ _ _ := Or.inr rfl
  keep _ _ h := h
  swap _ _ _ h := h

theorem presence_grows (T : Tables W κ) : (presence (W := W) (κ := κ)).Grows T where
  data _ _ _ h := h
  copied _ _ _ _ h := h
  kept _ _ _ _ h := h
  swapped _ _ _ _ _ h := h

def isBackup : Path → Bool
  | .backup | .aside _ => true
  | _ => false

namespace State

/-- What no pattern of failing file operations may do. -/
structure SafeRestore (s : State W κ) (e : Event W κ) (t : State W κ) : Prop where
  opened : opens s.pc = true →
    (∃ p ∈ [Path.backup, .staging, .failed, .recoverTmp], Holds s.files p UserData) →
    Holds s.files .live UserData
  journal : s.journal ≠ none → t.journal = none → Holds s.files .live UserData
  backups : ∀ p, isBackup p = true → ∀ d, s.files p = some d →
    t.files p = none ∨ t.files p = some d

/-- The backup path is free when the live file is moved there. -/
def vacated : Pc → Bool
  | .cutover .journalStarted | .cutover .renameLive => true
  | _ => false

def Vacant (s : State W κ) : Prop := vacated s.pc = true → s.files .backup = none

/-- The places that remove the journal. -/
def dropsJournal : Pc → Bool
  | .cutover .finish | .cutover .dropJournal | .rollback .dropJournal | .boot .dropJournal => true
  | _ => false

/-- No backup is overwritten, and only at its own places does the journal go. -/
structure Frame (s t : State W κ) : Prop where
  backups : ∀ p, isBackup p = true → ∀ d, s.files p = some d →
    t.files p = none ∨ t.files p = some d
  journal : s.journal ≠ none → t.journal = none → dropsJournal s.pc = true

@[simp] theorem removeJournal_files (s : State W κ) (ok : Bool) :
    (s.removeJournal ok).files = s.files := by
  cases ok <;> rfl

theorem frame_of_eq (hf : t.files = s.files) (hj : t.journal = none → s.journal = none) :
    Frame s t :=
  ⟨fun _ _ _ hd => Or.inr (hf ▸ hd), fun hs ht => absurd (hj ht) hs⟩

theorem frame_of_write {p : Path} {d : Db W κ} (hp : isBackup p = false)
    (hf : t.files = write s.files p d) (hj : t.journal = s.journal) : Frame s t := by
  refine ⟨fun q hq d hd => ?_, fun hs ht => absurd (hj ▸ ht) hs⟩
  have hne : q ≠ p := by
    rintro rfl
    exact absurd (hq.symm.trans hp) (by rintro ⟨⟩)
  exact Or.inr (by rw [hf, write_of_ne hne, hd])

theorem frame_of_remove {p : Path} (hf : t.files = remove s.files p)
    (hj : t.journal = s.journal) : Frame s t := by
  refine ⟨fun q _ d hd => ?_, fun hs ht => absurd (hj ▸ ht) hs⟩
  rcases eq_or_ne q p with rfl | hne
  · exact Or.inl (by rw [hf, remove_self])
  · exact Or.inr (by rw [hf, remove_of_ne hne, hd])

theorem frame_of_rename {src dst : Path} (hne : src ≠ dst)
    (hdst : isBackup dst = false ∨ s.files dst = none)
    (hf : t.files = rename s.files src dst) (hj : t.journal = s.journal) : Frame s t := by
  refine ⟨fun q hq d hd => ?_, fun hs ht => absurd (hj ▸ ht) hs⟩
  rcases eq_or_ne q src with rfl | hsrc
  · exact Or.inl (by rw [hf, rename_src hne])
  · have hqd : q ≠ dst := by
      rintro rfl
      rcases hdst with hb | hnone
      · exact absurd (hq.symm.trans hb) (by rintro ⟨⟩)
      · exact absurd (hnone.symm.trans hd) (by rintro ⟨⟩)
    exact Or.inr (by rw [hf, rename_of_ne hsrc hqd, hd])

theorem renameFile_frame {src dst : Path} {ok : Bool} {pc : Pc} (hne : src ≠ dst)
    (hdst : isBackup dst = false ∨ (ok = true → s.files dst = none)) :
    Frame s ((s.renameFile src dst ok).goTo pc) := by
  cases ok with
  | false => exact frame_of_eq rfl id
  | true => exact frame_of_rename hne (hdst.imp_right (fun h => h rfl)) rfl rfl

theorem removeDbFiles_frame {p : Path} {ok : Bool} {pc : Pc} :
    Frame s ((s.removeDbFiles p ok).goTo pc) := by
  cases ok with
  | false => exact frame_of_eq rfl id
  | true => exact frame_of_remove rfl rfl

theorem writeJournal_frame {phase : Phase} {ok : Bool} {pc : Pc} :
    Frame s ((s.writeJournal phase ok).goTo pc) := by
  cases ok with
  | false => exact frame_of_eq rfl id
  | true => exact frame_of_eq rfl (fun h => absurd h (by rintro ⟨⟩))

theorem removeJournal_frame {ok : Bool} {pc : Pc} (hpc : dropsJournal s.pc = true) :
    Frame s ((s.removeJournal ok).goTo pc) :=
  ⟨fun p _ _ hd => Or.inr ((congrFun (removeJournal_files s ok) p).trans hd), fun _ _ => hpc⟩

theorem reopen_frame {ok : Bool} {pc : Pc} : Frame s ((s.reopen T ok).goTo pc) := by
  cases ok with
  | false => exact frame_of_eq rfl id
  | true =>
    by_cases hlive : s.files .live = none
    · have hf : T.poolOpen s.files = write s.files .live T.createdDb := by
        simp [Tables.poolOpen, hlive]
      exact frame_of_write rfl hf rfl
    · exact frame_of_eq (T.poolOpen_of_ne_none hlive) id

theorem vacuumInto_frame {ok : Bool} : Frame s (s.vacuumInto ok) := by
  unfold State.vacuumInto
  split
  · exact frame_of_write rfl rfl rfl
  · exact frame_of_eq rfl id

theorem prepareStaging_frame {rows : κ} (ht : s.prepareStaging rows = some t) : Frame s t := by
  unfold State.prepareStaging at ht
  split at ht
  · cases ht
  · exact Option.some.inj ht ▸ frame_of_write rfl rfl rfl

theorem closeForSwap_frame {ok : Bool} : Frame s (s.closeForSwap ok) := by
  unfold State.closeForSwap
  split <;> exact frame_of_eq rfl id

/-- The move goes to a name that is free, or there is nothing to move. -/
theorem moveDbAside_frame {stamp : ℕ} {ok : Bool} {pc : Pc} (hpc : s.pc = .cutover .moveBackup)
    (ha : AsideOk s (.moveAside stamp ok)) : Frame s ((s.moveDbAside stamp ok).goTo pc) := by
  simp only [AsideOk, hpc] at ha
  by_cases hback : s.files .backup = none
  · refine frame_of_eq ?_ (by cases ok <;> exact id)
    cases ok with
    | false => rfl
    | true => exact rename_of_none hback
  · exact renameFile_frame (by rintro ⟨⟩) (Or.inr (fun _ => (ha hback).2))

variable [DecidableEq κ]

theorem presence_allowed (s : State W κ) (e : Event W κ) : Allowed presence s e := by
  unfold Allowed
  split
  · exact fun d => ⟨id, id, id⟩
  · exact fun _ d => id
  · exact fun d => ⟨id, id⟩
  · exact fun _ d => id
  · trivial

theorem cutoverWithFault_frame {p : CutoverPc} {e : Event W κ} (hpc : s.pc = .cutover p)
    (hv : Vacant s) (ha : AsideOk s e) (ht : s.cutoverWithFault T p e = some t) :
    Frame s t := by
  unfold State.cutoverWithFault at ht
  split at ht
  · exact Option.some.inj ht ▸ removeDbFiles_frame
  · split at ht <;> exact Option.some.inj ht ▸ frame_of_eq rfl id
  · exact Option.some.inj ht ▸ vacuumInto_frame
  · exact prepareStaging_frame ht
  · exact Option.some.inj ht ▸ frame_of_eq rfl id
  · exact Option.some.inj ht ▸ frame_of_eq rfl id
  · exact Option.some.inj ht ▸ closeForSwap_frame
  · exact Option.some.inj ht ▸ moveDbAside_frame hpc ha
  · exact Option.some.inj ht ▸ writeJournal_frame
  · have hfree : s.files .backup = none := hv (by rw [hpc]; rfl)
    exact Option.some.inj ht ▸ renameFile_frame (by rintro ⟨⟩) (Or.inr (fun _ => hfree))
  · exact Option.some.inj ht ▸ writeJournal_frame
  · split at ht
    · rename_i ok _
      obtain rfl := Option.some.inj ht
      have hframe : Frame s ((s.renameFile .staging .live ok).goTo .idle) :=
        renameFile_frame (by rintro ⟨⟩) (Or.inl rfl)
      exact ⟨hframe.backups, hframe.journal⟩
    · exact Option.some.inj ht ▸ frame_of_eq rfl id
  · exact Option.some.inj ht ▸ renameFile_frame (by rintro ⟨⟩) (Or.inl rfl)
  · exact Option.some.inj ht ▸ writeJournal_frame
  · exact Option.some.inj ht ▸ reopen_frame
  · exact Option.some.inj ht ▸ frame_of_eq rfl id
  · exact Option.some.inj ht ▸ removeJournal_frame (by rw [hpc]; rfl)
  · exact Option.some.inj ht ▸ removeJournal_frame (by rw [hpc]; rfl)
  · exact Option.some.inj ht ▸ reopen_frame
  · exact Option.some.inj ht ▸ removeDbFiles_frame
  · cases ht

omit [DecidableEq κ] in
theorem rollbackToBackup_frame {p : RollbackPc} {e : Event W κ} (hpc : s.pc = .rollback p)
    (ht : s.rollbackToBackup T p e = some t) : Frame s t := by
  unfold State.rollbackToBackup at ht
  split at ht
  · exact Option.some.inj ht ▸ frame_of_eq rfl id
  · exact Option.some.inj ht ▸ frame_of_eq rfl id
  · exact Option.some.inj ht ▸ removeDbFiles_frame
  · exact Option.some.inj ht ▸ renameFile_frame (by rintro ⟨⟩) (Or.inl rfl)
  · exact Option.some.inj ht ▸ renameFile_frame (by rintro ⟨⟩) (Or.inl rfl)
  · exact Option.some.inj ht ▸ renameFile_frame (by rintro ⟨⟩) (Or.inl rfl)
  · exact Option.some.inj ht ▸ removeDbFiles_frame
  · exact Option.some.inj ht ▸ removeJournal_frame (by rw [hpc]; rfl)
  · exact Option.some.inj ht ▸ reopen_frame
  · cases ht

omit [DecidableEq κ] in
theorem recover_frame {p : BootPc} {e : Event W κ} (hpc : s.pc = .boot p)
    (ht : s.recover T p e = some t) : Frame s t := by
  unfold State.recover at ht
  split at ht
  · rename_i ok
    obtain rfl := Option.some.inj ht
    have hframe : Frame s ((s.renameFile .staging .live ok).goTo .down) :=
      renameFile_frame (by rintro ⟨⟩) (Or.inl rfl)
    exact ⟨hframe.backups, hframe.journal⟩
  · split at ht
    · exact Option.some.inj ht ▸ frame_of_write rfl rfl rfl
    · exact Option.some.inj ht ▸ frame_of_eq rfl id
  · rename_i ok
    obtain rfl := Option.some.inj ht
    have hframe : Frame s ((s.renameFile .recoverTmp .live ok).goTo .down) :=
      renameFile_frame (by rintro ⟨⟩) (Or.inl rfl)
    exact ⟨hframe.backups, hframe.journal⟩
  · exact Option.some.inj ht ▸ removeJournal_frame (by rw [hpc]; rfl)
  · exact Option.some.inj ht ▸ reopen_frame
  · cases ht

variable [DecidableEq W]

omit [DecidableEq κ] in
theorem execute_frame {w : W} {ok : Bool} (ht : s.execute T w ok = some t) : Frame s t := by
  rcases execute_cases ht with rfl | ⟨d, -, -, rfl⟩
  · exact frame_of_eq rfl id
  · exact frame_of_write rfl rfl rfl

theorem step_frame {e : Event W κ} (hv : Vacant s) (ha : AsideOk s e)
    (ht : step T s e = some t) : Frame s t := by
  rcases step_cases ht with ⟨rfl, rfl⟩ | ⟨w, rfl, rfl⟩ | ⟨w, ok, rfl, -, ht⟩ |
    ⟨p, rfl, -, rfl⟩ | ⟨answered, rfl, -, rfl⟩ | ⟨p, hpc, ht⟩ | ⟨p, hpc, ht⟩ | ⟨p, hpc, ht⟩
  · exact frame_of_eq rfl id
  · unfold State.call
    split <;> exact frame_of_eq rfl id
  · exact execute_frame ht
  · exact frame_of_eq rfl id
  · unfold State.enable
    split
    · exact frame_of_eq rfl id
    · split <;> exact frame_of_eq rfl id
  · exact cutoverWithFault_frame hpc hv ha ht
  · exact rollbackToBackup_frame hpc ht
  · exact recover_frame hpc ht

omit [DecidableEq W] [DecidableEq κ] in
theorem vacant_of_not_vacated (h : vacated s.pc = false) : Vacant s :=
  fun hv => absurd (h.symm.trans hv) (by rintro ⟨⟩)

omit [DecidableEq W] [DecidableEq κ] in
theorem moveDbAside_vacant {stamp : ℕ} {ok : Bool} {pc : Pc} (hpc : s.pc = .cutover .moveBackup)
    (ha : AsideOk s (.moveAside stamp ok)) : Vacant ((s.moveDbAside stamp ok).goTo pc) := by
  intro _
  simp only [AsideOk, hpc] at ha
  by_cases hback : s.files .backup = none
  · cases ok with
    | false => exact hback
    | true => exact (congrFun (rename_of_none hback) .backup).trans hback
  · rw [(ha hback).1]
    exact rename_src (by rintro ⟨⟩)

omit [DecidableEq W] in
theorem cutoverWithFault_vacant {p : CutoverPc} {e : Event W κ} (hpc : s.pc = .cutover p)
    (hv : Vacant s) (ha : AsideOk s e) (ht : s.cutoverWithFault T p e = some t) : Vacant t := by
  unfold State.cutoverWithFault at ht
  split at ht
  · exact Option.some.inj ht ▸ vacant_of_not_vacated rfl
  · split at ht <;> exact Option.some.inj ht ▸ vacant_of_not_vacated rfl
  · obtain rfl := Option.some.inj ht
    apply vacant_of_not_vacated
    unfold State.vacuumInto
    split <;> rfl
  · unfold State.prepareStaging at ht
    split at ht
    · cases ht
    · exact Option.some.inj ht ▸ vacant_of_not_vacated rfl
  · exact Option.some.inj ht ▸ vacant_of_not_vacated rfl
  · exact Option.some.inj ht ▸ vacant_of_not_vacated rfl
  · obtain rfl := Option.some.inj ht
    apply vacant_of_not_vacated
    unfold State.closeForSwap
    split <;> rfl
  · exact Option.some.inj ht ▸ moveDbAside_vacant hpc ha
  · rename_i ok
    obtain rfl := Option.some.inj ht
    have hfree : s.files .backup = none := hv (by rw [hpc]; rfl)
    cases ok <;> exact fun _ => hfree
  · rename_i ok
    obtain rfl := Option.some.inj ht
    apply vacant_of_not_vacated
    unfold State.goTo
    split <;> rfl
  · exact Option.some.inj ht ▸ vacant_of_not_vacated rfl
  · split at ht <;> exact Option.some.inj ht ▸ vacant_of_not_vacated rfl
  · exact Option.some.inj ht ▸ vacant_of_not_vacated rfl
  · exact Option.some.inj ht ▸ vacant_of_not_vacated rfl
  · rename_i ok
    cases ok <;> exact Option.some.inj ht ▸ vacant_of_not_vacated rfl
  · obtain rfl := Option.some.inj ht
    apply vacant_of_not_vacated
    unfold State.goTo
    split <;> rfl
  · exact Option.some.inj ht ▸ vacant_of_not_vacated rfl
  · exact Option.some.inj ht ▸ vacant_of_not_vacated rfl
  · exact Option.some.inj ht ▸ vacant_of_not_vacated rfl
  · exact Option.some.inj ht ▸ vacant_of_not_vacated rfl
  · cases ht

omit [DecidableEq W] [DecidableEq κ] in
theorem rollbackToBackup_vacated {p : RollbackPc} {e : Event W κ}
    (ht : s.rollbackToBackup T p e = some t) : vacated t.pc = false := by
  unfold State.rollbackToBackup at ht
  split at ht
  all_goals first
    | exact Option.some.inj ht ▸ rfl
    | cases ht

omit [DecidableEq W] [DecidableEq κ] in
theorem recover_vacated {p : BootPc} {e : Event W κ} (ht : s.recover T p e = some t) :
    vacated t.pc = false := by
  have hrestored : ∀ u : State W κ, vacated u.restored.pc = false := by
    intro u
    unfold State.restored State.goTo
    split <;> rfl
  unfold State.recover at ht
  split at ht
  · exact Option.some.inj ht ▸ hrestored _
  · split at ht
    · exact Option.some.inj ht ▸ rfl
    · exact Option.some.inj ht ▸ hrestored _
  · exact Option.some.inj ht ▸ hrestored _
  · exact Option.some.inj ht ▸ rfl
  · rename_i ok
    cases ok <;> exact Option.some.inj ht ▸ rfl
  · cases ht

/-- After the move the backup path is free until the live file is renamed there. -/
theorem step_vacant {e : Event W κ} (hv : Vacant s) (ha : AsideOk s e)
    (ht : step T s e = some t) : Vacant t := by
  rcases step_cases ht with ⟨rfl, rfl⟩ | ⟨w, rfl, rfl⟩ | ⟨w, ok, rfl, -, ht⟩ |
    ⟨p, rfl, -, rfl⟩ | ⟨answered, rfl, -, rfl⟩ | ⟨p, hpc, ht⟩ | ⟨p, hpc, ht⟩ | ⟨p, hpc, ht⟩
  · exact vacant_of_not_vacated rfl
  · unfold State.call
    split <;> exact hv
  · rcases execute_cases ht with rfl | ⟨d, -, -, rfl⟩
    · exact hv
    · have hother := commit_files_of_ne { s with waiting := s.waiting.erase w } T w d
        (show Path.backup ≠ .live from (by rintro ⟨⟩))
      exact fun hpc => hother.trans (hv hpc)
  · exact vacant_of_not_vacated rfl
  · unfold State.enable
    split
    · exact hv
    · split
      · exact hv
      · exact vacant_of_not_vacated rfl
  · exact cutoverWithFault_vacant hpc hv ha ht
  · exact vacant_of_not_vacated (rollbackToBackup_vacated ht)
  · exact vacant_of_not_vacated (recover_vacated ht)

/-- A failed restore of an empty live path, and a backup that cannot be moved to a free name,
are the failures that reach the user's data. -/
def Restores (s : State W κ) (e : Event W κ) (_ : State W κ) : Prop :=
  RestoreOk s e ∧ AsideOk s e

instance (s : State W κ) (e : Event W κ) (t : State W κ) : Decidable (Restores s e t) :=
  inferInstanceAs (Decidable (RestoreOk s e ∧ AsideOk s e))

structure Guarding (s : State W κ) : Prop where
  places : Places presence s
  quiesced : Quiesced s
  vacant : Vacant s

theorem step_guarding {e : Event W κ} (h : Guarding s) (hg : Restores s e t)
    (ht : step T s e = some t) : Guarding t :=
  ⟨step_places (presence_grows T) h.places h.quiesced hg.1 (presence_allowed s e) ht,
    step_quiesced h.quiesced ht, step_vacant h.vacant hg.2 ht⟩

theorem Guarding.settled_of_dropsJournal (h : Guarding s) (hpc : dropsJournal s.pc = true) :
    Settled presence s := by
  have hplaces := h.places
  unfold dropsJournal at hpc
  split at hpc
  · rename_i hs
    simp only [Places, hs] at hplaces
    exact hplaces
  · rename_i hs
    simp only [Places, hs] at hplaces
    exact hplaces
  · rename_i hs
    simp only [Places, hs] at hplaces
    exact hplaces
  · rename_i hs
    simp only [Places, hs] at hplaces
    exact hplaces
  · cases hpc

theorem step_safeRestore {e : Event W κ} (h : Guarding s) (hg : Restores s e t)
    (ht : step T s e = some t) : SafeRestore s e t where
  opened ho _ := h.places.settled_of_opens (presence_allowed s .crash) ho
  journal hs hnone :=
    h.settled_of_dropsJournal ((step_frame h.vacant hg.2 ht).journal hs hnone)
  backups := (step_frame h.vacant hg.2 ht).backups

/-- Under any other pattern of failures the database is never opened on an empty path beside
a copy, the journal outlives a missing live file, and no backup is overwritten. -/
theorem failed_restore_is_safe (T : Tables W κ) {s₀ : State W κ} {as : List (Event W κ)}
    (hdown : s₀.pc = .down) (hlive : Holds s₀.files .live UserData)
    (hg : Along (step T) Restores s₀ as) : Along (step T) SafeRestore s₀ as := by
  have hstep : ∀ s e t, Guarding s → Restores s e t → step T s e = some t → Guarding t :=
    fun _ _ _ h hg ht => step_guarding h hg ht
  have hout : ∀ s e t, Guarding s → Restores s e t → step T s e = some t →
      SafeRestore s e t := fun _ _ _ h hg ht => step_safeRestore h hg ht
  have hinit : Guarding s₀ := by
    refine ⟨?_, quiesced_of_still (by simp [hdown, moving]), vacant_of_not_vacated (by rw [hdown]; rfl)⟩
    simp only [Places, hdown]
    exact Or.inl hlive
  exact along_of_invariant hstep hout hinit hg

/-- A rename that fails and is undone, then a cutover that is rolled back and, after a crash,
another one beside a kept backup. -/
def toleratedFailures : List (Event ℕ ℕ) :=
  [bootUp, .go true] ++ copyLive 2 ++ quiesce ++
    [.moveAside 0 true, .go true, .go true, .go false, .go false, .go true, .go false, .go true,
      .go true] ++
    copyLive 2 ++ quiesce ++ [.moveAside 1 true, .go true, .go true, .crash, bootUp, .go true,
      .go false, .go true, .enable true]

theorem failed_restore_is_safe_tolerated :
    (∃ u, exec (step tables) installed toleratedFailures = some u ∧ u.pc = .idle) ∧
      Along (step tables) SafeRestore installed toleratedFailures :=
  ⟨exec_evaluates (by decide +kernel),
    failed_restore_is_safe tables rfl (by decide) (by decide +kernel)⟩

/-- The second rename fails and so does the one that undoes it. -/
def failedRestore : List (Event ℕ ℕ) :=
  [bootUp, .go true] ++ copyLive 2 ++ quiesce ++
    [.moveAside 0 true, .go true, .go true, .go true, .go false, .go false, .go true, .go true]

/-- The journal is removed and an empty database is created beside the backup. -/
theorem failed_restore_creates_empty :
    (∃ u, exec (step tables) installed failedRestore = some u ∧
      u.files .live = some tables.createdDb ∧ Holds u.files .backup UserData) ∧
      ¬ Along (step tables) SafeRestore installed failedRestore := by
  refine ⟨exec_evaluates (by decide +kernel), fun h => ?_⟩
  have hjournal := h.imp (fun _ _ _ hsafe => hsafe.journal)
  revert hjournal
  decide +kernel

/-- So does a restore that fails at boot. -/
example : ∃ u, exec (step tables) installed
      ([bootUp, .go true] ++ copyLive 2 ++ quiesce ++
        [.moveAside 0 true, .go true, .go true, .crash, bootUp, .go false, .go true, .go true]) =
        some u ∧
    u.files .live = some tables.createdDb ∧ Holds u.files .backup UserData ∧
      u.journal = none :=
  exec_evaluates (by decide +kernel)

/-- A backup whose move fails is overwritten by the next one. -/
example : ∃ u, exec (step tables)
      { running with files := fun p => if p = .live then some ⟨.original, [2], 2⟩
          else if p = .backup then some ⟨.original, [1], 1⟩ else none }
      (copyLive 2 ++ quiesce ++ [.moveAside 0 false, .go true, .go true]) = some u ∧
    u.files .backup = some ⟨.original, [2], 2⟩ ∧ u.files (.aside 0) = none :=
  exec_evaluates (by decide +kernel)

end State

end YapStack.Cutover
