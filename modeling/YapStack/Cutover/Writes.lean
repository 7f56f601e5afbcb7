import YapStack.Cutover.PlacesSteps
import YapStack.Foundation.Runs

set_option linter.unusedSectionVars false

namespace YapStack.Cutover

section Writes

open YapStack.Files

variable {W κ : Type*} {r : Roles W κ} {s t : State W κ} {T : Tables W κ}

def Db.append (T : Tables W κ) (w : W) (d : Db W κ) : Db W κ :=
  { d with writes := w :: d.writes, rows := T.apply w d.rows }

/-- A write on the served file keeps every role of the swap. -/
structure Roles.Grows (r : Roles W κ) (T : Tables W κ) : Prop where
  data : ∀ acked d w, r.data acked d → r.data (w :: acked) (d.append T w)
  copied : ∀ acked late d w, r.copied acked late d → r.copied (w :: acked) (w :: late) d
  kept : ∀ acked after d w, r.kept acked after d → r.kept (w :: acked) (w :: after) d
  swapped : ∀ acked late after d w, r.swapped acked late after d →
    r.swapped (w :: acked) late (w :: after) (d.append T w)

namespace State

/-- The places at which the files move. -/
def moving : Pc → Bool
  | .cutover .moveBackup | .cutover .journalStarted | .cutover .renameLive
  | .cutover .journalMoved | .cutover .renameStaging | .cutover .restoreLive
  | .cutover .journalCompleted | .cutover .reopen | .rollback .clearFailed
  | .rollback .setAside | .rollback (.restore _) | .rollback .putBack => true
  | _ => false

/-- No connection is open while the files move. -/
def Quiesced (s : State W κ) : Prop := moving s.pc = true → s.pool = false

theorem commit_settled {w : W} {d : Db W κ} (hr : r.Grows T) (h : Settled r s)
    (hd : s.files .live = some d) : Settled r (s.commit T w d) := by
  obtain ⟨d', hd', hdata⟩ := h
  obtain rfl : d = d' := Option.some.inj (hd.symm.trans hd')
  exact Holds.write (hr.data s.acked d w hdata)

theorem commit_files_of_ne (s : State W κ) (T : Tables W κ) (w : W) (d : Db W κ) {p : Path}
    (hp : p ≠ .live) : (s.commit T w d).files p = s.files p :=
  write_of_ne hp

theorem commit_other {w : W} {d : Db W κ} {p : Path} {Q : Db W κ → Prop} (hp : p ≠ .live)
    (h : Holds s.files p Q) : Holds (s.commit T w d).files p Q :=
  h.congr (commit_files_of_ne s T w d hp)

theorem commit_copied {w : W} {d : Db W κ} (hr : r.Grows T) (h : Copied r s)
    (hc : copying s.pc = true) (hd : s.files .live = some d) : Copied r (s.commit T w d) := by
  have hlate : (s.commit T w d).late = w :: s.late := by simp [commit, hc]
  refine ⟨commit_settled hr h.1 hd, ?_⟩
  rw [hlate]
  exact commit_other (by rintro ⟨⟩) (h.2.imp (fun d' hd' => hr.copied _ _ d' w hd'))

theorem commit_swapped {w : W} {d : Db W κ} (hr : r.Grows T) (hu : unverified s.pc = true)
    (h : Swapped s (r.kept s.acked s.after) (r.swapped s.acked s.late s.after))
    (hc : copying s.pc = false) (hd : s.files .live = some d) :
    Swapped (s.commit T w d) (r.kept (s.commit T w d).acked (s.commit T w d).after)
      (r.swapped (s.commit T w d).acked (s.commit T w d).late (s.commit T w d).after) := by
  have hlate : (s.commit T w d).late = s.late := by simp [commit, hc]
  have hafter : (s.commit T w d).after = w :: s.after := by simp [commit, hu]
  have hother := commit_files_of_ne s T w d (show Path.staging ≠ .live from (by rintro ⟨⟩))
  obtain ⟨⟨d', hd', hswap⟩, hback, hj, hst⟩ := h
  obtain rfl : d = d' := Option.some.inj (hd.symm.trans hd')
  rw [hlate, hafter]
  refine ⟨Holds.write (hr.swapped _ _ _ d w hswap), ?_, hj, hother.trans hst⟩
  exact commit_other (by rintro ⟨⟩) (hback.imp (fun d' hd' => hr.kept _ _ d' w hd'))

theorem commit_places {w : W} {d : Db W κ} (hr : r.Grows T) (h : Places r s)
    (hq : moving s.pc = false) (hd : s.files .live = some d)
    (hserves : serves s.pc = true) : Places r (s.commit T w d) := by
  have hpc : (s.commit T w d).pc = s.pc := rfl
  cases hs : s.pc with
  | down => simp [hs, serves] at hserves
  | boot p => simp [hs, serves] at hserves
  | idle =>
    simp only [Places, hs] at h
    simp only [Places, hpc, hs]
    exact commit_settled hr h hd
  | cutover p =>
    simp only [Places, hs] at h
    simp only [Places, hpc, hs]
    cases p with
    | prep =>
      have hlate : (s.commit T w d).late = w :: s.late := by simp [commit, hs, copying]
      refine ⟨commit_settled hr h.1 hd, ?_⟩
      rw [hlate]
      exact commit_other (by rintro ⟨⟩) (h.2.imp (fun d' hd' rows => hr.copied _ _ _ w (hd' rows)))
    | raise | close => exact commit_copied hr h (by simp [hs, copying]) hd
    | verify =>
      exact commit_swapped hr (by simp [hs, unverified]) h (by simp [hs, copying]) hd
    | moveBackup | journalStarted | renameLive | journalMoved | renameStaging | restoreLive
    | journalCompleted | reopen => simp [hs, moving] at hq
    | clearStaging | count | vacuum | finish | dropJournal | reopenAfter | clearCopy =>
      exact commit_settled hr h hd
  | rollback p =>
    simp only [Places, hs] at h
    simp only [Places, hpc, hs]
    cases p with
    | raise | discard =>
      exact commit_swapped hr (by simp [hs, unverified]) h (by simp [hs, copying]) hd
    | clearFailed | setAside | putBack => simp [hs, moving] at hq
    | restore moved => simp [hs, moving] at hq
    | dropFailed | dropJournal | reopen => exact commit_settled hr h hd

theorem quiesced_of_still (h : moving s.pc = false) : Quiesced s := by
  intro hm
  exact absurd (h.symm.trans hm) (by rintro ⟨⟩)

theorem quiesced_of_pool (h : s.pool = false) : Quiesced s := fun _ => h

@[simp] theorem goTo_pool (s : State W κ) (pc : Pc) : (s.goTo pc).pool = s.pool := rfl

@[simp] theorem removeDbFiles_pool (s : State W κ) (p : Path) (ok : Bool) :
    (s.removeDbFiles p ok).pool = s.pool := by
  cases ok <;> rfl

@[simp] theorem renameFile_pool (s : State W κ) (src dst : Path) (ok : Bool) :
    (s.renameFile src dst ok).pool = s.pool := by
  cases ok <;> rfl

@[simp] theorem writeJournal_pool (s : State W κ) (phase : Phase) (ok : Bool) :
    (s.writeJournal phase ok).pool = s.pool := by
  cases ok <;> rfl

theorem vacuumInto_quiesced {ok : Bool} : Quiesced (s.vacuumInto ok) := by
  apply quiesced_of_still
  unfold State.vacuumInto
  split <;> rfl

theorem prepareStaging_quiesced {rows : κ} (ht : s.prepareStaging rows = some t) :
    Quiesced t := by
  unfold State.prepareStaging at ht
  split at ht
  · cases ht
  · exact Option.some.inj ht ▸ quiesced_of_still rfl

theorem closeForSwap_quiesced {ok : Bool} : Quiesced (s.closeForSwap ok) := by
  unfold State.closeForSwap
  split
  · exact quiesced_of_pool rfl
  · exact quiesced_of_still rfl

variable [DecidableEq κ]

theorem verify_quiesced {ok : Bool} : Quiesced (s.goTo (if ok && s.countsSurvived then
    .cutover .finish else .rollback .raise)) := by
  apply quiesced_of_still
  unfold State.goTo
  split <;> rfl

theorem cutoverWithFault_quiesced {p : CutoverPc} {e : Event W κ} (h : Quiesced s)
    (hpc : s.pc = .cutover p) (ht : s.cutoverWithFault T p e = some t) : Quiesced t := by
  have hpool : moving (.cutover p) = true → s.pool = false := hpc ▸ h
  unfold State.cutoverWithFault at ht
  split at ht
  · exact Option.some.inj ht ▸ quiesced_of_still rfl
  · split at ht <;> exact Option.some.inj ht ▸ quiesced_of_still rfl
  · exact Option.some.inj ht ▸ vacuumInto_quiesced
  · exact prepareStaging_quiesced ht
  · exact Option.some.inj ht ▸ quiesced_of_still rfl
  · exact Option.some.inj ht ▸ quiesced_of_still rfl
  · exact Option.some.inj ht ▸ closeForSwap_quiesced
  · exact Option.some.inj ht ▸ quiesced_of_pool (by simpa [moveDbAside] using hpool rfl)
  · exact Option.some.inj ht ▸ quiesced_of_pool (by simpa using hpool rfl)
  · exact Option.some.inj ht ▸ quiesced_of_pool (by simpa using hpool rfl)
  · exact Option.some.inj ht ▸ quiesced_of_pool (by simpa using hpool rfl)
  · split at ht <;> exact Option.some.inj ht ▸ quiesced_of_pool (by simpa using hpool rfl)
  · exact Option.some.inj ht ▸ quiesced_of_still rfl
  · exact Option.some.inj ht ▸ quiesced_of_pool (by simpa using hpool rfl)
  · rename_i ok
    cases ok <;> exact Option.some.inj ht ▸ quiesced_of_still rfl
  · exact Option.some.inj ht ▸ verify_quiesced
  · exact Option.some.inj ht ▸ quiesced_of_still rfl
  · exact Option.some.inj ht ▸ quiesced_of_still rfl
  · exact Option.some.inj ht ▸ quiesced_of_still rfl
  · exact Option.some.inj ht ▸ quiesced_of_still rfl
  · cases ht

omit [DecidableEq κ] in
theorem rollbackToBackup_quiesced {p : RollbackPc} {e : Event W κ} (h : Quiesced s)
    (hpc : s.pc = .rollback p) (ht : s.rollbackToBackup T p e = some t) : Quiesced t := by
  have hpool : moving (.rollback p) = true → s.pool = false := hpc ▸ h
  unfold State.rollbackToBackup at ht
  split at ht
  · exact Option.some.inj ht ▸ quiesced_of_still rfl
  · exact Option.some.inj ht ▸ quiesced_of_pool rfl
  · exact Option.some.inj ht ▸ quiesced_of_pool (by simpa using hpool rfl)
  · exact Option.some.inj ht ▸ quiesced_of_pool (by simpa using hpool rfl)
  · exact Option.some.inj ht ▸ quiesced_of_pool (by simpa using hpool rfl)
  · exact Option.some.inj ht ▸ quiesced_of_still rfl
  · exact Option.some.inj ht ▸ quiesced_of_still rfl
  · exact Option.some.inj ht ▸ quiesced_of_still rfl
  · exact Option.some.inj ht ▸ quiesced_of_still rfl
  · cases ht

omit [DecidableEq κ] in
theorem restored_quiesced : Quiesced s.restored := by
  apply quiesced_of_still
  unfold State.restored State.goTo
  split <;> rfl

omit [DecidableEq κ] in
theorem recover_quiesced {p : BootPc} {e : Event W κ} (ht : s.recover T p e = some t) :
    Quiesced t := by
  unfold State.recover at ht
  split at ht
  · obtain rfl := Option.some.inj ht
    exact restored_quiesced
  · split at ht
    · exact Option.some.inj ht ▸ quiesced_of_still rfl
    · exact Option.some.inj ht ▸ restored_quiesced
  · exact Option.some.inj ht ▸ restored_quiesced
  · exact Option.some.inj ht ▸ quiesced_of_still rfl
  · rename_i ok
    cases ok <;> exact Option.some.inj ht ▸ quiesced_of_still rfl
  · cases ht

variable [DecidableEq W]

omit [DecidableEq κ] in
theorem execute_cases {w : W} {ok : Bool} (ht : s.execute T w ok = some t) :
    t = { s with waiting := s.waiting.erase w } ∨
      ∃ d, s.pool = true ∧ s.files .live = some d ∧
        t = { s with waiting := s.waiting.erase w }.commit T w d := by
  simp only [State.execute] at ht
  split at ht
  · split at ht
    · rename_i d hgo hd
      simp only [Bool.and_eq_true] at hgo
      exact Or.inr ⟨d, hgo.1, hd, (Option.some.inj ht).symm⟩
    · exact Or.inl (Option.some.inj ht).symm
  · cases ht

theorem step_quiesced {e : Event W κ} (h : Quiesced s) (ht : s.step T e = some t) :
    Quiesced t := by
  rcases step_cases ht with ⟨rfl, rfl⟩ | ⟨w, rfl, rfl⟩ | ⟨w, ok, rfl, -, ht⟩ | ⟨p, rfl, hpc, rfl⟩ |
    ⟨answered, rfl, hpc, rfl⟩ | ⟨p, hpc, ht⟩ | ⟨p, hpc, ht⟩ | ⟨p, hpc, ht⟩
  · exact quiesced_of_still rfl
  · unfold State.call
    split <;> exact h
  · rcases execute_cases ht with rfl | ⟨d, -, -, rfl⟩ <;> exact h
  · exact quiesced_of_still rfl
  · unfold State.enable
    split
    · exact h
    · split
      · exact h
      · exact quiesced_of_still rfl
  · exact cutoverWithFault_quiesced h hpc ht
  · exact rollbackToBackup_quiesced h hpc ht
  · exact recover_quiesced ht

theorem execute_places {w : W} {ok : Bool} (hr : r.Grows T) (h : Places r s)
    (hq : Quiesced s) (hserves : serves s.pc = true) (ht : s.execute T w ok = some t) :
    Places r t := by
  rcases execute_cases ht with rfl | ⟨d, hpool, hd, rfl⟩
  · exact h
  · have hstill : moving s.pc = false := by
      by_contra hm
      exact absurd ((hq (Bool.not_eq_false _ ▸ hm)).symm.trans hpool) (by rintro ⟨⟩)
    exact commit_places hr h hstill hd hserves

theorem step_places {e : Event W κ} (hr : r.Grows T) (h : Places r s) (hq : Quiesced s)
    (hok : RestoreOk s e) (hal : Allowed r s e) (ht : s.step T e = some t) : Places r t := by
  rcases step_cases ht with ⟨rfl, rfl⟩ | ⟨w, rfl, rfl⟩ | ⟨w, ok, rfl, hserves, ht⟩ |
    ⟨p, rfl, hpc, rfl⟩ | ⟨answered, rfl, hpc, rfl⟩ | ⟨p, hpc, ht⟩ | ⟨p, hpc, ht⟩ | ⟨p, hpc, ht⟩
  · exact crash_places h hal
  · exact call_places h
  · exact execute_places hr h hq hserves ht
  · exact recoverInterruptedCutover_places h hpc hok
  · simp only [Places, hpc] at h
    exact enable_places h hpc
  · simp only [Places, hpc] at h
    exact cutoverWithFault_places h hpc hok hal ht
  · simp only [Places, hpc] at h
    exact rollbackToBackup_places h hpc hok hal ht
  · simp only [Places, hpc] at h
    exact recover_places h hpc hok ht

end State

end Writes

section LostWrites

open YapStack.Files YapStack.Runs

variable {W κ : Type*} {s t : State W κ} {T : Tables W κ}

/-- A database of the user, prepared for sync or not. -/
def UserData (d : Db W κ) : Prop := d.form = .original ∨ d.form = .prepared

instance : DecidablePred (UserData (W := W) (κ := κ)) := fun d =>
  inferInstanceAs (Decidable (d.form = .original ∨ d.form = .prepared))

/-- The file holds exactly the acknowledged writes. -/
def Complete (acked : List W) (d : Db W κ) : Prop := UserData d ∧ d.writes = acked

instance [DecidableEq W] (acked : List W) : DecidablePred (Complete (κ := κ) acked) := fun d =>
  inferInstanceAs (Decidable (UserData d ∧ d.writes = acked))

/-- The copy lacks the late writes, the set-aside original those made on the copy. -/
def contents : Roles W κ where
  data := Complete
  copied acked late d := UserData d ∧ acked = late ++ d.writes
  kept acked after d := UserData d ∧ acked = after ++ d.writes
  swapped acked late after d :=
    UserData d ∧ ∃ copy, d.writes = after ++ copy ∧ acked = after ++ late ++ copy
  copy acked d rows h := ⟨Or.inr rfl, by simp [h.2]⟩
  keep acked d h := ⟨h.1, by simp [h.2]⟩
  swap acked late d h := ⟨h.1, d.writes, by simp [h.2]⟩

theorem contents_grows (T : Tables W κ) : (contents (W := W) (κ := κ)).Grows T where
  data acked d w h := ⟨h.1, by simp [Db.append, h.2]⟩
  copied acked late d w h := ⟨h.1, by simp [h.2]⟩
  kept acked after d w h := ⟨h.1, by simp [h.2]⟩
  swapped acked late after d w h := by
    obtain ⟨hform, copy, hd, ha⟩ := h
    exact ⟨hform, copy, by simp [Db.append, hd], by simp [ha]⟩

theorem complete_of_copied {acked : List W} {d : Db W κ} (h : contents.copied acked [] d) :
    Complete acked d :=
  ⟨h.1, by simpa using h.2.symm⟩

theorem complete_of_kept {acked : List W} {d : Db W κ} (h : contents.kept acked [] d) :
    Complete acked d :=
  ⟨h.1, by simpa using h.2.symm⟩

theorem complete_of_swapped {acked after : List W} {d : Db W κ}
    (h : contents.swapped acked [] after d) : Complete acked d := by
  obtain ⟨hform, copy, hd, ha⟩ := h
  exact ⟨hform, by simp [hd, ha]⟩

theorem copied_of_swapped {acked late : List W} {d : Db W κ}
    (h : contents.swapped acked late [] d) : contents.copied acked late d := by
  obtain ⟨hform, copy, hd, ha⟩ := h
  exact ⟨hform, by simp [hd, ha]⟩

namespace State

variable [DecidableEq κ]

theorem not_noneMissed_crash (s : State W κ) : ¬ NoneMissed s .crash := by
  unfold NoneMissed
  split <;> simp_all

theorem NoneMissed.allowed {e : Event W κ} (h : NoneMissed s e) : Allowed contents s e := by
  unfold Allowed
  split
  · exact absurd h (not_noneMissed_crash s)
  · rename_i hpc
    simp only [NoneMissed, hpc] at h
    intro hkeep d hd
    rw [h hkeep] at hd
    exact complete_of_swapped hd
  · rename_i hpc
    simp only [NoneMissed, hpc] at h
    rw [h]
    exact fun d => ⟨complete_of_kept, copied_of_swapped⟩
  · rename_i hpc
    simp only [NoneMissed, hpc] at h
    intro hfail d hd
    rw [h hfail] at hd
    exact complete_of_copied hd
  · trivial

/-- The condition under which no acknowledged write is lost: a restore of an empty live path
works, and no write falls into a window whose file is then given up. -/
def KeepsWrites (s : State W κ) (e : Event W κ) (_ : State W κ) : Prop :=
  RestoreOk s e ∧ NoneMissed s e

variable [DecidableEq W]

instance (s : State W κ) (e : Event W κ) (t : State W κ) : Decidable (KeepsWrites s e t) :=
  inferInstanceAs (Decidable (RestoreOk s e ∧ NoneMissed s e))

/-- What a run keeps when none of its writes is missed. -/
def Whole (s : State W κ) : Prop := Places contents s ∧ Quiesced s

theorem whole_of_idle (hidle : s.pc = .idle) (hlive : Holds s.files .live (Complete s.acked)) :
    Whole s := by
  refine ⟨?_, quiesced_of_still (by simp [hidle, moving])⟩
  simp only [Places, hidle]
  exact hlive

theorem step_whole {e : Event W κ} (h : Whole s) (hg : KeepsWrites s e t)
    (ht : step T s e = some t) : Whole t :=
  ⟨step_places (contents_grows T) h.1 h.2 hg.1 hg.2.allowed ht, step_quiesced h.2 ht⟩

/-- After a cutover has returned, the file at the live path holds exactly the acknowledged
writes. -/
theorem cutover_loses_no_write (T : Tables W κ) {s₀ u : State W κ} {as : List (Event W κ)}
    (hidle : s₀.pc = .idle) (hlive : Holds s₀.files .live (Complete s₀.acked))
    (hg : Along (step T) KeepsWrites s₀ as) (hu : exec (step T) s₀ as = some u)
    (hret : u.pc = .idle) : Holds u.files .live (Complete u.acked) := by
  have hstep : ∀ s e t, Whole s → KeepsWrites s e t → step T s e = some t → Whole t :=
    fun _ _ _ h hg ht => step_whole h hg ht
  have hwhole : Whole u := exec_invariant_along hstep (whole_of_idle hidle hlive) hg hu
  have hplaces := hwhole.1
  simp only [Places, hret] at hplaces
  exact hplaces

/-- Writes are the change they make to one row count; `0` is an update. -/
def tables : Tables ℕ ℕ := ⟨fun w n => n + w, fun n => n == 0, 0⟩

/-- An app that is up, with two rows in its database. -/
def running : State ℕ ℕ where
  files p := if p = .live then some ⟨.original, [2], 2⟩ else none
  journal := none
  pc := .idle
  preCounts := 0
  pool := true
  swapping := false
  waiting := []
  acked := [2]
  late := []
  after := []

def copyLive (rows : ℕ) : List (Event ℕ ℕ) :=
  [.enable true, .go true, .go true, .go true, .prepared rows]

def oneWrite (w : ℕ) : List (Event ℕ ℕ) := [.call w, .run w true]

def quiesce : List (Event ℕ ℕ) := [.go true, .go true]

def swapIn : List (Event ℕ ℕ) :=
  [.moveAside 0 true, .go true, .go true, .go true, .go true, .go true, .go true]

def keepCopy : List (Event ℕ ℕ) := [.go true, .go true]

/-- Writes before the copy and after the cutover, and one refused by the raised gate. -/
def writesAround : List (Event ℕ ℕ) :=
  oneWrite 1 ++ copyLive 3 ++ [.go true, .call 1, .go true] ++ swapIn ++ keepCopy ++ oneWrite 0

theorem cutover_loses_no_write_around :
    ∃ u, exec (step tables) running writesAround = some u ∧
      Holds u.files .live (Complete u.acked) := by
  obtain ⟨u, hu, hret⟩ : ∃ u, exec (step tables) running writesAround = some u ∧ u.pc = .idle :=
    exec_evaluates (by decide +kernel)
  exact ⟨u, hu, cutover_loses_no_write tables rfl (by decide) (by decide +kernel) hu hret⟩

/-- An update between the copy and the quiesce passes the count check and is lost. -/
theorem update_during_copy_is_lost :
    ∃ u, exec (step tables) running
        (copyLive 2 ++ oneWrite 0 ++ quiesce ++ swapIn ++ keepCopy) = some u ∧
      u.pc = .idle ∧ u.acked = [0, 2] ∧ ¬ Holds u.files .live (fun d => 0 ∈ d.writes) :=
  exec_evaluates (by decide +kernel)

/-- An insert on the reopened copy fails the count check, and the rollback takes it back. -/
example : ∃ u, exec (step tables) running
      (copyLive 2 ++ quiesce ++ swapIn ++ oneWrite 1 ++ List.replicate 9 (.go true)) = some u ∧
    u.pc = .idle ∧ u.acked = [1, 2] ∧ ¬ Holds u.files .live (fun d => 1 ∈ d.writes) :=
  exec_evaluates (by decide +kernel)

end State

end LostWrites

end YapStack.Cutover
