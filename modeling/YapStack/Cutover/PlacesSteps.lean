import YapStack.Cutover.Recovery

set_option linter.unusedSectionVars false

namespace YapStack.Cutover

open YapStack.Files

variable {W κ : Type*} {r : Roles W κ} {s t : State W κ} {T : Tables W κ}

namespace State

theorem Settled.reopen {ok : Bool} (h : Settled r s) : Settled r (s.reopen T ok) := by
  cases ok with
  | false => exact h
  | true =>
    have hfs : T.poolOpen s.files = s.files := T.poolOpen_of_ne_none h.ne_none
    simpa only [Settled, State.reopen, if_true, hfs] using h

theorem Settled.removeJournal {ok : Bool} (h : Settled r s) :
    Settled r (s.removeJournal ok) := by
  cases ok <;> exact h

theorem Settled.removeDbFiles {p : Path} {ok : Bool} (h : Settled r s) (hp : Path.live ≠ p) :
    Settled r (s.removeDbFiles p ok) := by
  cases ok with
  | false => exact h
  | true => exact Holds.remove_of_ne h hp

theorem Settled.vacuumInto {ok : Bool} (h : Settled r s) : Places r (s.vacuumInto ok) := by
  unfold State.vacuumInto
  split
  · rename_i d hst hl
    obtain ⟨d', hd', hdata⟩ := h
    obtain rfl : d = d' := Option.some.inj (hl.symm.trans hd')
    have hlive : Holds s.files .live (r.data s.acked) := ⟨d, hl, hdata⟩
    refine ⟨hlive.write_of_ne (by rintro ⟨⟩), Holds.write ?_⟩
    exact fun rows => r.copy s.acked d rows hdata
  · exact h

theorem prepareStaging_places {rows : κ} (h : placesCutover r s .prep)
    (ht : s.prepareStaging rows = some t) : Places r t := by
  obtain ⟨hlive, d, hd, hcopy⟩ := h
  simp only [State.prepareStaging, hd, Option.some.injEq] at ht
  subst ht
  exact ⟨Holds.write_of_ne hlive (by rintro ⟨⟩), Holds.write (hcopy rows)⟩

theorem closeForSwap_places {ok : Bool} (h : Copied r s) : Places r (s.closeForSwap ok) := by
  unfold State.closeForSwap
  split
  · exact h
  · exact h.1

theorem Gap.writeJournal {copy : Db W κ → Prop} {phase : Phase} {ok : Bool}
    (h : Gap r s copy) : Gap r (s.writeJournal phase ok) copy := by
  cases ok with
  | false => exact h
  | true => exact ⟨h.1, h.2.1, Option.some_ne_none _, h.2.2.2⟩

theorem Gap.restore {copy : Db W κ → Prop} {pc : Pc} (h : Gap r s copy) :
    Settled r ((s.renameFile .backup .live true).goTo pc) :=
  h.2.1.rename

theorem Swapped.writeJournal {kept swapped : Db W κ → Prop} {phase : Phase} {ok : Bool}
    (h : Swapped s kept swapped) : Swapped (s.writeJournal phase ok) kept swapped := by
  cases ok with
  | false => exact h
  | true => exact ⟨h.1, h.2.1, Option.some_ne_none _, h.2.2.2⟩

theorem Swapped.reopen {kept swapped : Db W κ → Prop} {ok : Bool}
    (h : Swapped s kept swapped) : Swapped (s.reopen T ok) kept swapped := by
  cases ok with
  | false => exact h
  | true =>
    have hfs : T.poolOpen s.files = s.files := T.poolOpen_of_ne_none h.1.ne_none
    simpa only [Swapped, State.reopen, if_true, hfs] using h

theorem Swapped.settled {kept swapped : Db W κ → Prop} {pc : Pc} (h : Swapped s kept swapped)
    (himp : ∀ d, swapped d → r.data s.acked d) : Settled r (s.goTo pc) :=
  h.1.imp himp

theorem Copied.moveDbAside {stamp : ℕ} {ok : Bool} (h : Copied r s) :
    Copied r (s.moveDbAside stamp ok) := by
  cases ok with
  | false => exact h
  | true =>
    exact ⟨h.1.rename_of_ne (by rintro ⟨⟩) (by rintro ⟨⟩), h.2.rename_of_ne (by rintro ⟨⟩) (by rintro ⟨⟩)⟩

variable [DecidableEq κ]

theorem renameLive_places {ok : Bool} (h : Copied r s) (hj : s.journal ≠ none) :
    Places r ((s.renameFile .live .backup ok).goTo
      (.cutover (if s.renames .live ok then .journalMoved else .dropJournal))) := by
  cases ok with
  | false => exact h.1
  | true =>
    obtain ⟨hlive, hstage⟩ := h
    have hmoved : s.renames .live true = true := by
      simpa [State.renames, Option.isSome_iff_ne_none] using hlive.ne_none
    have hstage' : Holds (rename s.files .live .backup) .staging (r.copied s.acked s.late) :=
      hstage.rename_of_ne (by rintro ⟨⟩) (by rintro ⟨⟩)
    simp only [hmoved, if_true]
    refine ⟨⟨rename_src (by rintro ⟨⟩), hlive.rename, hj, ?_⟩, hstage'.ne_none⟩
    intro d hd
    obtain ⟨d', hd', hcopy⟩ := hstage'
    exact Option.some.inj (hd.symm.trans hd') ▸ hcopy

theorem renameStaging_places {ok : Bool} (h : Gap r s (r.copied s.acked s.late))
    (hst : s.files .staging ≠ none) (ht : (if s.renames .staging ok then
      some { s.renameFile .staging .live ok with after := [], pc := .cutover .journalCompleted }
    else some (s.goTo (.cutover .restoreLive))) = some t) : Places r t := by
  split at ht
  · rename_i hmoved
    obtain rfl := Option.some.inj ht
    obtain ⟨-, hback, hj, hcopy⟩ := h
    obtain ⟨d, hd⟩ := Option.ne_none_iff_exists'.mp hst
    have hok : ok = true := by
      simp only [State.renames, Bool.and_eq_true] at hmoved
      exact hmoved.1
    subst hok
    have hlive : Holds s.files .staging (r.swapped s.acked s.late []) :=
      ⟨d, hd, r.swap _ _ d (hcopy d hd)⟩
    have hkept := hback.imp (fun d hd => r.keep s.acked d hd)
    exact ⟨hlive.rename, hkept.rename_of_ne (by rintro ⟨⟩) (by rintro ⟨⟩), hj, rename_src (by rintro ⟨⟩)⟩
  · obtain rfl := Option.some.inj ht
    exact h

theorem journalMoved_places {ok : Bool} (h : Gap r s (r.copied s.acked s.late))
    (hst : s.files .staging ≠ none) :
    Places r ((s.writeJournal .backupMoved ok).goTo (.cutover .renameStaging)) := by
  have hgap : Gap r (s.writeJournal .backupMoved ok) (r.copied s.acked s.late) := h.writeJournal
  cases ok with
  | false => exact ⟨hgap, hst⟩
  | true => exact ⟨hgap, hst⟩

theorem journalCompleted_places {ok : Bool}
    (h : Swapped s (r.kept s.acked s.after) (r.swapped s.acked s.late s.after)) :
    Places r ((s.writeJournal .swapCompleted ok).goTo (.cutover .reopen)) := by
  have hswap : Swapped (s.writeJournal .swapCompleted ok) (r.kept s.acked s.after)
      (r.swapped s.acked s.late s.after) := h.writeJournal
  cases ok with
  | false => exact hswap
  | true => exact hswap

theorem reopen_places {ok : Bool}
    (h : Swapped s (r.kept s.acked s.after) (r.swapped s.acked s.late s.after)) :
    Places r ((s.reopen T ok).goTo (if ok then .cutover .verify else .rollback .raise)) := by
  have hswap : Swapped (s.reopen T ok) (r.kept s.acked s.after)
      (r.swapped s.acked s.late s.after) := h.reopen
  cases ok with
  | false => exact hswap
  | true => exact hswap

theorem verify_places {ok : Bool} (hpc : s.pc = .cutover .verify)
    (h : Swapped s (r.kept s.acked s.after) (r.swapped s.acked s.late s.after))
    (hal : Allowed r s (.go ok)) :
    Places r (s.goTo (if ok && s.countsSurvived then .cutover .finish
      else .rollback .raise)) := by
  simp only [Allowed, hpc] at hal
  split
  · rename_i hkeep
    exact h.settled (hal hkeep)
  · exact h

theorem cutoverWithFault_places {p : CutoverPc} {e : Event W κ} (h : placesCutover r s p)
    (hpc : s.pc = .cutover p) (hok : RestoreOk s e) (hal : Allowed r s e)
    (ht : s.cutoverWithFault T p e = some t) : Places r t := by
  unfold State.cutoverWithFault at ht
  split at ht
  · obtain rfl := Option.some.inj ht
    exact Settled.removeDbFiles h (by rintro ⟨⟩)
  · split at ht <;> exact Option.some.inj ht ▸ h
  · exact Option.some.inj ht ▸ Settled.vacuumInto h
  · exact prepareStaging_places h ht
  · exact Option.some.inj ht ▸ h.1
  · exact Option.some.inj ht ▸ h
  · exact Option.some.inj ht ▸ closeForSwap_places h
  · exact Option.some.inj ht ▸ Copied.moveDbAside h
  · rename_i ok
    obtain rfl := Option.some.inj ht
    cases ok with
    | false => exact h.1
    | true => exact ⟨h, Option.some_ne_none _⟩
  · exact Option.some.inj ht ▸ renameLive_places h.1 h.2
  · exact Option.some.inj ht ▸ journalMoved_places h.1 h.2
  · exact renameStaging_places h.1 h.2 ht
  · obtain rfl := Option.some.inj ht
    simp only [RestoreOk, hpc] at hok
    subst hok
    exact Gap.restore h
  · exact Option.some.inj ht ▸ journalCompleted_places h
  · exact Option.some.inj ht ▸ reopen_places h
  · exact Option.some.inj ht ▸ verify_places hpc h hal
  · exact Option.some.inj ht ▸ Settled.removeJournal h
  · exact Option.some.inj ht ▸ Settled.removeJournal h
  · exact Option.some.inj ht ▸ Settled.reopen h
  · exact Option.some.inj ht ▸ Settled.removeDbFiles h (by rintro ⟨⟩)
  · cases ht

omit [DecidableEq κ] in
theorem setAside_places {ok : Bool}
    (h : Swapped s (r.data s.acked) (r.copied s.acked s.late)) :
    Places r ((s.renameFile .live .failed ok).goTo
      (.rollback (.restore (s.renames .live ok)))) := by
  cases ok with
  | false => exact h
  | true =>
    obtain ⟨hlive, hback, hj, hst⟩ := h
    have hmoved : s.renames .live true = true := by
      simpa [State.renames, Option.isSome_iff_ne_none] using hlive.ne_none
    have hother : rename s.files .live .failed .staging = s.files .staging :=
      rename_of_ne (by rintro ⟨⟩) (by rintro ⟨⟩)
    rw [hmoved]
    refine ⟨⟨rename_src (by rintro ⟨⟩), hback.rename_of_ne (by rintro ⟨⟩) (by rintro ⟨⟩), hj, ?_⟩, hlive.rename⟩
    exact fun d hd => absurd ((hother.trans hst).symm.trans hd) (by rintro ⟨⟩)

theorem restore_places {moved ok : Bool} (h : placesRollback r s (.restore moved))
    (hpc : s.pc = .rollback (.restore moved)) (hal : Allowed r s (.go ok)) :
    Places r ((s.renameFile .backup .live ok).goTo
      (.rollback (if s.renames .backup ok then .dropFailed
        else if moved then .putBack else .dropJournal))) := by
  have hback : Holds s.files .backup (r.data s.acked) := by
    cases moved with
    | false => exact h.2.1
    | true => exact h.1.2.1
  cases ok with
  | true =>
    have hmoved : s.renames .backup true = true := by
      simpa [State.renames, Option.isSome_iff_ne_none] using hback.ne_none
    rw [hmoved]
    exact hback.rename
  | false =>
    simp only [Allowed, hpc] at hal
    have hdata := hal trivial
    cases moved with
    | false => exact h.1.imp hdata
    | true => exact ⟨h.1, h.2.imp hdata⟩

theorem rollbackToBackup_places {p : RollbackPc} {e : Event W κ} (h : placesRollback r s p)
    (hpc : s.pc = .rollback p) (hok : RestoreOk s e) (hal : Allowed r s e)
    (ht : s.rollbackToBackup T p e = some t) : Places r t := by
  unfold State.rollbackToBackup at ht
  split at ht
  · exact Option.some.inj ht ▸ h
  · obtain rfl := Option.some.inj ht
    simp only [Allowed, hpc] at hal
    exact ⟨h.1.imp (fun d => (hal d).2), h.2.1.imp (fun d => (hal d).1), h.2.2⟩
  · rename_i ok
    obtain rfl := Option.some.inj ht
    cases ok with
    | false => exact h
    | true =>
      obtain ⟨hlive, hback, hj, hst⟩ := h
      have hother : remove s.files .failed .staging = s.files .staging := remove_of_ne (by rintro ⟨⟩)
      exact ⟨hlive.remove_of_ne (by rintro ⟨⟩), hback.remove_of_ne (by rintro ⟨⟩), hj, hother.trans hst⟩
  · exact Option.some.inj ht ▸ setAside_places h
  · exact Option.some.inj ht ▸ restore_places h hpc hal
  · obtain rfl := Option.some.inj ht
    simp only [RestoreOk, hpc] at hok
    subst hok
    exact h.2.rename
  · exact Option.some.inj ht ▸ Settled.removeDbFiles h (by rintro ⟨⟩)
  · exact Option.some.inj ht ▸ Settled.removeJournal h
  · exact Option.some.inj ht ▸ Settled.reopen h
  · cases ht

omit [DecidableEq κ] in
theorem Settled.restored (h : Settled r s) : Places r s.restored := by
  unfold State.restored State.goTo
  cases hj : s.journal.isSome <;> exact h

theorem Settled.recoverInterruptedCutover {p : Probes} (h : Settled r s) :
    Places r (s.goTo (.boot (s.recoverInterruptedCutover p))) := by
  rcases recoverInterruptedCutover_of_live (p := p) h.ne_none with he | he <;> rw [he] <;>
    exact h

theorem Gap.recoverInterruptedCutover {p : Probes} (h : Gap r s (r.data s.acked))
    (hlive : p.live = true)
    (hread : p.backup = true ∨ s.journal.any (s.stagingValid p) = true) :
    Places r (s.goTo (.boot (s.recoverInterruptedCutover p))) := by
  obtain ⟨j, hj⟩ := Option.ne_none_iff_exists'.mp h.2.2.1
  simp only [hj, Option.any_some] at hread
  simp only [State.recoverInterruptedCutover, hlive, hj, h.1, Bool.not_true, Bool.false_eq_true,
    if_false]
  rcases recoverFromJournal_restores h.2.1.ne_none hread with ⟨he, hst⟩ | he <;> rw [he]
  · exact ⟨h, hst⟩
  · exact h

theorem recoverInterruptedCutover_places {p : Probes} (h : Places r s) (hpc : s.pc = .down)
    (hok : RestoreOk s (.boot p)) :
    Places r (s.goTo (.boot (s.recoverInterruptedCutover p))) := by
  simp only [Places, hpc] at h
  rcases h with h | h
  · exact Settled.recoverInterruptedCutover h
  · simp only [RestoreOk, hpc] at hok
    obtain ⟨hlive, hread⟩ := hok h.1
    exact h.recoverInterruptedCutover hlive hread

theorem recover_places {p : BootPc} {e : Event W κ} (h : placesBoot r s p)
    (hpc : s.pc = .boot p) (hok : RestoreOk s e) (ht : s.recover T p e = some t) :
    Places r t := by
  unfold State.recover at ht
  split at ht
  · obtain rfl := Option.some.inj ht
    simp only [RestoreOk, hpc] at hok
    subst hok
    obtain ⟨⟨hlive, hback, hj, hcopy⟩, hst⟩ := h
    obtain ⟨d, hd⟩ := Option.ne_none_iff_exists'.mp hst
    have hstage : Holds s.files .staging (r.data s.acked) := ⟨d, hd, hcopy d hd⟩
    exact Settled.restored hstage.rename
  · simp only [RestoreOk, hpc] at hok
    subst hok
    obtain ⟨hlive, ⟨d, hd, hdata⟩, hj, hcopy⟩ := h
    have hback : Holds s.files .backup (r.data s.acked) := ⟨d, hd, hdata⟩
    simp only [hd, Option.some.injEq] at ht
    subst ht
    have hgone : write s.files .recoverTmp d .live = s.files .live := write_of_ne (by rintro ⟨⟩)
    have hother : write s.files .recoverTmp d .staging = s.files .staging := write_of_ne (by rintro ⟨⟩)
    refine ⟨⟨hgone.trans hlive, hback.write_of_ne (by rintro ⟨⟩), hj, ?_⟩, Holds.write hdata⟩
    exact fun d hd => hcopy d (hother.symm.trans hd)
  · obtain rfl := Option.some.inj ht
    simp only [RestoreOk, hpc] at hok
    subst hok
    exact Settled.restored h.2.rename
  · exact Option.some.inj ht ▸ Settled.removeJournal h
  · rename_i ok
    obtain rfl := Option.some.inj ht
    have hlive : Settled r (s.reopen T ok) := Settled.reopen h
    cases ok with
    | false => exact Or.inl hlive
    | true => exact hlive
  · cases ht

omit [DecidableEq κ] in
theorem enable_places {answered : Bool} (h : Settled r s) (hpc : s.pc = .idle) :
    Places r (s.enable T answered) := by
  have hidle : Places r s := by simpa only [Places, hpc] using h
  unfold State.enable
  split
  · exact hidle
  · split
    · exact hidle
    · exact h

theorem allowed_crash (h : Allowed r s .crash) (d : Db W κ) :
    (r.copied s.acked s.late d → r.data s.acked d) ∧
      (r.kept s.acked s.after d → r.data s.acked d) ∧
      (r.swapped s.acked s.late s.after d → r.data s.acked d) := by
  unfold Allowed at h
  split at h
  · exact h d
  all_goals contradiction

omit [DecidableEq κ] in
theorem Gap.crash {copy : Db W κ → Prop} (h : Gap r s copy)
    (himp : ∀ d, copy d → r.data s.acked d) : Places r s.crash :=
  Or.inr ⟨h.1, h.2.1, h.2.2.1, fun d hd => himp d (h.2.2.2 d hd)⟩

omit [DecidableEq κ] in
theorem Swapped.crash {kept swapped : Db W κ → Prop} (h : Swapped s kept swapped)
    (himp : ∀ d, swapped d → r.data s.acked d) : Places r s.crash :=
  Or.inl (h.1.imp himp)

theorem crash_places (h : Places r s) (hal : Allowed r s .crash) : Places r s.crash := by
  have hcopied := fun d => (allowed_crash hal d).1
  have hswapped := fun d => (allowed_crash hal d).2.2
  cases hpc : s.pc with
  | down =>
    simp only [Places, hpc] at h
    exact h
  | idle =>
    simp only [Places, hpc] at h
    exact Or.inl h
  | cutover p =>
    simp only [Places, hpc] at h
    cases p with
    | prep | raise | close | moveBackup | journalStarted => exact Or.inl h.1
    | renameLive => exact Or.inl h.1.1
    | journalMoved | renameStaging => exact h.1.crash hcopied
    | restoreLive => exact Gap.crash h hcopied
    | journalCompleted | reopen | verify => exact Swapped.crash h hswapped
    | _ => exact Or.inl h
  | rollback p =>
    simp only [Places, hpc] at h
    cases p with
    | raise | discard => exact Swapped.crash h hswapped
    | clearFailed | setAside => exact Swapped.crash h hcopied
    | restore moved =>
      cases moved with
      | false => exact Swapped.crash h hcopied
      | true => exact h.1.crash (fun _ => False.elim)
    | putBack => exact h.1.crash (fun _ => False.elim)
    | _ => exact Or.inl h
  | boot p =>
    simp only [Places, hpc] at h
    cases p with
    | renameStaging | renameCopy => exact Or.inr h.1
    | copyBackup => exact Or.inr h
    | _ => exact Or.inl h

variable [DecidableEq W]

omit [DecidableEq κ] in
theorem call_places {w : W} (h : Places r s) : Places r (s.call w) := by
  unfold State.call
  split <;> exact h

end State

end YapStack.Cutover
