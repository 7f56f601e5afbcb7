import YapStack.Cutover.Swap

set_option linter.unusedSectionVars false

namespace YapStack.Cutover

section Recovery

open YapStack.Files

variable {W κ : Type*} [DecidableEq κ]

namespace State

/-- The staging copy has the row counts the journal recorded. -/
def stagingValid (s : State W κ) (p : Probes) (j : Journal κ) : Bool :=
  match s.files .staging with
  | none => false
  | some d => p.staging && decide (d.rows = j.preCounts)

def backupPresent (s : State W κ) (p : Probes) : Bool :=
  p.backup && (s.files .backup).isSome

/-- The restore that `recover_from_journal` runs for a missing live path. -/
def recoverFromJournal (s : State W κ) (p : Probes) (j : Journal κ) : BootPc :=
  match j.phase with
  | .swapStarted | .backupMoved =>
    if s.stagingValid p j then .renameStaging
    else if s.backupPresent p then .copyBackup
    else .dropJournal
  | .swapCompleted =>
    if s.backupPresent p then .copyBackup
    else if s.stagingValid p j then .renameStaging
    else .dropJournal

omit [DecidableEq κ] in
/-- Without a journal only a missing live path is restored. -/
def recoverWithoutJournal (s : State W κ) (p : Probes) : BootPc :=
  if s.backupPresent p then .copyBackup
  else if p.staging && (s.files .staging).isSome then .renameStaging
  else .openService

def recoverInterruptedCutover (s : State W κ) (p : Probes) : BootPc :=
  if !p.live then .openService
  else
    match s.journal, s.files .live with
    | some _, some _ => .dropJournal
    | some j, none => s.recoverFromJournal p j
    | none, some _ => .openService
    | none, none => s.recoverWithoutJournal p

variable {s : State W κ} {p : Probes} {j : Journal κ}

theorem staging_of_stagingValid (h : s.stagingValid p j = true) : s.files .staging ≠ none := by
  intro hnone
  simp [stagingValid, hnone] at h

theorem recoverInterruptedCutover_of_live (h : s.files .live ≠ none) :
    s.recoverInterruptedCutover p = .dropJournal ∨
      s.recoverInterruptedCutover p = .openService := by
  obtain ⟨d, hd⟩ := Option.ne_none_iff_exists'.mp h
  unfold recoverInterruptedCutover
  cases p.live with
  | false => simp
  | true => cases hj : s.journal <;> simp [hd]

/-- With the original at the backup path, every phase of the journal leads to a restore. -/
theorem recoverFromJournal_restores (hback : s.files .backup ≠ none)
    (hread : p.backup = true ∨ s.stagingValid p j = true) :
    (s.recoverFromJournal p j = .renameStaging ∧ s.files .staging ≠ none) ∨
      s.recoverFromJournal p j = .copyBackup := by
  have hsome : (s.files .backup).isSome = true := Option.isSome_iff_ne_none.mpr hback
  by_cases hv : s.stagingValid p j = true
  · have hst := staging_of_stagingValid hv
    unfold recoverFromJournal
    cases j.phase <;> cases hb : p.backup <;> simp [hv, hst, backupPresent, hb, hsome]
  · obtain hb := hread.resolve_right hv
    refine Or.inr ?_
    unfold recoverFromJournal
    cases j.phase <;> simp [hv, backupPresent, hb, hsome]

omit [DecidableEq κ] in
/-- After a restore the journal goes, if the recovery had read one. -/
def restored (s : State W κ) : State W κ :=
  s.goTo (.boot (if s.journal.isSome then .dropJournal else .openService))

omit [DecidableEq κ] in
/-- `copy_into_live` goes over a temporary file; `rename_into_live` is one rename. -/
def recover (T : Tables W κ) (s : State W κ) : BootPc → Event W κ → Option (State W κ)
  | .renameStaging, .go ok => some (s.renameFile .staging .live ok).restored
  | .copyBackup, .go ok =>
    match ok, s.files .backup with
    | true, some d =>
      some { s with files := write s.files .recoverTmp d, pc := .boot .renameCopy }
    | _, _ => some s.restored
  | .renameCopy, .go ok => some (s.renameFile .recoverTmp .live ok).restored
  | .dropJournal, .go ok => some ((s.removeJournal ok).goTo (.boot .openService))
  | .openService, .go ok => some ((s.reopen T ok).goTo (if ok then .idle else .down))
  | _, _ => none

/-- A crash takes the process and its pool, and no call in it gets an answer. -/
def crash (s : State W κ) : State W κ :=
  { s with pc := .down, pool := false, swapping := false, waiting := [] }

variable [DecidableEq W]

def serves : Pc → Bool
  | .down | .boot _ => false
  | _ => true

def step (T : Tables W κ) (s : State W κ) (e : Event W κ) : Option (State W κ) :=
  match s.pc, e with
  | _, .crash => some s.crash
  | pc, .call w => if serves pc then some (s.call w) else none
  | pc, .run w ok => if serves pc then s.execute T w ok else none
  | .down, .boot p => some (s.goTo (.boot (s.recoverInterruptedCutover p)))
  | .idle, .enable answered => some (s.enable T answered)
  | .cutover p, e => s.cutoverWithFault T p e
  | .rollback p, e => s.rollbackToBackup T p e
  | .boot p, e => s.recover T p e
  | _, _ => none

/-- Everything one step can do. -/
theorem step_cases {T : Tables W κ} {s t : State W κ} {e : Event W κ} (h : step T s e = some t) :
    (e = .crash ∧ t = s.crash) ∨ (∃ w, e = .call w ∧ t = s.call w) ∨
    (∃ w ok, e = .run w ok ∧ serves s.pc = true ∧ s.execute T w ok = some t) ∨
    (∃ p, e = .boot p ∧ s.pc = .down ∧ t = s.goTo (.boot (s.recoverInterruptedCutover p))) ∨
    (∃ answered, e = .enable answered ∧ s.pc = .idle ∧ t = s.enable T answered) ∨
    (∃ p, s.pc = .cutover p ∧ s.cutoverWithFault T p e = some t) ∨
    (∃ p, s.pc = .rollback p ∧ s.rollbackToBackup T p e = some t) ∨
    (∃ p, s.pc = .boot p ∧ s.recover T p e = some t) := by
  cases e with
  | crash => cases hpc : s.pc <;> simp_all [step]
  | call w => cases hpc : s.pc <;> simp_all [step, serves]
  | run w ok =>
    have hexec : serves s.pc = true ∧ s.execute T w ok = some t := by
      cases hpc : s.pc <;> simp_all [step, serves]
    exact Or.inr (Or.inr (Or.inl ⟨w, ok, rfl, hexec⟩))
  | enable answered => cases hpc : s.pc <;> simp_all [step]
  | go ok => cases hpc : s.pc <;> simp_all [step]
  | prepared rows => cases hpc : s.pc <;> simp_all [step]
  | moveAside stamp ok => cases hpc : s.pc <;> simp_all [step]
  | boot p => cases hpc : s.pc <;> simp_all [step]

end State

end Recovery

section Places

open YapStack.Files

variable {W κ : Type*}

/-- What a file in each place of the swap is good for, given the acknowledged writes, those
that missed the copy, and those made on the swapped file. -/
structure Roles (W κ : Type*) where
  data : List W → Db W κ → Prop
  copied : List W → List W → Db W κ → Prop
  kept : List W → List W → Db W κ → Prop
  swapped : List W → List W → List W → Db W κ → Prop
  copy : ∀ acked d rows, data acked d → copied acked [] ⟨.prepared, d.writes, rows⟩
  keep : ∀ acked d, data acked d → kept acked [] d
  swap : ∀ acked late d, copied acked late d → swapped acked late [] d

namespace State

variable (r : Roles W κ) (s : State W κ)

def Settled : Prop := Holds s.files .live (r.data s.acked)

/-- Between the two renames: nothing at the live path, the original at the backup path, and a
journal that says so. -/
def Gap (copy : Db W κ → Prop) : Prop :=
  s.files .live = none ∧ Holds s.files .backup (r.data s.acked) ∧ s.journal ≠ none ∧
    ∀ d, s.files .staging = some d → copy d

def Copied : Prop := Settled r s ∧ Holds s.files .staging (r.copied s.acked s.late)

def Swapped (kept swapped : Db W κ → Prop) : Prop :=
  Holds s.files .live swapped ∧ Holds s.files .backup kept ∧ s.journal ≠ none ∧
    s.files .staging = none

def placesCutover : CutoverPc → Prop
  | .prep => Settled r s ∧
      Holds s.files .staging (fun d => ∀ rows,
        r.copied s.acked s.late ⟨.prepared, d.writes, rows⟩)
  | .raise | .close | .moveBackup | .journalStarted => Copied r s
  | .renameLive => Copied r s ∧ s.journal ≠ none
  | .journalMoved | .renameStaging =>
    Gap r s (r.copied s.acked s.late) ∧ s.files .staging ≠ none
  | .restoreLive => Gap r s (r.copied s.acked s.late)
  | .journalCompleted | .reopen | .verify =>
    Swapped s (r.kept s.acked s.after) (r.swapped s.acked s.late s.after)
  | _ => Settled r s

def placesRollback : RollbackPc → Prop
  | .raise | .discard => Swapped s (r.kept s.acked s.after) (r.swapped s.acked s.late s.after)
  | .clearFailed | .setAside => Swapped s (r.data s.acked) (r.copied s.acked s.late)
  | .restore true => Gap r s (fun _ => False) ∧ Holds s.files .failed (r.copied s.acked s.late)
  | .restore false => Swapped s (r.data s.acked) (r.copied s.acked s.late)
  | .putBack => Gap r s (fun _ => False) ∧ Holds s.files .failed (r.data s.acked)
  | _ => Settled r s

def placesBoot : BootPc → Prop
  | .renameStaging => Gap r s (r.data s.acked) ∧ s.files .staging ≠ none
  | .copyBackup => Gap r s (r.data s.acked)
  | .renameCopy => Gap r s (r.data s.acked) ∧ Holds s.files .recoverTmp (r.data s.acked)
  | _ => Settled r s

/-- Where the user's data is, at each place of the program. -/
def Places : Prop :=
  match s.pc with
  | .down => Settled r s ∨ Gap r s (r.data s.acked)
  | .idle => Settled r s
  | .cutover p => placesCutover r s p
  | .rollback p => placesRollback r s p
  | .boot p => placesBoot r s p

variable [DecidableEq κ]

/-- The operations that put a file back at an empty live path succeed. -/
def RestoreOk (s : State W κ) (e : Event W κ) : Prop :=
  match s.pc, e with
  | .cutover .restoreLive, .go ok => ok = true
  | .rollback .putBack, .go ok => ok = true
  | .boot .renameStaging, .go ok => ok = true
  | .boot .copyBackup, .go ok => ok = true
  | .boot .renameCopy, .go ok => ok = true
  | .down, .boot p => s.files .live = none →
      p.live = true ∧ (p.backup = true ∨ s.journal.any (s.stagingValid p) = true)
  | _, _ => True

instance (s : State W κ) (e : Event W κ) : Decidable (RestoreOk s e) := by
  unfold RestoreOk
  split <;> infer_instance

/-- Writes are acknowledged only while no cutover runs. -/
def Outside (s : State W κ) (e : Event W κ) : Prop :=
  match e with
  | .run _ _ => s.pc = .idle
  | _ => True

instance (s : State W κ) (e : Event W κ) : Decidable (Outside s e) := by
  unfold Outside
  split <;> infer_instance

/-- No write may have missed the copy when the copy is kept, and none may have been made on
the copy when the original is put back. -/
def NoneMissed (s : State W κ) (e : Event W κ) : Prop :=
  match s.pc, e with
  | _, .crash => False
  | .cutover .verify, .go ok => (ok && s.countsSurvived) = true → s.late = []
  | .rollback .discard, .go _ => s.after = []
  | .rollback (.restore _), .go ok => ok = false → s.late = []
  | _, _ => True

instance [DecidableEq W] (s : State W κ) (e : Event W κ) : Decidable (NoneMissed s e) := by
  unfold NoneMissed
  split <;> infer_instance

/-- A backup that is there is moved aside, to a name that is free. -/
def AsideOk (s : State W κ) (e : Event W κ) : Prop :=
  match s.pc, e with
  | .cutover .moveBackup, .moveAside stamp ok =>
    s.files .backup ≠ none → ok = true ∧ s.files (.aside stamp) = none
  | _, _ => True

instance (s : State W κ) (e : Event W κ) : Decidable (AsideOk s e) := by
  unfold AsideOk
  split <;> infer_instance

/-- The turns of a run that change which file counts as the data. -/
def Allowed (r : Roles W κ) (s : State W κ) (e : Event W κ) : Prop :=
  match s.pc, e with
  | _, .crash => ∀ d, (r.copied s.acked s.late d → r.data s.acked d) ∧
      (r.kept s.acked s.after d → r.data s.acked d) ∧
      (r.swapped s.acked s.late s.after d → r.data s.acked d)
  | .cutover .verify, .go ok => (ok && s.countsSurvived) = true →
      ∀ d, r.swapped s.acked s.late s.after d → r.data s.acked d
  | .rollback .discard, .go _ => ∀ d, (r.kept s.acked s.after d → r.data s.acked d) ∧
      (r.swapped s.acked s.late s.after d → r.copied s.acked s.late d)
  | .rollback (.restore _), .go ok => ok = false →
      ∀ d, r.copied s.acked s.late d → r.data s.acked d
  | _, _ => True

end State

end Places

end YapStack.Cutover
