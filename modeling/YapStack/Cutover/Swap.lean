import YapStack.Cutover.Database

namespace YapStack.Cutover

open YapStack.Files

variable {W κ : Type*}

namespace State

def liveIsCrrPrepared (s : State W κ) : Bool :=
  match s.files .live with
  | none => false
  | some d => decide (d.form = .prepared)

def recoveryArtifactsPresent (s : State W κ) : Bool :=
  s.journal.isSome || (s.files .backup).isSome || (s.files .staging).isSome

def liveHasNoUserRows (T : Tables W κ) (s : State W κ) : Bool :=
  match s.files .live with
  | none => true
  | some d => T.noUserRows d.rows

/-- The gate of `cutover_with_fault`: an unanswered probe refuses, a prepared database is
done, and an empty one beside recovery artifacts is refused. -/
def enable (T : Tables W κ) (s : State W κ) (answered : Bool) : State W κ :=
  if !answered || s.liveIsCrrPrepared then s
  else if s.recoveryArtifactsPresent && s.liveHasNoUserRows T then s
  else s.goTo (.cutover .clearStaging)

/-- `VACUUM INTO` refuses a target that exists. -/
def vacuumInto (s : State W κ) (ok : Bool) : State W κ :=
  match ok, s.files .staging, s.files .live with
  | true, none, some d =>
    { s with
      files := write s.files .staging { d with form := .draft }
      late := []
      pc := .cutover .prep }
  | _, _, _ => s.goTo .idle

def prepareStaging (s : State W κ) (rows : κ) : Option (State W κ) :=
  match s.files .staging with
  | none => none
  | some d =>
    some { s with
      files := write s.files .staging ⟨.prepared, d.writes, rows⟩
      pc := .cutover .raise }

/-- An incomplete checkpoint lowers the gate again and keeps the pool. -/
def closeForSwap (s : State W κ) (ok : Bool) : State W κ :=
  if ok || !s.pool then { s with pool := false, pc := .cutover .moveBackup }
  else { s with swapping := false, pc := .cutover .reopenAfter }

/-- The error of the move is dropped. -/
def moveDbAside (s : State W κ) (stamp : ℕ) (ok : Bool) : State W κ :=
  s.renameFile .backup (.aside stamp) ok

variable [DecidableEq κ]

/-- Every user table still has the rows it had before the swap. -/
def countsSurvived (s : State W κ) : Bool :=
  match s.files .live with
  | none => false
  | some d => decide (d.rows = s.preCounts)

def cutoverWithFault (T : Tables W κ) (s : State W κ) :
    CutoverPc → Event W κ → Option (State W κ)
  | .clearStaging, .go ok => some ((s.removeDbFiles .staging ok).goTo (.cutover .count))
  | .count, .go ok =>
    match ok, s.files .live with
    | true, some d => some { s with preCounts := d.rows, pc := .cutover .vacuum }
    | _, _ => some (s.goTo .idle)
  | .vacuum, .go ok => some (s.vacuumInto ok)
  | .prep, .prepared rows => s.prepareStaging rows
  | .prep, .go false => some (s.goTo (.cutover .clearCopy))
  | .raise, .go _ => some { s with swapping := true, pc := .cutover .close }
  | .close, .go ok => some (s.closeForSwap ok)
  | .moveBackup, .moveAside stamp ok =>
    some ((s.moveDbAside stamp ok).goTo (.cutover .journalStarted))
  | .journalStarted, .go ok =>
    some ((s.writeJournal .swapStarted ok).goTo
      (.cutover (if ok then .renameLive else .reopenAfter)))
  | .renameLive, .go ok =>
    some ((s.renameFile .live .backup ok).goTo
      (.cutover (if s.renames .live ok then .journalMoved else .dropJournal)))
  | .journalMoved, .go ok =>
    some ((s.writeJournal .backupMoved ok).goTo (.cutover .renameStaging))
  | .renameStaging, .go ok =>
    if s.renames .staging ok then
      some { s.renameFile .staging .live ok with after := [], pc := .cutover .journalCompleted }
    else some (s.goTo (.cutover .restoreLive))
  | .restoreLive, .go ok =>
    some ((s.renameFile .backup .live ok).goTo (.cutover .dropJournal))
  | .journalCompleted, .go ok =>
    some ((s.writeJournal .swapCompleted ok).goTo (.cutover .reopen))
  | .reopen, .go ok =>
    some ((s.reopen T ok).goTo (if ok then .cutover .verify else .rollback .raise))
  | .verify, .go ok =>
    some (s.goTo (if ok && s.countsSurvived then .cutover .finish else .rollback .raise))
  | .finish, .go ok => some ((s.removeJournal ok).goTo .idle)
  | .dropJournal, .go ok => some ((s.removeJournal ok).goTo (.cutover .reopenAfter))
  | .reopenAfter, .go ok => some ((s.reopen T ok).goTo (.cutover .clearCopy))
  | .clearCopy, .go ok => some ((s.removeDbFiles .staging ok).goTo .idle)
  | _, _ => none

omit [DecidableEq κ] in
def rollbackToBackup (T : Tables W κ) (s : State W κ) :
    RollbackPc → Event W κ → Option (State W κ)
  | .raise, .go _ => some { s with swapping := true, pc := .rollback .discard }
  | .discard, .go _ => some (s.discardPool.goTo (.rollback .clearFailed))
  | .clearFailed, .go ok => some ((s.removeDbFiles .failed ok).goTo (.rollback .setAside))
  | .setAside, .go ok =>
    some ((s.renameFile .live .failed ok).goTo (.rollback (.restore (s.renames .live ok))))
  | .restore movedAside, .go ok =>
    some ((s.renameFile .backup .live ok).goTo
      (.rollback (if s.renames .backup ok then .dropFailed
        else if movedAside then .putBack else .dropJournal)))
  | .putBack, .go ok => some ((s.renameFile .failed .live ok).goTo (.rollback .dropJournal))
  | .dropFailed, .go ok => some ((s.removeDbFiles .failed ok).goTo (.rollback .dropJournal))
  | .dropJournal, .go ok => some ((s.removeJournal ok).goTo (.rollback .reopen))
  | .reopen, .go ok => some ((s.reopen T ok).goTo .idle)
  | _, _ => none

end State

end YapStack.Cutover
