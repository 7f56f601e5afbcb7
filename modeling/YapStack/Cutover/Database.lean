import YapStack.Foundation.Files
import Mathlib.Data.List.Basic

namespace YapStack.Cutover

open YapStack.Files

inductive Path
  | live
  | backup
  | staging
  | failed
  | recoverTmp
  | aside (stamp : ℕ)
  deriving DecidableEq

/-- `draft` is a staging copy that is not yet prepared, `created` the empty database that
opening a missing path leaves behind. -/
inductive Form
  | original
  | prepared
  | draft
  | created
  deriving DecidableEq

/-- A database file: the committed writes it holds, newest first, and its row counts. -/
structure Db (W κ : Type*) where
  form : Form
  writes : List W
  rows : κ
  deriving DecidableEq

inductive Phase
  | swapStarted
  | backupMoved
  | swapCompleted
  deriving DecidableEq

structure Journal (κ : Type*) where
  phase : Phase
  preCounts : κ
  deriving DecidableEq

/-- What a write does to the row counts, and which counts belong to an empty library. -/
structure Tables (W κ : Type*) where
  apply : W → κ → κ
  noUserRows : κ → Bool
  blank : κ

/-- The places of `cutover_with_fault`, named after the operation that comes next. -/
inductive CutoverPc
  | clearStaging
  | count
  | vacuum
  | prep
  | raise
  | close
  | moveBackup
  | journalStarted
  | renameLive
  | journalMoved
  | renameStaging
  | restoreLive
  | journalCompleted
  | reopen
  | verify
  | finish
  | dropJournal
  | reopenAfter
  | clearCopy
  deriving DecidableEq

inductive RollbackPc
  | raise
  | discard
  | clearFailed
  | setAside
  | restore (movedAside : Bool)
  | putBack
  | dropFailed
  | dropJournal
  | reopen
  deriving DecidableEq

inductive BootPc
  | renameStaging
  | copyBackup
  | renameCopy
  | dropJournal
  | openService
  deriving DecidableEq

inductive Pc
  | down
  | idle
  | cutover (p : CutoverPc)
  | rollback (p : RollbackPc)
  | boot (p : BootPc)
  deriving DecidableEq

/-- Which probes of the boot got an answer. -/
structure Probes where
  live : Bool
  staging : Bool
  backup : Bool
  deriving DecidableEq

/-- `go` is the next operation of whatever is running, and whether it succeeds. -/
inductive Event (W κ : Type*)
  | call (w : W)
  | run (w : W) (ok : Bool)
  | enable (answered : Bool)
  | go (ok : Bool)
  | prepared (rows : κ)
  | moveAside (stamp : ℕ) (ok : Bool)
  | boot (p : Probes)
  | crash
  deriving DecidableEq

/-- `late` and `after` are history: the writes acknowledged since the copy was read, and
since the copy was put in place. -/
structure State (W κ : Type*) where
  files : Path → Option (Db W κ)
  journal : Option (Journal κ)
  pc : Pc
  preCounts : κ
  pool : Bool
  swapping : Bool
  waiting : List W
  acked : List W
  late : List W
  after : List W

variable {W κ : Type*}

namespace Tables

/-- The empty database of a connection that found no file. -/
def createdDb (T : Tables W κ) : Db W κ := ⟨.created, [], T.blank⟩

/-- `Pool::open` creates a missing file. -/
def poolOpen (T : Tables W κ) (fs : Path → Option (Db W κ)) : Path → Option (Db W κ) :=
  match fs .live with
  | none => write fs .live T.createdDb
  | some _ => fs

theorem poolOpen_of_ne_none (T : Tables W κ) {fs : Path → Option (Db W κ)}
    (h : fs .live ≠ none) : T.poolOpen fs = fs := by
  unfold poolOpen
  cases hl : fs .live with
  | none => exact absurd hl h
  | some d => rfl

end Tables

namespace State

def goTo (s : State W κ) (pc : Pc) : State W κ := { s with pc := pc }

def removeDbFiles (s : State W κ) (p : Path) (ok : Bool) : State W κ :=
  if ok then { s with files := remove s.files p } else s

def renames (s : State W κ) (src : Path) (ok : Bool) : Bool := ok && (s.files src).isSome

def renameFile (s : State W κ) (src dst : Path) (ok : Bool) : State W κ :=
  if ok then { s with files := rename s.files src dst } else s

def writeJournal (s : State W κ) (phase : Phase) (ok : Bool) : State W κ :=
  if ok then { s with journal := some ⟨phase, s.preCounts⟩ } else s

def removeJournal (s : State W κ) (ok : Bool) : State W κ :=
  if ok then { s with journal := none } else s

/-- A failed `Pool::open` leaves the pool and the gate as they were. -/
def reopen (T : Tables W κ) (s : State W κ) (ok : Bool) : State W κ :=
  if ok then { s with files := T.poolOpen s.files, pool := true, swapping := false } else s

def discardPool (s : State W κ) : State W κ := { s with pool := false }

/-- The writes that land while the copy is under way miss it. -/
def copying : Pc → Bool
  | .cutover .prep | .cutover .raise | .cutover .close => true
  | _ => false

/-- The swapped file is served and may still be rolled back. -/
def unverified : Pc → Bool
  | .cutover .verify | .rollback .raise | .rollback .discard => true
  | _ => false

def commit (T : Tables W κ) (s : State W κ) (w : W) (d : Db W κ) : State W κ :=
  { s with
    files := write s.files .live { d with writes := w :: d.writes, rows := T.apply w d.rows }
    acked := w :: s.acked
    late := if copying s.pc then w :: s.late else s.late
    after := if unverified s.pc then w :: s.after else s.after }

variable [DecidableEq W]

/-- `execute` reads the gate first; a raised gate refuses the call. -/
def call (s : State W κ) (w : W) : State W κ :=
  if s.swapping then s else { s with waiting := w :: s.waiting }

/-- Under the read lock the call finds the pool or is refused; the statement may fail. -/
def execute (T : Tables W κ) (s : State W κ) (w : W) (ok : Bool) : Option (State W κ) :=
  if w ∈ s.waiting then
    let s := { s with waiting := s.waiting.erase w }
    match s.pool && ok, s.files .live with
    | true, some d => some (s.commit T w d)
    | _, _ => some s
  else none

end State

end YapStack.Cutover
