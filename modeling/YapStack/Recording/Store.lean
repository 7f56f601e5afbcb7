import YapStack.Recording.PartNames
import Mathlib.Logic.Function.Basic
import Mathlib.Data.Int.Order.Basic

namespace YapStack.Recording

/-- `owner` is the fingerprint of the device that records the session, when it has one. -/
structure SessionRow where
  recording : Bool
  owner : Option ℕ
  createdAt : ℤ
  deriving DecidableEq

structure SegmentRow where
  session : SessionId
  createdAt : ℤ
  deriving DecidableEq

structure File where
  dir : ℕ
  name : List Char
  deriving DecidableEq

structure PartRow where
  session : SessionId
  index : ℕ
  file : File
  deriving DecidableEq

/-- The tables of a recording and the files on disk. A database that was prepared for sync
(`crr`) has lost its `UNIQUE(session_id, part_index)`. -/
structure Store where
  crr : Bool
  sessions : SessionId → Option SessionRow
  segments : List SegmentRow
  parts : List PartRow
  locations : List ℕ
  files : List File

/-- A boot: this device's fingerprint, when sync is configured, and the time. -/
structure Boot where
  me : Option ℕ
  now : ℤ
  deriving DecidableEq

def recordingStaleThreshold : ℤ := 180

namespace Store

def hasPart (s : Store) (id : SessionId) (n : ℕ) : Bool :=
  s.parts.any (fun p => p.session = id ∧ p.index = n)

def isEmpty (s : Store) (id : SessionId) : Bool :=
  s.segments.all (fun g => g.session ≠ id) && s.parts.all (fun p => p.session ≠ id)

def heartbeat (s : Store) (id : SessionId) (r : SessionRow) : ℤ :=
  (((s.segments.filter (fun g => g.session = id)).map SegmentRow.createdAt).max?).getD r.createdAt

def isStale (s : Store) (id : SessionId) (r : SessionRow) (now : ℤ) : Bool :=
  s.heartbeat id r ≤ now - recordingStaleThreshold

def notForeign (b : Boot) (r : SessionRow) : Bool := r.owner = none || r.owner = b.me

def deleteEligible (b : Boot) (r : SessionRow) : Bool := b.me = none || r.owner = b.me

/-- The sweep's `DELETE`. -/
def deletes (s : Store) (b : Boot) (id : SessionId) (r : SessionRow) : Bool :=
  r.recording && s.isEmpty id && notForeign b r && deleteEligible b r

/-- The sweep's `UPDATE`. -/
def finalizes (s : Store) (b : Boot) (id : SessionId) (r : SessionRow) : Bool :=
  r.recording && notForeign b r && !(s.isEmpty id && deleteEligible b r) &&
    ((b.me.isSome && r.owner = b.me) || s.isStale id r b.now)

def sweepOrphanedRecordings (s : Store) (b : Boot) : Store :=
  { s with
    sessions := fun id =>
      (s.sessions id).bind (fun r =>
        if s.deletes b id r then none
        else if s.finalizes b id r then some { r with recording := false }
        else some r) }

/-- Without an identity a database that was ever synced is left alone. -/
def closeOrphanedRecordings (s : Store) (b : Boot) : Store :=
  if b.me.isSome || !s.crr then s.sweepOrphanedRecordings b else s

/-- The directories a boot looks into: the app's own, the registered ones, and those of the
parts it knows. -/
def audioPartDirectories (app : ℕ) (s : Store) : List ℕ :=
  app :: (s.parts.map (fun p => p.file.dir) ++ s.locations)

/-- `INSERT OR IGNORE` under a fresh id. -/
def insertAudioPart (s : Store) (p : PartRow) : Store :=
  if !s.crr && s.hasPart p.session p.index then s else { s with parts := s.parts ++ [p] }

def reconcileFile (s : Store) (f : File) : Store :=
  match parsePartFilename f.name with
  | none => s
  | some (id, n, _) =>
    if s.hasPart id n then s
    else if (s.sessions id).isSome then s.insertAudioPart ⟨id, n, f⟩
    else s

def reconcileAudioParts (s : Store) (dirs : List ℕ) : Store :=
  (dirs.flatMap (fun d => s.files.filter (fun f => f.dir = d))).foldl reconcileFile s

/-- The two passes of a boot, in the order of the setup hook. -/
def boot (app : ℕ) (s : Store) (b : Boot) : Store :=
  let s := s.closeOrphanedRecordings b
  s.reconcileAudioParts (s.audioPartDirectories app)

end Store

/-- The steps of recording runs, each of which a crash may be the last of, and the boot that
follows a crash. -/
inductive Event
  | createSession (id : SessionId) (owner : Option ℕ) (now : ℤ)
  | markSessionRecording (id : SessionId) (owner : Option ℕ)
  | registerAudioSaveLocation (dir : ℕ)
  | openPart (dir : ℕ) (id : SessionId) (n : ℕ)
  | addSegment (id : SessionId) (now : ℤ)
  | encodeMp3 (dir : ℕ) (id : SessionId) (n : ℕ)
  | removeWav (dir : ℕ) (id : SessionId) (n : ℕ)
  | insertPart (p : PartRow)
  | completeSession (id : SessionId)
  | boot (b : Boot)
  deriving DecidableEq

namespace Store

def updateSession (s : Store) (id : SessionId) (f : SessionRow → SessionRow) : Store :=
  { s with sessions := Function.update s.sessions id ((s.sessions id).map f) }

def addFile (s : Store) (f : File) : Store :=
  if f ∈ s.files then s else { s with files := s.files ++ [f] }

def step (app : ℕ) (s : Store) : Event → Option Store
  | .createSession id owner now =>
    if (s.sessions id).isSome then none
    else some { s with sessions := Function.update s.sessions id (some ⟨true, owner, now⟩) }
  | .markSessionRecording id owner =>
    some (s.updateSession id (fun r => { r with recording := true, owner := owner }))
  | .registerAudioSaveLocation dir => some { s with locations := dir :: s.locations }
  | .openPart dir id n => some (s.addFile ⟨dir, partFilename id n .wav⟩)
  | .addSegment id now => some { s with segments := s.segments ++ [⟨id, now⟩] }
  | .encodeMp3 dir id n => some (s.addFile ⟨dir, partFilename id n .mp3⟩)
  | .removeWav dir id n =>
    some { s with files := s.files.filter (fun f => f ≠ ⟨dir, partFilename id n .wav⟩) }
  | .insertPart p => some (s.insertAudioPart p)
  | .completeSession id => some (s.updateSession id (fun r => { r with recording := false }))
  | .boot b => some (s.boot app b)

end Store

end YapStack.Recording
