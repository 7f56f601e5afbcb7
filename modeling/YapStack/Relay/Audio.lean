import YapStack.Foundation.Runs
import YapStack.Foundation.Statements
import YapStack.Relay.Choke

namespace YapStack.Relay.Audio

open Choke

/-- A row of `audio_blobs`. -/
structure Blob where
  sizeBytes : Int
  refcount : Int
  releasedAt : Option Int
  deriving DecidableEq

/-- A row of `audio_objects`: the blob a part maps to. -/
structure AudioObject (Session Hash : Type*) where
  sessionId : Session
  sha256 : Hash
  deriving DecidableEq

structure PresignQuery (Part Session Hash : Type*) where
  sha256 : Hash
  size : Nat
  partId : Part
  sessionId : Session

/-- One call of `presign`: its query, what the call found before its
statements, and `now()`, which is the start of its transaction. -/
structure Presign (Part Session Hash : Type*) extends PresignQuery Part Session Hash where
  limits : TenantLimits
  helpUrl : String
  now : Int

def Presign.ingress {Part Session Hash : Type*} (p : Presign Part Session Hash) : Ingress :=
  ⟨p.limits, p.size, p.helpUrl, p.now⟩

/-- A presigned PUT: the object key and the length it is pinned to. -/
structure UploadUrl (Hash : Type*) where
  objectKey : Hash
  contentLength : Nat
  deriving DecidableEq

structure PresignResponse (Hash : Type*) where
  alreadyExists : Bool
  uploadUrl : Option (UploadUrl Hash)
  objectKey : Hash
  contentLength : Nat
  deriving DecidableEq

section Statements

variable {Tx Part Session Hash : Type*} [DecidableEq Tx] [DecidableEq Part] [DecidableEq Hash]

def addRef (b : Blob) : Blob := { b with refcount := b.refcount + 1, releasedAt := none }

def dropRef (now : Int) (b : Blob) : Blob where
  sizeBytes := b.sizeBytes
  refcount := max 0 (b.refcount - 1)
  releasedAt :=
    if b.refcount - 1 ≤ 0 ∧ b.releasedAt = none then some now else b.releasedAt

def newBlob (size : Nat) : Blob := ⟨toI64 size, 1, none⟩

def releasedBefore (cutoff : Int) (b : Blob) : Bool :=
  decide (b.refcount ≤ 0) && b.releasedAt.any (fun r => r < cutoff)

/-- How far a transaction of `presign` or of the sweep has come. -/
inductive Pc (Part Session Hash : Type*) where
  | idle
  | begun (p : Presign Part Session Hash)
  | blobRead (p : Presign Part Session Hash) (blob : Option Int)
  | mappingRead (p : Presign Part Session Hash) (blob : Option Int) (oldHash : Option Hash)
  | released (p : Presign Part Session Hash) (blob : Option Int) (oldHash : Option Hash)
  | mapped (p : Presign Part Session Hash) (blob : Option Int) (oldHash : Option Hash)
  | conflicted (p : Presign Part Session Hash) (oldHash : Option Hash)
  | reread (p : Presign Part Session Hash) (oldHash : Option Hash) (storedSize : Nat)
  | admitting (p : Presign Part Session Hash) (oldHash : Option Hash) (stage : Stage)
  | refused (p : Presign Part Session Hash) (r : Refusal)
  | ready (p : Presign Part Session Hash) (oldHash : Option Hash) (storedSize : Nat)
      (newObject : Bool)
  | committed (p : Presign Part Session Hash) (storedSize : Nat) (newObject : Bool)
  | answered (r : PresignResponse Hash)
  | deleting (hash : Hash) (size cutoff : Int)
  | reclaiming (size : Int)
  | swept

/-- Is a transaction open, that is, begun and neither committed nor rolled back? -/
def Pc.isOpen : Pc Part Session Hash → Bool
  | .idle => false
  | .committed _ _ _ => false
  | .answered _ => false
  | _ => true

def Pc.isFree : Pc Part Session Hash → Bool
  | .idle => true
  | .answered _ => true
  | _ => false

/-- The rows of one tenant and every transaction on them. -/
structure State (Tx Part Session Hash : Type*) where
  blobs : Table Tx Hash Blob
  objects : Table Tx Part (AudioObject Session Hash)
  usage : Table Tx Unit Usage
  pc : Tx → Pc Part Session Hash

def State.empty : State Tx Part Session Hash := ⟨.empty, .empty, .empty, fun _ => .idle⟩

def State.goto (s : State Tx Part Session Hash) (t : Tx) (c : Pc Part Session Hash) :
    State Tx Part Session Hash :=
  { s with pc := Function.update s.pc t c }

/-- The end of a transaction on the three tables. -/
def State.close (s : State Tx Part Session Hash) (t : Tx) (keep : Bool)
    (c : Pc Part Session Hash) : State Tx Part Session Hash where
  blobs := s.blobs.close t keep
  objects := s.objects.close t keep
  usage := s.usage.close t keep
  pc := Function.update s.pc t c

variable (s : State Tx Part Session Hash) (t : Tx) (p : Presign Part Session Hash)

def readBlob : State Tx Part Session Hash :=
  s.goto t (.blobRead p ((s.blobs.view t p.sha256).map Blob.sizeBytes))

def readMapping (blob : Option Int) : State Tx Part Session Hash :=
  s.goto t (.mappingRead p blob ((s.objects.view t p.partId).map AudioObject.sha256))

/-- The blob the part is repointed away from loses its reference. -/
def releaseOld (blob : Option Int) (oldHash : Option Hash) :
    Option (State Tx Part Session Hash) :=
  match oldHash with
  | none => some (s.goto t (.released p blob none))
  | some oh =>
    if oh = p.sha256 then some (s.goto t (.released p blob (some oh)))
    else
      (s.blobs.modify t oh (fun _ => true) (fun b => some (dropRef p.now b))).map
        (fun blobs => { s with blobs := blobs }.goto t (.released p blob (some oh)))

def pointPart (blob : Option Int) (oldHash : Option Hash) :
    Option (State Tx Part Session Hash) :=
  (s.objects.write t p.partId (some ⟨p.sessionId, p.sha256⟩)).map
    (fun objects => { s with objects := objects }.goto t (.mapped p blob oldHash))

/-- `add_ref`, unless the part already pointed at this blob when it was read. -/
def reference (oldHash : Option Hash) (storedSize : Nat) :
    Option (State Tx Part Session Hash) :=
  if oldHash = some p.sha256 then some (s.goto t (.ready p oldHash storedSize false))
  else
    (s.blobs.modify t p.sha256 (fun _ => true) (fun b => some (addRef b))).map
      (fun blobs => { s with blobs := blobs }.goto t (.ready p oldHash storedSize false))

def insertBlob (oldHash : Option Hash) : Option (State Tx Part Session Hash) :=
  (s.blobs.insertIgnore t p.sha256 (newBlob p.size)).map
    (fun r => { s with blobs := r.1 }.goto t
      (if r.2 then .admitting p oldHash .ensure else .conflicted p oldHash))

def rereadSize (oldHash : Option Hash) : State Tx Part Session Hash :=
  s.goto t (.reread p oldHash
    (((s.blobs.view t p.sha256).map (fun b => b.sizeBytes.toNat)).getD p.size))

/-- The choke point, for a blob that was new. -/
def admitBytes (oldHash : Option Hash) (stage : Stage) : Option (State Tx Part Session Hash) :=
  (admitIngress s.usage t p.ingress stage).map (fun r =>
    { s with usage := r.1 }.goto t (match r.2 with
      | .next stage => .admitting p oldHash stage
      | .admitted => .ready p oldHash p.size true
      | .refused refusal => .refused p refusal))

def deleteBlob (hash : Hash) (size cutoff : Int) : Option (State Tx Part Session Hash) :=
  if s.blobs.hits t hash (releasedBefore cutoff) then
    (s.blobs.modify t hash (releasedBefore cutoff) (fun _ => none)).map
      (fun blobs => { s with blobs := blobs }.goto t (.reclaiming size))
  else some (s.goto t .swept)

def reclaimBytes (size : Int) : Option (State Tx Part Session Hash) :=
  (s.usage.modify t () (fun _ => true) (fun u => some (reclaim size u))).map
    (fun usage => { s with usage := usage }.goto t .swept)

/-- The next statement of an open transaction. -/
def execute : Option (State Tx Part Session Hash) :=
  match s.pc t with
  | .idle => none
  | .begun p => some (readBlob s t p)
  | .blobRead p blob => some (readMapping s t p blob)
  | .mappingRead p blob old => releaseOld s t p blob old
  | .released p blob old => pointPart s t p blob old
  | .mapped p (some size) old => reference s t p old size.toNat
  | .mapped p none old => insertBlob s t p old
  | .conflicted p old => some (rereadSize s t p old)
  | .reread p old stored => reference s t p old stored
  | .admitting p old stage => admitBytes s t p old stage
  | .refused _ _ => none
  | .ready p _ stored new => some (s.close t true (.committed p stored new))
  | .committed _ _ _ => none
  | .answered _ => none
  | .deleting hash size cutoff => deleteBlob s t hash size cutoff
  | .reclaiming size => reclaimBytes s t size
  | .swept => some (s.close t true .idle)

/-- The answer after the commit. A new object cannot be in storage yet; for any
other the metadata HEAD decides. -/
def respond (storedSize : Nat) (newObject present : Bool) : PresignResponse Hash :=
  if newObject then ⟨false, some ⟨p.sha256, p.size⟩, p.sha256, p.size⟩
  else if present then ⟨true, none, p.sha256, storedSize⟩
  else ⟨false, some ⟨p.sha256, storedSize⟩, p.sha256, storedSize⟩

end Statements

section Machine

variable {Tx Part Session Hash : Type*} [DecidableEq Tx] [DecidableEq Part] [DecidableEq Hash]

inductive Action (Tx Part Session Hash : Type*) where
  | presign (t : Tx) (p : Presign Part Session Hash)
  | sweep (t : Tx) (hash : Hash) (size cutoff : Int)
  | execute (t : Tx)
  | rollback (t : Tx)
  | answer (t : Tx) (present : Bool)

def Action.tx : Action Tx Part Session Hash → Tx
  | .presign t _ => t
  | .sweep t _ _ _ => t
  | .execute t => t
  | .rollback t => t
  | .answer t _ => t

/-- One step of any interleaving: a request begins, an open transaction runs its
next statement or fails, or a committed request is answered. -/
def step (s : State Tx Part Session Hash) : Action Tx Part Session Hash →
    Option (State Tx Part Session Hash)
  | .presign t p => if (s.pc t).isFree then some (s.goto t (.begun p)) else none
  | .sweep t hash size cutoff =>
    if (s.pc t).isFree then some (s.goto t (.deleting hash size cutoff)) else none
  | .execute t => execute s t
  | .rollback t => if (s.pc t).isOpen then some (s.close t false .idle) else none
  | .answer t present =>
    match s.pc t with
    | .committed p stored new => some (s.goto t (.answered (respond p stored new present)))
    | _ => none

end Machine

end YapStack.Relay.Audio
