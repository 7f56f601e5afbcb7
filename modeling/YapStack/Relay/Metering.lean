import Mathlib.Algebra.GroupWithZero.Nat
import YapStack.Foundation.Rows
import YapStack.Relay.Audio
import YapStack.Relay.Tenant

set_option linter.unusedSectionVars false

namespace YapStack.Relay.Metering

open Choke Sequence
open Audio (Blob AudioObject PresignQuery addRef dropRef newBlob releasedBefore)
open Tenant (Snapshot SnapshotPresignRequest generation snapshotRow AppError maxPushChanges
  maxPushBytes)

/-- The committed rows of one tenant. -/
structure Db (Client Part Session Hash : Type) where
  changesets : Store Client
  blobs : Rows Hash Blob
  objects : Part → Option (AudioObject Session Hash)
  snapshots : Rows Int (Snapshot Hash)
  usage : Option Usage

/-- What a handler knows of its tenant besides the rows. -/
structure Account where
  limits : TenantLimits
  helpUrl : String

/-- How a request ended. `admitted` keeps the arguments its bytes passed the choke point with. -/
inductive Outcome (Client : Type) where
  | none
  | admitted (i : Ingress)
  | unmetered
  | refused (e : AppError Client)

/-- Where a snapshot presign is between its transactions. -/
inductive Presigning (Hash : Type) where
  | found (a : Account) (r : SnapshotPresignRequest Hash) (existingHash : Hash)
      (existingSize : Nat)
  | repointing (a : Account) (r : SnapshotPresignRequest Hash) (existingHash : Hash)
      (existingSize : Nat)

/-- The relay between two transactions. A sweep holds the blobs it has listed and its cutoff.
`repointed` and `last` are history. -/
structure State (Req Sweep Client Part Session Hash : Type) where
  db : Db Client Part Session Hash
  clock : Int
  presigns : Req → Option (Presigning Hash)
  sweeps : Sweep → Option (List (Hash × Int) × Int)
  repointed : Bool
  last : Outcome Client

inductive Action (Req Sweep Client Part Session Hash : Type) where
  | tick (d : Nat)
  | push (a : Account) (changes : List (PushChange Client))
  | presignAudio (a : Account) (q : PresignQuery Part Session Hash)
  | presignSnapshot (t : Req) (a : Account) (r : SnapshotPresignRequest Hash)
  | head (t : Req) (present : Bool)
  | repoint (t : Req)
  | scan (v : Sweep) (grace : Nat)
  | sweepBlob (v : Sweep) (objectDeleted : Bool)

section Admit

/-- A sum that leaves `bigint` fails the statement. -/
def overflows (added : Int) (u : Usage) : Bool :=
  decide (i64Max < u.storageBytes + added) || decide (i64Max < u.uploadBytesPeriod + added)

def rolled (limits : TenantLimits) (u : Usage) : Usage :=
  match limits.periodStart with
  | none => u
  | some ps => if windowBefore ps u then rollWindow ps u else u

/-- `choke::admit`, run to its end. -/
def admitUsage (usage : Option Usage) (i : Ingress) : Except Refusal Usage :=
  let u := rolled i.limits (usage.getD (newUsage i.now))
  let added := toI64 i.addedBytes
  if isFrozen i.limits then .error (.quota (quota "frozen" 0 0 i.limits i.helpUrl))
  else if overflows added u then .error .db
  else if fits i.limits added u then .ok (reserve added u)
  else .error (.quota (breach i.limits added i.helpUrl u))

end Admit

section Transactions

variable {Client Part Session Hash : Type}
variable [DecidableEq Client] [DecidableEq Part] [DecidableEq Hash]

abbrev Result (Client Part Session Hash : Type) :=
  Except (AppError Client) (Db Client Part Session Hash × Outcome Client)

variable (db : Db Client Part Session Hash) (now : Int) (a : Account)

def Account.ingress (a : Account) (bytes : Nat) (now : Int) : Ingress :=
  ⟨a.limits, bytes, a.helpUrl, now⟩

/-- The choke point inside a transaction that has come to `db`. -/
def admitBytes (bytes : Nat) : Result Client Part Session Hash :=
  match admitUsage db.usage (a.ingress bytes now) with
  | .error r => .error (.metering r)
  | .ok u => .ok ({ db with usage := some u }, .admitted (a.ingress bytes now))

def push (changes : List (PushChange Client)) : Result Client Part Session Hash :=
  if maxPushChanges < changes.length then .error (.badRequest "batch exceeds 1000 changes")
  else if changes = [] then .ok (db, .unmetered)
  else if maxPushBytes < (changes.map (fun e => e.ciphertext.length)).sum then
    .error (.badRequest "batch exceeds 5242880 bytes")
  else
    match assign db.changesets.existing (db.changesets.length + 1) changes with
    | .error key => .error (.clientSeqRegression key)
    | .ok b =>
      if b.newRows = [] then .ok (db, .unmetered)
      else
        (admitBytes db now a b.addedBytes).map (fun r =>
          ({ r.1 with changesets := r.1.changesets ++ b.newRows.map Prod.snd }, r.2))

/-- The blob the part is repointed away from loses its reference. -/
def releaseOld (q : PresignQuery Part Session Hash) : Rows Hash Blob :=
  match db.objects q.partId with
  | none => db.blobs
  | some o => if o.sha256 = q.sha256 then db.blobs else db.blobs.modify o.sha256 (dropRef now)

def samePartSameBlob (q : PresignQuery Part Session Hash) : Bool :=
  (db.objects q.partId).any (fun o => o.sha256 = q.sha256)

def mapPart (q : PresignQuery Part Session Hash) : Db Client Part Session Hash :=
  { db with
    blobs := releaseOld db now q
    objects := Function.update db.objects q.partId (some ⟨q.sessionId, q.sha256⟩) }

/-- `audio::presign` up to its commit. -/
def presignAudio (q : PresignQuery Part Session Hash) : Result Client Part Session Hash :=
  let mapped := mapPart db now q
  match db.blobs.lookup q.sha256 with
  | some _ =>
    if samePartSameBlob db q then .ok (mapped, .unmetered)
    else .ok ({ mapped with blobs := mapped.blobs.modify q.sha256 addRef }, .unmetered)
  | none =>
    admitBytes { mapped with blobs := mapped.blobs.insert q.sha256 (newBlob q.size) } now a q.size

/-- The publishing transaction of `snapshot::presign`, for a generation that has no row. -/
def publish (r : SnapshotPresignRequest Hash) : Result Client Part Session Hash :=
  admitBytes { db with snapshots := db.snapshots.insert (generation r) (snapshotRow r) } now a
    r.size

/-- The bytes a re-point meters over those already reserved. -/
def repointDelta (r : SnapshotPresignRequest Hash) (existingSize : Nat) : Nat :=
  r.size - existingSize

/-- The re-pointing transaction: the compare-and-swap is on the hash that was read. -/
def repoint (r : SnapshotPresignRequest Hash) (existingHash : Hash) (existingSize : Nat) :
    Result Client Part Session Hash :=
  match admitBytes db now a (repointDelta r existingSize) with
  | .error e => .error e
  | .ok (db, o) =>
    match db.snapshots.lookup (generation r) with
    | none => .error (.conflict "snapshot generation concurrently updated; retry")
    | some row =>
      if row.sha256 = existingHash then
        .ok ({ db with snapshots := db.snapshots.insert (generation r) (snapshotRow r) }, o)
      else .error (.conflict "snapshot generation concurrently updated; retry")

/-- The eligible blobs, with their sizes. -/
def eligible (cutoff : Int) : List (Hash × Int) :=
  (db.blobs.entries.filter (fun e => releasedBefore cutoff e.2)).map (fun e =>
    (e.1, e.2.sizeBytes))

/-- The row transaction of the sweep. -/
def deleteRow (hash : Hash) (size cutoff : Int) : Db Client Part Session Hash :=
  match db.blobs.lookup hash with
  | none => db
  | some b =>
    if releasedBefore cutoff b then
      { db with blobs := db.blobs.erase hash, usage := db.usage.map (reclaim size) }
    else db

end Transactions

section Machine

variable {Req Sweep Client Part Session Hash : Type}
variable [DecidableEq Req] [DecidableEq Sweep]
variable [DecidableEq Client] [DecidableEq Part] [DecidableEq Hash]

def State.empty : State Req Sweep Client Part Session Hash where
  db := ⟨[], ∅, fun _ => none, ∅, none⟩
  clock := 0
  presigns := fun _ => none
  sweeps := fun _ => none
  repointed := false
  last := .none

/-- A transaction commits, or it rolls back and the request is refused. -/
def State.settle (s : State Req Sweep Client Part Session Hash)
    (r : Result Client Part Session Hash) : State Req Sweep Client Part Session Hash :=
  match r with
  | .error e => { s with last := .refused e }
  | .ok (db, o) => { s with db := db, last := o }

def State.leave (s : State Req Sweep Client Part Session Hash) (t : Req)
    (next : Option (Presigning Hash) × Outcome Client) :
    State Req Sweep Client Part Session Hash :=
  { s with presigns := Function.update s.presigns t next.1, last := next.2 }

/-- What the HEAD on the object of the row that was read decides. -/
def afterHead (a : Account) (r : SnapshotPresignRequest Hash) (existingHash : Hash)
    (existingSize : Nat) (present : Bool) : Option (Presigning Hash) × Outcome Client :=
  if existingHash = r.sha256 then (none, .unmetered)
  else if present then
    (none, .refused (.conflict "snapshot generation already published with a different hash"))
  else (some (.repointing a r existingHash existingSize), .none)

/-- One transaction of any serial run, or a request to object storage between two of them. -/
def step (s : State Req Sweep Client Part Session Hash) :
    Action Req Sweep Client Part Session Hash →
      Option (State Req Sweep Client Part Session Hash)
  | .tick d => some { s with clock := s.clock + d, last := .none }
  | .push a changes => some (s.settle (push s.db s.clock a changes))
  | .presignAudio a q => some (s.settle (presignAudio s.db s.clock a q))
  | .presignSnapshot t a r =>
    match s.presigns t with
    | some _ => none
    | none =>
      match s.db.snapshots.lookup (generation r) with
      | none => some (s.settle (publish s.db s.clock a r))
      | some row => some (s.leave t (some (.found a r row.sha256 row.sizeBytes.toNat), .none))
  | .head t present =>
    match s.presigns t with
    | some (.found a r existingHash existingSize) =>
      some (s.leave t (afterHead a r existingHash existingSize present))
    | _ => none
  | .repoint t =>
    match s.presigns t with
    | some (.repointing a r existingHash existingSize) =>
      let result := repoint s.db s.clock a r existingHash existingSize
      some { (s.leave t (none, .none)).settle result with
        repointed := s.repointed || result.isOk }
    | _ => none
  | .scan v grace =>
    match s.sweeps v with
    | some _ => none
    | none =>
      some { s with
        sweeps := Function.update s.sweeps v
          (some (eligible s.db (s.clock - grace), s.clock - grace))
        last := .none }
  | .sweepBlob v objectDeleted =>
    match s.sweeps v with
    | none => none
    | some ([], _) => some { s with sweeps := Function.update s.sweeps v none, last := .none }
    | some ((hash, size) :: rest, cutoff) =>
      some { s with
        db := if objectDeleted then deleteRow s.db hash size cutoff else s.db
        sweeps := Function.update s.sweeps v (some (rest, cutoff))
        last := .none }

end Machine

end YapStack.Relay.Metering
