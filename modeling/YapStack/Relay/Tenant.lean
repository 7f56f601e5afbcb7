import Mathlib.Data.List.Sort
import YapStack.Foundation.Runs
import YapStack.Relay.Capability
import YapStack.Relay.Choke
import YapStack.Relay.Sequence

namespace YapStack.Relay.Tenant

open Capability Sequence
open Choke (TenantLimits Usage Refusal Stage Ingress)
open Devices (Status)

def maxPushChanges : Nat := 1000

def maxPushBytes : Nat := 5 * 1024 * 1024

def defaultLimit : Int := 500

def maxLimit : Int := 2000

/-- A row of `changesets`. `declared` is the batch level its push declared: a
history field that no statement reads. -/
structure Changeset (Client : Type) where
  change : PushChange Client
  declared : Int
  deriving DecidableEq

/-- A row of `snapshots`, with the content level its presign declared. -/
structure Snapshot (Hash : Type) where
  sha256 : Hash
  sizeBytes : Int
  baselineSeq : Int
  declared : Int
  deriving DecidableEq

structure SnapshotPresignRequest (Hash : Type) where
  sha256 : Hash
  size : Nat
  generation : Nat
  baselineSeq : Int
  contentLevel : Int
  deriving DecidableEq

/-- What a transaction is for. A presign runs three of them in turn. -/
inductive Op (Client Hash : Type) where
  | push (changes : List (PushChange Client)) (batchLevel : Int)
  | pull (since : Int) (limit : Option Int)
  | head
  | gate (r : SnapshotPresignRequest Hash)
  | publish (r : SnapshotPresignRequest Hash)
  | repoint (r : SnapshotPresignRequest Hash) (existingHash : Hash) (existingSize : Nat)
  | raise (target : Int)

/-- One request: its caller, the level its header reports, and `now()` of its transaction. -/
structure Call (Client Hash : Type) where
  clientId : Option Client
  level : Int
  limits : TenantLimits
  helpUrl : String
  now : Int
  op : Op Client Hash

/-- The capability headers of a request. -/
structure Headers where
  sync : Option (List Char)
  batch : Option (List Char)
  snapshot : Option (List Char)

inductive AppError (Client : Type) where
  | badRequest (message : String)
  | forbidden
  | conflict (message : String)
  | clientSeqRegression (key : Client × Int)
  | metering (r : Refusal)
  | updateRequired (levels : Levels)
  | capabilityFloor (levels : Levels)
  | capabilityBlocked (body : SyncCapabilityBlocked Client)
  | db
  deriving DecidableEq

structure PushResponse (Client : Type) where
  acks : List (PushAck Client)
  maxChangesetSeq : Nat
  deriving DecidableEq

structure PullResponse (Client : Type) where
  changes : List (Nat × Changeset Client)
  nextSeq : Int
  hasMore : Bool
  levels : Levels
  deriving DecidableEq

structure SnapshotPresignResponse (Hash : Type) where
  alreadyExists : Bool
  upload : Option Nat
  objectKey : Hash
  deriving DecidableEq

inductive Answer (Client Hash : Type) where
  | pushed (r : PushResponse Client)
  /-- `tip` is the last seq at the time of the read: history, not in the response. -/
  | page (r : PullResponse Client) (tip : Nat)
  | head (latest : Option (Int × Snapshot Hash))
  | presigned (r : SnapshotPresignResponse Hash)
  | levels (l : Levels)
  | error (e : AppError Client)
  deriving DecidableEq

/-- What is left of a request when its transaction commits. -/
inductive Outcome (Client Hash : Type) where
  | answer (a : Answer Client Hash)
  | gated (r : SnapshotPresignRequest Hash)
  | found (r : SnapshotPresignRequest Hash) (existingHash : Hash) (existingSize : Int)
  | latest (generation : Int) (snapshot : Snapshot Hash)

/-- What follows the choke point. -/
inductive Metered (Client : Type) where
  | changes (a : Assigned Client)
  | publish
  | repoint

/-- How far a transaction has come that holds the floor row. -/
inductive Work (Client Hash : Type) where
  | locked
  | bootstrapSeq
  | lockSeq
  | numbered (nextSeq : Nat)
  | admitting (next : Metered Client) (stage : Stage)
  | inserting (a : Assigned Client) (rest : List (Nat × PushChange Client))
  | existing
  | insertSnapshot
  | swap
  | recording
  | recorded
  /-- `revoked` lists the devices the scan skipped as revoked: history. -/
  | scanned (blockers : List (CapabilityBlocker Client)) (revoked : List Client)
  | raised (levels : Levels) (revoked : List Client)
  | ready (o : Outcome Client Hash)

inductive Pc (Client Hash : Type) where
  | idle
  | caller (c : Call Client Hash)
  | bootstrap (c : Call Client Hash)
  | lock (c : Call Client Hash)
  | holding (c : Call Client Hash) (levels : Levels) (w : Work Client Hash)
  | failed (c : Call Client Hash) (e : AppError Client)
  | between (c : Call Client Hash) (o : Outcome Client Hash)
  | answered (c : Call Client Hash) (a : Answer Client Hash)
  | editing

def Pc.isOpen {Client Hash : Type} : Pc Client Hash → Bool
  | .caller _ | .bootstrap _ | .lock _ | .holding _ _ _ | .failed _ _ | .editing => true
  | _ => false

/-- The rows of one tenant that the sync routes read and write, and every
transaction on them. -/
structure State (Tx Client Hash : Type) where
  floor : Table Tx Unit Levels
  seq : Table Tx Unit Nat
  changesets : Table Tx Nat (Changeset Client)
  snapshots : Table Tx Int (Snapshot Hash)
  usage : Table Tx Unit Usage
  devices : Table Tx Client Device
  pc : Tx → Pc Client Hash

section Statements

variable {Tx Client Hash : Type} [DecidableEq Tx] [DecidableEq Client] [DecidableEq Hash]

def State.empty : State Tx Client Hash :=
  ⟨.empty, .empty, .empty, .empty, .empty, .empty, fun _ => .idle⟩

def State.goto (s : State Tx Client Hash) (t : Tx) (p : Pc Client Hash) : State Tx Client Hash :=
  { s with pc := Function.update s.pc t p }

/-- The end of a transaction on every table. -/
def State.close (s : State Tx Client Hash) (t : Tx) (keep : Bool) (p : Pc Client Hash) :
    State Tx Client Hash where
  floor := s.floor.close t keep
  seq := s.seq.close t keep
  changesets := s.changesets.close t keep
  snapshots := s.snapshots.close t keep
  usage := s.usage.close t keep
  devices := s.devices.close t keep
  pc := Function.update s.pc t p

def Op.exclusive : Op Client Hash → Bool
  | .raise _ => true
  | _ => false

/-- The bytes that a publication adds, as the choke point meters them. -/
def addedBytes (c : Call Client Hash) : Metered Client → Nat
  | .changes a => a.addedBytes
  | .publish =>
    match c.op with
    | .publish r => r.size
    | _ => 0
  | .repoint =>
    match c.op with
    | .repoint r _ size => r.size - size
    | _ => 0

def ingress (c : Call Client Hash) (next : Metered Client) : Ingress :=
  ⟨c.limits, addedBytes c next, c.helpUrl, c.now⟩

def generation (r : SnapshotPresignRequest Hash) : Int := Choke.toI64 r.generation

def snapshotRow (r : SnapshotPresignRequest Hash) : Snapshot Hash :=
  ⟨r.sha256, Choke.toI64 r.size, r.baselineSeq, r.contentLevel⟩

/-- `SELECT ... WHERE changeset_seq > since ORDER BY changeset_seq LIMIT limit`. -/
def readChanges (tb : Table Tx Nat (Changeset Client)) (t : Tx) (since : Int) (limit : Nat) :
    List (Nat × Changeset Client) :=
  (((tb.scan t (fun k _ => since < (k : Int))).insertionSort (· ≤ ·)).take limit).filterMap
    (fun k => (tb.view t k).map (fun c => (k, c)))

def maxSeq (tb : Table Tx Nat (Changeset Client)) (t : Tx) : Nat :=
  (tb.scan t (fun _ _ => true)).max?.getD 0

def pageLimit (limit : Option Int) : Nat := (max 1 (min (limit.getD defaultLimit) maxLimit)).toNat

def pullResponse (since : Int) (limit : Nat) (levels : Levels)
    (rows : List (Nat × Changeset Client)) : PullResponse Client where
  changes := rows.take limit
  nextSeq := ((rows.take limit).getLast?.map (fun r => (r.1 : Int))).getD since
  hasMore := limit < rows.length
  levels := levels

/-- The stored pairs of a batch, with their seqs and ciphertexts. -/
def readExisting (tb : Table Tx Nat (Changeset Client)) (t : Tx) : Existing Client := fun key =>
  (tb.scan t (fun _ c => c.change.key = key)).head?.bind (fun k =>
    (tb.view t k).map (fun c => (k, c.change.ciphertext)))

/-- `ORDER BY generation DESC LIMIT 1`. -/
def latestSnapshot (tb : Table Tx Int (Snapshot Hash)) (t : Tx) : Option (Int × Snapshot Hash) :=
  ((tb.scan t (fun _ _ => true)).insertionSort (fun a b => b ≤ a)).head?.bind (fun g =>
    (tb.view t g).map (fun r => (g, r)))

variable (s : State Tx Client Hash) (t : Tx) (c : Call Client Hash) (l : Levels)

def isActive : Bool :=
  c.clientId.any (fun d => (s.devices.view t d).any (fun r => r.status = Status.active))

/-- `require_active_caller`. -/
def checkCaller : State Tx Client Hash :=
  s.goto t (if isActive s t c then .bootstrap c else .failed c .forbidden)

def bootstrapFloor : Option (State Tx Client Hash) :=
  (s.floor.insertIgnore t () .initial).map (fun r => { s with floor := r.1 }.goto t (.lock c))

def lockFloor : Option (State Tx Client Hash) :=
  (if c.op.exclusive then s.floor.lock t () else s.floor.share t ()).map (fun floor =>
    { s with floor := floor }.goto t
      (match floor.view t () with
      | none => .failed c .db
      | some l => .holding c l .locked))

/-- `admit_publication`, then on to `w`. -/
def admitContent (contentLevel : Int) (w : Work Client Hash) : State Tx Client Hash :=
  s.goto t (if admitsPublication l contentLevel then .holding c l w
    else .failed c (.capabilityFloor l))

/-- `require_active_caller_locked`. -/
def lockCaller : Option (State Tx Client Hash) :=
  match c.clientId with
  | none => some (s.goto t (.failed c .forbidden))
  | some d =>
    match s.devices.view t d with
    | none => some (s.goto t (.failed c .forbidden))
    | some r => (s.devices.share t d).map (fun devices =>
        { s with devices := devices }.goto t
          (if r.status = Status.active then .holding c l .recording else .failed c .forbidden))

def afterLock : Option (State Tx Client Hash) :=
  match c.op with
  | .push _ batchLevel => some (admitContent s t c l batchLevel .bootstrapSeq)
  | .publish r => some (admitContent s t c l r.contentLevel .existing)
  | .repoint r _ _ => some (admitContent s t c l r.contentLevel (.admitting .repoint .ensure))
  | .raise _ => lockCaller s t c l
  | .pull _ _ | .head | .gate _ => some (s.goto t (.holding c l .recording))

/-- `record_caller_level`. A token without a device identity has no row to stamp. -/
def recordLevel : Option (State Tx Client Hash) :=
  match c.clientId with
  | none => some (s.goto t (.holding c l .recorded))
  | some d =>
    (s.devices.modify t d (stampDue c.now c.level) (fun r => some (stamp c.now c.level r))).map
      (fun devices => { s with devices := devices }.goto t (.holding c l .recorded))

def insertSeq : Option (State Tx Client Hash) :=
  (s.seq.insertIgnore t () 1).map (fun r =>
    { s with seq := r.1 }.goto t (.holding c l .lockSeq))

def lockSeq : Option (State Tx Client Hash) :=
  (s.seq.lock t ()).map (fun seq =>
    { s with seq := seq }.goto t
      (match seq.view t () with
      | none => .failed c .db
      | some next => .holding c l (.numbered next)))

/-- Resolve the batch under the lock and, if it brings anything new, go on to the choke point. -/
def resolve (changes : List (PushChange Client)) (next : Nat) : State Tx Client Hash :=
  s.goto t (match assign (readExisting s.changesets t) next changes with
    | .error key => .failed c (.clientSeqRegression key)
    | .ok a =>
      .holding c l (if a.newRows = [] then .ready (.answer (.pushed ⟨a.acks, a.nextSeq - 1⟩))
        else .admitting (.changes a) .ensure))

/-- The statement that follows a passed choke point. -/
def afterAdmit : Metered Client → Work Client Hash
  | .changes a => .inserting a a.newRows
  | .publish =>
    match c.op with
    | .publish r => .ready (.answer (.presigned ⟨false, some r.size, r.sha256⟩))
    | _ => .swap
  | .repoint => .swap

def admitBytes (next : Metered Client) (stage : Stage) : Option (State Tx Client Hash) :=
  (Choke.admitIngress s.usage t (ingress c next) stage).map (fun r =>
    { s with usage := r.1 }.goto t (match r.2 with
      | .next stage => .holding c l (.admitting next stage)
      | .admitted => .holding c l (afterAdmit c next)
      | .refused r => .failed c (.metering r)))

/-- Both keys of `changesets` are unique: its seq, and its pair. -/
def insertChange (batchLevel : Int) (a : Assigned Client) (row : Nat × PushChange Client)
    (rest : List (Nat × PushChange Client)) : Option (State Tx Client Hash) :=
  if s.changesets.view t row.1 = none ∧
      s.changesets.scan t (fun _ r => r.change.key = row.2.key) = [] then
    (s.changesets.write t row.1 (some ⟨row.2, batchLevel⟩)).map (fun changesets =>
      { s with changesets := changesets }.goto t (.holding c l (.inserting a rest)))
  else some (s.goto t (.failed c .db))

def advanceSeq (a : Assigned Client) : Option (State Tx Client Hash) :=
  (s.seq.modify t () (fun _ => true) (fun n => some (n + a.newRows.length))).map (fun seq =>
    { s with seq := seq }.goto t
      (.holding c l (.ready (.answer (.pushed ⟨a.acks, a.nextSeq - 1⟩)))))

def readSnapshot (r : SnapshotPresignRequest Hash) : State Tx Client Hash :=
  s.goto t (.holding c l (match s.snapshots.view t (generation r) with
    | none => .insertSnapshot
    | some row => .ready (.found r row.sha256 row.sizeBytes)))

def insertSnapshot (r : SnapshotPresignRequest Hash) : Option (State Tx Client Hash) :=
  match s.snapshots.view t (generation r) with
  | some _ => some (s.goto t (.failed c .db))
  | none => (s.snapshots.write t (generation r) (some (snapshotRow r))).map (fun snapshots =>
      { s with snapshots := snapshots }.goto t (.holding c l (.admitting .publish .ensure)))

/-- The compare-and-swap on the hash that the publishing transaction read. -/
def swapSnapshot (r : SnapshotPresignRequest Hash) (existingHash : Hash) :
    Option (State Tx Client Hash) :=
  if s.snapshots.hits t (generation r) (fun row => row.sha256 = existingHash) then
    (s.snapshots.modify t (generation r) (fun row => row.sha256 = existingHash)
      (fun _ => some (snapshotRow r))).map (fun snapshots =>
        { s with snapshots := snapshots }.goto t
          (.holding c l (.ready (.answer (.presigned ⟨false, some r.size, r.sha256⟩)))))
  else some (s.goto t (.failed c (.conflict "snapshot generation concurrently updated; retry")))

def readPage (since : Int) (limit : Option Int) : Answer Client Hash :=
  .page
    (pullResponse since (pageLimit limit) l
      (readChanges s.changesets t since (pageLimit limit + 1)))
    (maxSeq s.changesets t)

/-- A reader below the floor is refused after its stamp is committed. -/
def gatedRead (w : Work Client Hash) : State Tx Client Hash :=
  s.goto t (.holding c l
    (if c.level < l.required then .ready (.answer (.error (.updateRequired l))) else w))

/-- The rest of the first transaction of a presign. -/
def gateContent (r : SnapshotPresignRequest Hash) : State Tx Client Hash :=
  if c.level < l.required then
    s.goto t (.holding c l (.ready (.answer (.error (.updateRequired l)))))
  else if isActive s t c then admitContent s t c l r.contentLevel (.ready (.gated r))
  else s.goto t (.failed c .forbidden)

def readLatest : Work Client Hash :=
  .ready (match latestSnapshot s.snapshots t with
    | none => .answer (.head none)
    | some (g, r) => .latest g r)

/-- The in-window devices that report less than `target`, the latest seen first. -/
def readBlockers (target : Int) : List (CapabilityBlocker Client) :=
  ((s.devices.scan t (fun _ d => blocks c.now target d)).filterMap (fun d =>
    (s.devices.view t d).map (blocker d))).insertionSort (fun a b => seenLater a b = true)

def scanDevices (target : Int) : State Tx Client Hash :=
  s.goto t (.holding c l
    (if target ≤ l.required then .ready (.answer (.levels l))
    else .scanned (readBlockers s t c target)
      (s.devices.scan t (fun _ d => d.status = .revoked))))

def afterRecord : Option (State Tx Client Hash) :=
  match c.op with
  | .pull since limit => some (gatedRead s t c l (.ready (.answer (readPage s t l since limit))))
  | .head => some (gatedRead s t c l (readLatest s t))
  | .gate r => some (gateContent s t c l r)
  | .raise target => some (scanDevices s t c l target)
  | _ => none

/-- `UPDATE tenant_sync_capability ... RETURNING` both levels. -/
def updateFloor (f : Levels → Levels) (w : Levels → Work Client Hash) :
    Option (State Tx Client Hash) :=
  match s.floor.view t () with
  | none => some (s.goto t (.failed c .db))
  | some cur => (s.floor.write t () (some (f cur))).map (fun floor =>
      { s with floor := floor }.goto t (.holding c l (w (f cur))))

def decideRaise (target : Int) (blockers : List (CapabilityBlocker Client))
    (revoked : List Client) : Option (State Tx Client Hash) :=
  if blockers = [] then updateFloor s t c l (raiseRequired target) (fun r => .raised r revoked)
  else updateFloor s t c l (raiseRequested target)
    (fun r => .ready (.answer (.error (.capabilityBlocked (blocked r blockers)))))

/-- Where a request stands once its transaction has committed. -/
def committed : Outcome Client Hash → Pc Client Hash
  | .answer a => .answered c a
  | o => .between c o

/-- The next statement of a transaction that holds the floor row. -/
def work : Work Client Hash → Option (State Tx Client Hash)
  | .locked => afterLock s t c l
  | .bootstrapSeq => insertSeq s t c l
  | .lockSeq => lockSeq s t c l
  | .numbered next =>
    match c.op with
    | .push changes _ => some (resolve s t c l changes next)
    | _ => none
  | .admitting next stage => admitBytes s t c l next stage
  | .inserting a (row :: rest) =>
    match c.op with
    | .push _ batchLevel => insertChange s t c l batchLevel a row rest
    | _ => none
  | .inserting a [] => advanceSeq s t c l a
  | .existing =>
    match c.op with
    | .publish r => some (readSnapshot s t c l r)
    | _ => none
  | .insertSnapshot =>
    match c.op with
    | .publish r => insertSnapshot s t c l r
    | _ => none
  | .swap =>
    match c.op with
    | .repoint r existingHash _ => swapSnapshot s t c l r existingHash
    | _ => none
  | .recording => recordLevel s t c l
  | .recorded => afterRecord s t c l
  | .scanned blockers revoked =>
    match c.op with
    | .raise target => decideRaise s t c l target blockers revoked
    | _ => none
  | .raised r _ => some (s.close t true (.answered c (.levels r)))
  | .ready o => some (s.close t true (committed c o))

/-- The next statement of an open transaction. -/
def execute : Option (State Tx Client Hash) :=
  match s.pc t with
  | .caller c => some (checkCaller s t c)
  | .bootstrap c => bootstrapFloor s t c
  | .lock c => lockFloor s t c
  | .holding c l w => work s t c l w
  | .editing => some (s.close t true .idle)
  | _ => none

/-- `object_exists` has answered `present` for the stored object: the response, or
the next transaction of the presign. -/
def respond (now : Int) (present : Bool) : Outcome Client Hash → Option (Pc Client Hash)
  | .answer _ => none
  | .gated r => some (.bootstrap { c with now := now, op := .publish r })
  | .latest g row => some (.answered c (.head (if present then some (g, row) else none)))
  | .found r existingHash existingSize =>
    if existingHash = r.sha256 then
      if present then some (.answered c (.presigned ⟨true, none, r.sha256⟩))
      else some (.answered c (.presigned ⟨false, some existingSize.toNat, r.sha256⟩))
    else if present then
      some (.answered c
        (.error (.conflict "snapshot generation already published with a different hash")))
    else some (.bootstrap
      { c with now := now, op := .repoint r existingHash existingSize.toNat })

/-- The checks a push passes before its transaction begins. -/
def receivePush (batch : Option (List Char)) (changes : List (PushChange Client)) :
    Pc Client Hash :=
  if maxPushChanges < changes.length then
    .answered c (.error (.badRequest "batch exceeds 1000 changes"))
  else if changes = [] then .answered c (.pushed ⟨[], 0⟩)
  else
    match headerLevel "x-yapstack-batch-capability" batch with
    | .error e => .answered c (.error (.badRequest e))
    | .ok level =>
      if maxPushBytes < (changes.map (fun e => e.ciphertext.length)).sum then
        .answered c (.error (.badRequest "batch exceeds 5242880 bytes"))
      else .caller { c with op := .push changes level }

/-- The caller reports its level, and its first transaction begins. -/
def receiveGated (reported : Option (List Char)) (op : Op Client Hash) : Pc Client Hash :=
  match headerLevel "x-yapstack-sync-capability" reported with
  | .error e => .answered c (.error (.badRequest e))
  | .ok level => .bootstrap { c with level := level, op := op }

def receive (h : Headers) : Pc Client Hash :=
  match c.op with
  | .push changes _ => receivePush c h.batch changes
  | .pull _ _ | .head => receiveGated c h.sync c.op
  | .gate r =>
    match headerLevel "x-yapstack-snapshot-capability" h.snapshot with
    | .error e => .answered c (.error (.badRequest e))
    | .ok content => receiveGated c h.sync (.gate { r with contentLevel := content })
  | .raise target =>
    if target < 0 then
      .answered c (.error (.badRequest "required_sync_capability must be non-negative"))
    else receiveGated c h.sync c.op
  | .publish _ | .repoint _ _ _ => .idle

/-- The write of another route to a device's row. -/
def setDevice (d : Client) (label platform : String) (status : Status) :
    Option (State Tx Client Hash) :=
  (s.devices.write t d (some (edit label platform status (s.devices.view t d)))).map
    (fun devices => { s with devices := devices })

end Statements

section Machine

variable {Tx Client Hash : Type} [DecidableEq Tx] [DecidableEq Client] [DecidableEq Hash]

inductive Action (Tx Client Hash : Type) where
  | receive (t : Tx) (h : Headers) (c : Call Client Hash)
  | execute (t : Tx)
  | respond (t : Tx) (now : Int) (present : Bool)
  | rollback (t : Tx)
  | edit (t : Tx)
  | setDevice (t : Tx) (d : Client) (label platform : String) (status : Status)

/-- The answer of a request whose transaction rolled back. -/
def rolledBack : Pc Client Hash → Pc Client Hash
  | .caller c | .bootstrap c | .lock c | .holding c _ _ => .answered c (.error .db)
  | .failed c e => .answered c (.error e)
  | _ => .idle

/-- One step of any interleaving: a request arrives, an open transaction runs its
next statement or fails, object storage answers, or another route writes devices. -/
def step (s : State Tx Client Hash) : Action Tx Client Hash → Option (State Tx Client Hash)
  | .receive t h c =>
    match s.pc t with
    | .idle => some (s.goto t (receive c h))
    | _ => none
  | .execute t => execute s t
  | .respond t now present =>
    match s.pc t with
    | .between c o => (respond c now present o).map (s.goto t)
    | _ => none
  | .rollback t =>
    if (s.pc t).isOpen then some (s.close t false (rolledBack (s.pc t))) else none
  | .edit t =>
    match s.pc t with
    | .idle => some (s.goto t .editing)
    | _ => none
  | .setDevice t d label platform status =>
    match s.pc t with
    | .editing => setDevice s t d label platform status
    | _ => none

end Machine

end YapStack.Relay.Tenant
