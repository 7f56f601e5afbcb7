import YapStack.Foundation.Runs
import YapStack.Sync.Outbox
import YapStack.Sync.Session

set_option linter.unusedSectionVars false

namespace YapStack.Sync

open Relay.Sequence

/-- What stays the same over a device's life. -/
structure Config (Client : Type) where
  cipher : ChangesetCipher Client
  clientId : Client
  siteId : Bytes

/-- What one drain cycle is called with. -/
structure Job where
  schemaVersion : Int
  engineVersion : Int
  deriving DecidableEq

/-- Who asked the relay for this device's tail. -/
inductive TailUse (Client : Type)
  | start (job : Job)
  | deduplicated (resp : PushResponse Client) (applied total : Nat)
  | conflict

/-- Where a drain cycle stands. At `awaitTail`, `awaitRaise` and `awaitPush` it
waits for the relay. -/
inductive Point (Client : Type)
  | idle
  | awaitTail (use : TailUse Client)
  | reseed (target : Int) (use : TailUse Client)
  | capture (job : Job)
  | enqueue (job : Job) (committedWm : Int) (pending : List (List ChangeRow))
  | plan (total : Nat)
  | askRaise (b : Batch) (total : Nat) (retry : Bool)
  | awaitRaise (b : Batch) (total : Nat) (retry : Bool)
  | send (b : Batch) (total : Nat) (retry : Bool)
  | awaitPush (b : Batch) (total : Nat) (retry : Bool)
  | ack (todo : List (PushAck Client)) (resp : PushResponse Client) (applied total : Nat)
      (deduplicated : Bool)
  | pull (pushError : Option SyncError)

/-- A device: its database, its connection, and the drain on that connection.
`queue` holds the session statements that run before the cycle goes on, `clock`
is the last clock value that the raise backoff read. -/
structure Device (Client : Type) where
  db : LocalDb
  session : Session
  clock : Int
  queue : List SessionStatement
  point : Point Client

inductive Input (Client : Type)
  | write (removed : ChangeRow → Bool) (added : List StoredRow) (version : Int)
  | drain (job : Job)
  | advance (draw : Draw) (nowMs : Int)
  | tail (reply : Reply (CompletenessResponse Client))
  | raised (reply : Reply SyncCapabilityLevels) (nowMs : Int)
  | pushed (reply : Reply (PushResponse Client))
  | pulled (relayCapability : Option SyncCapabilityLevels) (pullError : Option SyncError)
  | fail
  | respawn

/-- What a device asks of the relay when it pushes. -/
inductive Request (Client : Type)
  | push (changes : List (PushChange Client)) (level : Int)
  | raise (level : Int)

namespace Device

variable {Client : Type} [DecidableEq Client] (cfg : Config Client)

def opened (db : LocalDb) : Device Client := ⟨db, Session.opened, 0, [], .idle⟩

def goTo (d : Device Client) (queue : List SessionStatement) (point : Point Client) :
    Device Client :=
  { d with queue := queue, point := point }

/-- `recover_from_conflict` for a 409 `conflict`; any other error ends the push. -/
def pushFailed (d : Device Client) (e : SyncError) : Device Client :=
  if e.isConflict then d.goTo [.clearSeqReconciled] (.awaitTail .conflict)
  else d.goTo [] (.pull (some e))

/-- The end of one turn of the push loop. -/
def endBatch (d : Device Client) (resp : PushResponse Client) (total : Nat) : Device Client :=
  if resp.acks = [] ∨ pushMaxEntriesPerCycle ≤ total then d.goTo [] (.pull none)
  else d.goTo [] (.plan total)

/-- Where a reconcile or a recovery returns to. -/
def afterTail (use : TailUse Client) (regressed : Bool) : Point Client :=
  match use with
  | .start job => .capture job
  | .conflict => .pull none
  | .deduplicated resp applied total =>
    if regressed then .pull none
    else .ack (resp.acks.filter (fun a => a.deduplicated)) resp applied total true

def relayTail (resp : CompletenessResponse Client) : Int :=
  ((resp.perClient.find? (fun t => t.1 = cfg.clientId)).map Prod.snd).getD 0

/-- The answer of `GET /sync/completeness`, in `reconcile_seq_counter` and in
`recover_from_conflict`. -/
def receiveTail (d : Device Client) (use : TailUse Client)
    (reply : Reply (CompletenessResponse Client)) : Device Client :=
  match receiveCompleteness reply with
  | .error e => d.goTo [] (.pull (some e))
  | .ok resp =>
    let serverMax := relayTail cfg resp
    match use with
    | .conflict => d.goTo [] (.reseed (max serverMax d.db.clientSeq) use)
    | _ =>
      if serverMax ≤ d.db.clientSeq then d.goTo [.markSeqReconciled] (afterTail use false)
      else d.goTo [] (.reseed serverMax use)

/-- `raise_floor`: what the answer to a raise proves, and where it leads. -/
def receiveRaised (d : Device Client) (b : Batch) (total : Nat) (retry : Bool)
    (reply : Reply SyncCapabilityLevels) (nowMs : Int) : Device Client :=
  let refuse (proof : List SessionStatement) (refused : RefusedRaise) : Device Client :=
    { d with clock := nowMs }.goTo (proof ++ [SessionStatement.recordRefusedRaise refused nowMs])
      (.pull (some refused.intoError))
  match receiveRaise b.level reply with
  | .ok levels =>
    if b.level ≤ levels.requiredSyncCapability then
      d.goTo [.markCapabilityGateProven, .clearRaiseBackoff] (.send b total retry)
    else refuse [] ⟨b.level, .gateMissing⟩
  | .error (.capabilityGateMissing _) => refuse [] ⟨b.level, .gateMissing⟩
  | .error (.capabilityBlocked level blockers) =>
    refuse [.markCapabilityGateProven] ⟨level, .blocked blockers⟩
  | .error e => d.pushFailed e

/-- The answer to a batch, in `push_gated` and in the loop of `push_outbox`. -/
def receivePushed (d : Device Client) (b : Batch) (total : Nat) (retry : Bool)
    (reply : Reply (PushResponse Client)) : Device Client :=
  match receive b.level reply with
  | .ok resp => d.goTo [] (.ack (resp.acks.filter (fun a => !a.deduplicated)) resp 0 total false)
  | .error e =>
    if b.level ≠ 0 ∧ retry = false ∧ e.isCapabilityFloor then
      d.goTo [.markCapabilityGateProven] (.askRaise b total true)
    else d.pushFailed e

/-- The next turn of the push loop, up to its request. -/
def planNext (d : Device Client) (total : Nat) (nowMs : Int) : Device Client :=
  match planBatch d.db.outbox with
  | .drained => d.goTo [] (.pull none)
  | .oversized clientSeq size => d.goTo [] (.pull (some (.oversized clientSeq size)))
  | .batch b =>
    if b.level = 0 then d.goTo [] (.send b total false)
    else
      match (d.session.raiseBackoff nowMs).filter (fun refused => refused.level ≤ b.level) with
      | some refused => { d with clock := nowMs }.goTo [] (.pull (some refused.intoError))
      | none =>
        { d with clock := nowMs }.goTo []
          (if d.session.capabilityGateProven then .send b total false else .askRaise b total false)

/-- One chunk's transaction in `enqueue_local`. -/
def commitChunk (d : Device Client) (job : Job) (committedWm : Int) (chunk : List ChangeRow)
    (pending : List (List ChangeRow)) (draw : Draw) : Device Client :=
  let nextFirst := (pending.head?.bind List.head?).map ChangeRow.version
  let nextWm := (chunkCommitWatermark chunk nextFirst).filter (fun v => committedWm < v)
  match d.db.insertChunk cfg.cipher cfg.clientId draw job.schemaVersion job.engineVersion chunk with
  | .error e => d.goTo [] (.pull (some e))
  | .ok db =>
    { d with db := { db with pushWatermark := nextWm.getD db.pushWatermark } }.goTo []
      (.enqueue job (nextWm.getD committedWm) pending)

/-- Run the statement that the cycle stands at. -/
def advance (d : Device Client) (draw : Draw) (nowMs : Int) : Option (Device Client) :=
  match d.point with
  | .reseed target use =>
    some ({ d with db := d.db.reseedCounterToTail target }.goTo [.markSeqReconciled]
      (afterTail use true))
  | .capture job =>
    let rows := readLocalChangesSince cfg.siteId d.db.log d.db.pushWatermark
    some (d.goTo []
      (if rows = [] then .plan 0 else .enqueue job d.db.pushWatermark (planCaptureChunks rows)))
  | .enqueue _ _ [] => some (d.goTo [] (.plan 0))
  | .enqueue job committedWm (chunk :: pending) =>
    some (d.commitChunk cfg job committedWm chunk pending draw)
  | .plan total => some (d.planNext total nowMs)
  | .askRaise b total retry => some (d.goTo [] (.awaitRaise b total retry))
  | .send b total retry => some (d.goTo [] (.awaitPush b total retry))
  | .ack (a :: todo) resp applied total deduplicated =>
    let outbox := d.db.outbox.ack a.clientSeq a.changesetSeq
    some ({ d with db := { d.db with outbox := outbox } }.goTo []
      (.ack todo resp (applied + 1) total deduplicated))
  | .ack [] resp applied total deduplicated =>
    if deduplicated = false ∧ resp.acks.any (fun a => a.deduplicated) then
      some (d.goTo [] (.awaitTail (.deduplicated resp applied total)))
    else some (d.endBatch resp (total + applied))
  | _ => none

/-- The point is at a statement on the local database, which may fail. -/
def Point.isLocal : Point Client → Bool
  | .reseed _ _ => true
  | .capture _ => true
  | .enqueue _ _ _ => true
  | .plan _ => true
  | .ack _ _ _ _ _ => true
  | _ => false

/-- A statement fails. In a push this ends the push, in the fold it ends the cycle. -/
def failed (d : Device Client) : Device Client :=
  match d.point with
  | .idle => d.goTo [] .idle
  | _ => d.goTo [] (.pull (some .database))

def step (d : Device Client) : Input Client → Option (Device Client)
  | .write removed added version =>
    if d.db.dbVersion < version ∧ ∀ r ∈ added, r.val.version = version then
      some { d with db := d.db.write removed added version }
    else none
  | .drain job =>
    match d.queue, d.point with
    | [], .idle =>
      some (d.goTo [] (if d.session.seqReconciled then .capture job else .awaitTail (.start job)))
    | _, _ => none
  | .advance draw nowMs =>
    match d.queue with
    | st :: queue => some { d with session := d.session.run st, queue := queue }
    | [] => d.advance cfg draw nowMs
  | .tail reply =>
    match d.queue, d.point with
    | [], .awaitTail use => some (d.receiveTail cfg use reply)
    | _, _ => none
  | .raised reply nowMs =>
    match d.queue, d.point with
    | [], .awaitRaise b total retry => some (d.receiveRaised b total retry reply nowMs)
    | _, _ => none
  | .pushed reply =>
    match d.queue, d.point with
    | [], .awaitPush b total retry => some (d.receivePushed b total retry reply)
    | _, _ => none
  | .pulled relayCapability pullError =>
    match d.queue, d.point with
    | [], .pull pushError => some (d.goTo (foldCycle pushError pullError relayCapability) .idle)
    | _, _ => none
  | .fail => if d.queue ≠ [] ∨ Point.isLocal d.point then some d.failed else none
  | .respawn => some { d with session := Session.opened, queue := [], point := .idle }

/-- The request that leaves the device when it advances. -/
def request (d : Device Client) : Option (Request Client) :=
  match d.queue, d.point with
  | [], .askRaise b _ _ => some (.raise b.level)
  | [], .send b _ _ => some (.push (b.entries.map (OutboxEntry.change cfg.clientId)) b.level)
  | _, _ => none

end Device

end YapStack.Sync
