import Mathlib.Data.List.Basic
import Mathlib.Logic.Function.Basic

namespace YapStack.Account

structure Session where
  tenant : ℕ
  keyEpoch : ℕ
  syncEnabled : Bool
  deriving DecidableEq

structure OutboxEntry where
  seq : ℕ
  tenant : ℕ
  acked : Bool
  deriving DecidableEq

/-- A changeset of the relay, with the tenant and key epoch that open it, if any do, and the
rows this device cannot apply yet. -/
structure Changeset where
  seq : ℕ
  opens : Option (ℕ × ℕ)
  deferred : List ℕ
  deriving DecidableEq

/-- `binding` is history: the tenant the database was bound to when the row was stashed. -/
structure PendingRow where
  row : ℕ
  binding : Option ℕ
  deriving DecidableEq

structure Quarantined where
  changeset : Changeset
  binding : Option ℕ
  deriving DecidableEq

structure Database where
  bound : Option ℕ
  pullWatermark : ℕ
  pushWatermark : ℕ
  clientSeq : ℕ
  outbox : List OutboxEntry
  pending : List PendingRow
  quarantine : List Quarantined
  deriving DecidableEq

namespace Database

/-- Merge a changeset: the rows of a table or column that is not ready are stashed. -/
def mergeChangeset (db : Database) (c : Changeset) : Database :=
  { db with pending := db.pending ++ c.deferred.map (fun row => ⟨row, db.bound⟩) }

def quarantineUndecryptable (db : Database) (c : Changeset) : Database :=
  if db.quarantine.any (fun q => q.changeset.seq = c.seq) then db
  else { db with quarantine := db.quarantine ++ [⟨c, db.bound⟩] }

/-- Merge what the tenant's key now opens; the rest stays. -/
def retryCryptoQuarantine (db : Database) (tenant keyEpoch : ℕ) : Database :=
  let opened := db.quarantine.filter (fun q => q.changeset.opens = some (tenant, keyEpoch))
  let kept := db.quarantine.filter (fun q => q.changeset.opens ≠ some (tenant, keyEpoch))
  opened.foldl (fun d q => d.mergeChangeset q.changeset) { db with quarantine := kept }

def enqueueLocal (db : Database) (tenant pushWatermark : ℕ) : Database :=
  { db with
    clientSeq := db.clientSeq + 1
    outbox := db.outbox ++ [⟨db.clientSeq + 1, tenant, false⟩]
    pushWatermark := pushWatermark }

def ack (db : Database) (batch : List OutboxEntry) : Database :=
  { db with
    outbox := db.outbox.map (fun x =>
      if batch.any (fun y => y.seq = x.seq) then { x with acked := true } else x) }

end Database

/-- A running drain: its cipher's tenant and key epoch, the tenant its bearer belongs to, the
binding it was spawned under (history), and what it has in hand. -/
structure Drain where
  tenant : ℕ
  keyEpoch : ℕ
  bearer : ℕ
  binding : ℕ
  batch : List OutboxEntry
  since : Option ℕ
  deriving DecidableEq

/-- Who reconciles the binding: `sync_enable`, or the hook at boot. -/
structure Caller where
  session : Session
  boot : Bool
  deriving DecidableEq

/-- A command between two of its statements. -/
inductive Task
  | readBinding (c : Caller)
  | resetPullWatermark (c : Caller)
  | resetPushWatermark (c : Caller)
  | clearOutbox (c : Caller)
  | recordBinding (c : Caller)
  | spawnDrain (c : Caller) (binding : ℕ)
  | install (c : Caller) (drain : ℕ)
  | stopPrevious (c : Caller) (drain : Option ℕ)
  | storeEnabled (c : Caller)
  | stop (drain : Option ℕ) (signOut : Bool)
  deriving DecidableEq

/-- The binding was read as another account's and is not yet recorded. -/
def Task.rebinds : Task → Bool
  | .resetPullWatermark _ | .resetPushWatermark _ | .clearOutbox _ | .recordBinding _ => true
  | _ => false

/-- `bindings` and `pulled` are history: how often a binding was recorded, and whether the
bound tenant has been pulled from since. -/
structure State where
  db : Database
  session : Option Session
  drains : ℕ → Option Drain
  nextDrain : ℕ
  handle : Option ℕ
  tasks : List Task
  bindings : ℕ
  pulled : Bool

inductive Event
  | signIn (s : Session)
  | enable
  | restart
  | signOut
  | disable
  | act (k : Task)
  | retryCryptoQuarantine
  | refresh (i : ℕ)
  | capture (i pushWatermark : ℕ)
  | readBatch (i n : ℕ)
  | push (i : ℕ) (acked : Bool)
  | pull (i : ℕ)
  | receive (i : ℕ) (c : Changeset)
  | endPage (i nextSeq : ℕ)
  | replay (i row : ℕ)
  | exit (i : ℕ)
  deriving DecidableEq

/-- The drain an event is a step of. -/
def Event.drain : Event → Option ℕ
  | .refresh i | .capture i _ | .readBatch i _ | .push i _ | .pull i | .receive i _
  | .endPage i _ | .replay i _ | .exit i => some i
  | _ => none

namespace State

def spawn (s : State) (c : Caller) (binding : ℕ) : State :=
  { s with
    drains := Function.update s.drains s.nextDrain
      (some ⟨c.session.tenant, c.session.keyEpoch, c.session.tenant, binding, [], none⟩)
    nextDrain := s.nextDrain + 1 }

/-- One statement of a command, and the task it leaves. -/
def act (s : State) : Task → Option (State × List Task)
  | .readBinding c =>
    if s.db.bound = some c.session.tenant then some (s, [.spawnDrain c s.bindings])
    else some (s, [.resetPullWatermark c])
  | .resetPullWatermark c =>
    some ({ s with db := { s.db with pullWatermark := 0 } }, [.resetPushWatermark c])
  | .resetPushWatermark c =>
    some ({ s with db := { s.db with pushWatermark := 0 } }, [.clearOutbox c])
  | .clearOutbox c => some ({ s with db := { s.db with outbox := [] } }, [.recordBinding c])
  | .recordBinding c =>
    some ({ s with
      db := { s.db with bound := some c.session.tenant }
      bindings := s.bindings + 1
      pulled := false }, [.spawnDrain c (s.bindings + 1)])
  | .spawnDrain c binding => some (s.spawn c binding, [.install c s.nextDrain])
  | .install c drain =>
    some ({ s with handle := some drain }, if c.boot then [] else [.stopPrevious c s.handle])
  | .stopPrevious c drain =>
    if drain.all (fun i => (s.drains i).isNone) then some (s, [.storeEnabled c]) else none
  | .storeEnabled c => some ({ s with session := some { c.session with syncEnabled := true } }, [])
  | .stop drain signOut =>
    if drain.all (fun i => (s.drains i).isNone) then
      some ({ s with
        session := if signOut then none
          else s.session.map (fun r => { r with syncEnabled := false }) }, [])
    else none

def setDrain (s : State) (i : ℕ) (d : Option Drain) : State :=
  { s with drains := Function.update s.drains i d }

/-- What the drain `i` does on the database and with its connection. -/
def drainStep (s : State) (i : ℕ) (d : Drain) : Event → Option State
  | .capture _ w => some { s with db := s.db.enqueueLocal d.tenant w }
  | .readBatch _ n =>
    some (s.setDrain i (some { d with
      batch := (s.db.outbox.filter (fun x => !x.acked)).take n }))
  | .push _ acked =>
    let s := s.setDrain i (some { d with batch := [] })
    some (if acked then { s with db := s.db.ack d.batch } else s)
  | .pull _ =>
    some { s.setDrain i (some { d with since := some s.db.pullWatermark }) with
      pulled := s.pulled || decide (s.db.bound = some d.bearer) }
  | .receive _ c =>
    if d.since.isSome then
      some { s with
        db := if c.opens = some (d.tenant, d.keyEpoch) then s.db.mergeChangeset c
          else s.db.quarantineUndecryptable c }
    else none
  | .endPage _ nextSeq =>
    if d.since.isSome then
      some { s.setDrain i (some { d with since := none }) with
        db := { s.db with pullWatermark := nextSeq } }
    else none
  | .replay _ row =>
    some { s with db := { s.db with pending := s.db.pending.filter (fun r => r.row ≠ row) } }
  | .refresh _ =>
    if d.batch = [] ∧ d.since = none then
      s.session.map (fun r => s.setDrain i (some { d with bearer := r.tenant }))
    else none
  | .exit _ => some (s.setDrain i none)
  | _ => none

def step (s : State) (e : Event) : Option State :=
  match e with
  | .signIn r => some { s with session := some { r with syncEnabled := false } }
  | .enable =>
    s.session.map (fun r => { s with tasks := .readBinding ⟨r, false⟩ :: s.tasks })
  | .restart =>
    some { s with
      drains := fun _ => none
      handle := none
      tasks := (s.session.toList.filter Session.syncEnabled).map
        (fun r => .readBinding ⟨r, true⟩) }
  | .signOut => some { s with handle := none, tasks := .stop s.handle true :: s.tasks }
  | .disable => some { s with handle := none, tasks := .stop s.handle false :: s.tasks }
  | .act k =>
    if k ∈ s.tasks then
      (s.act k).map (fun p => { p.1 with tasks := p.2 ++ s.tasks.erase k })
    else none
  | .retryCryptoQuarantine =>
    (s.session.filter Session.syncEnabled).map (fun r =>
      { s with db := s.db.retryCryptoQuarantine r.tenant r.keyEpoch })
  | _ => e.drain.bind (fun i => (s.drains i).bind (fun d => s.drainStep i d e))

end State

end YapStack.Account
