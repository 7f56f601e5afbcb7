import Mathlib.Algebra.Group.Nat.Defs
import Mathlib.Data.List.AList
import Mathlib.Logic.Function.Basic
import YapStack.Foundation.Runs

namespace YapStack.Transcription

/-- An answer of the sidecar. What it carries beside its id is not read on the way. -/
inductive SidecarResponse (B : Type) where
  | transcription (id : ℕ) (body : B)
  | modelLoaded (id : ℕ) (body : B)
  | engineInfo (id : ℕ) (body : B)
  | error (id : ℕ) (body : B)
  | progress (id : ℕ) (body : B)
  deriving DecidableEq

def responseId {B : Type} : SidecarResponse B → Option ℕ
  | .transcription id _ | .modelLoaded id _ | .engineInfo id _ | .error id _ | .progress id _ =>
    some id

/-- A line of the sidecar's stdout. A response without an id does not parse. -/
inductive Line (B : Type) where
  | blank
  | unparsable
  | response (r : SidecarResponse B)

abbrev PendingMap (T : Type) := AList (fun _ : ℕ => T)

/-- Where the reader task of a pipeline is. -/
inductive Reader (T B : Type) where
  | reading
  /-- Between the drop of the map's lock and the send. -/
  | sending (t : T) (r : SidecarResponse B)
  /-- Between `map.clear()` and the store of `reader_alive`. -/
  | cleared
  | ended
  deriving DecidableEq

/-- The loop has ended and the map has been cleared. -/
def Reader.isOver {T B : Type} : Reader T B → Bool
  | .cleared | .ended => true
  | .reading | .sending _ _ => false

structure Pipeline (T B : Type) where
  pending : PendingMap T
  reader : Reader T B
  readerAlive : Bool
  answeredSinceSpawn : Bool

def Pipeline.spawned {T B : Type} : Pipeline T B := ⟨∅, .reading, true, false⟩

/-- The oneshot channel of a request. -/
inductive Channel (B : Type) where
  | connected
  | sent (r : SidecarResponse B)
  | disconnected
  deriving DecidableEq

inductive TranscriptionError where
  /-- The request was not written. -/
  | io
  | sidecarError
  | timeout
  deriving DecidableEq

/-- Where a call is in `dispatch_request` and `await_response`. -/
inductive Stage (B : Type) where
  | drawn
  /-- Registered, in `send_request`. -/
  | writing
  | waiting
  /-- An error is about to be returned, before `cancel_pending`. -/
  | failing (e : TranscriptionError)
  | returned (result : Except TranscriptionError (SidecarResponse B))
  /-- The future was dropped at an await. -/
  | dropped
  deriving DecidableEq

def Stage.isOver {B : Type} : Stage B → Bool
  | .returned _ | .dropped => true
  | _ => false

structure Call (B : Type) where
  pipe : ℕ
  id : ℕ
  stage : Stage B
  channel : Channel B

/-- The sender is dropped. -/
def Call.disconnect {B : Type} (c : Call B) : Call B :=
  match c.channel with
  | .connected => { c with channel := .disconnected }
  | .sent _ | .disconnected => c

def wordSize : ℕ := 2 ^ 64

/-- The client and its pipelines, one for each spawned sidecar; `drawn` and `delivered` are the
history of the requests and of the responses that reached one. -/
structure State (T B : Type) where
  pipelines : ℕ → Pipeline T B
  current : ℕ
  respawning : Bool
  nextId : ℕ
  calls : T → Option (Call B)
  drawn : List T
  delivered : List (ℕ × T × SidecarResponse B)

inductive Event (T B : Type) where
  | allocate (t : T)
  | insert (t : T)
  | write (t : T) (ok : Bool)
  | cancelPending (t : T)
  | receive (t : T)
  | timeout (t : T)
  | abandon (t : T)
  | readLine (p : ℕ) (line : Line B)
  | send (p : ℕ)
  | exit (p : ℕ)
  | gone (p : ℕ)
  | respawn
  | spawned (ok : Bool)

variable {T B : Type} [DecidableEq T]

def State.spawn : State T B where
  pipelines := fun _ => .spawned
  current := 0
  respawning := false
  nextId := 1
  calls := fun _ => none
  drawn := []
  delivered := []

def State.setPipeline (s : State T B) (p : ℕ) (pipeline : Pipeline T B) : State T B :=
  { s with pipelines := Function.update s.pipelines p pipeline }

def State.setCall (s : State T B) (t : T) (c : Call B) : State T B :=
  { s with calls := Function.update s.calls t (some c) }

def State.setStage (s : State T B) (t : T) (stage : Stage B) : State T B :=
  { s with calls := Function.update s.calls t ((s.calls t).map fun c => { c with stage }) }

/-- The senders in a part of a map are dropped. -/
def State.disconnect (s : State T B) (lost : List T) : State T B :=
  { s with calls := fun t =>
      if t ∈ lost then (s.calls t).map Call.disconnect else s.calls t }

/-- `map.insert(id, tx)`: the sender that it replaces is dropped. -/
def State.register (s : State T B) (p id : ℕ) (t : T) : State T B :=
  let pipeline := s.pipelines p
  (s.disconnect (pipeline.pending.lookup id).toList).setPipeline p
    { pipeline with pending := pipeline.pending.insert id t }

def State.cancelPending (s : State T B) (p id : ℕ) : State T B :=
  let pipeline := s.pipelines p
  (s.disconnect (pipeline.pending.lookup id).toList).setPipeline p
    { pipeline with pending := pipeline.pending.erase id }

/-- `map.clear()`. -/
def State.clear (s : State T B) (p : ℕ) : State T B :=
  let pipeline := s.pipelines p
  (s.disconnect (pipeline.pending.entries.map Sigma.snd)).setPipeline p
    { pipeline with pending := ∅ }

/-- One turn of the reader's loop up to the send. -/
def State.readLine (s : State T B) (p : ℕ) : Line B → State T B
  | .blank | .unparsable => s
  | .response r =>
    let pipeline := { s.pipelines p with answeredSinceSpawn := true }
    match r with
    | .progress _ _ => s.setPipeline p pipeline
    | _ => match (responseId r).bind fun id => (pipeline.pending.lookup id).map (id, ·) with
      | some (id, t) => s.setPipeline p
          { pipeline with pending := pipeline.pending.erase id, reader := .sending t r }
      | none => s.setPipeline p pipeline

/-- `tx.send(response)`, which fails when the receiver is dropped. It uses the sender up. -/
def State.send (s : State T B) (p : ℕ) (t : T) (r : SidecarResponse B) : State T B :=
  let idle := s.setPipeline p { s.pipelines p with reader := .reading }
  match s.calls t with
  | some c =>
    if c.stage.isOver then idle.disconnect [t]
    else { idle.setCall t { c with channel := .sent r } with
      delivered := s.delivered ++ [(p, t, r)] }
  | none => idle

def State.active (s : State T B) (t : T) : Bool := (s.calls t).any fun c => !c.stage.isOver

/-- One critical section, one await or one input of one task. -/
def step (s : State T B) : Event T B → Option (State T B)
  | .allocate t =>
    if s.respawning then none
    else match s.calls t with
      | none => some { s.setCall t ⟨s.current, s.nextId, .drawn, .connected⟩ with
          nextId := (s.nextId + 1) % wordSize
          drawn := s.drawn ++ [t] }
      | some _ => none
  | .insert t => match s.calls t with
    | some ⟨p, id, .drawn, _⟩ => some ((s.register p id t).setStage t .writing)
    | _ => none
  | .write t ok => match s.calls t with
    | some ⟨_, _, .writing, _⟩ =>
      some (s.setStage t (if ok then .waiting else .failing .io))
    | _ => none
  | .cancelPending t => match s.calls t with
    | some ⟨p, id, .failing e, _⟩ =>
      some ((s.cancelPending p id).setStage t (.returned (.error e)))
    | _ => none
  | .receive t => match s.calls t with
    | some ⟨_, _, .waiting, .sent r⟩ => some (s.setStage t (.returned (.ok r)))
    | some ⟨_, _, .waiting, .disconnected⟩ => some (s.setStage t (.failing .sidecarError))
    | _ => none
  | .timeout t => match s.calls t with
    | some ⟨_, _, .waiting, .connected⟩ => some (s.setStage t (.failing .timeout))
    | _ => none
  | .abandon t => match s.calls t with
    | some ⟨_, _, .writing, _⟩ | some ⟨_, _, .waiting, _⟩ => some (s.setStage t .dropped)
    | _ => none
  | .readLine p line => match (s.pipelines p).reader with
    | .reading => if p ≤ s.current then some (s.readLine p line) else none
    | _ => none
  | .send p => match (s.pipelines p).reader with
    | .sending t r => some (s.send p t r)
    | _ => none
  | .exit p => match (s.pipelines p).reader with
    | .reading =>
      if p ≤ s.current then
        let cleared := s.clear p
        some (cleared.setPipeline p { cleared.pipelines p with reader := .cleared })
      else none
    | _ => none
  | .gone p => match (s.pipelines p).reader with
    | .cleared => some (s.setPipeline p
        { s.pipelines p with reader := .ended, readerAlive := false })
    | _ => none
  | .respawn =>
    if s.respawning ∨ s.drawn.any s.active then none
    else some { s.clear s.current with respawning := true }
  | .spawned ok =>
    if s.respawning then
      if ok then some { s.setPipeline (s.current + 1) .spawned with
        current := s.current + 1, respawning := false }
      else some { s with respawning := false }
    else none

/-- What the liveness check of the scheduler reads. `exited` is what `try_wait` finds. -/
def isRunning (s : State T B) (exited : Bool) : Bool :=
  (s.pipelines s.current).readerAlive && !exited

end YapStack.Transcription
