import YapStack.Foundation.Runs
import Mathlib.Data.Nat.Notation
import Mathlib.Logic.Function.Basic

set_option linter.unusedSectionVars false

namespace YapStack.Sessions

inductive LivePhase
  | running
  | stopped
  | error
  deriving DecidableEq

inductive SessionStatus
  | recording
  | completed
  deriving DecidableEq

/-- The backend's session slot. The loop of a `closing` session has ended, its task has not
left the slot yet. -/
inductive RuntimeSlot (Id : Type)
  | idle
  | running (session : Id)
  | closing (session : Id)
  deriving DecidableEq

def RuntimeSlot.session {Id : Type} : RuntimeSlot Id → Option Id
  | .idle => none
  | .running k | .closing k => some k

/-- What the backend emits to the window. -/
inductive Message (Id : Type)
  | status (session : Id) (phase : LivePhase)
  | segments (session : Id) (texts : List ℕ)
  | partReady (session : Id) (part : ℕ)
  deriving DecidableEq

/-- The awaits of the finalisation that `setLivePhase` queues. -/
inductive Finalisation
  | completing
  | clearing
  | reloading
  deriving DecidableEq

/-- The work on `segmentQueueTail`. `seen` counts the segments delivered before a
finalisation was queued. -/
inductive Job (Id : Type)
  | insertSegments (session : Id) (todo : List ℕ)
  | refreshParts (session : Id)
  | finalise (session : Id) (stage : Finalisation) (seen : ℕ)
  deriving DecidableEq

/-- The awaits of `createAndStartSession`. -/
inductive Creation (Id : Type)
  | createSession (session : Id)
  | startLive (session : Id)
  | deleteSession (session : Id)
  | started (session : Id)
  | listSessions
  deriving DecidableEq

/-- The awaits of the other actions. -/
inductive Thread (Id : Type)
  | resumeGetSession (session : Id)
  | resumeRead (session : Id)
  | resumeStart (session : Id)
  | resumeMark (session : Id)
  | resumeStarted (session : Id)
  | recoverRead (session : Id)
  | recovered (session : Id)
  | getStatus
  | gotStatus (phase : LivePhase) (session : Option Id)
  | stopLive
  deriving DecidableEq

/-- How an awaited call comes back. A database call is never `refused`. -/
inductive Reply
  | ok
  | refused
  | throws
  deriving DecidableEq

/-- `ended` lists the sessions whose loop has ended, `delivered` and `deliveredParts` what the
window was told of. -/
structure State (Id : Type) where
  slot : RuntimeSlot Id
  inFlight : List (Message Id)
  rows : Id → Option SessionStatus
  segments : List (Id × ℕ)
  parts : List (Id × ℕ)
  activeSessionId : Option Id
  livePhase : Option LivePhase
  liveTranscriptionActive : Bool
  sessionStopping : Bool
  creating : Option (Creation Id)
  threads : List (Thread Id)
  segmentQueue : List (Job Id)
  ended : List Id
  delivered : List (Id × ℕ)
  deliveredParts : List (Id × ℕ)

inductive Event (Id : Type)
  | createAndStartSession (session : Id)
  | resumeSession (session : Id)
  | stopActiveSession
  | mount
  | create (reply : Reply)
  | resolve (thread : Thread Id) (reply : Reply)
  | work (ok : Bool)
  | emitRunning
  | emitEnd (failed : Bool)
  | emitSegments (texts : List ℕ)
  | emitPart (part : ℕ)
  | leaveSlot
  | deliver (m : Message Id)
  deriving DecidableEq

variable {Id : Type} [DecidableEq Id]

namespace State

variable (s : State Id)

/-- The window loads while the backend runs `live`, or nothing. -/
def boot (completed : Id → Bool) (live : Option Id) : State Id where
  slot := match live with
    | none => .idle
    | some k => .running k
  inFlight := []
  rows k := if live = some k then some .recording else if completed k then some .completed else none
  segments := []
  parts := []
  activeSessionId := none
  livePhase := none
  liveTranscriptionActive := false
  sessionStopping := false
  creating := none
  threads := [.getStatus]
  segmentQueue := []
  ended := []
  delivered := []
  deliveredParts := []

def enqueueSegmentWork (j : Job Id) : State Id :=
  { s with segmentQueue := s.segmentQueue ++ [j] }

def setPhase (phase : LivePhase) : State Id :=
  { s with livePhase := some phase, liveTranscriptionActive := decide (phase = .running) }

/-- The end of the active session queues its finalisation. -/
def setLivePhase (phase : LivePhase) : State Id :=
  match phase, s.activeSessionId with
  | .running, _ | _, none => s.setPhase phase
  | _, some a =>
    (s.setPhase phase).enqueueSegmentWork (.finalise a .completing s.delivered.length)

/-- The listener on `live-transcription-status`. -/
def onStatus (session : Id) (phase : LivePhase) : State Id :=
  if s.activeSessionId.any (· ≠ session) then s else s.setLivePhase phase

def onLiveSegment (session : Id) (texts : List ℕ) : State Id :=
  { s with delivered := s.delivered ++ texts.map (fun n => (session, n)) }.enqueueSegmentWork
    (.insertSegments session texts)

def onSessionPartReady (session : Id) (part : ℕ) : State Id :=
  { s with deliveredParts := s.deliveredParts ++ [(session, part)] }.enqueueSegmentWork
    (.refreshParts session)

def receive : Message Id → State Id
  | .status session phase => s.onStatus session phase
  | .segments session texts => s.onLiveSegment session texts
  | .partReady session part => s.onSessionPartReady session part

/-- `UPDATE sessions SET status` -/
def setStatus (k : Id) (status : SessionStatus) : State Id :=
  { s with rows := Function.update s.rows k ((s.rows k).map (fun _ => status)) }

/-- The store write after an accepted start. -/
def setActive (k : Id) : State Id :=
  { s with activeSessionId := some k, liveTranscriptionActive := true, livePhase := some .running }

/-- The backend accepts a session in an idle slot only. -/
def startLiveTranscription (k : Id) : Option (State Id) :=
  if s.slot = .idle then some { s with slot := .running k } else none

def spawn (thread : Thread Id) : State Id := { s with threads := s.threads ++ [thread] }

def createStep : Creation Id → Reply → Option (State Id)
  | .createSession k, .ok =>
    some { s with rows := Function.update s.rows k (some .recording)
                  creating := some (.startLive k) }
  | .createSession _, _ => some { s with creating := none }
  | .startLive k, .ok =>
    (s.startLiveTranscription k).map (fun s => { s with creating := some (.started k) })
  | .startLive k, .refused => some { s with creating := some (.deleteSession k) }
  | .startLive _, .throws => some { s with creating := none }
  | .deleteSession k, .ok =>
    some { s with rows := Function.update s.rows k none, creating := none }
  | .deleteSession _, _ => some { s with creating := none }
  | .started k, _ => some { s.setActive k with creating := some .listSessions }
  | .listSessions, _ => some { s with creating := none }

def recoverActiveSession (k : Id) : State Id :=
  if s.activeSessionId = some k then s else s.spawn (.recoverRead k)

/-- `get_live_transcription_status`: the task is in the slot until it leaves it. -/
def liveTranscriptionStatus : LivePhase × Option Id :=
  match s.slot.session with
  | none => (.stopped, none)
  | some k => (.running, some k)

def applyStatus (phase : LivePhase) (session : Option Id) : State Id :=
  match phase, session with
  | .running, some k => (s.setLivePhase .running).recoverActiveSession k
  | phase, _ => s.setLivePhase phase

/-- The await of a thread comes back. -/
def threadStep : Thread Id → Reply → Option (State Id)
  | .resumeGetSession k, .ok =>
    if s.rows k = some .completed then some (s.spawn (.resumeRead k)) else some s
  | .resumeRead k, .ok => some (s.spawn (.resumeStart k))
  | .resumeStart k, .ok =>
    (s.startLiveTranscription k).map (fun s => s.spawn (.resumeMark k))
  | .resumeMark k, .ok => some ((s.setStatus k .recording).spawn (.resumeStarted k))
  | .resumeMark k, _ => some (s.spawn (.resumeStarted k))
  | .resumeStarted k, _ => some { s.setActive k with sessionStopping := false }
  | .recoverRead k, .ok => some (s.spawn (.recovered k))
  | .recovered k, _ => some { s with activeSessionId := some k, liveTranscriptionActive := true }
  | .getStatus, .ok =>
    some (s.spawn (.gotStatus s.liveTranscriptionStatus.1 s.liveTranscriptionStatus.2))
  | .gotStatus phase session, _ => some (s.applyStatus phase session)
  | .stopLive, .throws => some { s with sessionStopping := false }
  | _, _ => some s

/-- The last write of a finalisation. -/
def clearSession : State Id :=
  { s with activeSessionId := none, liveTranscriptionActive := false, livePhase := none
           sessionStopping := false }

/-- The job at the head of the queue comes back from its await. -/
def workStep (ok : Bool) : List (Job Id) → Option (State Id)
  | [] => none
  | .insertSegments _ [] :: q => some { s with segmentQueue := q }
  | .insertSegments k (n :: todo) :: q =>
    if !ok then some { s with segmentQueue := q }
    else if s.rows k = none then none
    else some { s with segments := s.segments ++ [(k, n)]
                       segmentQueue := .insertSegments k todo :: q }
  | .refreshParts _ :: q => some { s with segmentQueue := q }
  | .finalise k .completing seen :: q =>
    some { if ok then s.setStatus k .completed else s with
      segmentQueue := .finalise k .clearing seen :: q }
  | .finalise k .clearing seen :: q =>
    some { s.clearSession with segmentQueue := .finalise k .reloading seen :: q }
  | .finalise _ .reloading _ :: q => some { s with segmentQueue := q }

def emit (m : Message Id) : State Id := { s with inFlight := s.inFlight ++ [m] }

/-- The loop reports that it ended, for the first time or once more. -/
def emitEnd (k : Id) (failed : Bool) : State Id :=
  { s with slot := .closing k, ended := k :: s.ended }.emit
    (.status k (if failed then .error else .stopped))

def step : Event Id → Option (State Id)
  | .createAndStartSession k =>
    if s.creating = none ∧ s.rows k = none then some { s with creating := some (.createSession k) }
    else none
  | .resumeSession k =>
    if s.liveTranscriptionActive || s.sessionStopping || s.activeSessionId.isSome then none
    else some (s.spawn (.resumeGetSession k))
  | .stopActiveSession =>
    if s.activeSessionId = none ∨ s.sessionStopping = true then none
    else some ({ s with sessionStopping := true }.spawn .stopLive)
  | .mount => some (s.spawn .getStatus)
  | .create reply => s.creating.bind (fun c => s.createStep c reply)
  | .resolve thread reply =>
    if thread ∈ s.threads then
      (s.threadStep thread reply).map (fun t => { t with threads := t.threads.erase thread })
    else none
  | .work ok => s.workStep ok s.segmentQueue
  | .emitRunning => s.slot.session.map (fun k => s.emit (.status k .running))
  | .emitEnd failed => s.slot.session.map (fun k => s.emitEnd k failed)
  | .emitSegments texts => s.slot.session.map (fun k => s.emit (.segments k texts))
  | .emitPart part =>
    s.slot.session.map (fun k => { s with parts := s.parts ++ [(k, part)] }.emit (.partReady k part))
  | .leaveSlot =>
    match s.slot with
    | .closing _ => some { s with slot := .idle }
    | _ => none
  | .deliver m =>
    if m ∈ s.inFlight then some ({ s with inFlight := s.inFlight.erase m }.receive m) else none

end State

end YapStack.Sessions
