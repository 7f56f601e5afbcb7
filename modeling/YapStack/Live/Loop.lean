import YapStack.Foundation.Runs
import YapStack.Live.Dispatch

set_option linter.unusedSectionVars false

namespace YapStack.Live.Loop

open Spans

/-- Where the live loop is. A tick extracts, feeds Silero, applies the finished tasks, polls
the VAD and dispatches; a stop leaves it at one of the checks in between. -/
inductive Phase where
  | select
  | extracted (newPos : Nat) (audio : Option Span)
  | fed (frames : List Frame)
  | drained (frames : List Frame)
  | polled (action : VadAction)
  | dispatching (isForceChunk : Bool) (currentPos : Nat)
  | stopping (limit : Nat)
  | copying (limit : Nat) (ranges : List Span)
  | flushed (limit : Nat)
  | failing (again : Bool)
  | failingDispatch (currentPos : Nat)

inductive ChunkTask where
  | none
  | running
  | finished
  deriving DecidableEq

/-- One source of a live loop. `scoredTo` is how far the scored frames reach, `sent` are the
chunks handed over for transcription and `heard` the frames that `poll_vad` took for speech,
oldest first. -/
structure Source where
  ring : Ring
  vad : SourceVadState
  task : ChunkTask
  stopAt : Option Nat
  scoredTo : Nat
  sent : List PreparedChunk
  heard : List Span

structure State extends Source where
  phase : Phase

inductive Action where
  | write (n : Nat)
  | finishTask
  | requestStop
  | extract
  | feed (frames : List Frame) (pending : Nat)
  | skip
  | drain
  | poll (clock : List Nat)
  | dispatch
  | prepare (now : Nat)
  | observeStop
  | scoreTail (speech : Bool)
  | copy
  | fail
  | flush
  | prepareFinal (now : Nat)

/-- Frames in order, between two positions of the stream. -/
def InOrder : Nat → Nat → List Frame → Prop
  | _, _, [] => True
  | a, b, f :: frames =>
    a ≤ f.audio.start ∧ f.audio.start ≤ f.audio.stop ∧ f.audio.stop ≤ b ∧
      InOrder f.audio.stop b frames

instance decidableInOrder : ∀ a b frames, Decidable (InOrder a b frames)
  | _, _, [] => .isTrue trivial
  | _, b, f :: frames =>
    let _ := decidableInOrder f.audio.stop b frames
    inferInstanceAs (Decidable (_ ∧ _ ∧ _ ∧ _))

def loud (frames : List Frame) : List Frame :=
  frames.filter (fun f => decide (parakeet.speechThreshold ≤ f.prob))

def feed (s : State) (newPos : Nat) (frames : List Frame) (pending : Nat) : State :=
  { s with
    phase := .fed frames
    scoredTo := (frames.getLast?.map (fun f => f.audio.stop)).getD s.scoredTo
    vad := s.vad.feedSilero newPos frames pending }

def poll (s : State) (frames : List Frame) (clock : List Nat) : State :=
  let polled := pollSource parakeet s.vad frames clock
  { s with
    vad := polled.1
    phase := .polled polled.2
    heard := s.heard ++ (loud (polledFrames s.vad frames)).map Frame.audio }

/-- The dispatch of a tick: start a chunk, wait for the running one, or advance the idle cursor. -/
def dispatch (s : State) (action : VadAction) : State :=
  match action with
  | .chunk | .forceChunk =>
    if s.vad.hasInFlightTask then { s with phase := .select }
    else { s with phase := .dispatching (decide (action = .forceChunk)) s.ring.writePos }
  | .none =>
    if !s.vad.hasInFlightTask && !s.vad.isSpeaking then
      { s with vad := advanceIdleCursor s.vad s.ring, phase := .select }
    else { s with phase := .select }

/-- `prepare_chunk_dispatch`, and the chunk task that it starts. -/
def prepare (f32 : Rounding) (s : State) (isForceChunk : Bool) (origin : JobOrigin)
    (currentPos now : Nat) (next : Phase) : State :=
  let prepared := prepareChunkDispatchInner f32 s.vad s.ring isForceChunk origin
    parakeet.maxChunkDuration false currentPos now
  { s with
    vad := prepared.1
    task := if prepared.2.isSome then .running else s.task
    sent := s.sent ++ prepared.2.toList
    phase := next }

/-- One range of `copy_final_pending_chunks_until`. -/
def copyRange (f32 : Rounding) (s : State) (limit : Nat) (r : Span) (rest : List Span) : State :=
  match extractSourceAudioUntil s.ring s.vad.format r.start r.stop with
  | none => { s with phase := .flushed limit }
  | some extraction =>
    let audio := extraction.span
    { s with
      phase := .copying limit rest
      vad :=
        if TooShort s.vad.format audio then s.vad
        else { s.vad with chunkIndex := (s.vad.chunkIndex + 1) % 2 ^ 32 }
      sent :=
        if TooShort s.vad.format audio then s.sent
        else s.sent ++ [{
          audio := audio
          audioOffset := audioOffset f32 s.vad audio.start
          chunkIndex := s.vad.chunkIndex
          origin := .finalFlush
          drainBacklogSeconds := 0 }] }

def applyOutcome (s : State) : State :=
  if s.task = .finished then
    { s with task := .none, vad := { s.vad with hasInFlightTask := false } }
  else s

def Phase.atStopCheck : Phase → Bool
  | .select | .extracted .. | .fed _ | .drained _ => true
  | _ => false

/-- Whether audio that Silero has not scored yet lies before the stop. -/
def hasTail (s : State) (limit : Nat) : Bool :=
  !s.vad.isSpeaking &&
    (extractSourceAudioUntil s.ring s.vad.format s.vad.silero.readPos limit).isSome

variable (f32 : Rounding)

def step (s : State) : Action → Option State
  | .write n => some { s with ring := s.ring.write n }
  | .finishTask =>
    if s.task = .running then some { s with task := .finished } else none
  | .requestStop =>
    match s.stopAt with
    | none => some { s with stopAt := some (s.ring.writePos + tailSamplesFor s.vad.format) }
    | some _ => none
  | .extract =>
    match s.phase with
    | .select =>
      let read := extractSourceAudio s.ring s.vad.silero.readPos
      some { s with phase := .extracted read.2 read.1 }
    | _ => none
  | .feed frames pending =>
    match s.phase with
    | .extracted newPos (some _) =>
      if InOrder s.scoredTo newPos frames then some (feed s newPos frames pending) else none
    | .extracted newPos none =>
      if frames = [] then
        some { s with
          phase := .fed []
          vad := { s.vad with silero := { s.vad.silero with readPos := newPos } } }
      else none
    | _ => none
  | .skip =>
    match s.phase with
    | .fed _ => some { s with phase := .select }
    | _ => none
  | .drain =>
    match s.phase with
    | .fed frames => some { applyOutcome s with phase := .drained frames }
    | .failing _ => some (applyOutcome s)
    | _ => none
  | .poll clock =>
    match s.phase with
    | .drained frames => some (poll s frames clock)
    | _ => none
  | .dispatch =>
    match s.phase with
    | .polled action => some (dispatch s action)
    | _ => none
  | .prepare now =>
    match s.phase with
    | .dispatching isForceChunk currentPos =>
      some (prepare f32 s isForceChunk .live currentPos now .select)
    | _ => none
  | .observeStop =>
    match s.stopAt with
    | none => none
    | some limit => if s.phase.atStopCheck then some { s with phase := .stopping limit } else none
  | .scoreTail speech =>
    match s.phase with
    | .stopping limit =>
      if speech && !hasTail s limit then none
      else some { s with
        phase := .copying limit (finalFlushRanges s.vad limit parakeet.maxChunkDuration speech) }
    | _ => none
  | .copy =>
    match s.phase with
    | .copying limit [] => some { s with phase := .flushed limit }
    | .copying limit (r :: rest) => some (copyRange f32 s limit r rest)
    | _ => none
  | .fail =>
    match s.phase with
    | .select => some { s with phase := .failing true }
    | .fed _ => some { s with phase := .failing true }
    | _ => none
  | .flush =>
    match s.phase with
    | .failing true =>
      if !s.vad.hasInFlightTask && decide (s.vad.speechStartPos < s.ring.writePos) then
        some { s with phase := .failingDispatch s.ring.writePos }
      else none
    | _ => none
  | .prepareFinal now =>
    match s.phase with
    | .failingDispatch currentPos =>
      let t := prepare f32 s true .finalFlush currentPos now (.failing false)
      some { t with phase := .failing (decide (s.sent.length < t.sent.length) && t.vad.forceDrain) }
    | _ => none

def State.start (ring : Ring) (vad : SourceVadState) : State where
  ring := ring
  vad := vad
  task := .none
  stopAt := none
  phase := .select
  scoredTo := vad.silero.readPos
  sent := []
  heard := []

/-- A source as the loop finds it: live from the write position on, after a backfill, or with
an utterance that the backfill left open. -/
inductive Initial : State → Prop
  | live (ring : Ring) (fmt : Format) (anchor : ℚ) (pos : Nat) (hpos : pos ≤ ring.writePos) :
    Initial (.start ring (.new pos pos fmt anchor))
  | backfill (ring : Ring) (fmt : Format) (anchor : ℚ) (rewound current : Nat)
    (hpos : current ≤ ring.writePos) :
    Initial (.start ring ((SourceVadState.new rewound rewound fmt anchor).startAfterBackfill
      current))
  | carried (ring : Ring) (fmt : Format) (anchor : ℚ) (rewound current : Nat)
    (hpos : current ≤ ring.writePos) (startPos : Nat) (hstart : startPos ≤ current)
    (mids : List (Nat × ℚ)) (carried now : Nat) :
    Initial (.start ring (carryOpenTailIntoLive
      ((SourceVadState.new rewound rewound fmt anchor).startAfterBackfill current)
      startPos mids carried now))

/-- No read of the step finds samples overwritten. -/
def NotOverrun (s : State) : Action → Prop
  | .extract => s.ring.Holds s.vad.silero.readPos
  | .prepare _ => s.ring.Holds s.vad.speechStartPos
  | .prepareFinal _ => s.ring.Holds s.vad.speechStartPos
  | .scoreTail _ => s.ring.Holds s.vad.silero.readPos
  | .copy =>
    match s.phase with
    | .copying _ (r :: _) => s.ring.Holds r.start
    | _ => True
  | _ => True

instance (s : State) (a : Action) : Decidable (NotOverrun s a) := by
  unfold NotOverrun
  split
  all_goals first | infer_instance | (split <;> infer_instance)

/-- A frame that opens an utterance starts at most a pre-roll before the mark that the idle
cursor left, or that mark has nothing but the pre-roll between it and the last chunk. -/
def OnsetInReach (s : State) : Action → Prop
  | .poll _ =>
    match s.phase with
    | .drained frames => s.vad.isSpeaking = false →
      ∀ f ∈ loud (polledFrames s.vad frames),
        s.vad.speechStartPos ≤
          max f.audio.start s.vad.earliestNextChunkPos + s.vad.format.samplesIn parakeet.preRoll
    | _ => True
  | _ => True

instance (s : State) (a : Action) : Decidable (OnsetInReach s a) := by
  unfold OnsetInReach
  split
  · split <;> infer_instance
  · infer_instance

/-- The sample is part of a dispatched chunk. -/
def Source.Sent (s : Source) (x : Nat) : Prop := ∃ c ∈ s.sent, x ∈ c.audio

/-- The dispatched ranges of a source tile its speech. -/
structure Tiled (s : State) : Prop where
  increasing : Increasing (s.sent.map PreparedChunk.audio)
  nonempty : ∀ c ∈ s.sent, c.audio.start < c.audio.stop
  atMostMax : ∀ c ∈ s.sent, c.origin = .live →
    c.audio.length * nanosPerSecond ≤
      parakeet.maxChunkDuration * s.vad.format.sampleRate * s.vad.format.channels
  offsets : (s.sent.map PreparedChunk.audioOffset).Pairwise (· ≤ ·)
  covered : ∀ r ∈ s.heard, ∀ x ∈ r,
    s.Sent x ∨ s.vad.isSpeaking = true ∧ s.vad.speechStartPos ≤ x
  remainder : ∀ limit, s.phase = .flushed limit →
    ∃ rest : Span, rest.start = s.vad.speechStartPos ∧ TooShort s.vad.format rest ∧
      ∀ r ∈ s.heard, ∀ x ∈ r, x < limit → s.Sent x ∨ x ∈ rest

end YapStack.Live.Loop
