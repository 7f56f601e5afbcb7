import YapStack.Foundation.Runs
import YapStack.Live.MicOwnership

set_option linter.unusedSectionVars false

namespace YapStack.Live.Session

open Spans

/-- The session WAV: how far the mic is flushed, and whether system audio is mixed in. -/
structure SessionWavState where
  flushPos : Nat
  mixed : Bool

/-- One extraction for the WAV: mono frames of raw samples from `base` on. -/
structure WavRead where
  oldPos : Nat
  base : Nat
  samples : Mono
  newPos : Nat

/-- A buffer replacement that is being handled. `resume` is the batch of the interrupted
tick, `prior` the window that was open when the ring was dropped. -/
structure Swap where
  resume : Option (List Frame)
  old : Ring
  format : Format
  prior : Option Nat

inductive Phase where
  | select
  | extracted (newPos : Nat) (hasAudio : Bool) (wav : Option WavRead)
  | muted (newPos : Nat) (hasAudio : Bool) (wav : Option WavRead)
  | fed (frames : List Frame) (wav : Option WavRead)
  | written (frames : List Frame)
  | drained (frames : List Frame)
  | polled (action : VadAction)
  | owning (todo : List MicWindow) (opened : Option Nat) (seen : Nat) (suspended : Bool)
    (action : VadAction)
  | deciding (seen : Nat) (suspended : Bool) (action : VadAction)
  | dispatching (seen : Nat) (isForceChunk : Bool) (currentPos : Nat)
  | pruning
  | swapped (swap : Swap)
  | positioned (swap : Swap) (newPos : Nat)
  | rebased (swap : Swap) (newPos : Nat) (truncateAt : Option Nat)
  | rescued (swap : Swap) (newPos : Nat) (truncateAt : Option Nat)
  | resetting (swap : Swap) (newPos : Nat)
  | stopping (limit : Nat)
  | tail (limit seen : Nat)
  | copying (limit seen : Nat) (ranges : List Span)
  | failing
  | failChecked (snapshot : DictationOwnsMic) (seen : Nat)
  | flushing (seen : Nat) (again : Bool)
  | flushDispatching (seen currentPos : Nat)
  | wavTail (limit : Option Nat)
  | wavTailRead (wav : Option WavRead)
  | done

/-- The dictation runtime: a window bound is read from the ring first and recorded then. -/
inductive Dictation where
  | idle
  | starting (start : Nat)
  | running
  | finishing (stop : Nat)

/-- What the user dictates, in the positions of the ring it is written to. -/
structure Dictated where
  gen : Nat
  start : Nat
  openedAt : Nat
  stop : Option Nat
  deriving DecidableEq

def Dictated.first (w : Dictated) : Nat := max w.start w.openedAt

def Dictated.closeAt (stop : Nat) (w : Dictated) : Dictated :=
  match w.stop with
  | none => { w with stop := some stop }
  | some _ => w

/-- The mic source of a session. `gen` counts the rings; `windows` (what is dictated), `floor`
(where the session took over the ring), `sent` and `recorded` are history. -/
structure Mic where
  gen : Nat
  ring : Ring
  vad : SourceVadState
  inFlight : Bool
  stopAt : Option Nat
  wav : Option SessionWavState
  owns : DictationOwnsMic
  dictation : Dictation
  windows : List Dictated
  floor : Nat
  sent : List (Nat × Span)
  recorded : List (Nat × Span)

structure State extends Mic where
  phase : Phase

inductive Action where
  | write (n : Nat)
  | readStart
  | openWindow
  | readEnd
  | closeWindow
  | finishTask
  | requestStop
  | extract (keep extra : Nat)
  | mute
  | feed (frames : List Frame) (pending : Nat)
  | writeWav (resampled : Bool)
  | drain
  | poll (clock : List Nat)
  | snapshot
  | consume (now : Nat)
  | settle (now : Nat)
  | dispatch
  | prepare (now : Nat)
  | prune
  | restart (capacity : Nat) (format : Format)
  | readNewPos
  | rebase
  | rescueChunk
  | rescueWav (resampled : Bool)
  | reset (anchor : ℚ)
  | observeStop
  | decideStop
  | scoreTail (speech : Bool)
  | copy
  | fail
  | snapshotFail
  | decideFail
  | flush
  | prepareFinal (now : Nat)
  | endFlush
  | readWavTail (keep extra : Nat)
  | muteWavTail

/-- The prefix of the windows that are closed. -/
def closedPrefix (windows : List Dictated) : Nat :=
  (windows.takeWhile (fun w => w.stop.isSome)).length

/-- The mono frames of a read. In mixed mode the mic is trimmed to `keep` frames, and the mix
may go on for `extra` frames of system audio. -/
def wavRead (fmt : Format) (ws : SessionWavState) (span : Span) (keep extra : Nat) :
    Option WavRead :=
  if keep + extra = 0 then none
  else some {
    oldPos := ws.flushPos
    base := span.start
    samples := monoFrames fmt.channels span.start keep ++ List.replicate extra none
    newPos := span.stop - (monoLength fmt span - keep) * fmt.channels }

def keeps (fmt : Format) (ws : SessionWavState) (span : Span) (keep extra : Nat) : Bool :=
  if ws.mixed then decide (keep ≤ monoLength fmt span)
  else decide (keep = monoLength fmt span ∧ extra = 0)

/-- `extract_since` or, with a limit, `extract_since_until`, as far as the mic goes. -/
def wavSpan (ring : Ring) (flushPos : Nat) : Option Nat → Option Span
  | none => (snapshotSinceWithPos ring flushPos).1
  | some limit =>
    let span := (snapshotRange ring flushPos limit).span
    if span.length = 0 then none else some span

def readWav (s : Mic) (limit : Option Nat) (keep extra : Nat) : Option (Option WavRead) :=
  match s.wav with
  | none => some none
  | some ws =>
    match wavSpan s.ring ws.flushPos limit with
    | none => some none
    | some span =>
      if keeps s.vad.format ws span keep extra then some (wavRead s.vad.format ws span keep extra)
      else none

def muteRead (s : Mic) (read : WavRead) : WavRead :=
  { read with
    samples := muteDictationWindowInWavExtraction read.samples s.vad.format.channels read.oldPos
      s.owns }

/-- Append what is not silence, and move on. -/
def recordRead (s : Mic) (read : WavRead) (resampled : Bool) : Mic :=
  { s with
    recorded :=
      if resampled then s.recorded ++ (read.samples.filterMap id).map (fun r => (s.gen, r))
      else s.recorded
    wav := s.wav.map (fun ws => { ws with flushPos := read.newPos }) }

section Steps

variable (f32 : Rounding)

/-- A prepared chunk goes to a chunk task. -/
def prepareOn (s : Mic) (isForceChunk : Bool) (origin : JobOrigin) (bounded : Bool)
    (currentPos now : Nat) : Mic :=
  let prepared := prepareChunkDispatchInner f32 s.vad s.ring isForceChunk origin
    parakeet.maxChunkDuration bounded currentPos now
  { s with
    vad := prepared.1
    inFlight := s.inFlight || prepared.2.isSome
    sent := s.sent ++ (prepared.2.map (fun c => (s.gen, c.audio))).toList }

/-- Flush the pending speech up to the start of a window. -/
def preWindowFlush (s : Mic) (windowStart now : Nat) : Mic :=
  if s.vad.isSpeaking && !s.vad.hasInFlightTask && decide (s.vad.speechStartPos < windowStart) then
    prepareOn f32 s true .live true windowStart now
  else s

def consumeWindow (s : Mic) (window : MicWindow) (now : Nat) : Mic :=
  let flushed := preWindowFlush f32 s window.start now
  { flushed with
    vad := { flushed.vad.resetVadPast window.stop with
      dictationConsumedThrough := window.stop
      flushedOpenAt :=
        if flushed.vad.flushedOpenAt = some window.start then none
        else flushed.vad.flushedOpenAt } }

def settleOpen (s : Mic) (start now : Nat) : Mic :=
  if s.vad.flushedOpenAt = some start then s
  else
    let flushed := preWindowFlush f32 s start now
    { flushed with vad := { flushed.vad with flushedOpenAt := some start } }

/-- The slowest reader of the closed windows. -/
def Mic.minConsumer (s : Mic) : Nat :=
  (s.wav.map (fun ws => min s.vad.dictationConsumedThrough ws.flushPos)).getD
    s.vad.dictationConsumedThrough

/-- The ring is replaced. A dictation that is going on continues on the new one. -/
def restart (s : Mic) (capacity : Nat) : Mic :=
  { s with
    gen := s.gen + 1
    ring := ⟨capacity, 0⟩
    windows := s.windows.map (Dictated.closeAt s.ring.writePos) ++
      if s.windows.any (fun w => w.stop.isNone) then [⟨s.gen + 1, 0, 0, none⟩] else [] }

/-- The end of a rescue from the dropped ring. -/
def rescueEnd (old : Ring) (truncateAt : Option Nat) : Nat :=
  (truncateAt.map (fun t => min t old.writePos)).getD old.writePos

def rescueChunk (s : Mic) (swap : Swap) (truncateAt : Option Nat) : Mic :=
  let vad := { s.vad with hasInFlightTask := false }
  match extractSourceAudioUntil swap.old s.vad.format s.vad.speechStartPos
      (rescueEnd swap.old truncateAt) with
  | none => { s with vad := vad }
  | some extraction =>
    if TooShort s.vad.format extraction.span then { s with vad := vad }
    else
      { s with
        vad := { vad with
          chunkIndex := (vad.chunkIndex + 1) % 2 ^ 32
          hasInFlightTask := true
          forceDrain := false }
        inFlight := true
        sent := s.sent ++ [(s.gen - 1, extraction.span)] }

/-- Only a WAV without system audio can be rescued. -/
def rescueWav (s : Mic) (swap : Swap) (truncateAt : Option Nat) (resampled : Bool) : Mic :=
  match s.wav with
  | none => s
  | some ws =>
    if ws.mixed || !resampled then s
    else
      match extractSourceAudioUntil swap.old s.vad.format ws.flushPos
          (rescueEnd swap.old truncateAt) with
      | none => s
      | some extraction =>
        { s with
          recorded := s.recorded ++
            ((monoFrames s.vad.format.channels extraction.span.start
              (monoLength s.vad.format extraction.span)).filterMap id).map
                (fun r => (s.gen - 1, r)) }

def resetForReplacement (s : Mic) (swap : Swap) (newPos : Nat) (anchor : ℚ) : Mic :=
  { s with
    vad := { s.vad.resetForBufferReplacement newPos swap.format anchor with
      dictationConsumedThrough := 0
      flushedOpenAt := none }
    wav := s.wav.map (fun ws => { ws with flushPos := newPos })
    floor := newPos }

/-- One range of `copy_final_pending_chunks_until`. -/
def copyRange (s : Mic) (r : Span) : Option Mic :=
  (extractSourceAudioUntil s.ring s.vad.format r.start r.stop).map (fun extraction =>
    if TooShort s.vad.format extraction.span then s
    else { s with sent := s.sent ++ [(s.gen, extraction.span)] })

def Phase.atStopCheck : Phase → Bool
  | .select | .muted .. | .fed .. | .written _ | .drained _ => true
  | _ => false

def dispatch (s : State) (seen : Nat) (suspended : Bool) (action : VadAction) : State :=
  if suspended then { s with phase := .pruning }
  else
    match action with
    | .chunk | .forceChunk =>
      if s.vad.hasInFlightTask then { s with phase := .pruning }
      else
        { s with phase := .dispatching seen (decide (action = .forceChunk)) s.ring.writePos }
    | .none =>
      if !s.vad.hasInFlightTask && !s.vad.isSpeaking then
        { s with vad := advanceIdleCursor s.vad s.ring, phase := .pruning }
      else { s with phase := .pruning }

/-- Microphone, dictation runtime, chunk tasks and the stop command. -/
def stepOutside (s : State) : Action → Option State
  | .write n => some { s with ring := s.ring.write n }
  | .readStart =>
    match s.dictation with
    | .idle => some { s with dictation := .starting s.ring.writePos }
    | _ => none
  | .openWindow =>
    match s.dictation with
    | .starting start =>
      some { s with
        dictation := .running
        owns := s.owns.openAt start
        windows := s.windows ++ [⟨s.gen, start, s.ring.writePos, none⟩] }
    | _ => none
  | .readEnd =>
    match s.dictation with
    | .running => some { s with dictation := .finishing s.ring.writePos }
    | _ => none
  | .closeWindow =>
    match s.dictation with
    | .finishing stop =>
      some { s with
        dictation := .idle
        owns := s.owns.close stop
        windows := s.windows.map (Dictated.closeAt stop) }
    | _ => none
  | .finishTask => if s.inFlight then some { s with inFlight := false } else none
  | .requestStop =>
    match s.stopAt with
    | none => some { s with stopAt := some (s.ring.writePos + tailSamplesFor s.vad.format) }
    | some _ => none
  | _ => none

/-- The session loop's own tick. -/
def stepTick (s : State) : Action → Option State
  | .extract keep extra =>
    match s.phase with
    | .select =>
      let read := extractSourceAudio s.ring s.vad.silero.readPos
      (readWav s.toMic none keep extra).map (fun wav =>
        { s with phase := .extracted read.2 read.1.isSome wav })
    | _ => none
  | .mute =>
    match s.phase with
    | .extracted newPos hasAudio wav =>
      some { s with phase := .muted newPos hasAudio (wav.map (muteRead s.toMic)) }
    | _ => none
  | .feed frames pending =>
    match s.phase with
    | .muted newPos hasAudio wav =>
      if hasAudio then
        some { s with phase := .fed frames wav, vad := s.vad.feedSilero newPos frames pending }
      else if frames = [] then
        some { s with
          phase := .fed [] wav
          vad := { s.vad with silero := { s.vad.silero with readPos := newPos } } }
      else none
    | _ => none
  | .writeWav resampled =>
    match s.phase with
    | .fed frames none => some { s with phase := .written frames }
    | .fed frames (some read) =>
      some { recordRead s.toMic read resampled with
        phase := if resampled then .written frames else .select }
    | _ => none
  | .drain =>
    match s.phase with
    | .written frames =>
      some { s with
        phase := .drained frames
        vad := if s.inFlight then s.vad else { s.vad with hasInFlightTask := false } }
    | _ => none
  | .poll clock =>
    match s.phase with
    | .drained frames =>
      let polled := pollSource parakeet s.vad frames clock
      some { s with vad := polled.1, phase := .polled polled.2 }
    | _ => none
  | .snapshot =>
    match s.phase with
    | .polled action =>
      some { s with
        phase := .owning
          (s.owns.closed.filter (fun w => decide (s.vad.dictationConsumedThrough < w.stop)))
          s.owns.opened (closedPrefix s.windows) false action }
    | _ => none
  | .consume now =>
    match s.phase with
    | .owning (window :: todo) opened seen _ action =>
      some { consumeWindow f32 s.toMic window now with
        phase := .owning todo opened seen true action }
    | _ => none
  | .settle now =>
    match s.phase with
    | .owning [] none seen suspended action =>
      some { s with phase := .deciding seen suspended action }
    | .owning [] (some start) seen _ action =>
      some { settleOpen f32 s.toMic start now with phase := .deciding seen true action }
    | _ => none
  | .dispatch =>
    match s.phase with
    | .deciding seen suspended action => some (dispatch s seen suspended action)
    | _ => none
  | .prepare now =>
    match s.phase with
    | .dispatching _ isForceChunk currentPos =>
      some { prepareOn f32 s.toMic isForceChunk .live false currentPos now with phase := .pruning }
    | _ => none
  | .prune =>
    match s.phase with
    | .pruning => some { s with owns := s.owns.pruneBefore s.minConsumer, phase := .select }
    | _ => none
  | _ => none

/-- A restart that replaces the mic buffer, and its handling. -/
def stepSwap (s : State) : Action → Option State
  | .restart capacity format =>
    match s.phase with
    | .select =>
      some { restart s.toMic capacity with
        phase := .swapped ⟨none, s.ring, format, s.owns.opened⟩ }
    | .written frames =>
      some { restart s.toMic capacity with
        phase := .swapped ⟨some frames, s.ring, format, s.owns.opened⟩ }
    | _ => none
  | .readNewPos =>
    match s.phase with
    | .swapped swap => some { s with phase := .positioned swap s.ring.writePos }
    | _ => none
  | .rebase =>
    match s.phase with
    | .positioned swap newPos =>
      some { s with
        owns := s.owns.rebaseForMicBufferReplacement newPos
        phase := .rebased swap newPos
          (earliestDictationStartInRange s.vad.speechStartPos swap.old.writePos s.owns) }
    | _ => none
  | .rescueChunk =>
    match s.phase with
    | .rebased swap newPos truncateAt =>
      if s.inFlight then none
      else
        some { rescueChunk s.toMic swap truncateAt with
          phase := .rescued swap newPos truncateAt }
    | _ => none
  | .rescueWav resampled =>
    match s.phase with
    | .rescued swap newPos truncateAt =>
      some { rescueWav s.toMic swap truncateAt resampled with phase := .resetting swap newPos }
    | _ => none
  | .reset anchor =>
    match s.phase with
    | .resetting swap newPos =>
      some { resetForReplacement s.toMic swap newPos anchor with
        phase := (swap.resume.map Phase.written).getD .select }
    | _ => none
  | _ => none

/-- The end of the loop, after a stop or without one. -/
def stepEnd (s : State) : Action → Option State
  | .observeStop =>
    match s.stopAt with
    | none => none
    | some limit => if s.phase.atStopCheck then some { s with phase := .stopping limit } else none
  | .decideStop =>
    match s.phase with
    | .stopping limit =>
      some { s with
        phase :=
          if s.owns.overlaps s.vad.speechStartPos limit then .wavTail (some limit)
          else .tail limit (closedPrefix s.windows) }
    | _ => none
  | .scoreTail speech =>
    match s.phase with
    | .tail limit seen =>
      some { s with
        phase := .copying limit seen
          (finalFlushRanges s.vad limit parakeet.maxChunkDuration speech) }
    | _ => none
  | .copy =>
    match s.phase with
    | .copying limit _ [] => some { s with phase := .wavTail (some limit) }
    | .copying limit seen (r :: rest) =>
      match copyRange s.toMic r with
      | none => some { s with phase := .wavTail (some limit) }
      | some t => some { t with phase := .copying limit seen rest }
    | _ => none
  | .fail =>
    match s.phase with
    | .select => some { s with phase := .failing }
    | .written _ => some { s with phase := .failing }
    | _ => none
  | .snapshotFail =>
    match s.phase with
    | .failing => some { s with phase := .failChecked s.owns (closedPrefix s.windows) }
    | _ => none
  | .decideFail =>
    match s.phase with
    | .failChecked snapshot seen =>
      some { s with
        phase :=
          if snapshot.overlaps s.vad.speechStartPos s.ring.writePos then .wavTail none
          else .flushing seen true }
    | _ => none
  | .flush =>
    match s.phase with
    | .flushing seen true =>
      if !s.inFlight && decide (s.vad.speechStartPos < s.ring.writePos) then
        some { s with phase := .flushDispatching seen s.ring.writePos }
      else none
    | _ => none
  | .prepareFinal now =>
    match s.phase with
    | .flushDispatching seen currentPos =>
      let t := prepareOn f32 s.toMic true .finalFlush false currentPos now
      some { t with
        phase := .flushing seen (decide (s.sent.length < t.sent.length) && t.vad.forceDrain) }
    | _ => none
  | .endFlush =>
    match s.phase with
    | .flushing _ _ => some { s with phase := .wavTail none }
    | _ => none
  | .readWavTail keep extra =>
    match s.phase with
    | .wavTail limit =>
      (readWav s.toMic limit keep extra).map (fun wav => { s with phase := .wavTailRead wav })
    | _ => none
  | .muteWavTail =>
    match s.phase with
    | .wavTailRead none => some { s with phase := .done }
    | .wavTailRead (some read) =>
      some { recordRead s.toMic (muteRead s.toMic read) true with phase := .done }
    | _ => none
  | _ => none

def step (s : State) (a : Action) : Option State :=
  (stepOutside s a).or ((stepTick f32 s a).or ((stepSwap s a).or (stepEnd f32 s a)))

end Steps

/-- The sample is dictated: it was written to that ring after the window was opened and
before it was closed. -/
def Dictated.Holds (w : Dictated) (gen x : Nat) : Prop :=
  w.gen = gen ∧ w.first ≤ x ∧ ∀ e ∈ w.stop, x < e

def Mic.Dictates (s : Mic) (gen x : Nat) : Prop := ∃ w ∈ s.windows, w.Holds gen x

/-- Nothing dictated is part of a chunk or of the session WAV. -/
structure Private (s : Mic) : Prop where
  chunks : ∀ c ∈ s.sent, ∀ x ∈ c.2, ¬ s.Dictates c.1 x
  wav : ∀ c ∈ s.recorded, ∀ x ∈ c.2, ¬ s.Dictates c.1 x

/-- A session that begins on a ring, after whatever was dictated before. -/
structure Initial (s : State) : Prop where
  phase : s.phase = .select
  early : s.vad.earliestNextChunkPos ≤ s.vad.speechStartPos
  written : s.vad.earliestNextChunkPos ≤ s.ring.writePos
  consumed : s.vad.dictationConsumedThrough = 0
  floor : s.floor = 0
  sent : s.sent = []
  recorded : s.recorded = []
  dictation : ∃ (before : State) (as : List Action), before.dictation = .idle ∧
    before.owns = .new ∧ before.windows = [] ∧ Runs.exec stepOutside before as = some s

section Guards

/-- Every window that the deciding snapshot did not know as closed begins at `pos` or later. -/
def BeginAfter (s : Mic) (seen pos : Nat) : Prop :=
  ∀ w ∈ s.windows.drop seen, w.gen = s.gen → pos ≤ w.first

/-- The WAV reader gets what it asks for, or no window reaches into what it gets. -/
def WavInStep (s : Mic) (limit : Option Nat) : Prop :=
  ∀ ws ∈ s.wav, s.ring.Holds ws.flushPos ∨
    ∀ w ∈ s.windows, w.gen = s.gen →
      min (limit.getD s.ring.writePos) s.ring.writePos ≤ w.first ∨
        (∃ e ∈ w.stop, e ≤ s.ring.writePos - s.ring.capacity)

/-- What the two rescues read begins at the speech start and, without system audio, at the
flushed position of the WAV. -/
def Mic.rescueStart (s : Mic) : Nat :=
  (s.wav.map (fun ws =>
    if ws.mixed then s.vad.speechStartPos else min s.vad.speechStartPos ws.flushPos)).getD
      s.vad.speechStartPos

/-- Every window of the dropped ring that reaches into a rescue begins after the speech start. -/
def RescueInReach (s : Mic) (swap : Swap) : Prop :=
  (∀ r ∈ s.owns.closed, s.rescueStart < r.stop → s.vad.speechStartPos ≤ r.start) ∧
    ∀ start ∈ swap.prior, s.vad.speechStartPos ≤ start

/-- The condition under which a step keeps dictated audio out of the session. -/
def Guarded (s : State) : Action → Prop
  | .extract _ _ => WavInStep s.toMic none
  | .readWavTail _ _ =>
    match s.phase with
    | .wavTail limit => WavInStep s.toMic limit
    | _ => True
  | .prepare _ =>
    match s.phase with
    | .dispatching seen _ currentPos => BeginAfter s.toMic seen currentPos
    | _ => True
  | .prepareFinal _ =>
    match s.phase with
    | .flushDispatching seen currentPos => BeginAfter s.toMic seen currentPos
    | _ => True
  | .copy =>
    match s.phase with
    | .copying limit seen _ => BeginAfter s.toMic seen limit
    | _ => True
  | .restart _ _ =>
    match s.dictation with
    | .starting _ => False
    | .finishing _ => False
    | _ => True
  | .closeWindow =>
    match s.phase with
    | .swapped _ => False
    | .positioned _ _ => False
    | _ => True
  | .rebase =>
    match s.phase with
    | .positioned swap _ => RescueInReach s.toMic swap
    | _ => True
  | _ => True

instance (s : Mic) (seen pos : Nat) : Decidable (BeginAfter s seen pos) :=
  inferInstanceAs (Decidable (∀ _ ∈ _, _))

instance (s : Mic) (limit : Option Nat) : Decidable (WavInStep s limit) := by
  unfold WavInStep
  infer_instance

instance (s : Mic) (swap : Swap) : Decidable (RescueInReach s swap) := by
  unfold RescueInReach
  infer_instance

instance (s : State) (a : Action) : Decidable (Guarded s a) := by
  unfold Guarded
  split
  all_goals first | infer_instance | (split <;> infer_instance)

end Guards

end YapStack.Live.Session
