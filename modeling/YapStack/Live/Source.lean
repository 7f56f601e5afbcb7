import Mathlib.Algebra.Order.Field.Basic
import Mathlib.Algebra.Order.Field.Rat
import Mathlib.Order.Monotone.Basic
import YapStack.Foundation.Spans

namespace YapStack.Live

section Ring

open Spans

/-- A conversion to `f32`, of which the results only need that it keeps the order. -/
structure Rounding where
  round : ℚ → ℚ
  mono : Monotone round
  nonneg : ∀ x, 0 ≤ x → 0 ≤ round x

/-- No rounding: what `f32` does to small integers. -/
def Rounding.exact : Rounding := ⟨id, monotone_id, fun _ h => h⟩

/-- Nanoseconds. -/
abbrev Duration := Nat

def nanosPerSecond : Nat := 1000000000

def fromMillis (ms : Nat) : Duration := ms * 1000000

/-- Sample rate and channel count of a ring buffer. -/
structure Format where
  sampleRate : Nat
  channels : Nat
  rate_pos : 0 < sampleRate
  channels_pos : 0 < channels

/-- Interleaved samples that a duration takes. -/
def Format.samplesIn (fmt : Format) (d : Duration) : Nat :=
  d * fmt.sampleRate * fmt.channels / nanosPerSecond

def maxRawSamplesForDuration (d : Duration) (fmt : Format) : Nat :=
  max (fmt.samplesIn d) fmt.channels - max (fmt.samplesIn d) fmt.channels % fmt.channels

/-- The positions of a ring: which samples were written, and how many of them are kept. -/
structure Ring where
  capacity : Nat
  writePos : Nat

def Ring.write (ring : Ring) (n : Nat) : Ring := { ring with writePos := ring.writePos + n }

@[simp] theorem Ring.write_writePos (ring : Ring) (n : Nat) :
    (ring.write n).writePos = ring.writePos + n := rfl

@[simp] theorem Ring.write_capacity (ring : Ring) (n : Nat) :
    (ring.write n).capacity = ring.capacity := rfl

/-- The samples since a position that the ring still has, and the position after them. -/
def snapshotSinceWithPos (ring : Ring) (since : Nat) : Option Span × Nat :=
  if ring.writePos ≤ since then (none, since)
  else
    (some ⟨ring.writePos - min (ring.writePos - since) ring.capacity, ring.writePos⟩,
      ring.writePos)

structure AudioRangeSnapshot where
  span : Span
  overrun : Bool

def snapshotRange (ring : Ring) (fromPos untilPos : Nat) : AudioRangeSnapshot :=
  let endPos := min untilPos ring.writePos
  if endPos ≤ fromPos then ⟨⟨fromPos, fromPos⟩, false⟩
  else
    let startPos := max fromPos (ring.writePos - ring.capacity)
    if endPos ≤ startPos then ⟨⟨startPos, startPos⟩, decide (fromPos < startPos)⟩
    else ⟨⟨startPos, endPos⟩, decide (fromPos < startPos)⟩

/-- `deinterleave_to_mono` drops an incomplete last frame. -/
def monoLength (fmt : Format) (span : Span) : Nat := span.length / fmt.channels

def extractSourceAudio (ring : Ring) (fromPos : Nat) : Option Span × Nat :=
  snapshotSinceWithPos ring fromPos

def extractSourceAudioUntil (ring : Ring) (fmt : Format) (fromPos untilPos : Nat) :
    Option AudioRangeSnapshot :=
  let snap := snapshotRange ring fromPos untilPos
  if snap.span.length = 0 then none
  else if monoLength fmt snap.span = 0 then none
  else some snap

/-- Nothing that a reader still wants from `fromPos` on was overwritten. -/
def Ring.Holds (ring : Ring) (fromPos : Nat) : Prop := ring.writePos ≤ fromPos + ring.capacity

instance (ring : Ring) (fromPos : Nat) : Decidable (ring.Holds fromPos) :=
  inferInstanceAs (Decidable (_ ≤ _))

theorem snapshotRange_of_holds {ring : Ring} {fromPos : Nat} (h : ring.Holds fromPos)
    (untilPos : Nat) :
    snapshotRange ring fromPos untilPos =
      ⟨⟨fromPos, max fromPos (min untilPos ring.writePos)⟩, false⟩ := by
  have hmax : max fromPos (ring.writePos - ring.capacity) = fromPos := by
    unfold Ring.Holds at h
    omega
  unfold snapshotRange
  by_cases hle : min untilPos ring.writePos ≤ fromPos
  · simp [hle]
  · simp only [hle, if_false, hmax, lt_self_iff_false, decide_false]
    rw [max_eq_right (by omega)]

/-- What a bounded read returns: the samples from the position to the bound or to the
write position. -/
theorem extractSourceAudioUntil_eq_some {ring : Ring} {fmt : Format} {fromPos untilPos : Nat}
    {snap : AudioRangeSnapshot} (hring : ring.Holds fromPos)
    (h : extractSourceAudioUntil ring fmt fromPos untilPos = some snap) :
    snap.span = ⟨fromPos, min untilPos ring.writePos⟩ ∧
      fromPos < min untilPos ring.writePos := by
  simp only [extractSourceAudioUntil, snapshotRange_of_holds hring, Span.length] at h
  split at h
  · contradiction
  · next hne =>
    split at h
    · contradiction
    · obtain rfl := Option.some.inj h
      have hlt : fromPos < min untilPos ring.writePos := by omega
      exact ⟨by rw [max_eq_right hlt.le], hlt⟩

theorem extractSourceAudioUntil_eq_none {ring : Ring} {fmt : Format} {fromPos untilPos : Nat}
    (hring : ring.Holds fromPos)
    (h : extractSourceAudioUntil ring fmt fromPos untilPos = none) :
    (min untilPos ring.writePos - fromPos) / fmt.channels = 0 := by
  simp only [extractSourceAudioUntil, snapshotRange_of_holds hring, Span.length,
    monoLength] at h
  have hmax : max fromPos (min untilPos ring.writePos) - fromPos =
      min untilPos ring.writePos - fromPos := by omega
  rw [hmax] at h
  split at h
  · next h0 => rw [h0, Nat.zero_div]
  · split at h
    · assumption
    · contradiction

/-- A bounded read never leaves its bounds, also when the ring has dropped samples. -/
theorem extractSourceAudioUntil_bounds {ring : Ring} {fmt : Format} {fromPos untilPos : Nat}
    {snap : AudioRangeSnapshot}
    (h : extractSourceAudioUntil ring fmt fromPos untilPos = some snap) :
    fromPos ≤ snap.span.start ∧ snap.span.start < snap.span.stop ∧
      snap.span.stop ≤ untilPos ∧ snap.span.stop ≤ ring.writePos := by
  simp only [extractSourceAudioUntil] at h
  split at h
  · contradiction
  · next hne =>
    split at h
    · contradiction
    · obtain rfl := Option.some.inj h
      simp only [snapshotRange, Span.length] at hne ⊢
      split at hne
      · simp at hne
      · next h1 =>
        split at hne
        · simp at hne
        · next h2 =>
          rw [if_neg h1, if_neg h2]
          dsimp only
          omega

theorem maxRawSamples_pos (d : Duration) (fmt : Format) :
    0 < maxRawSamplesForDuration d fmt := by
  have hlt := Nat.mod_lt (max (fmt.samplesIn d) fmt.channels) fmt.channels_pos
  unfold maxRawSamplesForDuration
  omega

theorem maxRawSamples_mono {d e : Duration} (h : d ≤ e) (fmt : Format) :
    maxRawSamplesForDuration d fmt ≤ maxRawSamplesForDuration e fmt := by
  have hsamples : fmt.samplesIn d ≤ fmt.samplesIn e :=
    Nat.div_le_div_right (Nat.mul_le_mul_right _ (Nat.mul_le_mul_right _ h))
  have hmax : max (fmt.samplesIn d) fmt.channels ≤ max (fmt.samplesIn e) fmt.channels := by
    omega
  have hd := Nat.div_add_mod (max (fmt.samplesIn d) fmt.channels) fmt.channels
  have he := Nat.div_add_mod (max (fmt.samplesIn e) fmt.channels) fmt.channels
  have hmul := Nat.mul_le_mul_left fmt.channels (Nat.div_le_div_right (c := fmt.channels) hmax)
  unfold maxRawSamplesForDuration
  omega

end Ring

section Source

open Spans

def minChunkDuration : Duration := fromMillis 350
def minSplitPiece : Duration := fromMillis 2000
def pauseSearchWindow : Duration := fromMillis 2000
def stopTailGrace : Duration := fromMillis 300

def silenceThreshold : ℚ := 7 / 20
def speechThreshold : ℚ := 1 / 2

structure VadTuning where
  speechThreshold : ℚ
  offsetThresholdRatio : ℚ
  silenceDuration : Duration
  maxChunkDuration : Duration
  preRoll : Duration

/-- `profile_for(Parakeet).vad_tuning`, the only profile. -/
def parakeet : VadTuning where
  speechThreshold := speechThreshold
  offsetThresholdRatio := silenceThreshold / speechThreshold
  silenceDuration := fromMillis 500
  maxChunkDuration := fromMillis 10000
  preRoll := fromMillis 250

def targetSampleRateHz : Nat := 16000
def frameSamples : Nat := 512
def recentFrameCapacity : Nat := 1024

/-- The frames in `PAUSE_SEARCH_WINDOW`: `pause_search_window_ms() / frame_ms`. -/
def pauseSearchFrames : Nat := 2000 / 32

/-- One scored frame: the audio that it covers, in ring positions, and its probability. -/
structure Frame where
  audio : Span
  prob : ℚ
  deriving DecidableEq

structure SileroSource where
  readPos : Nat
  /-- The frame that `last_probability` is the probability of. -/
  lastFrame : Option Frame
  recentFrames : List (Nat × ℚ)

def SileroSource.new (initialReadPos : Nat) : SileroSource := ⟨initialReadPos, none, []⟩

def SileroSource.lastProbability (silero : SileroSource) : Option ℚ :=
  silero.lastFrame.map Frame.prob

def SileroSource.reset (silero : SileroSource) : SileroSource :=
  { silero with lastFrame := none, recentFrames := [] }

/-- Samples of the ring that `half` halves of a 16 kHz sample span, to the nearest. -/
def ringSamples (fmt : Format) (half : Nat) : Nat :=
  (2 * half * fmt.sampleRate * fmt.channels + 2 * targetSampleRateHz) / (4 * targetSampleRateHz)

def pushFrame (recent : List (Nat × ℚ)) (frame : Nat × ℚ) : List (Nat × ℚ) :=
  (if recent.length = recentFrameCapacity then recent.tail else recent) ++ [frame]

/-- The middle of each frame, counted back from the end of the audio fed so far. -/
def recordFrames (fmt : Format) (pending endPos : Nat) :
    List ℚ → List (Nat × ℚ) → List (Nat × ℚ)
  | [], recent => recent
  | p :: probs, recent =>
    recordFrames fmt pending endPos probs (pushFrame recent
      (endPos - ringSamples fmt
        (2 * pending + 2 * probs.length * frameSamples + frameSamples), p))

structure SourceVadState where
  isSpeaking : Bool
  speechStartPos : Nat
  cursor : Nat
  speechStartTime : Option Nat
  silenceSince : Option Nat
  chunkIndex : Nat
  sessionStartPos : Nat
  audioOffsetAnchor : ℚ
  format : Format
  hasInFlightTask : Bool
  earliestNextChunkPos : Nat
  silero : SileroSource
  forceDrain : Bool
  dictationConsumedThrough : Nat
  flushedOpenAt : Option Nat

def SourceVadState.new (initialPos sessionStartPos : Nat) (format : Format) (anchor : ℚ) :
    SourceVadState where
  isSpeaking := false
  speechStartPos := initialPos
  cursor := initialPos
  speechStartTime := none
  silenceSince := none
  chunkIndex := 0
  sessionStartPos := sessionStartPos
  audioOffsetAnchor := anchor
  format := format
  hasInFlightTask := false
  earliestNextChunkPos := sessionStartPos
  silero := .new initialPos
  forceDrain := false
  dictationConsumedThrough := 0
  flushedOpenAt := none

def SourceVadState.resetVadPast (vad : SourceVadState) (newPos : Nat) : SourceVadState :=
  { vad with
    cursor := newPos
    speechStartPos := newPos
    earliestNextChunkPos := newPos
    silero := { vad.silero with readPos := newPos }.reset
    isSpeaking := false
    speechStartTime := none
    silenceSince := none
    forceDrain := false }

def SourceVadState.resetForBufferReplacement (vad : SourceVadState) (newPos : Nat)
    (format : Format) (newAnchor : ℚ) : SourceVadState :=
  { vad with
    isSpeaking := false
    speechStartPos := newPos
    cursor := newPos
    speechStartTime := none
    silenceSince := none
    sessionStartPos := newPos
    audioOffsetAnchor := newAnchor
    format := format
    earliestNextChunkPos := newPos
    silero := .new newPos
    forceDrain := false }

/-- Silero has read on to `newPos` and scored the frames that have become complete. -/
def SourceVadState.feedSilero (vad : SourceVadState) (newPos : Nat) (frames : List Frame)
    (pending : Nat) : SourceVadState :=
  { vad with silero := {
      readPos := newPos
      lastFrame := frames.getLast?.or vad.silero.lastFrame
      recentFrames :=
        recordFrames vad.format pending newPos (frames.map Frame.prob) vad.silero.recentFrames } }

/-- The end of `build_initial_sources_and_backfill`: live starts where the backfill ends. -/
def SourceVadState.startAfterBackfill (vad : SourceVadState) (current : Nat) : SourceVadState :=
  { vad with
    cursor := current
    speechStartPos := current
    earliestNextChunkPos := current
    silero := { vad.silero with readPos := current }.reset }

def checkedSub (now d : Nat) : Option Nat := if d ≤ now then some (now - d) else none

/-- Speech that is still open at the end of the backfill opens the live utterance. -/
def carryOpenTailIntoLive (vad : SourceVadState) (startPos : Nat) (mids : List (Nat × ℚ))
    (carried now : Nat) : SourceVadState :=
  { vad with
    silero := { vad.silero with recentFrames := vad.silero.recentFrames ++ mids }
    speechStartPos := startPos
    earliestNextChunkPos := startPos
    isSpeaking := true
    silenceSince := none
    speechStartTime := some ((checkedSub now carried).getD now) }

inductive VadAction where
  | none
  | chunk
  | forceChunk
  deriving DecidableEq

def SourceVadState.preRollStart (vad : SourceVadState) (tuning : VadTuning) : Nat :=
  max (vad.speechStartPos - vad.format.samplesIn tuning.preRoll) vad.earliestNextChunkPos

def pollVad (vad : SourceVadState) (probability : Option ℚ) (tuning : VadTuning) (now : Nat) :
    SourceVadState × VadAction :=
  match probability with
  | none => (vad, .none)
  | some p =>
    if vad.isSpeaking then
      if tuning.speechThreshold * tuning.offsetThresholdRatio ≤ p then
        let speechElapsed := now - vad.speechStartTime.getD now
        ({ vad with silenceSince := none },
          if tuning.maxChunkDuration ≤ speechElapsed then .forceChunk else .none)
      else
        let silenceStart := vad.silenceSince.getD now
        ({ vad with silenceSince := some silenceStart },
          if tuning.silenceDuration ≤ now - silenceStart then .chunk else .none)
    else if tuning.speechThreshold ≤ p then
      ({ vad with
          isSpeaking := true
          silenceSince := none
          speechStartTime := some now
          speechStartPos :=
            if 0 < tuning.preRoll then vad.preRollStart tuning else vad.speechStartPos },
        .none)
    else (vad, .none)

/-- The strongest action seen in one batch. -/
def VadAction.strongest : VadAction → VadAction → VadAction
  | _, .forceChunk => .forceChunk
  | .forceChunk, .chunk => .forceChunk
  | _, .chunk => .chunk
  | best, .none => best

/-- Every frame of one batch in order, each with its own clock reading. -/
def pollFrames (tuning : VadTuning) :
    SourceVadState → VadAction → List Frame → List Nat → SourceVadState × VadAction
  | vad, best, [], _ => (vad, best)
  | vad, best, f :: frames, clock =>
    let polled := pollVad vad (some f.prob) tuning (clock.headD 0)
    pollFrames tuning polled.1 (best.strongest polled.2) frames clock.tail

/-- The part of a tick that polls one source. -/
def pollSource (tuning : VadTuning) (vad : SourceVadState) (frames : List Frame)
    (clock : List Nat) : SourceVadState × VadAction :=
  if vad.forceDrain then (vad, .forceChunk)
  else if frames = [] then pollVad vad vad.silero.lastProbability tuning (clock.headD 0)
  else pollFrames tuning vad .none frames clock

/-- The frames that `poll_vad` is given in a tick. -/
def polledFrames (vad : SourceVadState) (frames : List Frame) : List Frame :=
  if vad.forceDrain then []
  else if frames = [] then vad.silero.lastFrame.toList
  else frames

def advanceIdleCursor (vad : SourceVadState) (ring : Ring) : SourceVadState :=
  { vad with cursor := ring.writePos, speechStartPos := ring.writePos }

end Source

end YapStack.Live
