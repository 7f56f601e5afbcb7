import Mathlib.Tactic.Linarith
import Mathlib.Tactic.Ring
import YapStack.Live.Source

namespace YapStack.Live

open Spans

/-- Scan on from the best index so far; ties go to the latest frame. -/
def minimumFrom : List ℚ → Nat → Nat → ℚ → Nat
  | [], _, best, _ => best
  | p :: probs, i, best, low =>
    if p ≤ low then minimumFrom probs (i + 1) i p else minimumFrom probs (i + 1) best low

/-- Index of the lowest probability among the last `window` frames. -/
def trailingMinimumFrame (probs : List ℚ) (windowFrames : Nat) : Option Nat :=
  let window := min (max windowFrames 1) probs.length
  let first := probs.length - window
  match probs.drop first with
  | [] => none
  | p :: rest => some (minimumFrom rest (first + 1) first p)

def quietestRecentFramePos (recentFrames : List (Nat × ℚ)) (startPos capPos window : Nat)
    (channels : Nat) : Option Nat :=
  let floor := max startPos (capPos - window)
  let kept := recentFrames.filter (fun f => decide (floor < f.1 ∧ f.1 ≤ capPos))
  match trailingMinimumFrame (kept.map Prod.snd) pauseSearchFrames with
  | none => none
  | some quietest =>
    match (kept.map Prod.fst)[quietest]? with
    | none => none
    | some mid =>
      let pos := mid - mid % channels
      if startPos < pos then some pos else none

inductive JobOrigin where
  | live
  | dictation
  | finalFlush
  deriving DecidableEq

def liveDispatchEnd (vad : SourceVadState) (currentPos maxRawSamples : Nat)
    (isForceChunk maySeekPause : Bool) : Nat × Bool :=
  let lengthCap := min currentPos (vad.speechStartPos + maxRawSamples)
  if maySeekPause && (isForceChunk || decide (lengthCap < currentPos)) then
    ((quietestRecentFramePos vad.silero.recentFrames vad.speechStartPos lengthCap
        (maxRawSamplesForDuration pauseSearchWindow vad.format)
        vad.format.channels).getD lengthCap, true)
  else (lengthCap, false)

/-- A chunk that is handed to the scheduler; `audio` stands for its samples. -/
structure PreparedChunk where
  audio : Span
  audioOffset : ℚ
  chunkIndex : Nat
  origin : JobOrigin
  drainBacklogSeconds : ℚ

/-- The extraction holds less than `MIN_CHUNK_DURATION_SECS`. -/
def TooShort (fmt : Format) (audio : Span) : Prop :=
  monoLength fmt audio * nanosPerSecond < minChunkDuration * fmt.sampleRate

instance (fmt : Format) (audio : Span) : Decidable (TooShort fmt audio) :=
  inferInstanceAs (Decidable (_ < _))

def samplesPerSecond (f32 : Rounding) (fmt : Format) : ℚ :=
  f32.round (f32.round fmt.sampleRate * f32.round fmt.channels)

def secondsOf (f32 : Rounding) (fmt : Format) (samples : Nat) : ℚ :=
  f32.round (f32.round samples / samplesPerSecond f32 fmt)

def audioOffset (f32 : Rounding) (vad : SourceVadState) (startPos : Nat) : ℚ :=
  f32.round (vad.audioOffsetAnchor + secondsOf f32 vad.format (startPos - vad.sessionStartPos))

/-- Nanoseconds of audio already carried over into the next chunk. -/
def carriedNanos (fmt : Format) (samples : Nat) : Nat :=
  samples * nanosPerSecond / (fmt.sampleRate * fmt.channels)

/-- The source after a chunk that ends at `endPos` was handed to a task. -/
def SourceVadState.advancedPast (vad : SourceVadState) (endPos currentPos maxRawSamples : Nat)
    (isForceChunk seekPause : Bool) (now : Nat) : SourceVadState :=
  let hasRemaining := decide (endPos < currentPos)
  { vad with
    chunkIndex := (vad.chunkIndex + 1) % 2 ^ 32
    cursor := endPos
    isSpeaking := hasRemaining || isForceChunk
    silenceSince := none
    speechStartPos := endPos
    earliestNextChunkPos := endPos
    forceDrain :=
      if seekPause then decide (maxRawSamples ≤ currentPos - endPos) else hasRemaining
    speechStartTime :=
      if isForceChunk || hasRemaining then
        some ((checkedSub now (carriedNanos vad.format (currentPos - endPos))).getD now)
      else none
    hasInFlightTask := true }

/-- `currentPos` is the ceiling of a bounded flush, or the write position read before. -/
def prepareChunkDispatchInner (f32 : Rounding) (vad : SourceVadState) (ring : Ring)
    (isForceChunk : Bool) (origin : JobOrigin) (maxChunkDuration : Duration)
    (bounded : Bool) (currentPos now : Nat) : SourceVadState × Option PreparedChunk :=
  let maxRawSamples := maxRawSamplesForDuration maxChunkDuration vad.format
  let maySeekPause := !bounded && decide (origin ≠ .finalFlush)
  let dispatchUntil := liveDispatchEnd vad currentPos maxRawSamples isForceChunk maySeekPause
  match extractSourceAudioUntil ring vad.format vad.speechStartPos dispatchUntil.1 with
  | none => ({ vad with cursor := dispatchUntil.1 }, none)
  | some extraction =>
    let audio := extraction.span
    if TooShort vad.format audio then ({ vad with cursor := audio.stop }, none)
    else
      (vad.advancedPast audio.stop currentPos maxRawSamples isForceChunk dispatchUntil.2 now,
        some {
          audio := audio
          audioOffset := audioOffset f32 vad audio.start
          chunkIndex := vad.chunkIndex
          origin := origin
          drainBacklogSeconds := secondsOf f32 vad.format (currentPos - audio.stop) })

/-- Cut from `fromPos` on until one chunk is left. The fuel bounds the number of cuts. -/
def cutRanges (recentFrames : List (Nat × ℚ)) (maxRaw minPiece window channels limit : Nat) :
    Nat → Nat → List Span
  | 0, _ => []
  | fuel + 1, fromPos =>
    if maxRaw < limit - fromPos then
      let cap := min (fromPos + maxRaw) (limit - minPiece)
      let endPos :=
        (quietestRecentFramePos recentFrames (fromPos + minPiece) cap window channels).getD cap
      ⟨fromPos, endPos⟩ ::
        cutRanges recentFrames maxRaw minPiece window channels limit fuel endPos
    else [⟨fromPos, limit⟩]

def finalFlushRanges (source : SourceVadState) (limit : Nat) (maxChunkDuration : Duration)
    (tailHasSpeech : Bool) : List Span :=
  let minChunk := maxRawSamplesForDuration minChunkDuration source.format
  let start := source.speechStartPos
  if (!(source.isSpeaking || tailHasSpeech)) || decide (limit < start + minChunk) then []
  else
    cutRanges source.silero.recentFrames
      (maxRawSamplesForDuration maxChunkDuration source.format)
      (maxRawSamplesForDuration minSplitPiece source.format)
      (maxRawSamplesForDuration pauseSearchWindow source.format)
      source.format.channels limit (limit - start + 1) start

def tailSamplesFor (fmt : Format) : Nat :=
  fmt.samplesIn stopTailGrace - fmt.samplesIn stopTailGrace % fmt.channels

/-- The quietest frame lies between its bounds. -/
theorem quietestRecentFramePos_mem {recentFrames : List (Nat × ℚ)}
    {startPos capPos window channels pos : Nat}
    (h : quietestRecentFramePos recentFrames startPos capPos window channels = some pos) :
    startPos < pos ∧ pos ≤ capPos := by
  simp only [quietestRecentFramePos] at h
  split at h
  · contradiction
  · next quietest _ =>
    split at h
    · contradiction
    · next mid hmid =>
      split at h
      · next hlt =>
        obtain rfl := Option.some.inj h
        obtain ⟨f, hf, rfl⟩ := List.mem_map.mp (List.mem_of_getElem? hmid)
        have hcap := (of_decide_eq_true (List.mem_filter.mp hf).2).2
        exact ⟨hlt, by omega⟩
      · contradiction

theorem quietestOrCap_bounds (recentFrames : List (Nat × ℚ)) (startPos capPos window channels : Nat) :
    let pos := (quietestRecentFramePos recentFrames startPos capPos window channels).getD capPos
    pos ≤ capPos ∧ (startPos < pos ∨ pos = capPos) := by
  cases h : quietestRecentFramePos recentFrames startPos capPos window channels with
  | none => exact ⟨le_rfl, .inr rfl⟩
  | some pos =>
    obtain ⟨h1, h2⟩ := quietestRecentFramePos_mem h
    exact ⟨h2, .inl h1⟩

theorem liveDispatchEnd_le (vad : SourceVadState) (currentPos maxRawSamples : Nat)
    (isForceChunk maySeekPause : Bool) :
    (liveDispatchEnd vad currentPos maxRawSamples isForceChunk maySeekPause).1 ≤
      min currentPos (vad.speechStartPos + maxRawSamples) := by
  simp only [liveDispatchEnd]
  split
  · exact (quietestOrCap_bounds _ _ _ _ _).1
  · exact le_rfl

/-- All that one preparation can do: it leaves the utterance alone, or it takes a range off
its front. -/
theorem prepareChunkDispatchInner_cases (f32 : Rounding) {vad : SourceVadState} {ring : Ring}
    (hring : ring.Holds vad.speechStartPos) (isForceChunk : Bool) (origin : JobOrigin)
    (maxChunkDuration : Duration) (bounded : Bool) (currentPos now : Nat) :
    let result := prepareChunkDispatchInner f32 vad ring isForceChunk origin maxChunkDuration
      bounded currentPos now
    (∃ pos, result = ({ vad with cursor := pos }, none)) ∨
      ∃ stop seekPause chunk, vad.speechStartPos < stop ∧ stop ≤ currentPos ∧
        stop ≤ ring.writePos ∧
        stop ≤ vad.speechStartPos + maxRawSamplesForDuration maxChunkDuration vad.format ∧
        chunk.audio = ⟨vad.speechStartPos, stop⟩ ∧ chunk.origin = origin ∧
        chunk.audioOffset = audioOffset f32 vad vad.speechStartPos ∧
        result = (vad.advancedPast stop currentPos
          (maxRawSamplesForDuration maxChunkDuration vad.format) isForceChunk seekPause now,
          some chunk) := by
  intro result
  simp only [result, prepareChunkDispatchInner]
  split
  · exact .inl ⟨_, rfl⟩
  · next extraction hsome =>
    split
    · exact .inl ⟨_, rfl⟩
    · obtain ⟨hspan, hlt⟩ := extractSourceAudioUntil_eq_some hring hsome
      have hend := liveDispatchEnd_le vad currentPos
        (maxRawSamplesForDuration maxChunkDuration vad.format) isForceChunk
        (!bounded && decide (origin ≠ .finalFlush))
      simp only [hspan]
      exact .inr ⟨_, _, _, hlt, by omega, by omega, by omega, rfl, rfl, rfl, rfl⟩

/-- Also with an overrun, a preparation sends nothing but a part of the pending range. -/
theorem prepareChunkDispatchInner_range (f32 : Rounding) (vad : SourceVadState) (ring : Ring)
    (isForceChunk : Bool) (origin : JobOrigin) (maxChunkDuration : Duration) (bounded : Bool)
    (currentPos now : Nat) :
    let result := prepareChunkDispatchInner f32 vad ring isForceChunk origin maxChunkDuration
      bounded currentPos now
    (∃ pos, result = ({ vad with cursor := pos }, none)) ∨
      ∃ chunk maxRaw seekPause, vad.speechStartPos ≤ chunk.audio.start ∧
        chunk.audio.start < chunk.audio.stop ∧ chunk.audio.stop ≤ currentPos ∧
        chunk.audio.stop ≤ ring.writePos ∧
        result = (vad.advancedPast chunk.audio.stop currentPos maxRaw isForceChunk seekPause now,
          some chunk) := by
  intro result
  simp only [result, prepareChunkDispatchInner]
  split
  · exact .inl ⟨_, rfl⟩
  · next extraction hsome =>
    split
    · exact .inl ⟨_, rfl⟩
    · obtain ⟨h1, h2, h3, h4⟩ := extractSourceAudioUntil_bounds hsome
      have hend := liveDispatchEnd_le vad currentPos
        (maxRawSamplesForDuration maxChunkDuration vad.format) isForceChunk
        (!bounded && decide (origin ≠ .finalFlush))
      refine .inr ⟨⟨extraction.span, _, _, _, _⟩, _, _, h1, h2, ?_, h4, rfl⟩
      dsimp only
      omega

theorem maxRawSamples_seconds (k : Nat) (fmt : Format) :
    maxRawSamplesForDuration (fromMillis (1000 * (k + 1))) fmt =
      (k + 1) * fmt.sampleRate * fmt.channels := by
  have hsamples : fmt.samplesIn (fromMillis (1000 * (k + 1))) =
      (k + 1) * fmt.sampleRate * fmt.channels := by
    unfold Format.samplesIn fromMillis nanosPerSecond
    have h : 1000 * (k + 1) * 1000000 * fmt.sampleRate * fmt.channels =
        (k + 1) * fmt.sampleRate * fmt.channels * 1000000000 := by ring
    rw [h, Nat.mul_div_cancel _ (by decide)]
  have hle : fmt.channels ≤ (k + 1) * fmt.sampleRate * fmt.channels :=
    Nat.le_mul_of_pos_left _ (Nat.mul_pos k.succ_pos fmt.rate_pos)
  rw [maxRawSamplesForDuration, hsamples, max_eq_left hle, Nat.mul_mod_left, Nat.sub_zero]

theorem two_minSplitPiece_le (fmt : Format) :
    2 * maxRawSamplesForDuration minSplitPiece fmt ≤
      maxRawSamplesForDuration parakeet.maxChunkDuration fmt := by
  have hpiece := maxRawSamples_seconds 1 fmt
  have hchunk := maxRawSamples_seconds 9 fmt
  have h : 2 * ((1 + 1) * fmt.sampleRate * fmt.channels) ≤
      (9 + 1) * fmt.sampleRate * fmt.channels := by
    have h := Nat.mul_le_mul_right (fmt.sampleRate * fmt.channels) (show 4 ≤ 10 by decide)
    linarith
  rw [show minSplitPiece = fromMillis (1000 * (1 + 1)) from rfl,
    show parakeet.maxChunkDuration = fromMillis (1000 * (9 + 1)) from rfl, hpiece, hchunk]
  exact h

section Cuts

variable (recentFrames : List (Nat × ℚ)) {maxRaw minPiece : Nat} (window channels : Nat)
  {limit : Nat}

/-- One cut leaves a full piece before it and a full piece after it. -/
theorem cut_bounds (hpiece : 0 < minPiece) (hraw : 2 * minPiece ≤ maxRaw) {fromPos : Nat}
    (hlong : maxRaw < limit - fromPos) :
    let endPos := (quietestRecentFramePos recentFrames (fromPos + minPiece)
      (min (fromPos + maxRaw) (limit - minPiece)) window channels).getD
        (min (fromPos + maxRaw) (limit - minPiece))
    fromPos + minPiece ≤ endPos ∧ endPos + minPiece ≤ limit := by
  have h := quietestOrCap_bounds recentFrames (fromPos + minPiece)
    (min (fromPos + maxRaw) (limit - minPiece)) window channels
  omega

/-- What the final ranges are: they cut the pending audio, and a cut leaves no short piece. -/
theorem cutRanges_spec (hpiece : 0 < minPiece) (hraw : 2 * minPiece ≤ maxRaw) (fuel : Nat)
    {fromPos : Nat} (hlt : fromPos < limit) (hfuel : limit - fromPos < fuel) :
    Chain fromPos limit (cutRanges recentFrames maxRaw minPiece window channels limit fuel fromPos) ∧
      ∀ r ∈ cutRanges recentFrames maxRaw minPiece window channels limit fuel fromPos,
        r.start = fromPos ∧ r.stop = limit ∨ minPiece ≤ r.length := by
  induction fuel generalizing fromPos with
  | zero => omega
  | succ fuel ih =>
    rw [cutRanges]
    split
    · next hlong =>
      obtain ⟨hlow, hhigh⟩ := cut_bounds recentFrames window channels hpiece hraw hlong
      dsimp only at hlow hhigh ⊢
      generalize (quietestRecentFramePos recentFrames (fromPos + minPiece) _ window channels).getD _ = endPos at hlow hhigh ⊢
      obtain ⟨hchain, hpieces⟩ := ih (show endPos < limit by omega) (by omega)
      refine ⟨⟨rfl, by simp only; omega, hchain⟩, fun r hr => ?_⟩
      rcases List.mem_cons.mp hr with rfl | hr
      · exact .inr (by simp only [Span.length]; omega)
      · rcases hpieces r hr with ⟨hstart, hend⟩ | hlen
        · exact .inr (by simp only [Span.length]; omega)
        · exact .inr hlen
    · refine ⟨⟨rfl, hlt, rfl⟩, fun r hr => ?_⟩
      obtain rfl := List.mem_singleton.mp hr
      exact .inl ⟨rfl, rfl⟩

end Cuts

/-- A range under the minimum in ring samples is under it in seconds. -/
theorem tooShort_of_lt {fmt : Format} {start stop : Nat}
    (h : stop < start + maxRawSamplesForDuration minChunkDuration fmt) :
    TooShort fmt ⟨start, stop⟩ := by
  have hraw : fmt.samplesIn minChunkDuration * nanosPerSecond ≤
      minChunkDuration * fmt.sampleRate * fmt.channels := Nat.div_mul_le_self _ _
  have hrate : 0 < minChunkDuration * fmt.sampleRate :=
    Nat.mul_pos (by decide) fmt.rate_pos
  have hmono := Nat.div_mul_le_self (stop - start) fmt.channels
  unfold TooShort monoLength Span.length
  dsimp only
  by_cases hzero : (stop - start) / fmt.channels = 0
  · rw [hzero, Nat.zero_mul]
    exact hrate
  · have hlong : fmt.channels ≤ stop - start := by
      by_contra hlt
      exact hzero (Nat.div_eq_of_lt (by omega))
    have hmod := Nat.mod_lt (max (fmt.samplesIn minChunkDuration) fmt.channels) fmt.channels_pos
    have hdiv := Nat.div_add_mod (max (fmt.samplesIn minChunkDuration) fmt.channels) fmt.channels
    have hmax : max (fmt.samplesIn minChunkDuration) fmt.channels =
        fmt.samplesIn minChunkDuration := by
      unfold maxRawSamplesForDuration at h
      by_contra hne
      have hch : max (fmt.samplesIn minChunkDuration) fmt.channels = fmt.channels := by omega
      rw [hch] at h
      simp only [Nat.mod_self] at h
      omega
    have hlt : (stop - start) / fmt.channels * fmt.channels < fmt.samplesIn minChunkDuration := by
      unfold maxRawSamplesForDuration at h
      omega
    have hmul : (stop - start) / fmt.channels * nanosPerSecond * fmt.channels <
        minChunkDuration * fmt.sampleRate * fmt.channels := by
      have h1 := Nat.mul_lt_mul_of_pos_right hlt (show 0 < nanosPerSecond by decide)
      linarith
    exact Nat.lt_of_mul_lt_mul_right hmul

/-- A whole piece less the stop grace is not too short. -/
theorem not_tooShort_of_piece {fmt : Format} {audio : Span}
    (h : maxRawSamplesForDuration minSplitPiece fmt ≤ audio.length + tailSamplesFor fmt) :
    ¬ TooShort fmt audio ∧ monoLength fmt audio ≠ 0 := by
  have hpiece := maxRawSamples_seconds 1 fmt
  rw [show fromMillis (1000 * (1 + 1)) = minSplitPiece from rfl] at hpiece
  have htail : tailSamplesFor fmt * nanosPerSecond ≤
      stopTailGrace * fmt.sampleRate * fmt.channels :=
    (Nat.mul_le_mul_right _ (Nat.sub_le _ _)).trans (Nat.div_mul_le_self _ _)
  have hmod := Nat.mod_lt audio.length fmt.channels_pos
  have hdiv := Nat.div_add_mod audio.length fmt.channels
  have hrate := fmt.rate_pos
  have hlow : 17 * fmt.sampleRate < 10 * monoLength fmt audio + 10 := by
    have hmul : 17 * fmt.sampleRate * fmt.channels <
        (10 * monoLength fmt audio + 10) * fmt.channels := by
      unfold monoLength
      unfold nanosPerSecond stopTailGrace fromMillis at htail
      have e : (10 * (audio.length / fmt.channels) + 10) * fmt.channels =
        10 * (fmt.channels * (audio.length / fmt.channels)) + 10 * fmt.channels := by ring
      rw [e]
      rw [hpiece] at h
      generalize fmt.channels * (audio.length / fmt.channels) = whole at hdiv ⊢
      have e2 : 17 * fmt.sampleRate * fmt.channels =
        17 * (fmt.sampleRate * fmt.channels) := by ring
      have e3 : (1 + 1) * fmt.sampleRate * fmt.channels =
        2 * (fmt.sampleRate * fmt.channels) := by ring
      have e4 : 300 * 1000000 * fmt.sampleRate * fmt.channels =
        300000000 * (fmt.sampleRate * fmt.channels) := by ring
      omega
    exact Nat.lt_of_mul_lt_mul_right hmul
  unfold TooShort nanosPerSecond minChunkDuration fromMillis
  omega

theorem finalFlushRanges_cases (source : SourceVadState) (limit : Nat) (tailHasSpeech : Bool) :
    let ranges := finalFlushRanges source limit parakeet.maxChunkDuration tailHasSpeech
    (ranges = [] ∧ (source.isSpeaking = true →
      TooShort source.format ⟨source.speechStartPos, limit⟩)) ∨
    (Chain source.speechStartPos limit ranges ∧ ∀ r ∈ ranges,
      r.start = source.speechStartPos ∧ r.stop = limit ∨
        maxRawSamplesForDuration minSplitPiece source.format ≤ r.length) := by
  intro ranges
  simp only [ranges, finalFlushRanges]
  split
  · next h =>
    refine .inl ⟨rfl, fun hspeaking => tooShort_of_lt ?_⟩
    simpa [hspeaking] using h
  · next h =>
    have hlt : ¬ limit < source.speechStartPos +
        maxRawSamplesForDuration minChunkDuration source.format := by
      intro hlt
      exact h (by simp [hlt])
    have hpos := maxRawSamples_pos minChunkDuration source.format
    exact .inr (cutRanges_spec _ _ _ (maxRawSamples_pos _ _) (two_minSplitPiece_le _) _
      (by omega) (by omega))

end YapStack.Live
