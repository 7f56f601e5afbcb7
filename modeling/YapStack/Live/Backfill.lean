import YapStack.Foundation.Binary32
import YapStack.Foundation.Loops
import YapStack.Live.Dispatch

namespace YapStack.Live.Backfill

open Spans Binary32

/-- A subtraction of `usize`, which must not go below zero. -/
def usizeSub (a b : ℕ) : Option ℕ := if b ≤ a then some (a - b) else none

theorem usizeSub_of_le {a b : ℕ} (h : b ≤ a) : usizeSub a b = some (a - b) := if_pos h

def frameDurationSecs : ℚ := f32 (32 / 1000)
def backfillJobQuantumSecs : ℚ := 5
def minSplitPieceSecs : ℚ := 2

def asSecsF32 (d : Duration) : ℚ :=
  f32 (f32 (d / nanosPerSecond : ℕ) + f32 (f32 (d % nanosPerSecond : ℕ) / nanosPerSecond))

/-- `(secs * sample_rate as f32) as usize` -/
def samplesIn (secs : ℚ) (sampleRate : ℕ) : ℕ := ⌊f32 (secs * f32 sampleRate)⌋₊

def maxSamples (sampleRate : ℕ) : ℕ := samplesIn backfillJobQuantumSecs sampleRate

def minSamples (sampleRate : ℕ) : ℕ := samplesIn minSplitPieceSecs sampleRate

def frameLen (sampleRate : ℕ) : ℕ := max (samplesIn frameDurationSecs sampleRate) 1

def frameStartSample (frame sampleRate : ℕ) : ℕ := frame * frameLen sampleRate

def frameAtSample (pos sampleRate : ℕ) : ℕ := pos / frameLen sampleRate

def frameMiddle (sampleRate k : ℕ) : ℕ :=
  (frameStartSample k sampleRate + frameStartSample (k + 1) sampleRate) / 2

/-- The window of `trailing_minimum_frame` in the constants of the code. -/
example : ⌊f32 (2000 / f32 (frameDurationSecs * 1000))⌋₊ = pauseSearchFrames := by
  decide +kernel

def quietestFrameMidpoint (probabilities : List ℚ) (sampleRate start cap : ℕ) : Option ℕ :=
  let first := frameAtSample start sampleRate
  let first := if frameMiddle sampleRate first ≤ start then first + 1 else first
  let last := frameAtSample cap sampleRate
  let last := if cap < frameMiddle sampleRate last then checkedSub last 1 else some last
  last.bind fun last =>
    let stop := min (last + 1) probabilities.length
    if stop ≤ first then none
    else
      (trailingMinimumFrame ((probabilities.take stop).drop first) pauseSearchFrames).map
        fun quietest => frameMiddle sampleRate (first + quietest)

end YapStack.Live.Backfill

namespace YapStack.Live

open Backfill Binary32

def VadTuning.offsetThreshold (tuning : VadTuning) : ℚ :=
  tuning.speechThreshold * tuning.offsetThresholdRatio

def VadTuning.silenceWindows (tuning : VadTuning) : ℕ :=
  ⌈f32 (asSecsF32 tuning.silenceDuration / frameDurationSecs)⌉₊

def VadTuning.maxChunkWindows (tuning : VadTuning) : ℕ :=
  ⌊max (f32 (asSecsF32 tuning.maxChunkDuration / frameDurationSecs)) 1⌋₊

def VadTuning.preRollSamples (tuning : VadTuning) (sampleRate : ℕ) : ℕ :=
  samplesIn (asSecsF32 tuning.preRoll) sampleRate

end YapStack.Live

namespace YapStack.Live.Backfill

open Spans Binary32

structure OpenSpeech where
  start : ℕ
  frames : ℕ

/-- The variables of the walk over the frames. -/
structure ChunkWalk where
  chunks : List Span
  isSpeaking : Bool
  speechStart : ℕ
  silenceRun : ℕ
  speechRun : ℕ
  prevChunkEnd : ℕ

def ChunkWalk.start (opened : Option OpenSpeech) : ChunkWalk where
  chunks := []
  isSpeaking := opened.isSome
  speechStart := (opened.map (·.start)).getD 0
  silenceRun := 0
  speechRun := (opened.map (·.frames)).getD 0
  prevChunkEnd := (opened.map (·.start)).getD 0

section

variable (probabilities : List ℚ) (totalSamples sampleRate : ℕ) (tuning : VadTuning)

/-- The end of a frame in the buffer. -/
def windowEnd (frameIdx : ℕ) : ℕ := min (frameStartSample (frameIdx + 1) sampleRate) totalSamples

/-- A chunk that is too long ends at the quietest frame, and the next one starts there. -/
def lengthCut (frameIdx : ℕ) (walk : ChunkWalk) : Option ChunkWalk := do
  let wEnd := windowEnd totalSamples sampleRate frameIdx
  let cut := (quietestFrameMidpoint probabilities sampleRate walk.speechStart wEnd).getD wEnd
  let speechRun ←
    if cut < wEnd then usizeSub frameIdx (frameAtSample cut sampleRate) else some 0
  some { walk with
    chunks := walk.chunks ++ [⟨walk.speechStart, cut⟩]
    prevChunkEnd := cut
    speechStart := cut
    speechRun := speechRun }

def walkFrame (frameIdx : ℕ) (prob : ℚ) (walk : ChunkWalk) : Option ChunkWalk :=
  let wStart := frameStartSample frameIdx sampleRate
  let wEnd := windowEnd totalSamples sampleRate frameIdx
  if walk.isSpeaking then
    let speechRun := walk.speechRun + 1
    if tuning.offsetThreshold ≤ prob then
      let loud := { walk with speechRun := speechRun, silenceRun := 0 }
      if tuning.maxChunkWindows ≤ speechRun then
        lengthCut probabilities totalSamples sampleRate frameIdx loud
      else some loud
    else
      let silenceRun := walk.silenceRun + 1
      if tuning.silenceWindows ≤ silenceRun then
        some { walk with
          chunks := walk.chunks ++ [⟨walk.speechStart, wEnd⟩]
          prevChunkEnd := wEnd
          isSpeaking := false
          speechRun := 0
          silenceRun := 0 }
      else some { walk with speechRun := speechRun, silenceRun := silenceRun }
  else if tuning.speechThreshold ≤ prob then
    some { walk with
      speechStart := max (wStart - tuning.preRollSamples sampleRate) walk.prevChunkEnd
      isSpeaking := true
      speechRun := 1
      silenceRun := 0 }
  else some walk

def walkFrames : List ℚ → ℕ → ChunkWalk → Option ChunkWalk
  | [], _, walk => some walk
  | prob :: rest, frameIdx, walk =>
    if totalSamples ≤ frameStartSample frameIdx sampleRate then some walk
    else (walkFrame probabilities totalSamples sampleRate tuning frameIdx prob walk).bind
      (walkFrames rest (frameIdx + 1))

def vadChunksAndOpenTail (opened : Option OpenSpeech) : Option (List Span × Bool) :=
  if probabilities = [] ∨ totalSamples = 0 then some ([], false)
  else if sampleRate = 0 then some ([], false)
  else do
    let walk ← walkFrames probabilities totalSamples sampleRate tuning probabilities 0
      (.start opened)
    let isOpen := walk.isSpeaking && decide (walk.speechStart < totalSamples)
    some (if isOpen then walk.chunks ++ [⟨walk.speechStart, totalSamples⟩] else walk.chunks, isOpen)

def backfillChunksFromProbabilities : Option (List Span) :=
  (vadChunksAndOpenTail probabilities totalSamples sampleRate tuning none).map Prod.fst

end

def mergeShortTrailingChunk (chunks : List Span) (totalSamples sampleRate : ℕ) :
    Option (List Span) :=
  match chunks.reverse with
  | last :: prev :: rest =>
    if last.stop = totalSamples then do
      let length ← usizeSub last.stop last.start
      if length < minSamples sampleRate ∧ prev.stop = last.start then
        some (rest.reverse ++ [⟨prev.start, last.stop⟩])
      else some chunks
    else some chunks
  | _ => some chunks

/-- The `while` loop over one chunk. -/
def splitChunk (probabilities : List ℚ) (sampleRate stop : ℕ) : ℕ → ℕ → Option (List Span)
  | 0, _ => none
  | fuel + 1, start => do
    let length ← usizeSub stop start
    if maxSamples sampleRate < length then do
      let room ← usizeSub stop (minSamples sampleRate)
      let cap := min (start + maxSamples sampleRate) room
      let cut := (quietestFrameMidpoint probabilities sampleRate
        (start + minSamples sampleRate) cap).getD cap
      let pieces ← splitChunk probabilities sampleRate stop fuel cut
      some (⟨start, cut⟩ :: pieces)
    else some (if start < stop then [⟨start, stop⟩] else [])

def splitChunks (probabilities : List ℚ) (sampleRate fuel : ℕ) : List Span → Option (List Span)
  | [] => some []
  | chunk :: chunks => do
    let pieces ← splitChunk probabilities sampleRate chunk.stop fuel chunk.start
    let rest ← splitChunks probabilities sampleRate fuel chunks
    some (pieces ++ rest)

def splitBackfillChunks (fuel : ℕ) (chunks : List Span) (probabilities : List ℚ)
    (sampleRate : ℕ) : Option (List Span) :=
  if maxSamples sampleRate = 0 then some chunks
  else splitChunks probabilities sampleRate fuel chunks

/-- What Silero returns: nothing when it cannot be loaded. -/
def vadChunkHistoricalAudio (fuel : ℕ) (scored : Option (List ℚ)) (totalSamples sampleRate : ℕ)
    (tuning : VadTuning) : Option (List Span) :=
  if totalSamples = 0 then some []
  else match scored with
    | none => splitBackfillChunks fuel [⟨0, totalSamples⟩] [] sampleRate
    | some probabilities =>
      if probabilities = [] then some []
      else do
        let chunks ← backfillChunksFromProbabilities probabilities totalSamples sampleRate tuning
        let merged ← mergeShortTrailingChunk chunks totalSamples sampleRate
        splitBackfillChunks fuel merged probabilities sampleRate

def fromSecsF32 (secs : ℚ) : Duration := (nearestEven (secs * nanosPerSecond)).toNat

/-- How many samples the backfill keeps, and the live source. -/
def carryOpenTailIntoLive (source : SourceVadState) (sourceChannels backfillLen tailOffset : ℕ)
    (tailProbs : List ℚ) (sampleRate : ℕ) (tuning : VadTuning) (now : ℕ) :
    Option (ℕ × SourceVadState) := do
  let tailLen ← usizeSub backfillLen tailOffset
  let (chunks, isOpen) ← vadChunksAndOpenTail tailProbs tailLen sampleRate tuning none
  match (if isOpen then chunks.getLast? else none) with
  | none => some (backfillLen, source)
  | some last => do
    let keep := tailOffset + last.start
    let ch := max sourceChannels 1
    let ringPos := fun mono => (usizeSub backfillLen mono).map (fun n => source.cursor - n * ch)
    let startPos ← ringPos keep
    let rest ← usizeSub backfillLen keep
    let carried := fromSecsF32 (f32 (f32 rest / f32 sampleRate))
    let firstFrame := frameAtSample last.start sampleRate
    let mids ← (tailProbs.zipIdx.drop firstFrame).mapM (fun (prob, k) =>
      (ringPos (min (tailOffset + frameMiddle sampleRate k) backfillLen)).map (·, prob))
    some (keep, Live.carryOpenTailIntoLive source startPos mids carried now)

end YapStack.Live.Backfill
