import YapStack.Live.Backfill

namespace YapStack.Live.Backfill

open Spans

variable {probabilities : List ℚ} {totalSamples sampleRate frameIdx cap cut start : ℕ}
  {tuning : VadTuning} {prob : ℚ} {walk next : ChunkWalk}

theorem minimumFrom_lt {probs : List ℚ} {i best : ℕ} {low : ℚ} (h : best < i) :
    minimumFrom probs i best low < i + probs.length := by
  induction probs generalizing i best low with
  | nil => exact h
  | cons p probs ih =>
    rw [minimumFrom, List.length_cons]
    split
    · have := @ih (i + 1) i p (by omega)
      omega
    · have := @ih (i + 1) best low (by omega)
      omega

theorem trailingMinimumFrame_lt {probs : List ℚ} {window i : ℕ}
    (h : trailingMinimumFrame probs window = some i) : i < probs.length := by
  simp only [trailingMinimumFrame] at h
  split at h
  · contradiction
  · next p rest hdrop =>
    obtain rfl := Option.some.inj h
    have hlen := congrArg List.length hdrop
    rw [List.length_drop, List.length_cons] at hlen
    refine (minimumFrom_lt (Nat.lt_succ_self _)).trans_le ?_
    omega

theorem frameLen_pos (sampleRate : ℕ) : 0 < frameLen sampleRate :=
  lt_of_lt_of_le Nat.zero_lt_one (Nat.le_max_right _ _)

theorem frameMiddle_eq (sampleRate k : ℕ) :
    frameMiddle sampleRate k = k * frameLen sampleRate + frameLen sampleRate / 2 := by
  simp only [frameMiddle, frameStartSample, Nat.add_mul, Nat.one_mul]
  omega

theorem frameMiddle_mono {j k : ℕ} (h : j ≤ k) :
    frameMiddle sampleRate j ≤ frameMiddle sampleRate k := by
  rw [frameMiddle_eq, frameMiddle_eq]
  exact Nat.add_le_add_right (Nat.mul_le_mul_right _ h) _

/-- The cut lies after the start, at the cap at the latest. -/
theorem quietestFrameMidpoint_bounds
    (h : quietestFrameMidpoint probabilities sampleRate start cap = some cut) :
    start < cut ∧ cut ≤ cap := by
  have hL := frameLen_pos sampleRate
  have hstart := Nat.div_add_mod start (frameLen sampleRate)
  have hstart' := Nat.mod_lt start hL
  have hcap := Nat.div_mul_le_self cap (frameLen sampleRate)
  simp only [quietestFrameMidpoint, Option.bind_eq_some_iff] at h
  obtain ⟨last, hlast, h⟩ := h
  have hfirst : start < frameMiddle sampleRate
      (if frameMiddle sampleRate (frameAtSample start sampleRate) ≤ start
        then frameAtSample start sampleRate + 1 else frameAtSample start sampleRate) := by
    split
    · rw [frameMiddle_eq, frameAtSample, Nat.add_mul, Nat.one_mul, Nat.mul_comm]
      omega
    · next hmid => exact not_le.mp hmid
  generalize (if frameMiddle sampleRate (frameAtSample start sampleRate) ≤ start
    then frameAtSample start sampleRate + 1 else frameAtSample start sampleRate) = first at h hfirst
  have hlast : frameMiddle sampleRate last ≤ cap := by
    split at hlast
    · simp only [checkedSub] at hlast
      split at hlast
      · next h1 =>
        obtain rfl := Option.some.inj hlast
        have h2 : (frameAtSample cap sampleRate - 1) * frameLen sampleRate +
            frameLen sampleRate = cap / frameLen sampleRate * frameLen sampleRate := by
          rw [← Nat.succ_mul, Nat.succ_eq_add_one, Nat.sub_add_cancel h1, frameAtSample]
        rw [frameMiddle_eq]
        omega
      · contradiction
    · next hmid =>
      obtain rfl := Option.some.inj hlast
      exact not_lt.mp hmid
  split at h
  · contradiction
  · obtain ⟨quietest, hquiet, rfl⟩ := Option.map_eq_some_iff.mp h
    have hlt := trailingMinimumFrame_lt hquiet
    rw [List.length_drop, List.length_take] at hlt
    refine ⟨hfirst.trans_le (frameMiddle_mono (Nat.le_add_right _ _)), ?_⟩
    refine (frameMiddle_mono ?_).trans hlast
    omega

/-- The cut of a chunk that has to end by the cap, or the cap itself. -/
theorem quietestFrameMidpoint_getD (probabilities : List ℚ) (sampleRate : ℕ) (h : start < cap) :
    start < (quietestFrameMidpoint probabilities sampleRate start cap).getD cap ∧
      (quietestFrameMidpoint probabilities sampleRate start cap).getD cap ≤ cap := by
  cases hcut : quietestFrameMidpoint probabilities sampleRate start cap with
  | none => exact ⟨h, le_rfl⟩
  | some cut => exact quietestFrameMidpoint_bounds hcut

/-- What one frame does to the walk. -/
inductive Walked (totalSamples sampleRate : ℕ) (tuning : VadTuning) (frameIdx : ℕ) (prob : ℚ)
    (walk : ChunkWalk) : ChunkWalk → Prop
  | goesOn (speechRun silenceRun : ℕ) (hspeaking : walk.isSpeaking = true) :
    Walked totalSamples sampleRate tuning frameIdx prob walk
      { walk with speechRun := speechRun, silenceRun := silenceRun }
  | isCut (cut speechRun silenceRun : ℕ) (hspeaking : walk.isSpeaking = true)
      (hstart : walk.speechStart < cut) (hcut : cut ≤ windowEnd totalSamples sampleRate frameIdx) :
    Walked totalSamples sampleRate tuning frameIdx prob walk
      { walk with
        chunks := walk.chunks ++ [⟨walk.speechStart, cut⟩]
        prevChunkEnd := cut
        speechStart := cut
        speechRun := speechRun
        silenceRun := silenceRun }
  | ends (hspeaking : walk.isSpeaking = true) (hquiet : prob < tuning.offsetThreshold) :
    Walked totalSamples sampleRate tuning frameIdx prob walk
      { walk with
        chunks := walk.chunks ++ [⟨walk.speechStart, windowEnd totalSamples sampleRate frameIdx⟩]
        prevChunkEnd := windowEnd totalSamples sampleRate frameIdx
        isSpeaking := false
        speechRun := 0
        silenceRun := 0 }
  | begins (hsilent : walk.isSpeaking = false) (hloud : tuning.speechThreshold ≤ prob) :
    Walked totalSamples sampleRate tuning frameIdx prob walk
      { walk with
        speechStart := max
          (frameStartSample frameIdx sampleRate - tuning.preRollSamples sampleRate)
          walk.prevChunkEnd
        isSpeaking := true
        speechRun := 1
        silenceRun := 0 }
  | isSilent (hsilent : walk.isSpeaking = false) (hquiet : prob < tuning.speechThreshold) :
    Walked totalSamples sampleRate tuning frameIdx prob walk walk

/-- The frame that the cut fell in is not after the frame that is looked at. -/
theorem lengthCut_walked (hspeaking : walk.isSpeaking = true)
    (hstart : walk.speechStart < windowEnd totalSamples sampleRate frameIdx) (run : ℕ) :
    ∃ next, lengthCut probabilities totalSamples sampleRate frameIdx
        { walk with speechRun := run, silenceRun := 0 } = some next ∧
      Walked totalSamples sampleRate tuning frameIdx prob walk next := by
  obtain ⟨hlow, hhigh⟩ := quietestFrameMidpoint_getD probabilities sampleRate hstart
  simp only [lengthCut, Option.bind_eq_bind]
  generalize (quietestFrameMidpoint probabilities sampleRate walk.speechStart
    (windowEnd totalSamples sampleRate frameIdx)).getD
      (windowEnd totalSamples sampleRate frameIdx) = cut at hlow hhigh
  split
  · next hlt =>
    have hframe : frameAtSample cut sampleRate ≤ frameIdx := by
      have hbefore : cut < (frameIdx + 1) * frameLen sampleRate :=
        hlt.trans_le (Nat.min_le_left _ _)
      exact Nat.lt_succ_iff.mp ((Nat.div_lt_iff_lt_mul (frameLen_pos sampleRate)).mpr hbefore)
    rw [usizeSub_of_le hframe]
    exact ⟨_, rfl, .isCut cut _ 0 hspeaking hlow hhigh⟩
  · exact ⟨_, rfl, .isCut cut 0 0 hspeaking hlow hhigh⟩

theorem walkFrame_walked (probabilities : List ℚ) (tuning : VadTuning) (prob : ℚ)
    (hstart : walk.isSpeaking = true →
      walk.speechStart < windowEnd totalSamples sampleRate frameIdx) :
    ∃ next, walkFrame probabilities totalSamples sampleRate tuning frameIdx prob walk = some next ∧
      Walked totalSamples sampleRate tuning frameIdx prob walk next := by
  simp only [walkFrame]
  by_cases hspeaking : walk.isSpeaking = true
  · rw [if_pos hspeaking]
    split
    · split
      · exact lengthCut_walked hspeaking (hstart hspeaking) _
      · exact ⟨_, rfl, .goesOn _ _ hspeaking⟩
    · next hquiet =>
      split
      · exact ⟨_, rfl, .ends hspeaking (not_le.mp hquiet)⟩
      · exact ⟨_, rfl, .goesOn _ _ hspeaking⟩
  · have hsilent : walk.isSpeaking = false := Bool.not_eq_true _ ▸ hspeaking
    rw [if_neg hspeaking]
    split
    · next hloud => exact ⟨_, rfl, .begins hsilent hloud⟩
    · next hquiet => exact ⟨_, rfl, .isSilent hsilent (not_le.mp hquiet)⟩

/-- A sample of a frame before the `k`-th that is loud enough to be speech. -/
def LoudBefore (probabilities : List ℚ) (totalSamples sampleRate : ℕ) (tuning : VadTuning)
    (k x : ℕ) : Prop :=
  ∃ j prob, j < k ∧ probabilities[j]? = some prob ∧ tuning.speechThreshold ≤ prob ∧
    frameStartSample j sampleRate ≤ x ∧ x < windowEnd totalSamples sampleRate j

theorem loudBefore_succ {k x : ℕ} (hprob : probabilities[k]? = some prob) :
    LoudBefore probabilities totalSamples sampleRate tuning (k + 1) x ↔
      LoudBefore probabilities totalSamples sampleRate tuning k x ∨
        tuning.speechThreshold ≤ prob ∧ frameStartSample k sampleRate ≤ x ∧
          x < windowEnd totalSamples sampleRate k := by
  constructor
  · rintro ⟨j, p, hj, hp, hloud, hx⟩
    obtain hj | rfl := Nat.lt_succ_iff_lt_or_eq.mp hj
    · exact Or.inl ⟨j, p, hj, hp, hloud, hx⟩
    · obtain rfl := Option.some.inj (hprob.symm.trans hp)
      exact Or.inr ⟨hloud, hx⟩
  · rintro (⟨j, p, hj, hp, hloud, hx⟩ | ⟨hloud, hx⟩)
    · exact ⟨j, p, Nat.lt_succ_of_lt hj, hp, hloud, hx⟩
    · exact ⟨k, prob, Nat.lt_succ_self k, hprob, hloud, hx⟩

/-- The samples of the chunks and of the open one. -/
def ChunkWalk.Reaches (walk : ChunkWalk) (x : ℕ) : Prop :=
  Covers walk.chunks x ∨ walk.isSpeaking = true ∧ walk.speechStart ≤ x

/-- The walk before the `k`-th frame. -/
structure WalkInv (probabilities : List ℚ) (totalSamples sampleRate : ℕ) (tuning : VadTuning)
    (k : ℕ) (walk : ChunkWalk) : Prop where
  segments : Segments totalSamples walk.chunks
  before : ∀ r ∈ walk.chunks, r.stop ≤ walk.prevChunkEnd
  prev_le : walk.prevChunkEnd ≤ min (frameStartSample k sampleRate) totalSamples
  speech : walk.isSpeaking = true → walk.prevChunkEnd ≤ walk.speechStart ∧
    walk.speechStart ≤ min (frameStartSample k sampleRate) totalSamples
  loud : ∀ x, LoudBefore probabilities totalSamples sampleRate tuning k x → walk.Reaches x

theorem walkInv_start (probabilities : List ℚ) (totalSamples sampleRate : ℕ) (tuning : VadTuning) :
    WalkInv probabilities totalSamples sampleRate tuning 0 (.start none) where
  segments := segments_nil totalSamples
  before := fun _ hr => (List.not_mem_nil hr).elim
  prev_le := Nat.zero_le _
  speech := fun h => by simp [ChunkWalk.start] at h
  loud := by
    rintro _ ⟨_, _, hj, _⟩
    exact absurd hj (Nat.not_lt_zero _)

theorem frameStartSample_lt_succ (k sampleRate : ℕ) :
    frameStartSample k sampleRate < frameStartSample (k + 1) sampleRate := by
  have := frameLen_pos sampleRate
  rw [frameStartSample, frameStartSample, Nat.add_mul]
  omega

theorem frameStartSample_mono (sampleRate : ℕ) {j k : ℕ} (h : j ≤ k) :
    frameStartSample j sampleRate ≤ frameStartSample k sampleRate :=
  Nat.mul_le_mul_right _ h

theorem lt_windowEnd (h : frameStartSample frameIdx sampleRate < totalSamples) :
    frameStartSample frameIdx sampleRate < windowEnd totalSamples sampleRate frameIdx :=
  lt_min (frameStartSample_lt_succ _ _) h

variable {k : ℕ}

/-- The chunk that a frame closes. -/
theorem WalkInv.close (hinv : WalkInv probabilities totalSamples sampleRate tuning k walk)
    (hspeaking : walk.isSpeaking = true) (hstart : walk.speechStart < cut)
    (hcut : cut ≤ windowEnd totalSamples sampleRate k) :
    Segments totalSamples (walk.chunks ++ [⟨walk.speechStart, cut⟩]) ∧
      ∀ r ∈ walk.chunks ++ [⟨walk.speechStart, cut⟩], r.stop ≤ cut := by
  obtain ⟨hprev, _⟩ := hinv.speech hspeaking
  constructor
  · refine hinv.segments.append_single ?_ hstart (hcut.trans (Nat.min_le_right _ _))
    exact fun a ha => (hinv.before a ha).trans hprev
  · intro r hr
    obtain hr | hr := List.mem_append.mp hr
    · exact ((hinv.before r hr).trans hprev).trans hstart.le
    · exact (List.mem_singleton.mp hr) ▸ le_rfl

/-- Before the cut, what was reached is in the chunks now. -/
theorem ChunkWalk.Reaches.close {x : ℕ} (h : walk.Reaches x) (hx : x < cut) :
    Covers (walk.chunks ++ [⟨walk.speechStart, cut⟩]) x := by
  rw [covers_append, covers_single, mem_iff]
  obtain h | ⟨_, h⟩ := h
  · exact Or.inl h
  · exact Or.inr ⟨h, hx⟩

theorem LoudBefore.lt {x : ℕ} (h : LoudBefore probabilities totalSamples sampleRate tuning k x) :
    x < min (frameStartSample k sampleRate) totalSamples := by
  obtain ⟨j, p, hj, _, _, _, hx⟩ := h
  exact hx.trans_le (min_le_min_right _ (frameStartSample_mono _ hj))

theorem WalkInv.step (hinv : WalkInv probabilities totalSamples sampleRate tuning k walk)
    (hprob : probabilities[k]? = some prob)
    (hin : frameStartSample k sampleRate < totalSamples)
    (htuning : tuning.offsetThreshold ≤ tuning.speechThreshold)
    (h : Walked totalSamples sampleRate tuning k prob walk next) :
    WalkInv probabilities totalSamples sampleRate tuning (k + 1) next := by
  have hwindow := lt_windowEnd hin
  have hedge : min (frameStartSample k sampleRate) totalSamples = frameStartSample k sampleRate :=
    Nat.min_eq_left hin.le
  have hprev := hinv.prev_le
  have hspeech := hinv.speech
  rw [hedge] at hprev hspeech
  cases h with
  | goesOn speechRun silenceRun hspeaking =>
    obtain ⟨hlow, hhigh⟩ := hspeech hspeaking
    refine ⟨hinv.segments, hinv.before, (hprev.trans hwindow.le), fun _ => ⟨hlow, hhigh.trans hwindow.le⟩, ?_⟩
    intro x hx
    obtain hx | ⟨_, hx, _⟩ := (loudBefore_succ hprob).mp hx
    · exact hinv.loud x hx
    · exact Or.inr ⟨hspeaking, hhigh.trans hx⟩
  | isCut cut speechRun silenceRun hspeaking hstart hcut =>
    obtain ⟨hlow, hhigh⟩ := hspeech hspeaking
    obtain ⟨hsegments, hbefore⟩ := hinv.close hspeaking hstart hcut
    refine ⟨hsegments, hbefore, hcut, fun _ => ⟨le_rfl, hcut⟩, ?_⟩
    intro x hx
    have hreach : walk.Reaches x := by
      obtain hx | ⟨_, hx, _⟩ := (loudBefore_succ hprob).mp hx
      · exact hinv.loud x hx
      · exact Or.inr ⟨hspeaking, hhigh.trans hx⟩
    obtain hlt | hle := Nat.lt_or_ge x cut
    · exact Or.inl (hreach.close hlt)
    · exact Or.inr ⟨hspeaking, hle⟩
  | ends hspeaking hquiet =>
    obtain ⟨hlow, hhigh⟩ := hspeech hspeaking
    obtain ⟨hsegments, hbefore⟩ := hinv.close hspeaking (hhigh.trans_lt hwindow) le_rfl
    refine ⟨hsegments, hbefore, le_rfl, fun h => by simp at h, ?_⟩
    intro x hx
    have hlt := hx.lt
    obtain hx | ⟨hloud, _⟩ := (loudBefore_succ hprob).mp hx
    · exact Or.inl ((hinv.loud x hx).close hlt)
    · exact absurd (htuning.trans hloud) (not_le.mpr hquiet)
  | begins hsilent hloud =>
    refine ⟨hinv.segments, hinv.before, hprev.trans hwindow.le, fun _ => ⟨Nat.le_max_right _ _, ?_⟩, ?_⟩
    · exact max_le ((Nat.sub_le _ _).trans hwindow.le) (hprev.trans hwindow.le)
    · intro x hx
      obtain hx | ⟨_, hx, _⟩ := (loudBefore_succ hprob).mp hx
      · obtain hcovers | ⟨hspeaking, _⟩ := hinv.loud x hx
        · exact Or.inl hcovers
        · simp [hsilent] at hspeaking
      · exact Or.inr ⟨rfl, max_le ((Nat.sub_le _ _).trans hx) (hprev.trans hx)⟩
  | isSilent hsilent hquiet =>
    refine ⟨hinv.segments, hinv.before, hprev.trans hwindow.le, fun h => by simp [hsilent] at h, ?_⟩
    intro x hx
    obtain hx | ⟨hloud, _⟩ := (loudBefore_succ hprob).mp hx
    · exact hinv.loud x hx
    · exact absurd hloud (not_le.mpr hquiet)

/-- Frames that start after the buffer change nothing. -/
theorem WalkInv.past {n : ℕ} (hinv : WalkInv probabilities totalSamples sampleRate tuning k walk)
    (hpast : totalSamples ≤ frameStartSample k sampleRate) (hkn : k ≤ n) :
    WalkInv probabilities totalSamples sampleRate tuning n walk := by
  have hmono := frameStartSample_mono sampleRate hkn
  have hedge : min (frameStartSample n sampleRate) totalSamples =
      min (frameStartSample k sampleRate) totalSamples := by omega
  refine ⟨hinv.segments, hinv.before, hedge ▸ hinv.prev_le, hedge ▸ hinv.speech, ?_⟩
  rintro x ⟨j, p, _, hp, hloud, hx, hend⟩
  refine hinv.loud x ⟨j, p, ?_, hp, hloud, hx, hend⟩
  by_contra hj
  have hj := frameStartSample_mono sampleRate (not_lt.mp hj)
  have hend := hend.trans_le (Nat.min_le_right _ _)
  omega

theorem walkFrames_inv {rest : List ℚ}
    (htuning : tuning.offsetThreshold ≤ tuning.speechThreshold)
    (hrest : probabilities.drop k = rest) (hk : k ≤ probabilities.length)
    (hinv : WalkInv probabilities totalSamples sampleRate tuning k walk) :
    ∃ last, walkFrames probabilities totalSamples sampleRate tuning rest k walk = some last ∧
      WalkInv probabilities totalSamples sampleRate tuning probabilities.length last := by
  induction rest generalizing k walk with
  | nil =>
    have hlen : k = probabilities.length := le_antisymm hk (List.drop_eq_nil_iff.mp hrest)
    exact ⟨walk, rfl, hlen ▸ hinv⟩
  | cons prob rest ih =>
    have hprob : probabilities[k]? = some prob := by
      rw [← List.head?_drop, hrest, List.head?_cons]
    have hnext : probabilities.drop (k + 1) = rest := by
      rw [← List.drop_drop, hrest, List.drop_one, List.tail_cons]
    have hlt : k < probabilities.length := (List.getElem?_eq_some_iff.mp hprob).1
    rw [walkFrames]
    split
    · next hpast => exact ⟨walk, rfl, hinv.past hpast hk⟩
    · next hin =>
      have hin := not_le.mp hin
      obtain ⟨next, hwalk, hwalked⟩ := walkFrame_walked probabilities tuning prob
        (fun hspeaking => ((hinv.speech hspeaking).2.trans
          (Nat.min_le_left _ _)).trans_lt (lt_windowEnd hin))
      obtain ⟨last, hlast, hinv⟩ := ih hnext hlt (hinv.step hprob hin htuning hwalked)
      exact ⟨last, by rw [hwalk, Option.bind_some, hlast], hinv⟩

/-- The chunks of the walk, and the open one at their end. -/
theorem vadChunksAndOpenTail_spec (probabilities : List ℚ) (totalSamples sampleRate : ℕ)
    (htuning : tuning.offsetThreshold ≤ tuning.speechThreshold) :
    ∃ chunks isOpen,
      vadChunksAndOpenTail probabilities totalSamples sampleRate tuning none =
        some (chunks, isOpen) ∧
      Segments totalSamples chunks ∧
      (0 < sampleRate → ∀ x, LoudBefore probabilities totalSamples sampleRate tuning
        probabilities.length x → Covers chunks x) ∧
      (isOpen = true → ∃ start, start < totalSamples ∧
        chunks.getLast? = some ⟨start, totalSamples⟩) := by
  rw [vadChunksAndOpenTail]
  split
  · next hempty =>
    refine ⟨[], false, rfl, segments_nil _, fun _ x hx => ?_, by simp⟩
    obtain ⟨j, p, _, hp, _, _, hend⟩ := hx
    obtain rfl | rfl := hempty
    · simp at hp
    · exact absurd (hend.trans_le (Nat.min_le_right _ _)) (Nat.not_lt_zero _)
  · split
    · next hrate => exact ⟨[], false, rfl, segments_nil _, fun h => absurd hrate h.ne', by simp⟩
    · obtain ⟨walk, hwalk, hinv⟩ := walkFrames_inv htuning List.drop_zero
        (Nat.zero_le _) (walkInv_start probabilities totalSamples sampleRate tuning)
      simp only [hwalk, Option.bind_eq_bind, Option.bind_some]
      by_cases hopen : walk.isSpeaking = true ∧ walk.speechStart < totalSamples
      · obtain ⟨hspeaking, hlt⟩ := hopen
        obtain ⟨hprev, _⟩ := hinv.speech hspeaking
        refine ⟨_, _, rfl, ?_⟩
        rw [if_pos (by simp [hspeaking, hlt])]
        refine ⟨hinv.segments.append_single (fun a ha => (hinv.before a ha).trans hprev) hlt le_rfl,
          fun _ x hx => ?_, fun _ => ⟨_, hlt, List.getLast?_concat⟩⟩
        exact (hinv.loud x hx).close (hx.lt.trans_le (Nat.min_le_right _ _))
      · have hclosed : (walk.isSpeaking && decide (walk.speechStart < totalSamples)) = false := by
          simpa using hopen
        refine ⟨_, _, rfl, ?_⟩
        rw [hclosed, if_neg (by simp)]
        refine ⟨hinv.segments, fun _ x hx => ?_, by simp⟩
        obtain hcovers | ⟨hspeaking, hle⟩ := hinv.loud x hx
        · exact hcovers
        · exact absurd ⟨hspeaking, hle.trans_lt (hx.lt.trans_le (Nat.min_le_right _ _))⟩ hopen

end YapStack.Live.Backfill
