import YapStack.Live.BackfillWalk

namespace YapStack.Live.Backfill

section BackfillSplit

open Spans Binary32 Loops

variable {probabilities : List ℚ} {totalSamples sampleRate start stop fuel more : ℕ}
  {chunks merged pieces : List Span}

theorem f32_rate_pos (h : 1 ≤ sampleRate) : 1 / 2 ≤ f32 sampleRate := by
  have hrate : (1 : ℚ) ≤ sampleRate := by exact_mod_cast h
  have hlow := le_f32 (lt_of_lt_of_le one_pos hrate)
  norm_num at hlow
  linarith

theorem minSamples_pos (h : 1 ≤ sampleRate) : 0 < minSamples sampleRate := by
  have hrate : (1 : ℚ) ≤ sampleRate := by exact_mod_cast h
  have hlow := le_f32 (lt_of_lt_of_le one_pos hrate)
  have hrate' := f32_rate_pos h
  have hprod := le_f32 (show 0 < minSplitPieceSecs * f32 sampleRate by
    rw [minSplitPieceSecs]
    linarith)
  refine Nat.floor_pos.mpr (le_trans ?_ hprod)
  rw [minSplitPieceSecs]
  norm_num at hlow ⊢
  linarith

/-- Rounding does not bring the two bounds closer than the loop needs. -/
theorem two_minSamples_le (h : 1 ≤ sampleRate) :
    2 * minSamples sampleRate ≤ maxSamples sampleRate := by
  have hrate := f32_rate_pos h
  have hmin := f32_le (show 0 < minSplitPieceSecs * f32 sampleRate by
    rw [minSplitPieceSecs]
    linarith)
  have hmax := le_f32 (show 0 < backfillJobQuantumSecs * f32 sampleRate by
    rw [backfillJobQuantumSecs]
    linarith)
  have hfloor : (minSamples sampleRate : ℚ) ≤ f32 (minSplitPieceSecs * f32 sampleRate) := by
    refine Nat.floor_le ?_
    refine le_trans ?_ (le_f32 (show 0 < minSplitPieceSecs * f32 sampleRate by
      rw [minSplitPieceSecs]
      linarith))
    rw [minSplitPieceSecs]
    norm_num
    linarith
  refine Nat.le_floor ?_
  push_cast
  rw [minSplitPieceSecs] at hmin hfloor
  rw [backfillJobQuantumSecs] at hmax ⊢
  norm_num at hmin hmax
  linarith

/-- Whole seconds of a rate that `f32` has exactly. -/
theorem samplesIn_exact (secs : ℕ) (hrate : sampleRate < 2 ^ 24)
    (hprod : secs * sampleRate < 2 ^ 24) : samplesIn secs sampleRate = secs * sampleRate := by
  have hcast : (secs : ℚ) * sampleRate = ((secs * sampleRate : ℕ) : ℚ) := by push_cast; rfl
  rw [samplesIn, f32_natCast hrate, hcast, f32_natCast hprod, Nat.floor_natCast]

theorem samples_exact (h : sampleRate ≤ 3355443) :
    maxSamples sampleRate = 5 * sampleRate ∧ minSamples sampleRate = 2 * sampleRate :=
  ⟨samplesIn_exact 5 (by omega) (by omega),
    samplesIn_exact 2 (by omega) (by omega)⟩

/-- The last two chunks at a length cut are one range already. -/
theorem mergeShortTrailingChunk_spec (sampleRate : ℕ) (h : Segments totalSamples chunks) :
    ∃ merged, mergeShortTrailingChunk chunks totalSamples sampleRate = some merged ∧
      Segments totalSamples merged ∧ ∀ x, Covers merged x ↔ Covers chunks x := by
  have hkeep : ∃ merged, some chunks = some merged ∧
      Segments totalSamples merged ∧ ∀ x, Covers merged x ↔ Covers chunks x :=
    ⟨chunks, rfl, h, fun _ => Iff.rfl⟩
  simp only [mergeShortTrailingChunk]
  split
  · next last prev rest hrev =>
    have hchunks : chunks = rest.reverse ++ [prev] ++ [last] := by
      rw [← List.reverse_reverse chunks, hrev]
      simp
    have hlast : last ∈ chunks := by simp [hchunks]
    split
    · rw [usizeSub_of_le (h.nonempty last hlast).le, Option.bind_eq_bind, Option.bind_some]
      split
      · next hjoin =>
        obtain ⟨_, hjoin⟩ := hjoin
        have hprev : prev ∈ chunks := by simp [hchunks]
        have hbefore : ∀ r ∈ rest.reverse, r.stop ≤ prev.start := by
          intro r hr
          have hincreasing := h.increasing
          rw [hchunks, List.append_assoc] at hincreasing
          exact (List.pairwise_append.mp hincreasing).2.2 r hr prev (by simp)
        have hrest : Segments totalSamples rest.reverse := by
          refine ⟨?_, fun r hr => h.nonempty r ?_, fun r hr => h.inside r ?_⟩
          · have hincreasing := h.increasing
            rw [hchunks, List.append_assoc] at hincreasing
            exact (List.pairwise_append.mp hincreasing).1
          · exact hchunks ▸ List.mem_append_left _ (List.mem_append_left _ hr)
          · exact hchunks ▸ List.mem_append_left _ (List.mem_append_left _ hr)
        have hp := h.nonempty prev hprev
        have hl := h.nonempty last hlast
        refine ⟨_, rfl, hrest.append_single hbefore ?_ (h.inside last hlast), fun x => ?_⟩
        · exact hp.trans (hjoin ▸ hl)
        · rw [hchunks]
          simp only [covers_append, covers_single, mem_iff, or_assoc]
          apply or_congr_right
          omega
      · exact hkeep
    · exact hkeep
  · exact hkeep

theorem splitChunk_succ_steady (h : splitChunk probabilities sampleRate stop fuel start = some pieces) :
    splitChunk probabilities sampleRate stop (fuel + 1) start = some pieces := by
  induction fuel generalizing start pieces with
  | zero => simp [splitChunk] at h
  | succ fuel ih =>
    rw [splitChunk, Option.bind_eq_bind, Option.bind_eq_some_iff] at h ⊢
    obtain ⟨length, hlength, h⟩ := h
    refine ⟨length, hlength, ?_⟩
    split at h
    · next hlong =>
      rw [if_pos hlong]
      simp only [Option.bind_eq_bind, Option.bind_eq_some_iff] at h ⊢
      obtain ⟨room, hroom, rest, hrest, h⟩ := h
      exact ⟨room, hroom, rest, ih hrest, h⟩
    · next hshort =>
      rw [if_neg hshort]
      exact h

theorem splitChunk_steady : Steady (fun n => splitChunk probabilities sampleRate stop n start) := by
  intro n m pieces hle h
  induction hle with
  | refl => exact h
  | step _ ih => exact splitChunk_succ_steady ih

/-- The pieces of one chunk: they cut it, none is too long, and none is short unless the
chunk is. -/
theorem splitChunk_spec (probabilities : List ℚ) (fuel : ℕ) (hrate : 1 ≤ sampleRate)
    (hstop : start ≤ stop)
    (hfuel : stop - start < fuel) :
    ∃ pieces, splitChunk probabilities sampleRate stop fuel start = some pieces ∧
      Chain start stop pieces ∧ (∀ p ∈ pieces, p.length ≤ maxSamples sampleRate) ∧
      ∀ p ∈ pieces, p = ⟨start, stop⟩ ∨ minSamples sampleRate ≤ p.length := by
  have hmin := minSamples_pos hrate
  have hmax := two_minSamples_le hrate
  induction fuel generalizing start with
  | zero => exact absurd hfuel (Nat.not_lt_zero _)
  | succ fuel ih =>
    rw [splitChunk, usizeSub_of_le hstop, Option.bind_eq_bind, Option.bind_some]
    split
    · next hlong =>
      have hroom : minSamples sampleRate ≤ stop := by omega
      have hcap : start + minSamples sampleRate <
          min (start + maxSamples sampleRate) (stop - minSamples sampleRate) := by omega
      obtain ⟨hlow, hhigh⟩ := quietestFrameMidpoint_getD probabilities sampleRate hcap
      rw [usizeSub_of_le hroom, Option.bind_eq_bind, Option.bind_some]
      dsimp only
      generalize (quietestFrameMidpoint probabilities sampleRate (start + minSamples sampleRate)
        (min (start + maxSamples sampleRate) (stop - minSamples sampleRate))).getD
          (min (start + maxSamples sampleRate) (stop - minSamples sampleRate)) = cut at hlow hhigh ⊢
      obtain ⟨pieces, hpieces, hchain, hshort, hlong'⟩ :=
        @ih cut (by omega) (by omega)
      rw [hpieces, Option.bind_some]
      refine ⟨_, rfl, ⟨rfl, by simp only; omega, hchain⟩, ?_, ?_⟩
      · intro p hp
        obtain rfl | hp := List.mem_cons.mp hp
        · simp only [Span.length]
          omega
        · exact hshort p hp
      · intro p hp
        obtain rfl | hp := List.mem_cons.mp hp
        · apply Or.inr
          simp only [Span.length]
          omega
        · apply Or.inr
          obtain rfl | hlen := hlong' p hp
          · simp only [Span.length]
            omega
          · exact hlen
    · next hshort =>
      obtain hlt | rfl := Nat.lt_or_eq_of_le hstop
      · rw [if_pos hlt]
        refine ⟨_, rfl, ⟨rfl, hlt, rfl⟩, ?_, ?_⟩
        · intro p hp
          obtain rfl := List.mem_singleton.mp hp
          exact not_lt.mp hshort
        · exact fun p hp => Or.inl (List.mem_singleton.mp hp)
      · rw [if_neg (lt_irrefl _)]
        exact ⟨[], rfl, rfl, fun p hp => absurd hp (List.not_mem_nil),
          fun p hp => absurd hp (List.not_mem_nil)⟩

/-- A piece lies in a chunk, and is that chunk or not short. -/
def PieceOf (sampleRate : ℕ) (chunks : List Span) (piece : Span) : Prop :=
  ∃ chunk ∈ chunks, chunk.start ≤ piece.start ∧ piece.stop ≤ chunk.stop ∧
    (piece = chunk ∨ minSamples sampleRate ≤ piece.length)

theorem splitChunks_spec (probabilities : List ℚ) (hrate : 1 ≤ sampleRate)
    (h : Segments totalSamples chunks)
    (hfuel : totalSamples < fuel) :
    ∃ pieces, splitChunks probabilities sampleRate fuel chunks = some pieces ∧
      Segments totalSamples pieces ∧ (∀ x, Covers pieces x ↔ Covers chunks x) ∧
      (∀ p ∈ pieces, p.length ≤ maxSamples sampleRate) ∧
      ∀ p ∈ pieces, PieceOf sampleRate chunks p := by
  induction chunks with
  | nil =>
    exact ⟨[], rfl, segments_nil _, fun _ => Iff.rfl,
      fun p hp => absurd hp List.not_mem_nil, fun p hp => absurd hp List.not_mem_nil⟩
  | cons chunk chunks ih =>
    have hchunk := h.nonempty chunk (List.mem_cons_self ..)
    have hinside := h.inside chunk (List.mem_cons_self ..)
    obtain ⟨hafter, hincreasing⟩ := List.pairwise_cons.mp h.increasing
    have hrest : Segments totalSamples chunks :=
      ⟨hincreasing, fun r hr => h.nonempty r (List.mem_cons_of_mem _ hr),
        fun r hr => h.inside r (List.mem_cons_of_mem _ hr)⟩
    obtain ⟨pieces, hpieces, hchain, hlong, hshort⟩ :=
      splitChunk_spec probabilities fuel hrate hchunk.le (by omega)
    obtain ⟨rest, hsplit, hsegments, hcovers, hlong', hpiece⟩ := ih hrest
    have hbounds := hchain.bounds
    rw [splitChunks, hpieces, Option.bind_eq_bind, Option.bind_some, hsplit, Option.bind_some]
    refine ⟨_, rfl, ⟨?_, ?_, ?_⟩, ?_, ?_, ?_⟩
    · refine List.pairwise_append.mpr ⟨hchain.increasing, hsegments.increasing, ?_⟩
      intro p hp q hq
      obtain ⟨c, hc, hstart, _⟩ := hpiece q hq
      exact ((hbounds p hp).2.2.trans (hafter c hc)).trans hstart
    · intro p hp
      obtain hp | hp := List.mem_append.mp hp
      · exact (hbounds p hp).2.1
      · exact hsegments.nonempty p hp
    · intro p hp
      obtain hp | hp := List.mem_append.mp hp
      · exact (hbounds p hp).2.2.trans hinside
      · exact hsegments.inside p hp
    · intro x
      rw [covers_append, covers_cons, hchain.covers_iff, hcovers, mem_iff]
    · intro p hp
      obtain hp | hp := List.mem_append.mp hp
      · exact hlong p hp
      · exact hlong' p hp
    · intro p hp
      obtain hp | hp := List.mem_append.mp hp
      · exact ⟨chunk, List.mem_cons_self .., (hbounds p hp).1, (hbounds p hp).2.2, hshort p hp⟩
      · obtain ⟨c, hc, hin⟩ := hpiece p hp
        exact ⟨c, List.mem_cons_of_mem _ hc, hin⟩

theorem splitChunks_steady :
    Steady (fun n => splitChunks probabilities sampleRate n chunks) := by
  intro n m pieces hle h
  induction chunks generalizing pieces with
  | nil => exact h
  | cons chunk chunks ih =>
    simp only [splitChunks, Option.bind_eq_bind, Option.bind_eq_some_iff] at h ⊢
    obtain ⟨head, hhead, rest, hrest, h⟩ := h
    exact ⟨head, splitChunk_steady n m head hle hhead, rest, ih rest hrest, h⟩

theorem splitBackfillChunks_eq (hrate : 1 ≤ sampleRate) :
    splitBackfillChunks fuel chunks probabilities sampleRate =
      splitChunks probabilities sampleRate fuel chunks := by
  have hmin := minSamples_pos hrate
  have hmax := two_minSamples_le hrate
  rw [splitBackfillChunks, if_neg]
  omega

end BackfillSplit

section BackfillSeam

open Spans Binary32 Loops

variable {probabilities tailProbs : List ℚ} {totalSamples sampleRate : ℕ} {tuning : VadTuning}
  {source : SourceVadState} {sourceChannels backfillLen tailOffset now : ℕ}

/-- Two neighbouring ranges that are a whole one. -/
structure Partition (whole front back : Span) : Prop where
  front_start : front.start = whole.start
  seam : front.stop = back.start
  back_stop : back.stop = whole.stop
  front_le : front.start ≤ front.stop
  back_le : back.start ≤ back.stop

/-- The positions of the last frames before the cursor. -/
def rewound (cursor ch backfillLen : ℕ) : Span := ⟨cursor - backfillLen * ch, cursor⟩

/-- The positions of the frames that the backfill keeps. -/
def kept (cursor ch backfillLen keep : ℕ) : Span :=
  ⟨cursor - backfillLen * ch, cursor - backfillLen * ch + keep * ch⟩

theorem partition_at {cursor ch backfillLen keep : ℕ} (hring : backfillLen * ch ≤ cursor)
    (hkeep : keep ≤ backfillLen) :
    Partition (rewound cursor ch backfillLen) (kept cursor ch backfillLen keep)
      ⟨cursor - (backfillLen - keep) * ch, cursor⟩ := by
  have hsplit : (backfillLen - keep) * ch + keep * ch = backfillLen * ch := by
    rw [← Nat.add_mul, Nat.sub_add_cancel hkeep]
  refine ⟨rfl, ?_, rfl, Nat.le_add_right _ _, Nat.sub_le _ _⟩
  simp only [kept]
  omega

/-- The frames before the cursor are the ones that were read from the ring. -/
theorem extractSourceAudio_rewound {ring : Ring} {fromPos ch current : ℕ} {span : Span}
    (hread : extractSourceAudio ring fromPos = (some span, current))
    (hwhole : ch ∣ span.length) :
    span = rewound current ch (span.length / ch) ∧ span.length / ch * ch ≤ current := by
  have hspan : span.start ≤ span.stop ∧ span.stop = current := by
    simp only [extractSourceAudio, snapshotSinceWithPos] at hread
    split at hread
    · simp at hread
    · obtain ⟨hspan, rfl⟩ := Prod.mk.inj hread
      obtain rfl := Option.some.inj hspan
      exact ⟨Nat.sub_le _ _, rfl⟩
  obtain ⟨hle, rfl⟩ := hspan
  have hlength : span.length / ch * ch = span.length := Nat.div_mul_cancel hwhole
  rw [rewound, hlength]
  simp only [Span.length]
  refine ⟨?_, by omega⟩
  rw [show span.stop - (span.stop - span.start) = span.start by omega]

theorem exists_mapM {α β : Type} {f : α → Option β} {l : List α}
    (h : ∀ x ∈ l, ∃ y, f x = some y) : ∃ ys, l.mapM f = some ys := by
  induction l with
  | nil => exact ⟨[], rfl⟩
  | cons x l ih =>
    obtain ⟨y, hy⟩ := h x (List.mem_cons_self ..)
    obtain ⟨ys, hys⟩ := ih (fun z hz => h z (List.mem_cons_of_mem _ hz))
    exact ⟨y :: ys, by simp [List.mapM_cons, hy, hys]⟩

/-- The live source starts where the backfill stops. -/
theorem carryOpenTailIntoLive_seam
    (htuning : tuning.offsetThreshold ≤ tuning.speechThreshold)
    (htail : tailOffset ≤ backfillLen)
    (hring : backfillLen * max sourceChannels 1 ≤ source.cursor)
    (hstart : source.speechStartPos = source.cursor) :
    ∃ keep live, carryOpenTailIntoLive source sourceChannels backfillLen tailOffset tailProbs
        sampleRate tuning now = some (keep, live) ∧
      keep ≤ backfillLen ∧ live.cursor = source.cursor ∧
      Partition (rewound source.cursor (max sourceChannels 1) backfillLen)
        (kept source.cursor (max sourceChannels 1) backfillLen keep)
        ⟨live.speechStartPos, live.cursor⟩ := by
  obtain ⟨chunks, isOpen, hchunks, _, _, hlast⟩ := vadChunksAndOpenTail_spec
    tailProbs (backfillLen - tailOffset) sampleRate htuning
  rw [carryOpenTailIntoLive, usizeSub_of_le htail, Option.bind_eq_bind, Option.bind_some, hchunks,
    Option.bind_eq_bind, Option.bind_some]
  cases isOpen with
  | false =>
    refine ⟨backfillLen, source, rfl, le_rfl, rfl, ?_⟩
    have hpart := partition_at hring le_rfl
    rw [Nat.sub_self, Nat.zero_mul, Nat.sub_zero] at hpart
    rw [hstart]
    exact hpart
  | true =>
    obtain ⟨start, hlt, hlast⟩ := hlast rfl
    have hkeep : tailOffset + start ≤ backfillLen := by omega
    simp only [if_true, hlast, usizeSub_of_le hkeep, Option.map_some, Option.bind_eq_bind,
      Option.bind_some]
    obtain ⟨mids, hmids⟩ : ∃ mids, (tailProbs.zipIdx.drop (frameAtSample start sampleRate)).mapM
        (fun x => ((usizeSub backfillLen
          (min (tailOffset + frameMiddle sampleRate x.2) backfillLen)).map
            (fun n => source.cursor - n * max sourceChannels 1)).map (fun pos => (pos, x.1))) =
        some mids := by
      apply exists_mapM
      intro x _
      rw [usizeSub_of_le (Nat.min_le_right _ _)]
      exact ⟨_, rfl⟩
    rw [hmids, Option.bind_some]
    exact ⟨_, _, rfl, hkeep, rfl, partition_at hring hkeep⟩

/-- The pieces, the chunks that they are cut from, and what both cover. -/
theorem backfill_pieces (probabilities : List ℚ) (totalSamples : ℕ) (hrate : 1 ≤ sampleRate)
    (htuning : tuning.offsetThreshold ≤ tuning.speechThreshold) :
    ∃ chunks merged pieces,
      backfillChunksFromProbabilities probabilities totalSamples sampleRate tuning =
        some chunks ∧
      mergeShortTrailingChunk chunks totalSamples sampleRate = some merged ∧
      (∀ fuel, totalSamples < fuel →
        splitBackfillChunks fuel merged probabilities sampleRate = some pieces) ∧
      Segments totalSamples pieces ∧
      (∀ k prob, probabilities[k]? = some prob → tuning.speechThreshold ≤ prob →
        ∀ x, frameStartSample k sampleRate ≤ x → x < frameStartSample (k + 1) sampleRate →
          x < totalSamples → Covers pieces x) ∧
      (∀ x, Covers merged x ↔ Covers chunks x) ∧ (∀ x, Covers pieces x ↔ Covers merged x) ∧
      (∀ p ∈ pieces, p.length ≤ maxSamples sampleRate) ∧
      ∀ p ∈ pieces, PieceOf sampleRate merged p := by
  obtain ⟨chunks, isOpen, hchunks, hsegments, hloud, _⟩ := vadChunksAndOpenTail_spec
    probabilities totalSamples sampleRate htuning
  obtain ⟨merged, hmerged, hmergedSegments, hmergedCovers⟩ :=
    mergeShortTrailingChunk_spec sampleRate hsegments
  obtain ⟨pieces, hpieces, hpiecesSegments, hpiecesCovers, hlong, hpiece⟩ :=
    splitChunks_spec probabilities hrate hmergedSegments
      (Nat.lt_succ_self totalSamples)
  refine ⟨chunks, merged, pieces, ?_, hmerged, ?_, hpiecesSegments, ?_, hmergedCovers,
    hpiecesCovers, hlong, hpiece⟩
  · rw [backfillChunksFromProbabilities, hchunks, Option.map_some]
  · intro fuel hfuel
    rw [splitBackfillChunks_eq hrate]
    exact splitChunks_steady _ fuel pieces hfuel hpieces
  · intro k prob hprob hprob' x hlow hhigh hin
    rw [hpiecesCovers, hmergedCovers]
    refine hloud hrate x ⟨k, prob, (List.getElem?_eq_some_iff.mp hprob).1, hprob, hprob', hlow, ?_⟩
    exact lt_min hhigh hin

/-- Whatever Silero returns, the jobs of a backfill are in order and bounded. -/
theorem vadChunkHistoricalAudio_spec (scored : Option (List ℚ)) (hrate : 1 ≤ sampleRate)
    (htuning : tuning.offsetThreshold ≤ tuning.speechThreshold) :
    ∃ pieces, vadChunkHistoricalAudio (totalSamples + 1) scored totalSamples sampleRate tuning =
        some pieces ∧
      Segments totalSamples pieces ∧ ∀ p ∈ pieces, p.length ≤ maxSamples sampleRate := by
  have hnone : ∃ pieces, some ([] : List Span) = some pieces ∧ Segments totalSamples pieces ∧
      ∀ p ∈ pieces, p.length ≤ maxSamples sampleRate :=
    ⟨[], rfl, segments_nil _, fun _ hp => absurd hp List.not_mem_nil⟩
  simp only [vadChunkHistoricalAudio]
  split
  · exact hnone
  · next hsome =>
    split
    · have hwhole : Segments totalSamples [⟨0, totalSamples⟩] :=
        (segments_nil totalSamples).append_single (fun _ h => absurd h List.not_mem_nil)
          (Nat.pos_of_ne_zero hsome) le_rfl
      obtain ⟨pieces, hpieces, hsegments, _, hlong, _⟩ :=
        splitChunks_spec [] hrate hwhole (Nat.lt_succ_self totalSamples)
      exact ⟨pieces, (splitBackfillChunks_eq hrate).trans hpieces, hsegments, hlong⟩
    · next probabilities =>
      split
      · exact hnone
      · obtain ⟨chunks, merged, pieces, hchunks, hmerged, hpieces, hsegments, _, _, _, hlong, _⟩ :=
          backfill_pieces probabilities totalSamples hrate htuning
        refine ⟨pieces, ?_, hsegments, hlong⟩
        simp only [hchunks, hmerged, Option.bind_eq_bind, Option.bind_some]
        exact hpieces _ (Nat.lt_succ_self _)

/-- The backfill's pieces: nonempty, in order, inside the buffer, over every loud frame, with
the samples of the chunks, and of the lengths that the loop has; and the seam to the live
source. -/
theorem backfill_tiles (probabilities : List ℚ) (totalSamples sampleRate : ℕ)
    (tuning : VadTuning) (hrate : 1 ≤ sampleRate)
    (htuning : tuning.offsetThreshold ≤ tuning.speechThreshold) :
    (∃ chunks merged pieces,
      backfillChunksFromProbabilities probabilities totalSamples sampleRate tuning =
        some chunks ∧
      mergeShortTrailingChunk chunks totalSamples sampleRate = some merged ∧
      (∀ fuel, totalSamples < fuel →
        splitBackfillChunks fuel merged probabilities sampleRate = some pieces) ∧
      Segments totalSamples pieces ∧
      (∀ k prob, probabilities[k]? = some prob → tuning.speechThreshold ≤ prob →
        ∀ x, frameStartSample k sampleRate ≤ x → x < frameStartSample (k + 1) sampleRate →
          x < totalSamples → Covers pieces x) ∧
      (∀ x, Covers merged x ↔ Covers chunks x) ∧ (∀ x, Covers pieces x ↔ Covers merged x) ∧
      (∀ p ∈ pieces, p.length ≤ maxSamples sampleRate) ∧
      (∀ p ∈ pieces, PieceOf sampleRate merged p) ∧
      (sampleRate ≤ 3355443 →
        maxSamples sampleRate = 5 * sampleRate ∧ minSamples sampleRate = 2 * sampleRate)) ∧
    ∀ (source : SourceVadState) (sourceChannels backfillLen tailOffset now : ℕ),
      tailOffset ≤ backfillLen → backfillLen * max sourceChannels 1 ≤ source.cursor →
      source.speechStartPos = source.cursor →
      ∃ keep live, carryOpenTailIntoLive source sourceChannels backfillLen tailOffset
          probabilities sampleRate tuning now = some (keep, live) ∧
        keep ≤ backfillLen ∧ live.cursor = source.cursor ∧
        Partition (rewound source.cursor (max sourceChannels 1) backfillLen)
          (kept source.cursor (max sourceChannels 1) backfillLen keep)
          ⟨live.speechStartPos, live.cursor⟩ := by
  constructor
  · obtain ⟨chunks, merged, pieces, hchunks, hmerged, hpieces, hsegments, hloud, hmergedCovers,
      hpiecesCovers, hlong, hpiece⟩ := backfill_pieces probabilities totalSamples hrate htuning
    exact ⟨chunks, merged, pieces, hchunks, hmerged, hpieces, hsegments, hloud, hmergedCovers,
      hpiecesCovers, hlong, hpiece, samples_exact⟩
  · intro source sourceChannels backfillLen tailOffset now htail hring hstart
    exact carryOpenTailIntoLive_seam htuning htail hring hstart

theorem backfill_tiles_loud_end :
    parakeet.offsetThreshold ≤ parakeet.speechThreshold ∧
    (∃ pieces, splitBackfillChunks 1001 [⟨0, 1000⟩] [1 / 10, 9 / 10] 16000 = some pieces ∧
      Segments 1000 pieces ∧ Covers pieces 999 ∧ ∀ p ∈ pieces, p.length ≤ 80000) ∧
    ∃ keep live, carryOpenTailIntoLive (.new 4000 0 ⟨16000, 2, by decide, by decide⟩ 0) 2 1000 0
        [1 / 10, 9 / 10] 16000 parakeet 0 = some (keep, live) ∧
      Partition (rewound 4000 2 1000) (kept 4000 2 1000 keep)
        ⟨live.speechStartPos, live.cursor⟩ := by
  have htuning : parakeet.offsetThreshold ≤ parakeet.speechThreshold := by decide +kernel
  obtain ⟨⟨chunks, merged, pieces, hchunks, hmerged, hpieces, hsegments, hloud, _, _, hlong, _,
    hexact⟩, hseam⟩ := backfill_tiles [1 / 10, 9 / 10] 1000 16000 parakeet (by decide) htuning
  have hchunks' : backfillChunksFromProbabilities [1 / 10, 9 / 10] 1000 16000 parakeet =
      some [⟨0, 1000⟩] := by decide +kernel
  obtain rfl := Option.some.inj (hchunks'.symm.trans hchunks)
  obtain rfl := Option.some.inj hmerged
  refine ⟨htuning, ⟨pieces, hpieces 1001 (by decide), hsegments, ?_, ?_⟩, ?_⟩
  · exact hloud 1 (9 / 10) rfl (by decide +kernel) 999 (by decide +kernel) (by decide +kernel)
      (by decide)
  · intro p hp
    have hle := hlong p hp
    rw [(hexact (by decide)).1] at hle
    exact hle
  · obtain ⟨keep, live, hcarry, _, _, hpart⟩ := hseam
      (.new 4000 0 ⟨16000, 2, by decide, by decide⟩ 0) 2 1000 0 0 (by decide) (by decide) rfl
    exact ⟨keep, live, hcarry, hpart⟩

/-- At 16777219 Hz the bound in `f32` is one sample more than five seconds. -/
theorem piece_over_quantum :
    ¬∀ (probabilities : List ℚ) (totalSamples sampleRate : ℕ) (tuning : VadTuning),
      1 ≤ sampleRate → tuning.offsetThreshold ≤ tuning.speechThreshold →
      ∀ fuel chunks merged pieces,
        backfillChunksFromProbabilities probabilities totalSamples sampleRate tuning =
          some chunks →
        mergeShortTrailingChunk chunks totalSamples sampleRate = some merged →
        splitBackfillChunks fuel merged probabilities sampleRate = some pieces →
        ∀ p ∈ pieces, p.length ≤ 5 * sampleRate := by
  intro h
  have hlong := h [1] 200000000 16777219 parakeet (by decide) (by decide +kernel) 10
    [⟨0, 200000000⟩] [⟨0, 200000000⟩]
    [⟨0, 83886096⟩, ⟨83886096, 166445560⟩, ⟨166445560, 200000000⟩]
    (by decide +kernel) rfl (by decide +kernel) ⟨0, 83886096⟩ (by simp)
  exact absurd hlong (by decide)

end BackfillSeam

end YapStack.Live.Backfill
