import YapStack.Live.Tiling

set_option linter.unusedSectionVars false

namespace YapStack.Live.Loop

open Spans

variable {f32 : Rounding}

theorem batch_polled {u : Nat} {s : State} {frames : List Frame}
    (hs : Sound f32 s.vad.earliestNextChunkPos s.toSource) (hu : Floor u s.toSource)
    (hb : Batch u s.toSource frames) : Batch u s.toSource (polledFrames s.vad frames) := by
  unfold polledFrames
  split
  · exact ⟨List.Pairwise.nil, by simp, by simp, by simp⟩
  · split
    · cases hlast : s.vad.silero.lastFrame with
      | none => exact ⟨List.Pairwise.nil, by simp, by simp, by simp⟩
      | some l =>
        simp only [Option.toList_some]
        refine ⟨List.pairwise_singleton _ _, fun f hf => ?_, fun f hf => ?_, fun f hf g hg => ?_⟩
        all_goals obtain rfl := List.mem_singleton.mp hf
        · exact hu.last f hlast
        · exact hs.last f hlast
        · rw [hlast] at hg
          obtain rfl := Option.mem_some_iff.mp hg
          exact le_rfl
    · exact hb

theorem mem_of_mem_loud {f : Frame} {frames : List Frame} (h : f ∈ loud frames) : f ∈ frames :=
  (List.mem_filter.mp h).1

/-- A poll keeps what was heard, if an utterance that it opens reaches back to its first frame. -/
theorem poll_ticking {s : State} {frames : List Frame} (clock : List Nat)
    (h : Ready f32 s.toSource frames)
    (hreach : s.vad.isSpeaking = false → ∀ f ∈ loud (polledFrames s.vad frames),
      s.vad.speechStartPos ≤
        max f.audio.start s.vad.earliestNextChunkPos + s.vad.format.samplesIn parakeet.preRoll) :
    Ticking f32 (poll s frames clock).toSource := by
  obtain ⟨hs, u, hu, hb⟩ := h
  have hb := batch_polled hs hu hb
  have hpolled := (pollSource_cases s.vad frames clock hs.drain).1
  obtain ⟨vad', hvad'⟩ : ∃ vad', (pollSource parakeet s.vad frames clock).1 = vad' := ⟨_, rfl⟩
  have hmem : ∀ r ∈ s.heard ++ (loud (polledFrames s.vad frames)).map Frame.audio,
      r ∈ s.heard ∨ ∃ f ∈ loud (polledFrames s.vad frames), f.audio = r :=
    fun r hr => (List.mem_append.mp hr).imp_right List.mem_map.mp
  have hscored : ∀ r ∈ s.heard ++ (loud (polledFrames s.vad frames)).map Frame.audio,
      ∀ x ∈ r, x < s.scoredTo := by
    intro r hr x hx
    rcases hmem r hr with hr | ⟨f, hf, rfl⟩
    · exact hs.heardTo r hr x hx
    · exact hx.2.trans_le (hb.ordered f (mem_of_mem_loud hf)).2
  unfold Ticking poll
  dsimp only
  rw [hvad'] at hpolled ⊢
  rcases hpolled with ⟨⟨since, rfl⟩, hquiet⟩ | ⟨⟨hidle, since, time, rfl⟩, hloud⟩
  · refine ⟨{ hs with heardTo := hscored, kept := fun r hr x hx => ?_ }, u, { hu with }⟩
    rcases hmem r hr with hr | ⟨f, hf, rfl⟩
    · exact hs.kept r hr x hx
    · rcases hquiet with hspeaking | hnone
      · have hfloor := (hb.floor f (mem_of_mem_loud hf)).trans hx.1
        by_cases hx' : x < s.vad.earliestNextChunkPos
        · exact .inl (hu.sent x hfloor hx')
        · have hopened := hu.opened hspeaking
          exact .inr ⟨hspeaking, by dsimp only; omega⟩
      · rw [hnone] at hf
        exact (List.not_mem_nil hf).elim
  · obtain ⟨f₀, rest, hfirst⟩ := List.exists_cons_of_ne_nil hloud
    have hf₀ : f₀ ∈ loud (polledFrames s.vad frames) := by rw [hfirst]; exact List.mem_cons_self
    have hleast : ∀ f ∈ loud (polledFrames s.vad frames), f₀.audio.start ≤ f.audio.start := by
      have hsorted := hb.sorted.filter (fun f => decide (parakeet.speechThreshold ≤ f.prob))
      rw [show List.filter _ _ = loud (polledFrames s.vad frames) from rfl, hfirst] at hsorted
      intro f hf
      rw [hfirst] at hf
      rcases List.mem_cons.mp hf with rfl | hf
      · exact le_rfl
      · exact (List.pairwise_cons.mp hsorted).1 f hf
    have hfloor := hb.floor f₀ (mem_of_mem_loud hf₀)
    have hordered := hb.ordered f₀ (mem_of_mem_loud hf₀)
    have hstart : s.vad.preRollStart parakeet ≤ max f₀.audio.start s.vad.earliestNextChunkPos := by
      have h := hreach hidle f₀ hf₀
      unfold SourceVadState.preRollStart
      omega
    have hsent : ∀ x, f₀.audio.start ≤ x → x < s.vad.earliestNextChunkPos → s.Sent x :=
      fun x hx => hu.sent x (hfloor.trans hx)
    refine ⟨{ hs with
        written := ?_
        early := le_max_right _ _
        drain := fun _ => rfl
        heardTo := hscored
        kept := fun r hr x hx => ?_ }, f₀.audio.start,
      { scored := hordered.1.trans hordered.2
        last := fun l hl => hb.last f₀ (mem_of_mem_loud hf₀) l hl
        sent := hsent
        opened := fun _ => hstart }⟩
    · have hwritten := hs.written
      have hearly := hs.early
      dsimp only [SourceVadState.preRollStart]
      omega
    · rcases hmem r hr with hr | ⟨f, hf, rfl⟩
      · rcases hs.kept r hr x hx with hx | ⟨hspeaking, _⟩
        · exact .inl hx
        · exact absurd hspeaking (by rw [hidle]; exact Bool.false_ne_true)
      · have hx' := (hleast f hf).trans hx.1
        by_cases hlt : x < s.vad.earliestNextChunkPos
        · exact .inl (hsent x hx' hlt)
        · exact .inr ⟨rfl, by dsimp only; omega⟩

/-- The idle advance of a source without an open utterance loses nothing that was heard. -/
theorem idle_ticking {s : State} (h : Ticking f32 s.toSource) (hidle : s.vad.isSpeaking = false)
    (phase : Phase) :
    Ticking f32
      { s with vad := advanceIdleCursor s.vad s.ring, phase := phase : State }.toSource := by
  obtain ⟨hs, u, hu⟩ := h
  have hearly := hs.early.trans hs.written
  refine ⟨{ hs with
      written := le_rfl
      early := hearly
      kept := fun r hr x hx => ?_ }, u,
    { hu with opened := fun hspeaking => ?_ }⟩
  · rcases hs.kept r hr x hx with hx | ⟨hspeaking, _⟩
    · exact .inl hx
    · exact absurd hspeaking (by rw [hidle]; exact Bool.false_ne_true)
  · exact absurd hspeaking (by dsimp only [advanceIdleCursor]; rw [hidle]; exact Bool.false_ne_true)

theorem sent_append {s t : Source} {chunks : List PreparedChunk} (h : t.sent = s.sent ++ chunks)
    {x : Nat} (hx : s.Sent x) : t.Sent x := by
  obtain ⟨c, hc, hx⟩ := hx
  exact ⟨c, by rw [h]; exact List.mem_append_left _ hc, hx⟩

/-- A prepared chunk takes the front of the open utterance, and nothing else moves. -/
theorem prepare_sound {s : State} (hs : Sound f32 s.vad.earliestNextChunkPos s.toSource)
    (hring : s.ring.Holds s.vad.speechStartPos) (isForceChunk : Bool) (origin : JobOrigin)
    {currentPos : Nat} (hread : s.vad.silero.readPos ≤ currentPos) (now : Nat) (next : Phase) :
    let t := prepare f32 s isForceChunk origin currentPos now next
    Sound f32 t.vad.earliestNextChunkPos t.toSource ∧
      (∀ u, s.vad.isSpeaking = true → Floor u s.toSource → Floor u t.toSource) := by
  intro t
  have hcases := prepareChunkDispatchInner_cases f32 hring isForceChunk origin
    parakeet.maxChunkDuration false currentPos now
  rcases hcases with ⟨pos, hp⟩ | ⟨stop, seekPause, chunk, hlt, hcur, hwritten, hmax, haudio,
    horigin, hoffset, hp⟩
  · have ht : t.toSource = { s with vad := { s.vad with cursor := pos } } := by
      simp only [t, prepare, hp, Option.isSome_none, Bool.false_eq_true, if_false,
        Option.toList_none, List.append_nil]
    rw [show t.vad = t.toSource.vad from rfl, ht]
    exact ⟨{ hs with }, fun u _ hu => { hu with }⟩
  · have ht : t.toSource = { s with
        task := .running
        vad := s.vad.advancedPast stop currentPos
          (maxRawSamplesForDuration parakeet.maxChunkDuration s.vad.format)
          isForceChunk seekPause now
        sent := s.sent ++ [chunk] } := by
      simp only [t, prepare, hp, Option.isSome_some, if_true, Option.toList_some]
    rw [show t.vad = t.toSource.vad from rfl, ht]
    have hstart : chunk.audio.start = s.vad.speechStartPos := by rw [haudio]
    have hstop : chunk.audio.stop = stop := by rw [haudio]
    have hchunk : ∀ c ∈ s.sent ++ [chunk], c ∈ s.sent ∨ c = chunk :=
      fun c hc => (List.mem_append.mp hc).imp_right List.mem_singleton.mp
    have hbefore : ∀ c ∈ s.sent, c.audio.stop ≤ s.vad.speechStartPos :=
      fun c hc => (hs.front c hc).trans hs.early
    refine ⟨{
      written := hwritten
      early := le_rfl
      read := hs.read
      scored := hs.scored
      drain := fun hdrain => ?_
      last := hs.last
      stop := hs.stop
      nonempty := fun c hc => ?_
      offset := fun c hc => ?_
      atMostMax := fun c hc hlive => ?_
      increasing := ?_
      front := fun c hc => ?_
      heardTo := hs.heardTo
      kept := fun r hr x hx => ?_ }, fun u hspeaking hu =>
      { hu with
        sent := fun x hux hx => ?_
        opened := fun _ => le_max_right _ _ }⟩
    · have hpos := maxRawSamples_pos parakeet.maxChunkDuration s.vad.format
      simp only [SourceVadState.advancedPast, Bool.or_eq_true, decide_eq_true_eq] at hdrain ⊢
      split at hdrain
      · have := of_decide_eq_true hdrain
        exact .inl (by omega)
      · exact .inl (of_decide_eq_true hdrain)
    · rcases hchunk c hc with hc | rfl
      · exact hs.nonempty c hc
      · rw [hstart, hstop]
        exact hlt
    · rcases hchunk c hc with hc | rfl
      · exact hs.offset c hc
      · rw [hoffset, hstart]
        rfl
    · rcases hchunk c hc with hc | rfl
      · exact hs.atMostMax c hc hlive
      · simp only [Span.length, haudio]
        dsimp only [SourceVadState.advancedPast]
        omega
    · rw [List.map_append]
      refine hs.increasing.append_single fun a ha => ?_
      obtain ⟨c, hc, rfl⟩ := List.mem_map.mp ha
      rw [hstart]
      exact hbefore c hc
    · rcases hchunk c hc with hc | rfl
      · exact (hbefore c hc).trans hlt.le
      · exact hstop.le
    · by_cases hx' : s.Sent x
      · exact .inl (sent_append rfl hx')
      · have hkept := (hs.kept r hr x hx).resolve_left hx'
        by_cases hxs : x < stop
        · exact .inl ⟨chunk, List.mem_append_right _ (List.mem_singleton_self _),
            by rw [haudio]; exact ⟨hkept.2, hxs⟩⟩
        · have hto := hs.heardTo r hr x hx
          have hscored := hs.scored
          refine .inr ⟨?_, by dsimp only [SourceVadState.advancedPast]; omega⟩
          simp only [SourceVadState.advancedPast, Bool.or_eq_true, decide_eq_true_eq]
          exact .inl (by omega)
    · have hopened := hu.opened hspeaking
      by_cases hxs : x < s.vad.speechStartPos
      · exact sent_append rfl (hu.sent x hux (by omega))
      · exact ⟨chunk, List.mem_append_right _ (List.mem_singleton_self _),
          by rw [haudio]; exact ⟨Nat.not_lt.mp hxs, hx⟩⟩

theorem tooShort_nil (fmt : Format) (pos : Nat) : TooShort fmt ⟨pos, pos⟩ := by
  unfold TooShort monoLength Span.length
  simp only [Nat.sub_self, Nat.zero_div, Nat.zero_mul]
  exact Nat.mul_pos (by decide) fmt.rate_pos

theorem tooShort_of_mono_zero {fmt : Format} {audio : Span} (h : monoLength fmt audio = 0) :
    TooShort fmt audio := by
  unfold TooShort
  rw [h, Nat.zero_mul]
  exact Nat.mul_pos (by decide) fmt.rate_pos

/-- The stop-time ranges cover the open utterance up to the stop, or leave a short rest. -/
theorem scoreTail_copying {s : State} {limit : Nat}
    (hs : Sound f32 s.vad.earliestNextChunkPos s.toSource)
    (hbound : limit ≤ s.ring.writePos + tailSamplesFor s.vad.format) (speech : Bool) :
    let ranges := finalFlushRanges s.vad limit parakeet.maxChunkDuration speech
    Copying s.toSource s.vad.speechStartPos limit ranges ∨
      ranges = [] ∧ Flushed s.toSource limit := by
  intro ranges
  rcases finalFlushRanges_cases s.vad limit speech with ⟨hnil, hshort⟩ | ⟨hchain, hpieces⟩
  · refine .inr ⟨hnil, ?_⟩
    by_cases hspeaking : s.vad.isSpeaking = true
    · refine ⟨⟨s.vad.speechStartPos, limit⟩, rfl, hshort hspeaking, fun r hr x hx hlt => ?_⟩
      exact (hs.kept r hr x hx).imp_right (fun h => ⟨h.2, hlt⟩)
    · refine ⟨⟨s.vad.speechStartPos, s.vad.speechStartPos⟩, rfl, tooShort_nil _ _,
        fun r hr x hx _ => ?_⟩
      exact .inl ((hs.kept r hr x hx).resolve_right (fun h => hspeaking h.1))
  · refine .inl {
      chain := hchain
      whole := hpieces
      bound := hbound
      copied := fun r hr x hx hlt => ?_ }
    exact (hs.kept r hr x hx).resolve_right (fun h => absurd h.2 (Nat.not_le.mpr hlt))

/-- Copying one range dispatches it; only a source's whole short rest is dropped. -/
theorem copyRange_inv {s : State} {limit c : Nat} {r : Span} {rest : List Span}
    (hs : Sound f32 c s.toSource) (hcopy : Copying s.toSource c limit (r :: rest))
    (hring : s.ring.Holds r.start) : Inv f32 (copyRange f32 s limit r rest) := by
  obtain ⟨hstart, hlt, hchain⟩ := hcopy.chain
  have hmem : r ∈ r :: rest := List.mem_cons_self
  have hbound := hcopy.bound
  have hle := chain_le hchain
  have hwhole : ∀ x < limit, ∀ q ∈ s.heard, x ∈ q → r.start = s.vad.speechStartPos →
      r.stop = limit → s.Sent x ∨ x ∈ (⟨r.start, min r.stop s.ring.writePos⟩ : Span) := by
    intro x hx q hq hxq hrs hrl
    by_cases hxc : x < c
    · exact .inl (hcopy.copied q hq x hxq hxc)
    · have hto := hs.heardTo q hq x hxq
      have hscored := hs.scored
      have hread := hs.read
      exact .inr ⟨by dsimp only; omega, by dsimp only; omega⟩
  have hlong : maxRawSamplesForDuration minSplitPiece s.vad.format ≤ r.length →
      ¬ TooShort s.vad.format ⟨r.start, min r.stop s.ring.writePos⟩ ∧
        monoLength s.vad.format ⟨r.start, min r.stop s.ring.writePos⟩ ≠ 0 := by
    intro hlen
    refine not_tooShort_of_piece ?_
    unfold Span.length at hlen ⊢
    dsimp only
    omega
  unfold copyRange
  split
  · next hnone =>
    have hmono := extractSourceAudioUntil_eq_none hring hnone
    rcases hcopy.whole r hmem with ⟨hrs, hrl⟩ | hlen
    · refine ⟨⟨c, { hs with }⟩, ⟨r.start, min r.stop s.ring.writePos⟩, hrs,
        tooShort_of_mono_zero hmono, fun q hq x hx hxl => hwhole x hxl q hq hx hrs hrl⟩
    · exact absurd hmono (hlong hlen).2
  · next extraction hsome =>
    obtain ⟨hspan, hpos⟩ := extractSourceAudioUntil_eq_some hring hsome
    simp only [hspan]
    by_cases hshort : TooShort s.vad.format ⟨r.start, min r.stop s.ring.writePos⟩
    · simp only [hshort, if_true]
      rcases hcopy.whole r hmem with ⟨hrs, hrl⟩ | hlen
      · have hnil : rest = [] := by
          cases rest with
          | nil => rfl
          | cons q rest =>
            obtain ⟨_, hq, hq'⟩ := hchain
            have := chain_le hq'
            omega
        exact ⟨c, { hs with }, .inr ⟨hnil, ⟨r.start, min r.stop s.ring.writePos⟩, hrs, hshort,
          fun q hq x hx hxl => hwhole x hxl q hq hx hrs hrl⟩⟩
      · exact absurd hshort (hlong hlen).1
    · simp only [hshort, if_false]
      refine ⟨r.stop, { hs with
          nonempty := fun d hd => ?_
          offset := fun d hd => ?_
          atMostMax := fun d hd hlive => ?_
          increasing := ?_
          front := fun d hd => ?_
          kept := fun q hq x hx => (hs.kept q hq x hx).imp_left (sent_append rfl) }, .inl {
        chain := hchain
        whole := fun q hq => hcopy.whole q (List.mem_cons_of_mem _ hq)
        bound := hbound
        copied := fun q hq x hx hxr => ?_ }⟩
      · rcases List.mem_append.mp hd with hd | hd
        · exact hs.nonempty d hd
        · obtain rfl := List.mem_singleton.mp hd
          exact hpos
      · rcases List.mem_append.mp hd with hd | hd
        · exact hs.offset d hd
        · obtain rfl := List.mem_singleton.mp hd
          rfl
      · rcases List.mem_append.mp hd with hd | hd
        · exact hs.atMostMax d hd hlive
        · obtain rfl := List.mem_singleton.mp hd
          contradiction
      · rw [List.map_append]
        refine hs.increasing.append_single fun a ha => ?_
        obtain ⟨d, hd, rfl⟩ := List.mem_map.mp ha
        exact (hs.front d hd).trans hstart.ge
      · rcases List.mem_append.mp hd with hd | hd
        · have := hs.front d hd
          omega
        · obtain rfl := List.mem_singleton.mp hd
          exact min_le_left _ _
      · by_cases hxc : x < c
        · exact sent_append rfl (hcopy.copied q hq x hx hxc)
        · have hto := hs.heardTo q hq x hx
          have hscored := hs.scored
          have hread := hs.read
          exact ⟨_, List.mem_append_right _ (List.mem_singleton_self _),
            by dsimp only; omega, by dsimp only; omega⟩

theorem applyOutcome_source (s : State) :
    ∃ task inFlight, (applyOutcome s).toSource =
      { s with task := task, vad := { s.vad with hasInFlightTask := inFlight } } := by
  unfold applyOutcome
  split
  · exact ⟨_, _, rfl⟩
  · exact ⟨s.task, s.vad.hasInFlightTask, rfl⟩

/-- Every step of a run whose onsets are in reach keeps the invariant. -/
theorem inv_step {s t : State} {a : Action} (h : Inv f32 s) (hring : NotOverrun s a)
    (hreach : OnsetInReach s a) (hst : step f32 s a = some t) : Inv f32 t := by
  obtain ⟨source, phase⟩ := s
  cases a with
  | write n =>
    obtain rfl := Option.some.inj hst
    exact Inv.frame (s := ⟨source, phase⟩) rfl rfl rfl rfl rfl (Nat.le_add_right _ _)
      (fun hs limit hl => (hs limit hl).trans (by simp only [Ring.write_writePos]; omega)) h
  | finishTask =>
    simp only [step] at hst
    split at hst
    · obtain rfl := Option.some.inj hst
      exact Inv.frame (s := ⟨source, phase⟩) rfl rfl rfl rfl rfl le_rfl id h
    · contradiction
  | requestStop =>
    simp only [step] at hst
    split at hst
    · obtain rfl := Option.some.inj hst
      refine Inv.frame (s := ⟨source, phase⟩) rfl rfl rfl rfl rfl le_rfl
        (fun _ limit hl => ?_) h
      obtain rfl := Option.mem_some_iff.mp hl
      exact le_rfl
    · contradiction
  | extract =>
    cases phase with
    | select =>
      obtain rfl := Option.some.inj hst
      obtain ⟨h1, h2⟩ := extractSourceAudio_pos h.1.read
      exact ⟨h, h1, h2⟩
    | _ => simp [step] at hst
  | feed frames pending =>
    cases phase with
    | extracted newPos audio =>
      cases audio with
      | some audio =>
        simp only [step] at hst
        split at hst
        · next hframes =>
          obtain rfl := Option.some.inj hst
          exact feed_ready pending h.1 h.2.1 h.2.2 hframes
        · contradiction
      | none =>
        simp only [step] at hst
        split at hst
        · obtain rfl := Option.some.inj hst
          obtain ⟨⟨hs, u, hu⟩, h1, h2⟩ := h
          exact ⟨{ hs with read := h2, scored := hs.scored.trans h1 }, u, { hu with },
            ⟨List.Pairwise.nil, by simp, by simp, by simp⟩⟩
        · contradiction
    | _ => simp [step] at hst
  | skip =>
    cases phase with
    | fed frames =>
      obtain rfl := Option.some.inj hst
      exact ⟨h.1, h.2.imp fun u hu => hu.1⟩
    | _ => simp [step] at hst
  | drain =>
    obtain ⟨task, inFlight, hsource⟩ := applyOutcome_source ⟨source, phase⟩
    cases phase with
    | fed frames =>
      obtain rfl := Option.some.inj hst
      obtain ⟨hs, u, hu, hb⟩ := h
      simp only [Inv, hsource]
      exact ⟨{ hs with }, u, { hu with }, { hb with }⟩
    | failing again =>
      have hphase : (applyOutcome ⟨source, .failing again⟩).phase = .failing again := by
        unfold applyOutcome
        split <;> rfl
      obtain rfl := Option.some.inj hst
      simp only [Inv, hphase]
      rw [show (applyOutcome ⟨source, .failing again⟩).vad =
        (applyOutcome ⟨source, .failing again⟩).toSource.vad from rfl, hsource]
      have hs : Sound f32 source.vad.earliestNextChunkPos source := h
      exact { hs with }
    | _ => simp [step] at hst
  | poll clock =>
    cases phase with
    | drained frames =>
      obtain rfl := Option.some.inj hst
      exact ⟨poll_ticking clock h hreach,
        (pollSource_cases source.vad frames clock h.1.drain).2⟩
    | _ => simp [step] at hst
  | dispatch =>
    cases phase with
    | polled action =>
      obtain rfl := Option.some.inj hst
      obtain ⟨⟨hs, u, hu⟩, hspeaking⟩ := h
      have hticking : Ticking f32 source := ⟨hs, u, hu⟩
      cases action with
      | chunk | forceChunk =>
        simp only [dispatch]
        split
        · exact hticking
        · exact ⟨hticking, hspeaking (by simp), hs.read, le_rfl⟩
      | none =>
        simp only [dispatch]
        split
        · next hidle =>
          simp only [Bool.and_eq_true, Bool.not_eq_true'] at hidle
          exact idle_ticking (s := ⟨source, .select⟩) hticking hidle.2 .select
        · exact hticking
    | _ => simp [step] at hst
  | prepare now =>
    cases phase with
    | dispatching isForceChunk currentPos =>
      obtain rfl := Option.some.inj hst
      obtain ⟨⟨hs, u, hu⟩, hspeaking, hread, _⟩ := h
      have hp := prepare_sound hs hring isForceChunk .live hread now .select
      exact ⟨hp.1, u, hp.2 u hspeaking hu⟩
    | _ => simp [step] at hst
  | observeStop =>
    simp only [step] at hst
    split at hst
    · contradiction
    · next limit hstop =>
      split at hst
      · next hphase =>
        obtain rfl := Option.some.inj hst
        have hs := h.sound_of_atStopCheck hphase
        exact ⟨{ hs with }, hs.stop limit hstop⟩
      · contradiction
  | scoreTail speech =>
    cases phase with
    | stopping limit =>
      simp only [step] at hst
      split at hst
      · contradiction
      · obtain rfl := Option.some.inj hst
        exact ⟨source.vad.speechStartPos, { h.1.imp_front h.1.early with },
          scoreTail_copying (s := ⟨source, .stopping limit⟩) h.1 h.2 speech⟩
    | _ => simp [step] at hst
  | copy =>
    cases phase with
    | copying limit ranges =>
      obtain ⟨c, hs, hcopy⟩ := h
      cases ranges with
      | nil =>
        obtain rfl := Option.some.inj hst
        refine ⟨⟨c, { hs with }⟩, ?_⟩
        rcases hcopy with hcopy | ⟨_, hdone⟩
        · obtain rfl : c = limit := hcopy.chain
          exact ⟨⟨source.vad.speechStartPos, source.vad.speechStartPos⟩, rfl, tooShort_nil _ _,
            fun r hr x hx hlt => .inl (hcopy.copied r hr x hx hlt)⟩
        · exact hdone
      | cons r rest =>
        obtain rfl := Option.some.inj hst
        rcases hcopy with hcopy | ⟨hnil, _⟩
        · exact copyRange_inv hs hcopy hring
        · contradiction
    | _ => simp [step] at hst
  | fail =>
    cases phase with
    | select | fed frames =>
      obtain rfl := Option.some.inj hst
      exact h.1
    | _ => simp [step] at hst
  | flush =>
    cases phase with
    | failing again =>
      cases again with
      | false => simp [step] at hst
      | true =>
        simp only [step] at hst
        split at hst
        · obtain rfl := Option.some.inj hst
          exact ⟨h, Sound.read h, le_rfl⟩
        · contradiction
    | _ => simp [step] at hst
  | prepareFinal now =>
    cases phase with
    | failingDispatch currentPos =>
      obtain rfl := Option.some.inj hst
      exact (prepare_sound h.1 hring true .finalFlush h.2.1 now (.failing false)).1
    | _ => simp [step] at hst

theorem inv_start {ring : Ring} {vad : SourceVadState} (hread : vad.silero.readPos ≤ ring.writePos)
    (hearly : vad.earliestNextChunkPos = vad.speechStartPos)
    (hstart : vad.speechStartPos ≤ vad.silero.readPos) (hlast : vad.silero.lastFrame = none)
    (hdrain : vad.forceDrain = false) : Inv f32 (.start ring vad) := by
  refine ⟨{
    written := hstart.trans hread
    early := hearly.le
    read := hread
    scored := le_rfl
    drain := fun h => absurd (hdrain.symm.trans h) Bool.false_ne_true
    last := fun f hf => ?_
    stop := fun limit hl => ?_
    nonempty := fun c hc => (List.not_mem_nil hc).elim
    offset := fun c hc => (List.not_mem_nil hc).elim
    atMostMax := fun c hc => (List.not_mem_nil hc).elim
    increasing := increasing_nil
    front := fun c hc => (List.not_mem_nil hc).elim
    heardTo := fun r hr => (List.not_mem_nil hr).elim
    kept := fun r hr => (List.not_mem_nil hr).elim }, vad.silero.readPos,
    { scored := le_rfl
      last := fun f hf => ?_
      sent := fun x hx hlt => ?_
      opened := fun _ => hstart.trans (le_max_left _ _) }⟩
  · rw [show (State.start ring vad).vad.silero.lastFrame = none from hlast] at hf
    contradiction
  · contradiction
  · rw [show (State.start ring vad).vad.silero.lastFrame = none from hlast] at hf
    contradiction
  · have hlt : x < vad.earliestNextChunkPos := hlt
    omega

theorem inv_initial {s : State} (h : Initial s) : Inv f32 s := by
  cases h with
  | live ring fmt anchor pos hpos => exact inv_start hpos rfl le_rfl rfl rfl
  | backfill ring fmt anchor rewound current hpos => exact inv_start hpos rfl le_rfl rfl rfl
  | carried ring fmt anchor rewound current hpos startPos hstart mids carried now =>
    exact inv_start hpos rfl hstart rfl rfl

theorem Sound.tiled {front : Nat} {s : State} (hs : Sound f32 front s.toSource)
    (hrest : ∀ limit, s.phase = .flushed limit → Flushed s.toSource limit) : Tiled s where
  increasing := hs.increasing
  nonempty := hs.nonempty
  atMostMax c hc hlive := maxRawSamples_seconds_le _ (hs.atMostMax c hc hlive)
  offsets := offsets_sorted f32 hs
  covered := hs.kept
  remainder := hrest

theorem Inv.tiled {s : State} (h : Inv f32 s) : Tiled s := by
  obtain ⟨source, phase⟩ := s
  cases phase with
  | select => exact h.1.tiled (by simp)
  | extracted newPos audio => exact h.1.1.tiled (by simp)
  | fed frames | drained frames => exact h.1.tiled (by simp)
  | polled action => exact h.1.1.tiled (by simp)
  | dispatching isForceChunk currentPos => exact h.1.1.tiled (by simp)
  | stopping limit => exact h.1.tiled (by simp)
  | copying limit ranges => exact h.choose_spec.1.tiled (by simp)
  | flushed limit =>
    obtain ⟨⟨c, hs⟩, hdone⟩ := h
    refine hs.tiled fun limit' hl => ?_
    obtain rfl : limit = limit' := by simpa using hl
    exact hdone
  | failing again => exact Sound.tiled (s := ⟨source, .failing again⟩) h (by simp)
  | failingDispatch currentPos => exact h.1.tiled (by simp)

/-- In every run without an overrun in which each onset is in reach of the pre-roll, the
dispatched ranges tile the speech. -/
theorem live_chunks_tile (f32 : Rounding) {s u : State} {as : List Action} (hs : Initial s)
    (hg : Runs.Along (step f32) (fun s a _ => NotOverrun s a ∧ OnsetInReach s a) s as)
    (hu : Runs.exec (step f32) s as = some u) : Tiled u :=
  (Runs.exec_invariant_along
    (fun _ _ _ h hga hst => inv_step h hga.1 hga.2 hst) (inv_initial hs) hg hu).tiled

section Runs

theorem rate16kHz_pos : 0 < 16000 := by decide

def mono16kHz : Format := ⟨16000, 1, rate16kHz_pos, Nat.one_pos⟩

def freshSource : State := .start ⟨480000, 0⟩ (.new 0 0 mono16kHz 0)

theorem freshSource_initial : Initial freshSource := .live _ _ _ 0 le_rfl

/-- Consecutive frames, of which those in `speech` are loud. -/
def scored (first n : Nat) (speech : List Nat) : List Frame :=
  (List.range n).map (fun k =>
    ⟨⟨first + frameSamples * k, first + frameSamples * (k + 1)⟩, if k ∈ speech then 1 else 0⟩)

/-- One utterance, a pause, a chunk, and a stop. -/
def oneUtterance : List Action :=
  [.write 16000, .extract, .feed (scored 0 31 [28, 29]) 128, .drain, .poll [], .dispatch,
    .write 16000, .extract, .feed (scored 15872 31 []) 256, .drain, .poll [], .dispatch,
    .extract, .feed [] 256, .drain, .poll [600000000], .dispatch, .prepare 0, .finishTask,
    .requestStop, .observeStop, .scoreTail false, .copy]

/-- A tick in which a second of audio arrives between the read for Silero and the idle advance. -/
def longTick : List Action :=
  [.extract, .feed [] 0, .drain, .poll [], .write 16000, .dispatch,
    .extract, .feed (scored 0 31 [3]) 128, .drain, .poll []]

theorem live_chunks_tile_utterance :
    ∃ u, Runs.exec (step .exact) freshSource oneUtterance = some u ∧
      u.sent.length = 1 ∧ Tiled u := by
  obtain ⟨u, hu, hlen⟩ : ∃ u, Runs.exec (step .exact) freshSource oneUtterance = some u ∧
      u.sent.length = 1 := Runs.exec_evaluates (by decide +kernel)
  exact ⟨u, hu, hlen, live_chunks_tile .exact freshSource_initial (by decide +kernel) hu⟩

/-- A long tick loses the speech that it did not score. -/
theorem longTick_loses_speech :
    ¬ ∀ s u : State, ∀ as : List Action, Initial s →
      Runs.Along (step .exact) (fun s a _ => NotOverrun s a) s as →
      Runs.exec (step .exact) s as = some u → Tiled u := by
  intro h
  obtain ⟨u, hu, hheard, hsent, hstart⟩ :
      ∃ u, Runs.exec (step .exact) freshSource longTick = some u ∧
        (⟨1536, 2048⟩ : Span) ∈ u.heard ∧ u.sent.length = 0 ∧ u.vad.speechStartPos = 12000 :=
    Runs.exec_evaluates (by decide +kernel)
  have htiled := h freshSource u longTick freshSource_initial (by decide +kernel) hu
  rcases htiled.covered _ hheard 1536 ⟨le_rfl, by decide⟩ with ⟨c, hc, _⟩ | ⟨_, hle⟩
  · rw [List.length_eq_zero_iff.mp hsent] at hc
    exact List.not_mem_nil hc
  · omega

end Runs

end YapStack.Live.Loop
