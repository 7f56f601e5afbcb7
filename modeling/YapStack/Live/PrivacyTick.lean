import YapStack.Live.PrivacyOwnership
import YapStack.Live.Tiling

set_option linter.unusedSectionVars false

namespace YapStack.Live.Session

section PrivacyWav

open Spans

/-- Muting only takes away. -/
theorem getElem?_mute {channels oldPos : Nat} (windows : List (Nat × Option Nat)) {samples : Mono}
    {i : Nat} {r : Span}
    (h : (windows.foldl (muteWindow channels oldPos) samples)[i]? = some (some r)) :
    samples[i]? = some (some r) := by
  induction windows generalizing samples with
  | nil => exact h
  | cons w windows ih =>
    have hmid := ih h
    simp only [muteWindow] at hmid
    split at hmid
    · exact hmid
    · exact (getElem?_zeroFrames _ _ _ _ hmid).1

theorem mem_monoFrames {channels base n : Nat} {r : Span}
    (h : some r ∈ monoFrames channels base n) : base ≤ r.start ∧ r.stop ≤ base + n * channels := by
  obtain ⟨i, hi⟩ := List.getElem?_of_mem h
  have hlt : i < n := by
    have := (List.getElem?_eq_some_iff.mp hi).1
    rwa [length_monoFrames] at this
  rw [monoFrames_partOf channels base n i r hi]
  exact ⟨Nat.le_add_right _ _, Nat.add_le_add_left (Nat.mul_le_mul_right _ hlt) _⟩

theorem monoLength_mul_le (fmt : Format) (span : Span) :
    monoLength fmt span * fmt.channels ≤ span.length := Nat.div_mul_le_self _ _

/-- What a read for the WAV gets, also when the ring has dropped samples. -/
theorem wavSpan_bounds {ring : Ring} {flushPos : Nat} {limit : Option Nat} {span : Span}
    (h : wavSpan ring flushPos limit = some span) :
    span.start = max flushPos (ring.writePos - ring.capacity) ∧
      span.stop = min (limit.getD ring.writePos) ring.writePos ∧ span.start ≤ span.stop := by
  cases limit with
  | none =>
    simp only [wavSpan, snapshotSinceWithPos] at h
    split at h
    · contradiction
    · next hlt =>
      obtain rfl := Option.some.inj h
      simp only [Option.getD_none]
      omega
  | some limit =>
    simp only [wavSpan] at h
    split at h
    · contradiction
    · next hne =>
      obtain rfl := Option.some.inj h
      simp only [snapshotRange, Span.length] at hne ⊢
      split at hne
      · simp at hne
      · next h1 =>
        split at hne
        · simp at hne
        · next h2 =>
          rw [if_neg h1, if_neg h2]
          dsimp only [Option.getD_some]
          omega

theorem keeps_le {fmt : Format} {ws : SessionWavState} {span : Span} {keep extra : Nat}
    (h : keeps fmt ws span keep extra = true) : keep ≤ monoLength fmt span := by
  unfold keeps at h
  split at h
  · exact of_decide_eq_true h
  · exact (of_decide_eq_true h).1.le

/-- A read for the WAV begins where the WAV ends, or has nothing dictated in it. -/
theorem readWav_fresh {s : Mic} {limit : Option Nat} {keep extra : Nat} {wav : Option WavRead}
    (h : readWav s limit keep extra = some wav) (hg : WavInStep s limit) :
    ∀ read ∈ wav, FreshRead s read := by
  intro read hread
  unfold readWav at h
  split at h
  · obtain rfl := Option.some.inj h
    contradiction
  · next ws hws =>
    split at h
    · obtain rfl := Option.some.inj h
      contradiction
    · next span hspan =>
      split at h
      · next hkeep =>
        have hwav := Option.some.inj h
        rw [← hwav, Option.mem_def] at hread
        unfold wavRead at hread
        split at hread
        · contradiction
        · obtain rfl := Option.some.inj hread
          obtain ⟨hstart, hstop, hle⟩ := wavSpan_bounds hspan
          have hframes := keeps_le hkeep
          have hlength := monoLength_mul_le s.vad.format span
          have hmul := Nat.mul_le_mul_right s.vad.format.channels hframes
          have hrest : (monoLength s.vad.format span - keep) * s.vad.format.channels ≤
              monoLength s.vad.format span * s.vad.format.channels :=
            Nat.mul_le_mul_right _ (Nat.sub_le _ _)
          unfold Span.length at hlength
          have hframe : ∀ r : Span, some r ∈ monoFrames s.vad.format.channels span.start keep ++
              List.replicate extra none → span.start ≤ r.start ∧ r.stop ≤ span.stop := by
            intro r hr
            rcases List.mem_append.mp hr with hr | hr
            · obtain ⟨h1, h2⟩ := mem_monoFrames hr
              exact ⟨h1, h2.trans (by omega)⟩
            · exact absurd (List.eq_of_mem_replicate hr) (by simp)
          refine {
            part := (monoFrames_partOf _ _ _).append_silence _
            written := fun r hr => (hframe r hr).2.trans (by omega)
            oldPos := fun ws' hws' => ?_
            wav := by rw [hws]; rfl
            newPos := by dsimp only; omega
            aligned := ?_ }
          · rw [hws, Option.mem_some_iff] at hws'
            rw [hws']
          · rcases hg ws hws with hholds | hout
            · unfold Ring.Holds at hholds
              exact .inl (by dsimp only; omega)
            · right
              rintro r hr x hx ⟨w, hw, hgen, hfirst, hbefore⟩
              obtain ⟨h1, h2⟩ := hframe r hr
              rw [mem_iff] at hx
              rcases hout w hw hgen with hlow | ⟨e, he, hhigh⟩
              · omega
              · have := hbefore e he
                omega
      · contradiction

/-- Muting an extraction leaves nothing dictated in it. -/
theorem muteRead_silent {s : Mic} (h : Normal s) {read : WavRead} (hf : FreshRead s read) :
    MutedRead s (muteRead s read) where
  written r hr := by
    obtain ⟨i, hi⟩ := List.getElem?_of_mem hr
    exact hf.written r (List.mem_of_getElem? (getElem?_mute _ hi))
  oldPos := hf.oldPos
  newPos := hf.newPos
  silent r hr x hx hd := by
    obtain ⟨i, hi⟩ := List.getElem?_of_mem hr
    rcases hf.aligned with hbase | hclean
    · have hpart := hf.part
      rw [hbase] at hpart
      obtain ⟨hsome, hout⟩ := mute_spec s.vad.format.channels_pos _ hpart i hi
      obtain ⟨ws, hws⟩ := Option.isSome_iff_exists.mp hf.wav
      have hpos : read.oldPos ≤ x := by
        have hlow := hx.1
        rw [hpart i r hsome] at hlow
        exact (Nat.le_add_right _ _).trans hlow
      have hflush := hf.oldPos ws hws
      have hgone := s.minConsumer_le.2 ws hws
      have hfloor := h.positions.wav ws hws
      obtain ⟨w, hw, hwx⟩ := hd
      rcases h.recorded hw hwx (by omega) (by omega) with
        ⟨q, hq, _, h1, h2⟩ | ⟨_, start, hstart, hle⟩
      · refine hout (q.start, some q.stop) ?_ x hx ⟨h1, fun e he => ?_⟩
        · exact List.mem_append_left _ (List.mem_map.mpr ⟨q, hq, rfl⟩)
        · obtain rfl := Option.mem_some_iff.mp he
          exact h2
      · refine hout (start, none) ?_ x hx ⟨hle, fun e he => by contradiction⟩
        rw [Option.mem_def] at hstart
        exact List.mem_append_right _ (by rw [hstart]; simp)
    · exact hclean r (List.mem_of_getElem? (getElem?_mute _ hi)) x hx hd

theorem recordRead_clean {s : Mic} (h : Clean s) {read : WavRead} (hm : MutedRead s read)
    (resampled : Bool) : Clean (recordRead s read resampled) := by
  refine ⟨h.sent, fun c hc => ?_⟩
  dsimp only [recordRead] at hc
  split at hc
  · rcases List.mem_append.mp hc with hc | hc
    · exact h.recorded c hc
    · obtain ⟨r, hr, rfl⟩ := List.mem_map.mp hc
      obtain ⟨frame, hframe, hid⟩ := List.mem_filterMap.mp hr
      obtain rfl : frame = some r := hid
      exact ⟨le_rfl, fun _ => hm.written r hframe, hm.silent r hframe⟩
  · exact h.recorded c hc

theorem recordRead_normal {s : Mic} (h : Normal s) {read : WavRead} (hm : MutedRead s read)
    (resampled : Bool) : Normal (recordRead s read resampled) := by
  have hgone : s.minConsumer ≤ (recordRead s read resampled).minConsumer := by
    dsimp only [Mic.minConsumer, recordRead]
    cases hws : s.wav with
    | none => exact le_rfl
    | some ws =>
      have := hm.oldPos ws hws
      have := hm.newPos
      simp only [Option.map_some, Option.getD_some]
      omega
  refine ⟨recordRead_clean h.clean hm resampled, h.ledger.mono hgone le_rfl,
    { h.positions with wav := fun ws hws => ?_ }, h.written⟩
  obtain ⟨ws', hws', rfl⟩ := Option.map_eq_some_iff.mp hws
  have := hm.oldPos ws' hws'
  have := h.positions.wav ws' hws'
  have := hm.newPos
  dsimp only [recordRead]
  omega

end PrivacyWav

section PrivacyTick

open Spans

variable {f32 : Rounding} {s t : State} {a : Action}

/-- A poll opens an utterance no earlier than the next chunk may begin. -/
theorem pollSource_start (vad : SourceVadState) (frames : List Frame) (clock : List Nat)
    (hearly : vad.earliestNextChunkPos ≤ vad.speechStartPos) :
    let polled := (pollSource parakeet vad frames clock).1
    polled.dictationConsumedThrough = vad.dictationConsumedThrough ∧
      polled.earliestNextChunkPos = vad.earliestNextChunkPos ∧
      vad.earliestNextChunkPos ≤ polled.speechStartPos := by
  intro polled
  by_cases hforce : vad.forceDrain = true
  · have hpolled : polled = vad := by simp [polled, pollSource, hforce]
    rw [hpolled]
    exact ⟨rfl, rfl, hearly⟩
  · rcases (Loop.pollSource_cases vad frames clock (fun h => absurd h hforce)).1 with
      ⟨⟨since, hwait⟩, _⟩ | ⟨⟨_, since, time, hopen⟩, _⟩
    · rw [show polled = _ from hwait]
      exact ⟨rfl, rfl, hearly⟩
    · rw [show polled = _ from hopen]
      exact ⟨rfl, rfl, le_max_right _ _⟩

theorem dispatch_inv {seen : Nat} {suspended : Bool} {action : VadAction} (h : Normal s.toMic)
    (hknown : suspended = false → Known s.toMic seen) : Inv (dispatch s seen suspended action) := by
  unfold dispatch
  split
  · exact h
  · next hs =>
    have hs : suspended = false := Bool.not_eq_true _ ▸ hs
    have hidle : Normal { s.toMic with vad := advanceIdleCursor s.vad s.ring } :=
      h.setVad rfl rfl h.written
    split
    · split
      · exact h
      · exact ⟨h, hknown hs⟩
    · split
      · exact h
      · exact ⟨h, hknown hs⟩
    · split
      · exact hidle
      · exact h

/-- Every step of the session's tick keeps dictated audio out. -/
theorem inv_stepTick (h : Inv s) (hg : Guarded s a) (hst : stepTick f32 s a = some t) : Inv t := by
  obtain ⟨mic, phase⟩ := s
  cases a with
  | extract keep extra =>
    cases phase with
    | select =>
      obtain ⟨wav, hread, rfl⟩ := Option.map_eq_some_iff.mp hst
      exact ⟨h, readWav_fresh hread hg⟩
    | _ => contradiction
  | mute =>
    cases phase with
    | extracted newPos hasAudio wav =>
      obtain rfl := Option.some.inj hst
      refine ⟨h.1, fun read hread => ?_⟩
      obtain ⟨fresh, hfresh, rfl⟩ := Option.map_eq_some_iff.mp hread
      exact muteRead_silent h.1 (h.2 fresh hfresh)
    | _ => contradiction
  | feed frames pending =>
    cases phase with
    | muted newPos hasAudio wav =>
      have hvad : ∀ silero : SileroSource, Normal { mic with vad := { mic.vad with silero := silero } } :=
        fun silero => Normal.setVad h.1 rfl rfl h.1.positions.early
      simp only [stepTick] at hst
      split at hst
      · obtain rfl := Option.some.inj hst
        exact ⟨hvad _, fun read hread => { h.2 read hread with }⟩
      · split at hst
        · obtain rfl := Option.some.inj hst
          exact ⟨hvad _, fun read hread => { h.2 read hread with }⟩
        · contradiction
    | _ => contradiction
  | writeWav resampled =>
    cases phase with
    | fed frames wav =>
      cases wav with
      | none =>
        obtain rfl := Option.some.inj hst
        exact h.1
      | some read =>
        obtain rfl := Option.some.inj hst
        have hn := recordRead_normal h.1 (h.2 read rfl) resampled
        cases resampled <;> exact hn
    | _ => contradiction
  | drain =>
    cases phase with
    | written frames =>
      obtain rfl := Option.some.inj hst
      have hn : Normal { mic with vad := { mic.vad with hasInFlightTask := false } } :=
        Normal.setVad h rfl rfl h.positions.early
      change Normal { mic with vad := if mic.inFlight then mic.vad else _ }
      split
      · exact h
      · exact hn
    | _ => contradiction
  | poll clock =>
    cases phase with
    | drained frames =>
      obtain rfl := Option.some.inj hst
      obtain ⟨h1, h2, h3⟩ := pollSource_start mic.vad frames clock h.positions.early
      exact Normal.setVad h h1 h2 h3
    | _ => contradiction
  | snapshot =>
    cases phase with
    | polled action =>
      obtain rfl := Option.some.inj hst
      exact ⟨h, snapshot_owning h, fun _ htodo _ => snapshot_known h htodo⟩
    | _ => contradiction
  | consume now =>
    cases phase with
    | owning todo opened seen suspended action =>
      cases todo with
      | nil => contradiction
      | cons window todo =>
        obtain rfl := Option.some.inj hst
        obtain ⟨hn, ho⟩ := consumeWindow_normal f32 h.1 h.2.1 now
        exact ⟨hn, ho, fun hs => by contradiction⟩
    | _ => contradiction
  | settle now =>
    cases phase with
    | owning todo opened seen suspended action =>
      cases todo with
      | cons window todo => contradiction
      | nil =>
        cases opened with
        | none =>
          obtain rfl := Option.some.inj hst
          exact ⟨h.1, fun hs => h.2.2 hs rfl rfl⟩
        | some start =>
          obtain rfl := Option.some.inj hst
          exact ⟨settleOpen_normal f32 h.1 h.2.1 now, fun hs => by contradiction⟩
    | _ => contradiction
  | dispatch =>
    cases phase with
    | deciding seen suspended action =>
      obtain rfl := Option.some.inj hst
      exact dispatch_inv h.1 h.2
    | _ => contradiction
  | prepare now =>
    cases phase with
    | dispatching seen isForceChunk currentPos =>
      obtain rfl := Option.some.inj hst
      exact (prepareOn_normal f32 h.1 isForceChunk .live false now (fun x hx hlt =>
        (h.2 currentPos).not_dictates hg hx hlt hlt)).1
    | _ => contradiction
  | prune =>
    cases phase with
    | pruning =>
      obtain rfl := Option.some.inj hst
      exact prune_normal h
    | _ => contradiction
  | _ => contradiction

end PrivacyTick

end YapStack.Live.Session
