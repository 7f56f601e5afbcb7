import YapStack.Live.PrivacySwap
import YapStack.Live.PrivacyTick
import YapStack.Live.TilingSteps

set_option linter.unusedSectionVars false

namespace YapStack.Live.Session

section PrivacyEnd

open Spans

variable {f32 : Rounding} {s t : State} {a : Action}

/-- A stop is noticed between the steps of a tick, where nothing is half done. -/
theorem Inv.normal_of_atStopCheck (h : Inv s) (hphase : s.phase.atStopCheck = true) :
    Normal s.toMic := by
  obtain ⟨mic, phase⟩ := s
  cases phase with
  | select | written frames | drained frames => exact h
  | muted newPos hasAudio wav | fed frames wav => exact h.1
  | _ => contradiction

theorem finalFlushRanges_within (source : SourceVadState) (limit : Nat) (speech : Bool) :
    ∀ r ∈ finalFlushRanges source limit parakeet.maxChunkDuration speech,
      source.speechStartPos ≤ r.start ∧ r.stop ≤ limit := by
  intro r hr
  rcases finalFlushRanges_cases source limit speech with ⟨hnil, _⟩ | ⟨hchain, _⟩
  · rw [hnil] at hr
    exact (List.not_mem_nil hr).elim
  · have hbounds := hchain.bounds r hr
    exact ⟨hbounds.1, hbounds.2.2⟩

theorem copyRange_normal {s t : Mic} (h : Normal s) {seen limit : Nat} (hk : KnownTo s seen limit)
    (hbegin : BeginAfter s seen limit) {r : Span} (hstart : s.vad.speechStartPos ≤ r.start)
    (hstop : r.stop ≤ limit) (hcopy : copyRange s r = some t) :
    Normal t ∧ t.vad = s.vad ∧ KnownTo t seen limit := by
  obtain ⟨extraction, hsome, rfl⟩ := Option.map_eq_some_iff.mp hcopy
  split
  · exact ⟨h, rfl, hk⟩
  · obtain ⟨h1, _, h2, h3⟩ := extractSourceAudioUntil_bounds hsome
    refine ⟨⟨⟨fun c hc => ?_, h.clean.recorded⟩, h.ledger, { h.positions with }, h.written⟩, rfl, hk⟩
    rcases List.mem_append.mp hc with hc | hc
    · exact h.clean.sent c hc
    · obtain rfl := List.mem_singleton.mp hc
      refine ⟨le_rfl, fun _ => h3, fun x hx => ?_⟩
      have hlow : s.vad.speechStartPos ≤ x := hstart.trans (h1.trans hx.1)
      have hhigh : x < limit := hx.2.trans_le (h2.trans hstop)
      exact hk.not_dictates hbegin hlow hhigh hhigh

theorem Known.mono {s t : Mic} {seen : Nat} (h : Known s seen) (hgen : t.gen = s.gen)
    (hwindows : t.windows = s.windows) (hstart : s.vad.speechStartPos ≤ t.vad.speechStartPos) :
    Known t seen := by
  intro limit
  obtain ⟨hle, hknown⟩ := h limit
  refine ⟨by rwa [hwindows], fun w hw => ?_⟩
  rw [hwindows] at hw
  rw [hgen]
  exact ⟨(hknown w hw).1, fun x hx => (hknown w hw).2 x (hstart.trans hx)⟩

/-- The end of the loop keeps dictated audio out. -/
theorem inv_stepEnd (h : Inv s) (hg : Guarded s a) (hst : stepEnd f32 s a = some t) : Inv t := by
  cases a with
  | observeStop =>
    simp only [stepEnd] at hst
    split at hst
    · contradiction
    · split at hst
      · next hphase =>
        obtain rfl := Option.some.inj hst
        exact h.normal_of_atStopCheck hphase
      · contradiction
  | decideStop =>
    obtain ⟨mic, phase⟩ := s
    cases phase with
    | stopping limit =>
      obtain rfl := Option.some.inj hst
      have hn : Normal mic := h
      cases hover : mic.owns.overlaps mic.vad.speechStartPos limit with
      | true => simpa only [Inv, hover, if_true] using hn
      | false =>
        simp only [Inv, Bool.false_eq_true, if_false]
        exact ⟨hn, hn.snapshotOf.knownTo hover (.inl le_rfl)⟩
    | _ => contradiction
  | scoreTail speech =>
    obtain ⟨mic, phase⟩ := s
    cases phase with
    | tail limit seen =>
      obtain rfl := Option.some.inj hst
      exact ⟨h.1, h.2, finalFlushRanges_within mic.vad limit speech⟩
    | _ => contradiction
  | copy =>
    obtain ⟨mic, phase⟩ := s
    cases phase with
    | copying limit seen ranges =>
      obtain ⟨hn, hk, hranges⟩ := h
      cases ranges with
      | nil =>
        obtain rfl := Option.some.inj hst
        exact hn
      | cons r rest =>
        simp only [stepEnd] at hst
        split at hst
        · obtain rfl := Option.some.inj hst
          exact hn
        · next copied hcopy =>
          obtain rfl := Option.some.inj hst
          obtain ⟨hstart, hstop⟩ := hranges r List.mem_cons_self
          obtain ⟨hn', hvad, hk'⟩ := copyRange_normal hn hk hg hstart hstop hcopy
          refine ⟨hn', hk', fun q hq => ?_⟩
          dsimp only
          rw [hvad]
          exact hranges q (List.mem_cons_of_mem _ hq)
    | _ => contradiction
  | fail =>
    obtain ⟨mic, phase⟩ := s
    cases phase with
    | select | written frames =>
      obtain rfl := Option.some.inj hst
      exact h
    | _ => contradiction
  | snapshotFail =>
    obtain ⟨mic, phase⟩ := s
    cases phase with
    | failing =>
      obtain rfl := Option.some.inj hst
      have hn : Normal mic := h
      exact ⟨hn, hn.snapshotOf⟩
    | _ => contradiction
  | decideFail =>
    obtain ⟨mic, phase⟩ := s
    cases phase with
    | failChecked snapshot seen =>
      obtain rfl := Option.some.inj hst
      obtain ⟨hn, hsnap⟩ := h
      cases hover : snapshot.overlaps mic.vad.speechStartPos mic.ring.writePos with
      | true => simpa only [Inv, hover, if_true] using hn
      | false =>
        simp only [Inv, Bool.false_eq_true, if_false]
        exact ⟨hn, fun limit => hsnap.knownTo hover (.inr le_rfl)⟩
    | _ => contradiction
  | flush =>
    obtain ⟨mic, phase⟩ := s
    cases phase with
    | flushing seen again =>
      cases again with
      | false => contradiction
      | true =>
        simp only [stepEnd] at hst
        split at hst
        · obtain rfl := Option.some.inj hst
          exact h
        · contradiction
    | _ => contradiction
  | prepareFinal now =>
    obtain ⟨mic, phase⟩ := s
    cases phase with
    | flushDispatching seen currentPos =>
      obtain rfl := Option.some.inj hst
      obtain ⟨hn, hk⟩ := h
      obtain ⟨hn', hstart, _⟩ := prepareOn_normal f32 hn true .finalFlush false now
        (fun x hx hlt => (hk currentPos).not_dictates hg hx hlt hlt)
      exact ⟨hn', hk.mono rfl rfl hstart⟩
    | _ => contradiction
  | endFlush =>
    obtain ⟨mic, phase⟩ := s
    cases phase with
    | flushing seen again =>
      obtain rfl := Option.some.inj hst
      exact h.1
    | _ => contradiction
  | readWavTail keep extra =>
    obtain ⟨mic, phase⟩ := s
    cases phase with
    | wavTail limit =>
      obtain ⟨wav, hread, rfl⟩ := Option.map_eq_some_iff.mp hst
      exact ⟨h, readWav_fresh hread hg⟩
    | _ => contradiction
  | muteWavTail =>
    obtain ⟨mic, phase⟩ := s
    cases phase with
    | wavTailRead wav =>
      cases wav with
      | none =>
        obtain rfl := Option.some.inj hst
        exact h.1.clean
      | some read =>
        obtain rfl := Option.some.inj hst
        exact recordRead_clean h.1.clean (muteRead_silent h.1 (h.2 read rfl)) true
    | _ => contradiction
  | _ => contradiction

theorem inv_step (h : Inv s) (hg : Guarded s a) (hst : step f32 s a = some t) : Inv t := by
  rcases Option.or_eq_some_iff.mp hst with hout | ⟨_, hst⟩
  · exact inv_stepOutside h hg hout
  · rcases Option.or_eq_some_iff.mp hst with htick | ⟨_, hst⟩
    · exact inv_stepTick h hg htick
    · rcases Option.or_eq_some_iff.mp hst with hswap | ⟨_, hend⟩
      · exact inv_stepSwap h hg hswap
      · exact inv_stepEnd h hg hend

theorem Inv.clean (h : Inv s) : Clean s.toMic := by
  obtain ⟨mic, phase⟩ := s
  unfold Inv at h
  cases phase with
  | select | written _ | drained _ | polled _ | pruning | stopping _ | failing | wavTail _ =>
    exact h.clean
  | extracted _ _ _ | wavTailRead _ | muted _ _ _ | fed _ _ | owning _ _ _ _ _ | deciding _ _ _
  | dispatching _ _ _ | tail _ _ | copying _ _ _ | failChecked _ _ | flushing _ _
  | flushDispatching _ _ => exact h.1.clean
  | swapped _ | positioned _ _ => exact h.1
  | rebased _ _ _ | rescued _ _ _ => exact h.1.1
  | resetting _ _ => exact h.1
  | done => exact h

end PrivacyEnd

section PrivacyRuns

open Spans

theorem inv_initial {s : State} (h : Initial s) : Inv s := by
  have hledger : Session.Ledger s.gen 0 0 s.ring.writePos s.dictation s.owns s.windows := by
    obtain ⟨before, as, hidle, howns, hwindows, hexec⟩ := h.dictation
    refine Runs.exec_invariant (I := fun t : State =>
        Session.Ledger t.gen 0 0 t.ring.writePos t.dictation t.owns t.windows)
      (fun _ _ _ hl hst => stepOutside_ledger hl hst) ?_ hexec
    have hnil : ∀ w, w ∉ before.windows := by
      rw [hwindows]
      exact fun w => List.not_mem_nil
    have hclosed : ∀ r, r ∉ before.owns.closed := by
      rw [howns]
      exact fun r => List.not_mem_nil
    exact {
      gens := fun w hw => (hnil w hw).elim
      current := fun w hw => (hnil w hw).elim
      opened := fun w hw => (hnil w hw).elim
      closed := fun w hw => (hnil w hw).elim
      ends := fun r hr => (hclosed r hr).elim
      sorted := by rw [howns]; exact List.Pairwise.nil
      after := fun start hs => by rw [howns] at hs; contradiction
      starting := fun start hs => by rw [hidle] at hs; contradiction
      finishing := fun stop hs => by rw [hidle] at hs; contradiction
      written := Nat.zero_le _
      idle := fun _ => by rw [howns]; rfl }
  have hn : Normal s.toMic := {
    clean := {
      sent := fun c hc => by rw [h.sent] at hc; exact (List.not_mem_nil hc).elim
      recorded := fun c hc => by rw [h.recorded] at hc; exact (List.not_mem_nil hc).elim }
    ledger := by
      unfold Mic.Ledger
      rw [h.floor]
      exact hledger.mono (Nat.zero_le _) le_rfl
    positions := {
      consumed := by rw [h.consumed]; exact Nat.zero_le _
      early := h.early
      floor := by rw [h.floor]; exact Nat.zero_le _
      wav := fun ws _ => by rw [h.floor]; exact Nat.zero_le _ }
    written := h.written }
  unfold Inv
  rw [h.phase]
  exact hn

theorem Clean.private {s : Mic} (h : Clean s) : Private s :=
  ⟨fun c hc => (h.sent c hc).2.2, fun c hc => (h.recorded c hc).2.2⟩

section Runs

def sessionOn (ring : Ring) (wav : Option SessionWavState) : State where
  gen := 0
  ring := ring
  vad := .new 0 0 Loop.mono16kHz 0
  inFlight := false
  stopAt := none
  wav := wav
  owns := .new
  dictation := .idle
  windows := []
  floor := 0
  sent := []
  recorded := []
  phase := .select

theorem sessionOn_initial (ring : Ring) (wav : Option SessionWavState) :
    Initial (sessionOn ring wav) :=
  ⟨rfl, le_rfl, Nat.zero_le _, rfl, rfl, rfl, rfl, _, [], rfl, rfl, rfl, rfl⟩

/-- A tick up to its ownership snapshot. -/
def tickTo (frames : List Frame) (pending : Nat) (clock : List Nat) : List Action :=
  [.extract 0 0, .mute, .feed frames pending, .writeWav true, .drain, .poll clock, .snapshot]

/-- Someone speaks, then dictates, and a tick sees the closed window. -/
def speakThenDictate : List Action :=
  [.write 16000] ++ tickTo (Loop.scored 0 31 [28, 29]) 128 [] ++
    [.settle 0, .dispatch, .prune, .readStart, .openWindow, .write 8000, .readEnd, .closeWindow,
      .write 8000] ++
    tickTo (Loop.scored 15872 31 []) 256 [] ++ [.consume 0, .settle 0, .dispatch, .prune]

/-- A dictation that begins between the snapshot and the dispatch of a tick. -/
def dictateInTick : List Action :=
  [.write 16000] ++ tickTo (Loop.scored 0 31 [28, 29]) 128 [] ++
    [.settle 0, .dispatch, .prune, .write 16000] ++ tickTo (Loop.scored 15872 31 []) 256 [] ++
    [.settle 0, .dispatch, .prune] ++ tickTo [] 256 [600000000] ++
    [.settle 0, .readStart, .openWindow, .write 1600, .dispatch, .prepare 0]

/-- An overrun moves the samples of the WAV away from the indices that are muted. -/
example : (Runs.exec (step .exact) (sessionOn ⟨10, 0⟩ (some ⟨0, false⟩))
    [.write 12, .readStart, .openWindow, .write 2, .readEnd, .closeWindow, .write 6,
      .extract 10 0, .mute, .feed [] 0, .writeWav true]).map
        (fun u => decide (((0, ⟨12, 13⟩) : Nat × Span) ∈ u.recorded ∧
          (⟨0, 12, 12, some 14⟩ : Dictated) ∈ u.windows)) = some true := by decide +kernel

/-- A rescue looks for window starts from the speech start on only. -/
example : (Runs.exec (step .exact) (sessionOn ⟨480000, 0⟩ none)
    (tickTo [] 0 [] ++ [.settle 0, .readStart, .openWindow, .write 16000, .dispatch, .prune,
      .write 16000, .restart 480000 Loop.mono16kHz, .readNewPos, .rebase, .rescueChunk])).map
        (fun u => decide (((0, ⟨16000, 32000⟩) : Nat × Span) ∈ u.sent ∧
          (⟨0, 0, 0, some 32000⟩ : Dictated) ∈ u.windows)) = some true := by decide +kernel

/-- A window that closes between a restart and the rebase is forgotten. -/
example : (Runs.exec (step .exact) (sessionOn ⟨480000, 0⟩ (some ⟨0, false⟩))
    [.readStart, .openWindow, .restart 480000 Loop.mono16kHz, .readNewPos, .write 100, .readEnd,
      .closeWindow, .rebase, .rescueChunk, .rescueWav true, .reset 0, .extract 100 0, .mute,
      .feed [] 0, .writeWav true]).map
        (fun u => decide (((1, ⟨0, 1⟩) : Nat × Span) ∈ u.recorded ∧
          (⟨1, 0, 0, some 100⟩ : Dictated) ∈ u.windows)) = some true := by decide +kernel

end Runs

end PrivacyRuns

end YapStack.Live.Session
