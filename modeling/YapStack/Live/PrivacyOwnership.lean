import Mathlib.Data.List.TakeWhile
import YapStack.Live.PrivacySteps

set_option linter.unusedSectionVars false

namespace YapStack.Live.Session

open Spans

variable (f32 : Rounding)

theorem Mic.minConsumer_le (s : Mic) :
    s.minConsumer ≤ s.vad.dictationConsumedThrough ∧ ∀ ws ∈ s.wav, s.minConsumer ≤ ws.flushPos := by
  unfold Mic.minConsumer
  cases s.wav with
  | none => exact ⟨le_rfl, fun ws h => by contradiction⟩
  | some ws =>
    refine ⟨min_le_left _ _, fun ws' h => ?_⟩
    obtain rfl := Option.mem_some_iff.mp h
    exact min_le_right _ _

/-- A dictated sample that the session has not passed lies in a recorded window. -/
theorem Normal.recorded {s : Mic} (h : Normal s) {w : Dictated} (hw : w ∈ s.windows) {x : Nat}
    (hx : w.Holds s.gen x) (hgone : s.minConsumer ≤ x) (hfloor : s.floor ≤ x) :
    (∃ r ∈ s.owns.closed, w.stop = some r.stop ∧ r.start ≤ x ∧ x < r.stop) ∨
      w.stop = none ∧ ∃ start ∈ s.owns.opened, start ≤ x := by
  obtain ⟨hgen, hfirst, hstop⟩ := hx
  have hmax : max w.first s.floor ≤ x := max_le hfirst hfloor
  cases hs : w.stop with
  | none =>
    obtain ⟨start, hstart, hle⟩ := h.ledger.opened w hw hs
    exact .inr ⟨rfl, start, hstart, hle.trans hmax⟩
  | some e =>
    have hlt := hstop e hs
    rcases h.ledger.closed w hw hgen e hs with he | he | ⟨r, hr, rfl, hle⟩
    · omega
    · omega
    · exact .inl ⟨r, hr, rfl, hle.trans hmax, hlt⟩

theorem Normal.passed {s : Mic} (h : Normal s) {x : Nat} (hx : s.vad.speechStartPos ≤ x) :
    s.minConsumer ≤ x ∧ s.floor ≤ x := by
  have h1 := s.minConsumer_le.1
  have h2 := h.positions.consumed
  have h3 := h.positions.early
  have h4 := h.positions.floor
  omega

theorem Normal.setVad {s : Mic} (h : Normal s) {vad : SourceVadState}
    (hconsumed : vad.dictationConsumedThrough = s.vad.dictationConsumedThrough)
    (hearliest : vad.earliestNextChunkPos = s.vad.earliestNextChunkPos)
    (hearly : s.vad.earliestNextChunkPos ≤ vad.speechStartPos) :
    Normal { s with vad := vad } where
  clean := { h.clean with }
  ledger := by
    have hl := h.ledger
    unfold Mic.Ledger Mic.minConsumer at hl ⊢
    dsimp only
    rwa [hconsumed]
  positions := {
    consumed := by dsimp only; rw [hconsumed, hearliest]; exact h.positions.consumed
    early := by dsimp only; rw [hearliest]; exact hearly
    floor := by dsimp only; rw [hearliest]; exact h.positions.floor
    wav := h.positions.wav }
  written := by dsimp only; rw [hearliest]; exact h.written

theorem closedPrefix_spec (windows : List Dictated) :
    closedPrefix windows ≤ windows.length ∧
      ∀ w ∈ windows.take (closedPrefix windows), w.stop.isSome = true := by
  have htake := List.prefix_iff_eq_take.mp
    (List.takeWhile_prefix (fun w : Dictated => w.stop.isSome) (l := windows))
  refine ⟨(List.takeWhile_prefix _).length_le, fun w hw => ?_⟩
  unfold closedPrefix at hw
  rw [← htake] at hw
  exact List.mem_takeWhile_imp (p := fun w : Dictated => w.stop.isSome) hw

/-- Every window that is closed at a snapshot is one of its records, or behind the session. -/
theorem Normal.snapshotOf {s : Mic} (h : Normal s) :
    SnapshotOf s s.owns (closedPrefix s.windows) := by
  obtain ⟨hle, hclosed⟩ := closedPrefix_spec s.windows
  refine ⟨hle, fun w hw => ⟨hclosed w hw, fun x hx hd => ?_⟩⟩
  obtain ⟨hgone, hfloor⟩ := h.passed hx
  rcases h.recorded (List.mem_of_mem_take hw) hd hgone hfloor with
    ⟨r, hr, _, h1, h2⟩ | ⟨hnone, _⟩
  · exact ⟨r, hr, h1, h2, (h.ledger.ends r hr).2.2⟩
  · have := hclosed w hw
    rw [hnone] at this
    contradiction

/-- No overlap with the snapshot means nothing dictated in the pending range. -/
theorem SnapshotOf.knownTo {s : Mic} {snapshot : DictationOwnsMic} {seen limit bound : Nat}
    (h : SnapshotOf s snapshot seen)
    (hover : snapshot.overlaps s.vad.speechStartPos bound = false)
    (hbound : limit ≤ bound ∨ s.ring.writePos ≤ bound) : KnownTo s seen limit := by
  refine ⟨h.1, fun w hw => ⟨(h.2 w hw).1, fun x hx hlt hd => ?_⟩⟩
  obtain ⟨r, hr, h1, h2, h3⟩ := (h.2 w hw).2 x hx hd
  simp only [DictationOwnsMic.overlaps, Bool.or_eq_false_iff, List.any_eq_false,
    MicWindow.overlaps, decide_eq_true_eq] at hover
  exact hover.2 r hr (by omega)

/-- Handing over a part of the pending range that holds nothing dictated. -/
theorem prepareOn_normal {s : Mic} (h : Normal s) (isForceChunk : Bool) (origin : JobOrigin)
    (bounded : Bool) {currentPos : Nat} (now : Nat)
    (hclean : ∀ x, s.vad.speechStartPos ≤ x → x < currentPos → ¬ s.Dictates s.gen x) :
    let t := prepareOn f32 s isForceChunk origin bounded currentPos now
    Normal t ∧ s.vad.speechStartPos ≤ t.vad.speechStartPos ∧
      t.vad.dictationConsumedThrough = s.vad.dictationConsumedThrough := by
  intro t
  rcases prepareChunkDispatchInner_range f32 s.vad s.ring isForceChunk origin
    parakeet.maxChunkDuration bounded currentPos now with ⟨pos, hp⟩ |
    ⟨chunk, maxRaw, seekPause, hstart, hlt, hcur, hwritten, hp⟩
  · have ht : t = { { s with vad := { s.vad with cursor := pos } } with
        inFlight := s.inFlight } := by
      simp [t, prepareOn, hp]
    rw [ht]
    have hn : Normal { s with vad := { s.vad with cursor := pos } } :=
      h.setVad rfl rfl h.positions.early
    exact ⟨hn, le_rfl, rfl⟩
  · have ht : t = { s with
        vad := s.vad.advancedPast chunk.audio.stop currentPos maxRaw isForceChunk seekPause now
        inFlight := true
        sent := s.sent ++ [(s.gen, chunk.audio)] } := by
      simp [t, prepareOn, hp]
    rw [ht]
    have h1 := h.positions.consumed
    have h2 := h.positions.early
    have h3 := h.positions.floor
    refine ⟨⟨⟨fun c hc => ?_, h.clean.recorded⟩, h.ledger, ?_, hwritten⟩, ?_, rfl⟩
    · rcases List.mem_append.mp hc with hc | hc
      · exact h.clean.sent c hc
      · obtain rfl := List.mem_singleton.mp hc
        exact ⟨le_rfl, fun _ => hwritten,
          fun x hx => hclean x (hstart.trans hx.1) (hx.2.trans_le hcur)⟩
    · refine ⟨?_, le_rfl, ?_, h.positions.wav⟩
      · dsimp only [SourceVadState.advancedPast]
        omega
      · dsimp only [SourceVadState.advancedPast]
        omega
    · dsimp only [SourceVadState.advancedPast]
      omega

/-- What the deciding snapshot knew is out of the way, and the rest has not begun. -/
theorem KnownTo.not_dictates {s : Mic} {seen limit pos : Nat} (h : KnownTo s seen limit)
    (hbegin : BeginAfter s seen pos) {x : Nat} (hx : s.vad.speechStartPos ≤ x)
    (hlimit : x < limit) (hpos : x < pos) : ¬ s.Dictates s.gen x := by
  rintro ⟨w, hw, hd⟩
  rw [← List.take_append_drop seen s.windows] at hw
  rcases List.mem_append.mp hw with hw | hw
  · exact (h.2 w hw).2 x hx hlimit hd
  · have hfirst := hbegin w hw hd.1
    exact absurd hd.2.1 (by omega)

section Ownership

theorem snapshot_owning {s : Mic} (h : Normal s) :
    Owning s (s.owns.closed.filter (fun w => decide (s.vad.dictationConsumedThrough < w.stop)))
      s.owns.opened where
  mem q hq := (List.mem_filter.mp hq).1
  pending q hq := of_decide_eq_true (List.mem_filter.mp hq).2
  sorted := h.ledger.sorted.filter _
  rest r hr hlt := .inl (List.mem_filter.mpr ⟨hr, decide_eq_true hlt⟩)
  opened start ho := by
    refine ⟨(h.ledger.after start ho).1, fun start' ho' => ?_, fun start' hd => ?_⟩
    · rw [Option.mem_def] at ho ho'
      rw [ho] at ho'
      exact le_of_eq (Option.some.inj ho')
    · rw [h.ledger.idle (.inr ⟨start', hd⟩)] at ho
      contradiction

theorem snapshot_known {s : Mic} (h : Normal s)
    (htodo : s.owns.closed.filter
      (fun w => decide (s.vad.dictationConsumedThrough < w.stop)) = []) :
    Known s (closedPrefix s.windows) := by
  intro limit
  have hsnap := h.snapshotOf
  refine ⟨hsnap.1, fun w hw => ⟨(hsnap.2 w hw).1, fun x hx _ hd => ?_⟩⟩
  obtain ⟨r, hr, _, h2, _⟩ := (hsnap.2 w hw).2 x hx hd
  have h3 := h.positions.consumed
  have h4 := h.positions.early
  have hmem : r ∈ s.owns.closed.filter
      (fun w => decide (s.vad.dictationConsumedThrough < w.stop)) :=
    List.mem_filter.mpr ⟨hr, decide_eq_true (by omega)⟩
  rw [htodo] at hmem
  exact List.not_mem_nil hmem

/-- Nothing before the next window of a tick, or before the window that was open, is dictated
and still pending. -/
theorem Owning.not_dictates {s : Mic} {todo : List MicWindow} {opened : Option Nat}
    (h : Normal s) (ho : Owning s todo opened) {bound : Nat}
    (hbound : todo.head?.map MicWindow.start = some bound ∨ todo = [] ∧ opened = some bound)
    {x : Nat} (hx : s.vad.speechStartPos ≤ x) (hlt : x < bound) : ¬ s.Dictates s.gen x := by
  rintro ⟨w, hw, hd⟩
  obtain ⟨hgone, hfloor⟩ := h.passed hx
  have h3 := h.positions.consumed
  have h4 := h.positions.early
  rcases h.recorded hw hd hgone hfloor with ⟨r, hr, _, h1, h2⟩ | ⟨_, start, hstart, hle⟩
  · rcases hbound with hhead | ⟨rfl, hopen⟩
    · obtain ⟨q, hq, rfl⟩ := Option.map_eq_some_iff.mp hhead
      obtain ⟨tail, rfl⟩ := List.head?_eq_some_iff.mp hq
      have hq' := h.ledger.ends q (ho.mem q List.mem_cons_self)
      rcases ho.rest r hr (by omega) with hmem | ⟨hall, _⟩
      · rcases List.mem_cons.mp hmem with rfl | hmem
        · omega
        · have := (List.pairwise_cons.mp ho.sorted).1 r hmem
          omega
      · have := hall q List.mem_cons_self
        omega
    · rcases ho.rest r hr (by omega) with hmem | ⟨_, hall⟩
      · exact List.not_mem_nil hmem
      · have := hall bound hopen
        omega
  · rcases hbound with hhead | ⟨_, hopen⟩
    · obtain ⟨q, hq, rfl⟩ := Option.map_eq_some_iff.mp hhead
      have hq' := ho.mem q (List.mem_of_mem_head? hq)
      have h5 := (h.ledger.after start hstart).2 q hq'
      have h6 := h.ledger.ends q hq'
      omega
    · have := (ho.opened bound hopen).2.1 start hstart
      omega

theorem preWindowFlush_normal {s : Mic} (h : Normal s) {start : Nat} (now : Nat)
    (hclean : ∀ x, s.vad.speechStartPos ≤ x → x < start → ¬ s.Dictates s.gen x) :
    let t := preWindowFlush f32 s start now
    Normal t ∧ t.vad.dictationConsumedThrough = s.vad.dictationConsumedThrough ∧
      t.owns = s.owns ∧ t.windows = s.windows ∧ t.gen = s.gen ∧ t.ring = s.ring ∧
      t.dictation = s.dictation := by
  intro t
  simp only [t, preWindowFlush]
  split
  · have hp := prepareOn_normal f32 h true .live true now hclean
    exact ⟨hp.1, hp.2.2, rfl, rfl, rfl, rfl, rfl⟩
  · exact ⟨h, rfl, rfl, rfl, rfl, rfl, rfl⟩

/-- Consuming a window puts the session behind its end, with the later windows left to do. -/
theorem consumeWindow_normal {s : Mic} {window : MicWindow} {todo : List MicWindow}
    {opened : Option Nat} (h : Normal s) (ho : Owning s (window :: todo) opened) (now : Nat) :
    let t := consumeWindow f32 s window now
    Normal t ∧ Owning t todo opened := by
  intro t
  have hclean : ∀ x, s.vad.speechStartPos ≤ x → x < window.start → ¬ s.Dictates s.gen x :=
    fun x hx hlt => ho.not_dictates h (.inl rfl) hx hlt
  obtain ⟨hn, hconsumed, howns, hwindows, hgen, hring, hdictation⟩ :=
    preWindowFlush_normal f32 h now hclean
  have hmem := ho.mem window List.mem_cons_self
  have hpending := ho.pending window List.mem_cons_self
  obtain ⟨_, hfloor, hwritten⟩ := hn.ledger.ends window (by rwa [howns])
  have hsorted := List.pairwise_cons.mp ho.sorted
  have hgone : (preWindowFlush f32 s window.start now).minConsumer ≤ t.minConsumer := by
    simp only [t, consumeWindow]
    unfold Mic.minConsumer
    dsimp only
    cases (preWindowFlush f32 s window.start now).wav with
    | none => simp only [Option.map_none, Option.getD_none]; omega
    | some ws => simp only [Option.map_some, Option.getD_some]; omega
  refine ⟨⟨{ hn.clean with }, ?_, ⟨le_rfl, le_rfl, hfloor, hn.positions.wav⟩, hwritten⟩, ?_⟩
  · exact hn.ledger.mono hgone le_rfl
  · refine ⟨fun q hq => ?_, fun q hq => ?_, hsorted.2, fun r hr hlt => ?_, fun start hs => ?_⟩
    · rw [show t.owns = s.owns from howns]
      exact ho.mem q (List.mem_cons_of_mem _ hq)
    · have h1 := hsorted.1 q hq
      have h2 := h.ledger.ends q (ho.mem q (List.mem_cons_of_mem _ hq))
      exact h1.trans_lt h2.1
    · have hlt' : window.stop < r.stop := hlt
      rcases ho.rest r (by rw [← howns]; exact hr) (by omega) with hmem' | ⟨hall, hstart⟩
      · rcases List.mem_cons.mp hmem' with rfl | hmem'
        · omega
        · exact .inl hmem'
      · exact .inr ⟨fun q hq => hall q (List.mem_cons_of_mem _ hq), hstart⟩
    · rw [show t.ring = s.ring from hring, show t.owns = s.owns from howns,
        show t.dictation = s.dictation from hdictation]
      exact ho.opened start hs

theorem settleOpen_normal {s : Mic} {start : Nat} (h : Normal s)
    (ho : Owning s [] (some start)) (now : Nat) : Normal (settleOpen f32 s start now) := by
  unfold settleOpen
  split
  · exact h
  · have hn := (preWindowFlush_normal f32 h now
      (fun x hx hlt => ho.not_dictates h (.inr ⟨rfl, rfl⟩) hx hlt)).1
    exact hn.setVad rfl rfl hn.positions.early

theorem prune_normal {s : Mic} (h : Normal s) :
    Normal { s with owns := s.owns.pruneBefore s.minConsumer } where
  clean := { h.clean with }
  ledger := by
    have hsub : (s.owns.closed.dropWhile (fun w => decide (w.stop ≤ s.minConsumer))).Sublist
        s.owns.closed := List.dropWhile_sublist _
    have hl := h.ledger
    refine { hl with
      closed := fun w hw hg e he => ?_
      ends := fun r hr => hl.ends r (hsub.mem hr)
      sorted := hl.sorted.sublist hsub
      after := fun st hs => ⟨(hl.after st hs).1, fun r hr => (hl.after st hs).2 r (hsub.mem hr)⟩
      starting := fun st hs =>
        ⟨(hl.starting st hs).1, fun r hr => (hl.starting st hs).2 r (hsub.mem hr)⟩ }
    rcases hl.closed w hw hg e he with h | h | ⟨r, hr, rfl, hle⟩
    · exact .inl h
    · exact .inr (.inl h)
    · rw [← List.takeWhile_append_dropWhile (p := fun w => decide (w.stop ≤ s.minConsumer))
        (l := s.owns.closed)] at hr
      rcases List.mem_append.mp hr with hr | hr
      · exact .inl (of_decide_eq_true (List.mem_takeWhile_imp (p := fun w : MicWindow =>
          decide (w.stop ≤ s.minConsumer)) hr))
      · exact .inr (.inr ⟨r, hr, rfl, hle⟩)
  positions := { h.positions with }
  written := h.written

end Ownership

end YapStack.Live.Session
