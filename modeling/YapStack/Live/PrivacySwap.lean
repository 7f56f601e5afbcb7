import YapStack.Live.PrivacyTick

set_option linter.unusedSectionVars false

namespace YapStack.Live.Session

open Spans

theorem Mic.minConsumer_le_rescueStart {s : Mic} (h : Positions s) :
    s.minConsumer ≤ s.rescueStart ∧ s.floor ≤ s.rescueStart := by
  obtain ⟨hconsumed, hwav⟩ := s.minConsumer_le
  have h1 := h.consumed
  have h2 := h.early
  have h3 := h.floor
  unfold Mic.rescueStart
  cases hws : s.wav with
  | none =>
    simp only [Option.map_none, Option.getD_none]
    omega
  | some ws =>
    have h4 := hwav ws hws
    have h5 := h.wav ws hws
    simp only [Option.map_some, Option.getD_some]
    split
    · omega
    · exact ⟨le_min (by omega) h4, le_min (by omega) h5⟩

theorem Mic.rescueStart_le (s : Mic) :
    s.rescueStart ≤ s.vad.speechStartPos ∧
      ∀ ws ∈ s.wav, ws.mixed = false → s.rescueStart ≤ ws.flushPos := by
  unfold Mic.rescueStart
  cases hws : s.wav with
  | none => exact ⟨le_rfl, fun ws h => by contradiction⟩
  | some ws =>
    simp only [Option.map_some, Option.getD_some]
    refine ⟨?_, fun ws' h hmixed => ?_⟩
    · split
      · exact le_rfl
      · exact min_le_left _ _
    obtain rfl := Option.mem_some_iff.mp h
    rw [hmixed, if_neg Bool.false_ne_true]
    exact min_le_right _ _

/-- Windows of the dropped ring are closed when it is dropped, and an open one goes on. -/
theorem mem_restart {s : Mic} {capacity : Nat} {w : Dictated}
    (h : w ∈ (restart s capacity).windows) :
    (∃ v ∈ s.windows, w = v.closeAt s.ring.writePos) ∨
      w = ⟨s.gen + 1, 0, 0, none⟩ ∧ ∃ v ∈ s.windows, v.stop = none := by
  rcases List.mem_append.mp h with h | h
  · obtain ⟨v, hv, rfl⟩ := List.mem_map.mp h
    exact .inl ⟨v, hv, rfl⟩
  · split at h
    · next hany =>
      obtain ⟨v, hv, hnone⟩ := List.any_eq_true.mp hany
      exact .inr ⟨List.mem_singleton.mp h, v, hv, Option.isNone_iff_eq_none.mp hnone⟩
    · exact (List.not_mem_nil h).elim

theorem restart_clean {s : Mic} (h : Clean s) (capacity : Nat) :
    Clean (restart s capacity) := by
  have key : ∀ c : Nat × Span, (c.1 ≤ s.gen ∧ (c.1 = s.gen → c.2.stop ≤ s.ring.writePos) ∧
      ∀ x ∈ c.2, ¬ s.Dictates c.1 x) → c.1 ≤ s.gen + 1 ∧ (c.1 = s.gen + 1 → c.2.stop ≤ 0) ∧
      ∀ x ∈ c.2, ¬ (restart s capacity).Dictates c.1 x := by
    rintro c ⟨hle, _, hclean⟩
    refine ⟨by omega, fun hc => by omega, ?_⟩
    rintro x hx ⟨w, hw, hd⟩
    rcases mem_restart hw with ⟨v, hv, rfl⟩ | ⟨rfl, _⟩
    · exact hclean x hx ⟨v, hv, holds_closeAt hd⟩
    · have hgen : s.gen + 1 = c.1 := hd.1
      omega
  exact ⟨fun c hc => key c (h.sent c hc), fun c hc => key c (h.recorded c hc)⟩

theorem restart_swapLedger {s : Mic} (h : Normal s) (capacity : Nat) (resume : Option (List Frame))
    (format : Format) (hstarting : ∀ start, s.dictation ≠ .starting start)
    (hfinishing : ∀ stop, s.dictation ≠ .finishing stop) :
    SwapLedger (restart s capacity) ⟨resume, s.ring, format, s.owns.opened⟩ where
  newer := Nat.succ_pos _
  gens w hw := by
    rcases mem_restart hw with ⟨v, hv, rfl⟩ | ⟨rfl, _⟩
    · rw [(closeAt_stop v _).2.1]
      exact (h.ledger.gens v hv).trans (Nat.le_succ _)
    · exact le_rfl
  current w hw := by
    rcases mem_restart hw with ⟨v, hv, rfl⟩ | ⟨rfl, _⟩
    · obtain ⟨hstop, hgen, _⟩ := closeAt_stop v s.ring.writePos
      have hle := h.ledger.gens v hv
      rw [hstop, hgen]
      refine ⟨fun hg => ?_, fun hnone => by contradiction⟩
      have hg : v.gen = s.gen + 1 := hg
      omega
    · exact ⟨fun _ => rfl, fun _ => rfl⟩
  opened w hw hnone := by
    rcases mem_restart hw with ⟨v, hv, rfl⟩ | ⟨rfl, v, hv, hopen⟩
    · rw [(closeAt_stop v _).1] at hnone
      contradiction
    · obtain ⟨start, hstart, _⟩ := h.ledger.opened v hv hopen
      exact Option.isSome_of_mem hstart
  prior start hs := hs
  dropped w hw hg e he := by
    rcases mem_restart hw with ⟨v, hv, rfl⟩ | ⟨rfl, _⟩
    · obtain ⟨hstop, hgen, hfirst⟩ := closeAt_stop v s.ring.writePos
      rw [hstop, Option.mem_some_iff] at he
      rw [hgen] at hg
      rw [hfirst]
      have hg : v.gen = s.gen := by
        have : v.gen + 1 = s.gen + 1 := hg
        omega
      cases hv' : v.stop with
      | none =>
        obtain ⟨start, hstart, hle⟩ := h.ledger.opened v hv hv'
        exact .inr (.inr (.inr ⟨start, hstart, hle⟩))
      | some e' =>
        rw [hv', Option.getD_some] at he
        subst he
        rcases h.ledger.closed v hv hg e' hv' with hold | hshort | hrec
        · exact .inl hold
        · exact .inr (.inl hshort)
        · exact .inr (.inr (.inl hrec))
    · have : s.gen + 1 + 1 = s.gen + 1 := hg
      omega
  starting start hs := absurd hs (hstarting start)
  finishing stop hs := absurd hs (hfinishing stop)
  idle hs := h.ledger.idle hs

/-- From the rebase on, the records speak of the new ring only. -/
theorem rebase_ledger {s : Mic} {swap : Swap} (h : SwapLedger s swap) {newPos : Nat}
    (hnew : newPos ≤ s.ring.writePos) :
    Session.Ledger s.gen newPos 0 s.ring.writePos s.dictation
      (s.owns.rebaseForMicBufferReplacement newPos) s.windows where
  gens := h.gens
  current w hw hnone := (h.current w hw).mpr hnone
  opened w hw hnone := by
    obtain ⟨start, hstart⟩ := Option.isSome_iff_exists.mp (h.opened w hw hnone)
    refine ⟨newPos, ?_, le_max_right _ _⟩
    simp [DictationOwnsMic.rebaseForMicBufferReplacement, hstart]
  closed w hw hg e he := by
    rw [(h.current w hw).mp hg] at he
    contradiction
  ends r hr := (List.not_mem_nil hr).elim
  sorted := List.Pairwise.nil
  after start hs := by
    obtain ⟨_, _, rfl⟩ := Option.map_eq_some_iff.mp hs
    exact ⟨hnew, fun r hr => (List.not_mem_nil hr).elim⟩
  starting start hs := ⟨h.starting start hs, fun r hr => (List.not_mem_nil hr).elim⟩
  finishing stop hs := by
    refine ⟨h.finishing stop hs, .inr fun start hs => ?_⟩
    obtain ⟨_, _, rfl⟩ := Option.map_eq_some_iff.mp hs
    exact le_rfl
  written := hnew
  idle hs := by
    simp [DictationOwnsMic.rebaseForMicBufferReplacement, h.idle hs]

/-- The rescues of the dropped ring end before the windows that reach into them. -/
theorem rebase_rescuable {s : Mic} {swap : Swap} (h : SwapLedger s swap) (hp : Positions s)
    (hg : RescueInReach s swap) :
    Rescuable s swap
      (earliestDictationStartInRange s.vad.speechStartPos swap.old.writePos s.owns) := by
  refine ⟨h.newer, ?_⟩
  rintro x hx hlt ⟨w, hw, hgen, hfirst, hstop⟩
  obtain ⟨hgone, hfloor⟩ := Mic.minConsumer_le_rescueStart hp
  have hmax : max w.first s.floor ≤ x := max_le hfirst (hfloor.trans hx)
  have hnewer := h.newer
  have hold : x < swap.old.writePos := by
    unfold rescueEnd at hlt
    cases hcut : earliestDictationStartInRange s.vad.speechStartPos swap.old.writePos s.owns with
    | none => rwa [hcut] at hlt
    | some cut =>
      rw [hcut] at hlt
      exact hlt.trans_le (min_le_right _ _)
  have hcut : ∀ pos ∈ s.owns.closed.map MicWindow.start ++ s.owns.opened.toList,
      s.vad.speechStartPos ≤ pos → pos ≤ x → False := by
    intro pos hpos hlow hle
    obtain ⟨cut, hcut, hcutle⟩ := earliest_le hpos hlow (hle.trans_lt hold)
    rw [hcut] at hlt
    have : x < min cut swap.old.writePos := hlt
    omega
  cases he : w.stop with
  | none =>
    have := (h.current w hw).mpr he
    omega
  | some e =>
    have hxe := hstop e he
    rcases h.dropped w hw (by omega) e he with hle | hle | ⟨r, hr, rfl, hle⟩ | ⟨start, hs, hle⟩
    · omega
    · omega
    · exact hcut r.start (List.mem_append_left _ (List.mem_map.mpr ⟨r, hr, rfl⟩))
        (hg.1 r hr (by omega)) (by omega)
    · refine hcut start (List.mem_append_right _ ?_) (hg.2 start hs) (by omega)
      rw [h.prior start hs]
      exact List.mem_singleton_self _

theorem rescueChunk_frame (s : Mic) (swap : Swap) (truncateAt : Option Nat) :
    let t := rescueChunk s swap truncateAt
    t.gen = s.gen ∧ t.windows = s.windows ∧ t.owns = s.owns ∧ t.dictation = s.dictation ∧
      t.ring = s.ring ∧ t.wav = s.wav ∧ t.vad.speechStartPos = s.vad.speechStartPos := by
  intro t
  simp only [t, rescueChunk]
  split
  · exact ⟨rfl, rfl, rfl, rfl, rfl, rfl, rfl⟩
  · split <;> exact ⟨rfl, rfl, rfl, rfl, rfl, rfl, rfl⟩

/-- What is rescued of the dropped ring is not dictated. -/
theorem Rescuable.clean {s : Mic} {swap : Swap} {truncateAt : Option Nat}
    (h : Rescuable s swap truncateAt) {r : Span} (hstart : s.rescueStart ≤ r.start)
    (hstop : r.stop ≤ rescueEnd swap.old truncateAt) :
    s.gen - 1 ≤ s.gen ∧ (s.gen - 1 = s.gen → r.stop ≤ s.ring.writePos) ∧
      ∀ x ∈ r, ¬ s.Dictates (s.gen - 1) x := by
  obtain ⟨hpos, hclean⟩ := h
  exact ⟨Nat.sub_le _ _, fun hgen => by omega,
    fun x hx => hclean x (hstart.trans hx.1) (hx.2.trans_le hstop)⟩

theorem rescueChunk_clean {s : Mic} {swap : Swap} {truncateAt : Option Nat} (h : Clean s)
    (hr : Rescuable s swap truncateAt) : Clean (rescueChunk s swap truncateAt) := by
  unfold rescueChunk
  split
  · exact { h with }
  · next extraction hsome =>
    dsimp only
    split
    · exact { h with }
    · obtain ⟨h1, _, h2, _⟩ := extractSourceAudioUntil_bounds hsome
      refine ⟨fun c hc => ?_, h.recorded⟩
      rcases List.mem_append.mp hc with hc | hc
      · exact h.sent c hc
      · obtain rfl := List.mem_singleton.mp hc
        exact hr.clean ((s.rescueStart_le).1.trans h1) h2

theorem rescueWav_frame (s : Mic) (swap : Swap) (truncateAt : Option Nat) (resampled : Bool) :
    let t := rescueWav s swap truncateAt resampled
    t.gen = s.gen ∧ t.windows = s.windows ∧ t.owns = s.owns ∧ t.dictation = s.dictation ∧
      t.ring = s.ring := by
  intro t
  simp only [t, rescueWav]
  split
  · exact ⟨rfl, rfl, rfl, rfl, rfl⟩
  · split
    · exact ⟨rfl, rfl, rfl, rfl, rfl⟩
    · split <;> exact ⟨rfl, rfl, rfl, rfl, rfl⟩

theorem rescueWav_clean {s : Mic} {swap : Swap} {truncateAt : Option Nat} (h : Clean s)
    (hr : Rescuable s swap truncateAt) (resampled : Bool) :
    Clean (rescueWav s swap truncateAt resampled) := by
  unfold rescueWav
  split
  · exact h
  · next ws hws =>
    split
    · exact h
    · next hmode =>
      split
      · exact h
      · next extraction hsome =>
        obtain ⟨h1, h2, h3, _⟩ := extractSourceAudioUntil_bounds hsome
        have hlength := monoLength_mul_le s.vad.format extraction.span
        unfold Span.length at hlength
        have hmixed : ws.mixed = false := by
          cases hm : ws.mixed with
          | false => rfl
          | true => exact absurd (by simp [hm]) hmode
        have hstart := s.rescueStart_le.2 ws hws hmixed
        refine ⟨h.sent, fun c hc => ?_⟩
        rcases List.mem_append.mp hc with hc | hc
        · exact h.recorded c hc
        · obtain ⟨r, hr', rfl⟩ := List.mem_map.mp hc
          obtain ⟨frame, hframe, hid⟩ := List.mem_filterMap.mp hr'
          obtain rfl : frame = some r := hid
          obtain ⟨h4, h5⟩ := mem_monoFrames hframe
          exact hr.clean (hstart.trans (h1.trans h4)) (h5.trans (by omega))

theorem Rebased.of_frame {s t : Mic} {newPos : Nat} (h : Rebased s newPos) (hclean : Clean t)
    (hgen : t.gen = s.gen) (hwindows : t.windows = s.windows) (howns : t.owns = s.owns)
    (hdictation : t.dictation = s.dictation) (hring : t.ring = s.ring) : Rebased t newPos := by
  refine ⟨hclean, ?_, ?_⟩
  · rw [hring]
    exact h.2.1
  · rw [hgen, hwindows, howns, hdictation, hring]
    exact h.2.2

theorem Rescuable.of_frame {s t : Mic} {swap : Swap} {truncateAt : Option Nat}
    (h : Rescuable s swap truncateAt) (hgen : t.gen = s.gen) (hwindows : t.windows = s.windows)
    (hwav : t.wav = s.wav) (hstart : t.vad.speechStartPos = s.vad.speechStartPos) :
    Rescuable t swap truncateAt := by
  unfold Rescuable Mic.Dictates Mic.rescueStart at h ⊢
  rwa [hgen, hwindows, hwav, hstart]

theorem reset_normal {s : Mic} {newPos : Nat} (h : Rebased s newPos) (swap : Swap) (anchor : ℚ) :
    Normal (resetForReplacement s swap newPos anchor) := by
  obtain ⟨hclean, hle, hledger⟩ := h
  refine ⟨{ hclean with }, hledger.mono (Nat.zero_le _) le_rfl,
    ⟨Nat.zero_le _, le_rfl, le_rfl, fun ws hws => ?_⟩, hle⟩
  obtain ⟨_, _, rfl⟩ := Option.map_eq_some_iff.mp hws
  exact le_rfl

/-- A replacement of the mic buffer keeps dictated audio out. -/
theorem inv_stepSwap {s t : State} {a : Action} (h : Inv s) (hg : Guarded s a)
    (hst : stepSwap s a = some t) : Inv t := by
  obtain ⟨mic, phase⟩ := s
  cases a with
  | restart capacity format =>
    have hstarting : ∀ start, mic.dictation ≠ .starting start := by
      intro start hs
      simp [Guarded, hs] at hg
    have hfinishing : ∀ stop, mic.dictation ≠ .finishing stop := by
      intro stop hs
      simp [Guarded, hs] at hg
    have hswap : ∀ resume, Normal mic → Clean (restart mic capacity) ∧
        Positions (restart mic capacity) ∧
        SwapLedger (restart mic capacity) ⟨resume, mic.ring, format, mic.owns.opened⟩ :=
      fun resume hn => ⟨restart_clean hn.clean capacity, { hn.positions with },
        restart_swapLedger hn capacity resume format hstarting hfinishing⟩
    cases phase with
    | select =>
      obtain rfl := Option.some.inj hst
      exact hswap none h
    | written frames =>
      obtain rfl := Option.some.inj hst
      exact hswap (some frames) h
    | _ => contradiction
  | readNewPos =>
    cases phase with
    | swapped swap =>
      obtain rfl := Option.some.inj hst
      exact ⟨h.1, h.2.1, h.2.2, le_rfl⟩
    | _ => contradiction
  | rebase =>
    cases phase with
    | positioned swap newPos =>
      obtain ⟨hclean, hpositions, hledger, hle⟩ := h
      obtain rfl := Option.some.inj hst
      have hr := rebase_rescuable hledger hpositions hg
      exact ⟨⟨{ hclean with }, hle, rebase_ledger hledger hle⟩, hr⟩
    | _ => contradiction
  | rescueChunk =>
    cases phase with
    | rebased swap newPos truncateAt =>
      simp only [stepSwap] at hst
      split at hst
      · contradiction
      · obtain rfl := Option.some.inj hst
        obtain ⟨hgen, hwindows, howns, hdictation, hring, hwav, hstart⟩ :=
          rescueChunk_frame mic swap truncateAt
        refine ⟨h.1.of_frame (rescueChunk_clean h.1.1 h.2) hgen hwindows howns hdictation hring, ?_⟩
        exact h.2.of_frame hgen hwindows hwav hstart
    | _ => contradiction
  | rescueWav resampled =>
    cases phase with
    | rescued swap newPos truncateAt =>
      obtain rfl := Option.some.inj hst
      obtain ⟨hgen, hwindows, howns, hdictation, hring⟩ :=
        rescueWav_frame mic swap truncateAt resampled
      exact h.1.of_frame (rescueWav_clean h.1.1 h.2 resampled) hgen hwindows howns hdictation hring
    | _ => contradiction
  | reset anchor =>
    cases phase with
    | resetting swap newPos =>
      obtain rfl := Option.some.inj hst
      have hn := reset_normal h swap anchor
      cases hresume : swap.resume with
      | none => simpa only [Inv, hresume, Option.map_none, Option.getD_none] using hn
      | some frames => simpa only [Inv, hresume, Option.map_some, Option.getD_some] using hn
    | _ => contradiction
  | _ => contradiction

end YapStack.Live.Session
