import YapStack.Live.Privacy

set_option linter.unusedSectionVars false

namespace YapStack.Live.Session

open Spans

section Outside

variable {s t : State} {a : Action}

theorem Ledger.mono {gen floor gone gone' writePos writePos' : Nat} {dictation : Dictation}
    {owns : DictationOwnsMic} {windows : List Dictated}
    (h : Session.Ledger gen floor gone writePos dictation owns windows) (hgone : gone ≤ gone')
    (hwritten : writePos ≤ writePos') :
    Session.Ledger gen floor gone' writePos' dictation owns windows :=
  { h with
    closed := fun w hw hg e he => (h.closed w hw hg e he).imp_left (fun h => h.trans hgone)
    ends := fun r hr =>
      ⟨(h.ends r hr).1, (h.ends r hr).2.1, (h.ends r hr).2.2.trans hwritten⟩
    after := fun st hst => ⟨(h.after st hst).1.trans hwritten, (h.after st hst).2⟩
    starting := fun st hst => ⟨(h.starting st hst).1.trans hwritten, (h.starting st hst).2⟩
    finishing := fun stop hstop =>
      ⟨(h.finishing stop hstop).1.trans hwritten, (h.finishing stop hstop).2⟩
    written := h.written.trans hwritten }

/-- Dictations record every window that they open and close. -/
theorem stepOutside_ledger {floor gone : Nat}
    (h : Session.Ledger s.gen floor gone s.ring.writePos s.dictation s.owns s.windows)
    (hst : stepOutside s a = some t) :
    Session.Ledger t.gen floor gone t.ring.writePos t.dictation t.owns t.windows := by
  cases a with
  | write n =>
    obtain rfl := Option.some.inj hst
    exact h.mono le_rfl (Nat.le_add_right _ _)
  | readStart =>
    simp only [stepOutside] at hst
    split at hst
    · next hidle =>
      obtain rfl := Option.some.inj hst
      exact { h with
        starting := fun st hs => by
          obtain rfl : s.ring.writePos = st := by simpa using hs
          exact ⟨le_rfl, fun r hr => (h.ends r hr).2.2⟩
        finishing := fun stop hs => by simp at hs
        idle := fun _ => h.idle (.inl hidle) }
    · contradiction
  | openWindow =>
    simp only [stepOutside] at hst
    split at hst
    · next start hstart =>
      obtain rfl := Option.some.inj hst
      have hnone := h.idle (.inr ⟨start, hstart⟩)
      have hopen : ∀ w ∈ s.windows, w.stop ≠ none := by
        intro w hw hw'
        obtain ⟨st, hst, _⟩ := h.opened w hw hw'
        rw [hnone] at hst
        contradiction
      obtain ⟨hle, hafter⟩ := h.starting start hstart
      refine { h with
        gens := fun w hw => ?_
        current := fun w hw hw' => ?_
        opened := fun w hw hw' => ?_
        closed := fun w hw hg e he => ?_
        after := fun st hs => ?_
        starting := fun st hs => by simp at hs
        finishing := fun stop hs => by simp at hs
        idle := fun hs => by simp at hs }
      · rcases List.mem_append.mp hw with hw | hw
        · exact h.gens w hw
        · obtain rfl := List.mem_singleton.mp hw
          exact le_rfl
      · rcases List.mem_append.mp hw with hw | hw
        · exact absurd hw' (hopen w hw)
        · obtain rfl := List.mem_singleton.mp hw
          rfl
      · rcases List.mem_append.mp hw with hw | hw
        · exact absurd hw' (hopen w hw)
        · obtain rfl := List.mem_singleton.mp hw
          exact ⟨start, rfl, (le_max_left _ _).trans (le_max_left _ _)⟩
      · rcases List.mem_append.mp hw with hw | hw
        · exact h.closed w hw hg e he
        · obtain rfl := List.mem_singleton.mp hw
          contradiction
      · obtain rfl : start = st := by simpa [DictationOwnsMic.openAt] using hs
        exact ⟨hle, hafter⟩
    · contradiction
  | readEnd =>
    simp only [stepOutside] at hst
    split at hst
    · obtain rfl := Option.some.inj hst
      exact { h with
        starting := fun st hs => by simp at hs
        finishing := fun stop hs => by
          obtain rfl : s.ring.writePos = stop := by simpa using hs
          exact ⟨le_rfl, .inl h.written⟩
        idle := fun hs => by simp at hs }
    · contradiction
  | closeWindow =>
    simp only [stepOutside] at hst
    split at hst
    · next stop hstop =>
      obtain rfl := Option.some.inj hst
      obtain ⟨hle, hfloor⟩ := h.finishing stop hstop
      have hclosed : ∀ r ∈ s.owns.closed, r ∈ (s.owns.close stop).closed := by
        intro r hr
        unfold DictationOwnsMic.close
        split
        · exact hr
        · dsimp only
          split
          · exact List.mem_append_left _ hr
          · exact hr
      have hopened : (s.owns.close stop).opened = none := by
        unfold DictationOwnsMic.close
        split
        · assumption
        · rfl
      have hmem : ∀ r ∈ (s.owns.close stop).closed, r ∈ s.owns.closed ∨
          r.stop = stop ∧ r.start < stop ∧ s.owns.opened = some r.start := by
        intro r hr
        unfold DictationOwnsMic.close at hr
        split at hr
        · exact .inl hr
        · next start hstart =>
          dsimp only at hr
          split at hr
          · next hlt =>
            rcases List.mem_append.mp hr with hr | hr
            · exact .inl hr
            · obtain rfl := List.mem_singleton.mp hr
              exact .inr ⟨rfl, hlt, hstart⟩
          · exact .inl hr
      refine { h with
        gens := fun w hw => ?_
        current := fun w hw hw' => ?_
        opened := fun w hw hw' => ?_
        closed := fun w hw hg e he => ?_
        ends := fun r hr => ?_
        sorted := ?_
        after := fun st hs => by rw [hopened] at hs; contradiction
        starting := fun st hs => by simp at hs
        finishing := fun stop hs => by simp at hs
        idle := fun _ => hopened }
      · obtain ⟨v, hv, rfl⟩ := List.mem_map.mp hw
        rw [(closeAt_stop v stop).2.1]
        exact h.gens v hv
      · obtain ⟨v, hv, rfl⟩ := List.mem_map.mp hw
        rw [(closeAt_stop v stop).1] at hw'
        contradiction
      · obtain ⟨v, hv, rfl⟩ := List.mem_map.mp hw
        rw [(closeAt_stop v stop).1] at hw'
        contradiction
      · obtain ⟨v, hv, rfl⟩ := List.mem_map.mp hw
        obtain ⟨h1, h2, h3⟩ := closeAt_stop v stop
        rw [h2] at hg
        rw [h1] at he
        rw [h3]
        cases hv' : v.stop with
        | none =>
          obtain rfl : stop = e := by simpa [hv'] using he
          obtain ⟨start, hstart, hfirst⟩ := h.opened v hv hv'
          by_cases hlt : start < stop
          · refine .inr (.inr ⟨⟨start, stop⟩, ?_, rfl, hfirst⟩)
            rw [Option.mem_def] at hstart
            unfold DictationOwnsMic.close
            rw [hstart]
            dsimp only
            rw [if_pos hlt]
            exact List.mem_append_right _ (List.mem_singleton_self _)
          · exact .inr (.inl (by omega))
        | some e' =>
          obtain rfl : e' = e := by simpa [hv'] using he
          rcases h.closed v hv hg e' hv' with h | h | ⟨r, hr, h⟩
          · exact .inl h
          · exact .inr (.inl h)
          · exact .inr (.inr ⟨r, hclosed r hr, h⟩)
      · rcases hmem r hr with hr | ⟨rfl, hlt, hstart⟩
        · exact h.ends r hr
        · refine ⟨hlt, ?_, hle⟩
          rcases hfloor with hfloor | hfloor
          · exact hfloor
          · exact (hfloor _ hstart).trans hlt.le
      · unfold DictationOwnsMic.close
        split
        · exact h.sorted
        · next start hstart =>
          dsimp only
          split
          · refine List.pairwise_append.mpr ⟨h.sorted, List.pairwise_singleton _ _,
              fun p hp q hq => ?_⟩
            obtain rfl := List.mem_singleton.mp hq
            exact (h.after start hstart).2 p hp
          · exact h.sorted
    · contradiction
  | finishTask =>
    simp only [stepOutside] at hst
    split at hst
    · obtain rfl := Option.some.inj hst
      exact h
    · contradiction
  | requestStop =>
    simp only [stepOutside] at hst
    split at hst
    · obtain rfl := Option.some.inj hst
      exact h
    · contradiction
  | _ => simp [stepOutside] at hst

/-- Until the rebase, dictations that do not end leave the old records readable. -/
theorem stepOutside_swapLedger {swap : Swap} (h : SwapLedger s.toMic swap)
    (hclose : a ≠ .closeWindow) (hst : stepOutside s a = some t) : SwapLedger t.toMic swap := by
  cases a with
  | write n =>
    obtain rfl := Option.some.inj hst
    exact { h with
      starting := fun st hs => (h.starting st hs).trans (Nat.le_add_right _ _)
      finishing := fun st hs => (h.finishing st hs).trans (Nat.le_add_right _ _) }
  | readStart =>
    simp only [stepOutside] at hst
    split at hst
    · next hidle =>
      obtain rfl := Option.some.inj hst
      exact { h with
        starting := fun st hs => by
          obtain rfl : s.ring.writePos = st := by simpa using hs
          exact le_rfl
        finishing := fun stop hs => by simp at hs
        idle := fun _ => h.idle (.inl hidle) }
    · contradiction
  | openWindow =>
    simp only [stepOutside] at hst
    split at hst
    · next start hstart =>
      obtain rfl := Option.some.inj hst
      have hnone := h.idle (.inr ⟨start, hstart⟩)
      have hprior : swap.prior = none := by
        cases hp : swap.prior with
        | none => rfl
        | some st => exact absurd (h.prior st hp) (by rw [hnone]; simp)
      refine { h with
        gens := fun w hw => ?_
        current := fun w hw => ?_
        opened := fun w hw hw' => by simp [DictationOwnsMic.openAt]
        prior := fun st hs => by rw [hprior] at hs; contradiction
        dropped := fun w hw hg e he => ?_
        starting := fun st hs => by simp at hs
        finishing := fun stop hs => by simp at hs
        idle := fun hs => by simp at hs }
      · rcases List.mem_append.mp hw with hw | hw
        · exact h.gens w hw
        · obtain rfl := List.mem_singleton.mp hw
          exact le_rfl
      · rcases List.mem_append.mp hw with hw | hw
        · exact h.current w hw
        · obtain rfl := List.mem_singleton.mp hw
          simp
      · rcases List.mem_append.mp hw with hw | hw
        · exact h.dropped w hw hg e he
        · obtain rfl := List.mem_singleton.mp hw
          contradiction
    · contradiction
  | readEnd =>
    simp only [stepOutside] at hst
    split at hst
    · obtain rfl := Option.some.inj hst
      exact { h with
        starting := fun st hs => by simp at hs
        finishing := fun stop hs => by
          obtain rfl : s.ring.writePos = stop := by simpa using hs
          exact le_rfl
        idle := fun hs => by simp at hs }
    · contradiction
  | closeWindow => exact absurd rfl hclose
  | finishTask =>
    simp only [stepOutside] at hst
    split at hst
    · obtain rfl := Option.some.inj hst
      exact { h with }
    · contradiction
  | requestStop =>
    simp only [stepOutside] at hst
    split at hst
    · obtain rfl := Option.some.inj hst
      exact { h with }
    · contradiction
  | _ => simp [stepOutside] at hst

end Outside

section Later

variable {s t : Mic}

theorem Later.clean (h : Later s t) (hs : Clean s) : Clean t := by
  have key : ∀ c : Nat × Span, (c.1 ≤ s.gen ∧ (c.1 = s.gen → c.2.stop ≤ s.ring.writePos) ∧
      ∀ x ∈ c.2, ¬ s.Dictates c.1 x) → c.1 ≤ t.gen ∧ (c.1 = t.gen → c.2.stop ≤ t.ring.writePos) ∧
      ∀ x ∈ c.2, ¬ t.Dictates c.1 x := by
    rintro c ⟨hle, hstop, hclean⟩
    rw [h.gen]
    refine ⟨hle, fun hc => (hstop hc).trans h.written, fun x hx hd => ?_⟩
    rcases h.dictates c.1 x hd with hd | ⟨hc, hw⟩
    · exact hclean x hx hd
    · have hlt := (hx.2.trans_le (hstop hc)).trans_le hw
      exact lt_irrefl x hlt
  exact ⟨fun c hc => key c (hs.sent c (by rwa [h.sent] at hc)),
    fun c hc => key c (hs.recorded c (by rwa [h.recorded] at hc))⟩

theorem Later.positions (h : Later s t) (hs : Positions s) : Positions t := by
  refine ⟨?_, ?_, ?_, ?_⟩
  · rw [h.vad]; exact hs.consumed
  · rw [h.vad]; exact hs.early
  · rw [h.vad, h.floor]; exact hs.floor
  · rw [h.wav, h.floor]; exact hs.wav

theorem Later.minConsumer (h : Later s t) : t.minConsumer = s.minConsumer := by
  unfold Mic.minConsumer
  rw [h.vad, h.wav]

theorem Later.knownTo (h : Later s t) {seen limit : Nat} (hs : KnownTo s seen limit) :
    KnownTo t seen limit := by
  obtain ⟨hle, hknown⟩ := hs
  obtain ⟨htake, hle'⟩ := h.known seen hle (fun w hw => (hknown w hw).1)
  refine ⟨hle', fun w hw => ?_⟩
  rw [htake] at hw
  rw [h.vad, h.gen]
  exact hknown w hw

theorem Later.snapshotOf (h : Later s t) {snapshot : DictationOwnsMic} {seen : Nat}
    (hs : SnapshotOf s snapshot seen) : SnapshotOf t snapshot seen := by
  obtain ⟨hle, hknown⟩ := hs
  obtain ⟨htake, hle'⟩ := h.known seen hle (fun w hw => (hknown w hw).1)
  refine ⟨hle', fun w hw => ?_⟩
  rw [htake] at hw
  obtain ⟨hclosed, hrec⟩ := hknown w hw
  refine ⟨hclosed, fun x hx hd => ?_⟩
  rw [h.vad] at hx
  rw [h.gen] at hd
  obtain ⟨r, hr, h1, h2, h3⟩ := hrec x hx hd
  exact ⟨r, hr, h1, h2, h3.trans h.written⟩

/-- What the loop has read stays free of what is dictated later. -/
theorem Later.silent (h : Later s t) {frames : Mono}
    (hwritten : ∀ r : Span, some r ∈ frames → r.stop ≤ s.ring.writePos)
    (hs : ∀ r : Span, some r ∈ frames → ∀ x ∈ r, ¬ s.Dictates s.gen x) :
    ∀ r : Span, some r ∈ frames → ∀ x ∈ r, ¬ t.Dictates t.gen x := by
  intro r hr x hx hd
  rw [h.gen] at hd
  rcases h.dictates s.gen x hd with hd | ⟨_, hw⟩
  · exact hs r hr x hx hd
  · exact lt_irrefl x ((hx.2.trans_le (hwritten r hr)).trans_le hw)

theorem Later.freshRead (h : Later s t) {read : WavRead} (hs : FreshRead s read) :
    FreshRead t read where
  part := by rw [h.vad]; exact hs.part
  written r hr := (hs.written r hr).trans h.written
  oldPos := by rw [h.wav]; exact hs.oldPos
  wav := by rw [h.wav]; exact hs.wav
  newPos := hs.newPos
  aligned := hs.aligned.imp_right (h.silent hs.written)

theorem Later.mutedRead (h : Later s t) {read : WavRead} (hs : MutedRead s read) :
    MutedRead t read where
  written r hr := (hs.written r hr).trans h.written
  oldPos := by rw [h.wav]; exact hs.oldPos
  newPos := hs.newPos
  silent := h.silent hs.written hs.silent

theorem Later.rescuable (h : Later s t) {swap : Swap} {truncateAt : Option Nat}
    (hs : Rescuable s swap truncateAt) : Rescuable t swap truncateAt := by
  obtain ⟨hpos, hclean⟩ := hs
  have hstart : t.rescueStart = s.rescueStart := by
    unfold Mic.rescueStart
    rw [h.vad, h.wav]
  refine ⟨by rw [h.gen]; exact hpos, fun x hx hlt hd => ?_⟩
  rw [hstart] at hx
  rw [h.gen] at hd
  rcases h.dictates _ x hd with hd | ⟨hg, _⟩
  · exact hclean x hx hlt hd
  · omega

theorem Later.owning (h : Later s t) (hledger : s.Ledger) {todo : List MicWindow}
    {opened : Option Nat} (hs : Owning s todo opened) : Owning t todo opened where
  mem q hq := h.kept q (hs.mem q hq)
  pending q hq := by rw [h.vad]; exact hs.pending q hq
  sorted := hs.sorted
  rest r hr hlt := by
    rw [h.vad] at hlt
    rcases h.added r hr with hr | hstart
    · exact hs.rest r hr hlt
    · exact .inr ⟨fun q hq => (hledger.after r.start hstart).2 q (hs.mem q hq),
        fun start ho => (hs.opened start ho).2.1 r.start hstart⟩
  opened start ho := by
    obtain ⟨hle, hopened, hstarting⟩ := hs.opened start ho
    refine ⟨hle.trans h.written, fun start' ho' => ?_, fun start' hd => ?_⟩
    · rcases h.opened start' ho' with ho' | hd
      · exact hopened start' ho'
      · exact hstarting start' hd
    · rcases h.starting start' hd with hd | hw
      · exact hstarting start' hd
      · exact hle.trans hw

end Later

/-- Whatever the other parties do, the loop's invariant is kept. -/
theorem inv_stepOutside {s t : State} {a : Action} (h : Inv s) (hg : Guarded s a)
    (hst : stepOutside s a = some t) : Inv t := by
  obtain ⟨hlater, hphase⟩ := stepOutside_later hst
  have hnormal : Normal s.toMic → Normal t.toMic := by
    rintro ⟨hclean, hledger, hpositions, hwritten⟩
    refine ⟨hlater.clean hclean, ?_, hlater.positions hpositions, ?_⟩
    · have h := stepOutside_ledger hledger hst
      unfold Mic.Ledger
      rwa [hlater.minConsumer, hlater.floor]
    · rw [hlater.vad]
      exact hwritten.trans hlater.written
  have hknown : ∀ seen, Known s.toMic seen → Known t.toMic seen :=
    fun seen hs limit => hlater.knownTo (hs limit)
  have hrebased : ∀ newPos, Rebased s.toMic newPos → Rebased t.toMic newPos :=
    fun _ h => ⟨hlater.clean h.1, h.2.1.trans hlater.written, stepOutside_ledger h.2.2 hst⟩
  unfold Inv at h ⊢
  rw [hphase]
  cases hp : s.phase <;> simp only [hp] at h ⊢
  case select | written | drained | polled | pruning | stopping | failing | wavTail =>
    exact hnormal h
  case extracted | wavTailRead => exact ⟨hnormal h.1, fun r hr => hlater.freshRead (h.2 r hr)⟩
  case muted | fed => exact ⟨hnormal h.1, fun r hr => hlater.mutedRead (h.2 r hr)⟩
  case owning =>
    exact ⟨hnormal h.1, hlater.owning h.1.ledger h.2.1,
      fun h1 h2 h3 => hknown _ (h.2.2 h1 h2 h3)⟩
  case deciding => exact ⟨hnormal h.1, fun h1 => hknown _ (h.2 h1)⟩
  case dispatching | flushing | flushDispatching => exact ⟨hnormal h.1, hknown _ h.2⟩
  case swapped =>
    have hclose : a ≠ .closeWindow := by rintro rfl; simp [Guarded, hp] at hg
    exact ⟨hlater.clean h.1, hlater.positions h.2.1, stepOutside_swapLedger h.2.2 hclose hst⟩
  case positioned =>
    have hclose : a ≠ .closeWindow := by rintro rfl; simp [Guarded, hp] at hg
    exact ⟨hlater.clean h.1, hlater.positions h.2.1, stepOutside_swapLedger h.2.2.1 hclose hst,
      h.2.2.2.trans hlater.written⟩
  case rebased | rescued => exact ⟨hrebased _ h.1, hlater.rescuable h.2⟩
  case resetting => exact hrebased _ h
  case tail => exact ⟨hnormal h.1, hlater.knownTo h.2⟩
  case copying =>
    exact ⟨hnormal h.1, hlater.knownTo h.2.1, by rw [hlater.vad]; exact h.2.2⟩
  case failChecked => exact ⟨hnormal h.1, hlater.snapshotOf h.2⟩
  case done => exact hlater.clean h

end YapStack.Live.Session
