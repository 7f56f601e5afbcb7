import YapStack.Live.SessionLoop

set_option linter.unusedSectionVars false

namespace YapStack.Live.Session

open Spans

/-- What the recorded windows say about what is dictated on the ring. Samples below `floor`
are never read, and windows that end by `gone` have been consumed. -/
structure Ledger (gen floor gone writePos : Nat) (dictation : Dictation) (owns : DictationOwnsMic)
    (windows : List Dictated) : Prop where
  gens : ∀ w ∈ windows, w.gen ≤ gen
  current : ∀ w ∈ windows, w.stop = none → w.gen = gen
  opened : ∀ w ∈ windows, w.stop = none → ∃ start ∈ owns.opened, start ≤ max w.first floor
  closed : ∀ w ∈ windows, w.gen = gen → ∀ e ∈ w.stop, e ≤ gone ∨ e ≤ max w.first floor ∨
    ∃ r ∈ owns.closed, r.stop = e ∧ r.start ≤ max w.first floor
  ends : ∀ r ∈ owns.closed, r.start < r.stop ∧ floor ≤ r.stop ∧ r.stop ≤ writePos
  sorted : owns.closed.Pairwise (fun a b => a.stop ≤ b.start)
  after : ∀ start ∈ owns.opened, start ≤ writePos ∧ ∀ r ∈ owns.closed, r.stop ≤ start
  starting : ∀ start, dictation = .starting start →
    start ≤ writePos ∧ ∀ r ∈ owns.closed, r.stop ≤ start
  finishing : ∀ stop, dictation = .finishing stop → stop ≤ writePos ∧
    (floor ≤ stop ∨ ∀ start ∈ owns.opened, floor ≤ start)
  written : floor ≤ writePos
  idle : dictation = .idle ∨ (∃ start, dictation = .starting start) → owns.opened = none

def Mic.Ledger (s : Mic) : Prop :=
  Session.Ledger s.gen s.floor s.minConsumer s.ring.writePos s.dictation s.owns s.windows

/-- Between a restart and the rebase: the records are still those of the dropped ring. -/
structure SwapLedger (s : Mic) (swap : Swap) : Prop where
  newer : 0 < s.gen
  gens : ∀ w ∈ s.windows, w.gen ≤ s.gen
  current : ∀ w ∈ s.windows, w.gen = s.gen ↔ w.stop = none
  opened : ∀ w ∈ s.windows, w.stop = none → s.owns.opened.isSome = true
  prior : ∀ start ∈ swap.prior, s.owns.opened = some start
  dropped : ∀ w ∈ s.windows, w.gen + 1 = s.gen → ∀ e ∈ w.stop, e ≤ s.minConsumer ∨
    e ≤ max w.first s.floor ∨ (∃ r ∈ s.owns.closed, r.stop = e ∧ r.start ≤ max w.first s.floor) ∨
    ∃ start ∈ swap.prior, start ≤ max w.first s.floor
  starting : ∀ start, s.dictation = .starting start → start ≤ s.ring.writePos
  finishing : ∀ stop, s.dictation = .finishing stop → stop ≤ s.ring.writePos
  idle : s.dictation = .idle ∨ (∃ start, s.dictation = .starting start) → s.owns.opened = none

/-- Chunks and WAV hold nothing dictated and nothing that is not written yet. -/
structure Clean (s : Mic) : Prop where
  sent : ∀ c ∈ s.sent, c.1 ≤ s.gen ∧ (c.1 = s.gen → c.2.stop ≤ s.ring.writePos) ∧
    ∀ x ∈ c.2, ¬ s.Dictates c.1 x
  recorded : ∀ c ∈ s.recorded, c.1 ≤ s.gen ∧ (c.1 = s.gen → c.2.stop ≤ s.ring.writePos) ∧
    ∀ x ∈ c.2, ¬ s.Dictates c.1 x

/-- The session's positions on its ring. -/
structure Positions (s : Mic) : Prop where
  consumed : s.vad.dictationConsumedThrough ≤ s.vad.earliestNextChunkPos
  early : s.vad.earliestNextChunkPos ≤ s.vad.speechStartPos
  floor : s.floor ≤ s.vad.earliestNextChunkPos
  wav : ∀ ws ∈ s.wav, s.floor ≤ ws.flushPos

structure Normal (s : Mic) : Prop where
  clean : Clean s
  ledger : s.Ledger
  positions : Positions s
  written : s.vad.earliestNextChunkPos ≤ s.ring.writePos

/-- The windows that a snapshot knew as closed hold nothing of the pending range. -/
def KnownTo (s : Mic) (seen limit : Nat) : Prop :=
  seen ≤ s.windows.length ∧ ∀ w ∈ s.windows.take seen, w.stop.isSome = true ∧
    ∀ x, s.vad.speechStartPos ≤ x → x < limit → ¬ w.Holds s.gen x

def Known (s : Mic) (seen : Nat) : Prop := ∀ limit, KnownTo s seen limit

/-- The windows that were closed at a snapshot are its records, or behind the session. -/
def SnapshotOf (s : Mic) (snapshot : DictationOwnsMic) (seen : Nat) : Prop :=
  seen ≤ s.windows.length ∧ ∀ w ∈ s.windows.take seen, w.stop.isSome = true ∧
    ∀ x, s.vad.speechStartPos ≤ x → w.Holds s.gen x →
      ∃ r ∈ snapshot.closed, r.start ≤ x ∧ x < r.stop ∧ r.stop ≤ s.ring.writePos

/-- The windows that a tick still has to consume. -/
structure Owning (s : Mic) (todo : List MicWindow) (opened : Option Nat) : Prop where
  mem : ∀ q ∈ todo, q ∈ s.owns.closed
  pending : ∀ q ∈ todo, s.vad.dictationConsumedThrough < q.stop
  sorted : todo.Pairwise (fun a b => a.stop ≤ b.start)
  rest : ∀ r ∈ s.owns.closed, s.vad.dictationConsumedThrough < r.stop → r ∈ todo ∨
    ((∀ q ∈ todo, q.stop ≤ r.start) ∧ ∀ start ∈ opened, start ≤ r.start)
  opened : ∀ start ∈ opened, start ≤ s.ring.writePos ∧
    (∀ start' ∈ s.owns.opened, start ≤ start') ∧
    ∀ start', s.dictation = .starting start' → start ≤ start'

/-- An extraction before it is muted. -/
structure FreshRead (s : Mic) (read : WavRead) : Prop where
  part : PartOf s.vad.format.channels read.base read.samples
  written : ∀ r : Span, some r ∈ read.samples → r.stop ≤ s.ring.writePos
  oldPos : ∀ ws ∈ s.wav, ws.flushPos = read.oldPos
  wav : s.wav.isSome = true
  newPos : read.oldPos ≤ read.newPos
  aligned : read.base = read.oldPos ∨
    ∀ r : Span, some r ∈ read.samples → ∀ x ∈ r, ¬ s.Dictates s.gen x

/-- An extraction after it was muted. -/
structure MutedRead (s : Mic) (read : WavRead) : Prop where
  written : ∀ r : Span, some r ∈ read.samples → r.stop ≤ s.ring.writePos
  oldPos : ∀ ws ∈ s.wav, ws.flushPos = read.oldPos
  newPos : read.oldPos ≤ read.newPos
  silent : ∀ r : Span, some r ∈ read.samples → ∀ x ∈ r, ¬ s.Dictates s.gen x

/-- What the rescues may read of the dropped ring is not dictated. -/
def Rescuable (s : Mic) (swap : Swap) (truncateAt : Option Nat) : Prop :=
  0 < s.gen ∧ ∀ x, s.rescueStart ≤ x → x < rescueEnd swap.old truncateAt →
    ¬ s.Dictates (s.gen - 1) x

/-- From the rebase on, the records are those of the new ring. -/
def Rebased (s : Mic) (newPos : Nat) : Prop :=
  Clean s ∧ newPos ≤ s.ring.writePos ∧
    Session.Ledger s.gen newPos 0 s.ring.writePos s.dictation s.owns s.windows

def Inv (s : State) : Prop :=
  match s.phase with
  | .select | .written _ | .drained _ | .polled _ | .pruning | .stopping _ | .failing
  | .wavTail _ => Normal s.toMic
  | .extracted _ _ wav => Normal s.toMic ∧ ∀ read ∈ wav, FreshRead s.toMic read
  | .wavTailRead wav => Normal s.toMic ∧ ∀ read ∈ wav, FreshRead s.toMic read
  | .muted _ _ wav => Normal s.toMic ∧ ∀ read ∈ wav, MutedRead s.toMic read
  | .fed _ wav => Normal s.toMic ∧ ∀ read ∈ wav, MutedRead s.toMic read
  | .owning todo opened seen suspended _ =>
    Normal s.toMic ∧ Owning s.toMic todo opened ∧
      (suspended = false → todo = [] → opened = none → Known s.toMic seen)
  | .deciding seen suspended _ => Normal s.toMic ∧ (suspended = false → Known s.toMic seen)
  | .dispatching seen _ _ => Normal s.toMic ∧ Known s.toMic seen
  | .swapped swap => Clean s.toMic ∧ Positions s.toMic ∧ SwapLedger s.toMic swap
  | .positioned swap newPos =>
    Clean s.toMic ∧ Positions s.toMic ∧ SwapLedger s.toMic swap ∧ newPos ≤ s.ring.writePos
  | .rebased swap newPos truncateAt | .rescued swap newPos truncateAt =>
    Rebased s.toMic newPos ∧ Rescuable s.toMic swap truncateAt
  | .resetting _ newPos => Rebased s.toMic newPos
  | .tail limit seen => Normal s.toMic ∧ KnownTo s.toMic seen limit
  | .copying limit seen ranges =>
    Normal s.toMic ∧ KnownTo s.toMic seen limit ∧
      ∀ r ∈ ranges, s.vad.speechStartPos ≤ r.start ∧ r.stop ≤ limit
  | .failChecked snapshot seen => Normal s.toMic ∧ SnapshotOf s.toMic snapshot seen
  | .flushing seen _ => Normal s.toMic ∧ Known s.toMic seen
  | .flushDispatching seen _ => Normal s.toMic ∧ Known s.toMic seen
  | .done => Clean s.toMic

section Outside

/-- What the other parties can change between two steps of the loop. -/
structure Later (s t : Mic) : Prop where
  gen : t.gen = s.gen
  vad : t.vad = s.vad
  wav : t.wav = s.wav
  floor : t.floor = s.floor
  sent : t.sent = s.sent
  recorded : t.recorded = s.recorded
  written : s.ring.writePos ≤ t.ring.writePos
  dictates : ∀ gen x, t.Dictates gen x → s.Dictates gen x ∨ gen = s.gen ∧ s.ring.writePos ≤ x
  known : ∀ n ≤ s.windows.length, (∀ w ∈ s.windows.take n, w.stop.isSome = true) →
    t.windows.take n = s.windows.take n ∧ n ≤ t.windows.length
  kept : ∀ r ∈ s.owns.closed, r ∈ t.owns.closed
  added : ∀ r ∈ t.owns.closed, r ∈ s.owns.closed ∨ s.owns.opened = some r.start
  opened : ∀ start ∈ t.owns.opened, start ∈ s.owns.opened ∨ s.dictation = .starting start
  starting : ∀ start, t.dictation = .starting start →
    s.dictation = .starting start ∨ s.ring.writePos ≤ start

theorem holds_closeAt {w : Dictated} {stop gen x : Nat} (h : (w.closeAt stop).Holds gen x) :
    w.Holds gen x := by
  unfold Dictated.closeAt at h
  split at h
  · next hnone => exact ⟨h.1, h.2.1, by rw [hnone]; simp⟩
  · exact h

theorem closeAt_eq_of_isSome {w : Dictated} (stop : Nat) (h : w.stop.isSome = true) :
    w.closeAt stop = w := by
  obtain ⟨e, he⟩ := Option.isSome_iff_exists.mp h
  simp [Dictated.closeAt, he]

theorem closeAt_stop (w : Dictated) (stop : Nat) :
    (w.closeAt stop).stop = some (w.stop.getD stop) ∧ (w.closeAt stop).gen = w.gen ∧
      (w.closeAt stop).first = w.first := by
  unfold Dictated.closeAt Dictated.first
  split
  · next h => simp [h]
  · next e h => simp [h]

theorem take_map_closeAt {windows : List Dictated} {n : Nat} (stop : Nat)
    (h : ∀ w ∈ windows.take n, w.stop.isSome = true) :
    (windows.map (Dictated.closeAt stop)).take n = windows.take n := by
  rw [← List.map_take]
  conv_rhs => rw [← List.map_id (windows.take n)]
  exact List.map_congr_left (fun w hw => closeAt_eq_of_isSome stop (h w hw))

theorem Later.refl_of {s t : Mic} (hgen : t.gen = s.gen) (hvad : t.vad = s.vad)
    (hwav : t.wav = s.wav) (hfloor : t.floor = s.floor) (hsent : t.sent = s.sent)
    (hrecorded : t.recorded = s.recorded) (hwritten : s.ring.writePos ≤ t.ring.writePos)
    (howns : t.owns = s.owns) (hwindows : t.windows = s.windows)
    (hstarting : ∀ start, t.dictation = .starting start →
      s.dictation = .starting start ∨ s.ring.writePos ≤ start) : Later s t where
  gen := hgen
  vad := hvad
  wav := hwav
  floor := hfloor
  sent := hsent
  recorded := hrecorded
  written := hwritten
  dictates gen x h := .inl (by unfold Mic.Dictates at h ⊢; rwa [hwindows] at h)
  known n hn _ := by rw [hwindows]; exact ⟨rfl, hn⟩
  kept r hr := by rwa [howns]
  added r hr := .inl (by rwa [howns] at hr)
  opened start hs := .inl (by rwa [howns] at hs)
  starting := hstarting

theorem stepOutside_later {s t : State} {a : Action} (h : stepOutside s a = some t) :
    Later s.toMic t.toMic ∧ t.phase = s.phase := by
  cases a with
  | write n =>
    obtain rfl := Option.some.inj h
    exact ⟨.refl_of rfl rfl rfl rfl rfl rfl (Nat.le_add_right _ _) rfl rfl (fun _ h => .inl h), rfl⟩
  | readStart =>
    simp only [stepOutside] at h
    split at h
    · obtain rfl := Option.some.inj h
      refine ⟨.refl_of rfl rfl rfl rfl rfl rfl le_rfl rfl rfl (fun start hs => .inr ?_), rfl⟩
      obtain rfl : s.ring.writePos = start := by simpa using hs
      exact le_rfl
    · contradiction
  | openWindow =>
    simp only [stepOutside] at h
    split at h
    · next start hstart =>
      obtain rfl := Option.some.inj h
      refine ⟨{
        gen := rfl, vad := rfl, wav := rfl, floor := rfl, sent := rfl, recorded := rfl
        written := le_rfl
        dictates := fun gen x hd => ?_
        known := fun n hn _ => ⟨List.take_append_of_le_length hn, by simp; omega⟩
        kept := fun r hr => hr
        added := fun r hr => .inl hr
        opened := fun st hst => ?_
        starting := fun st hst => by simp at hst }, rfl⟩
      · obtain ⟨w, hw, hd⟩ := hd
        rcases List.mem_append.mp hw with hw | hw
        · exact .inl ⟨w, hw, hd⟩
        · obtain rfl := List.mem_singleton.mp hw
          exact .inr ⟨hd.1.symm, (le_max_right _ _).trans hd.2.1⟩
      · obtain rfl : start = st := by simpa [DictationOwnsMic.openAt] using hst
        exact .inr hstart
    · contradiction
  | readEnd =>
    simp only [stepOutside] at h
    split at h
    · obtain rfl := Option.some.inj h
      exact ⟨.refl_of rfl rfl rfl rfl rfl rfl le_rfl rfl rfl (fun start hs => by simp at hs), rfl⟩
    · contradiction
  | closeWindow =>
    simp only [stepOutside] at h
    split at h
    · next stop hstop =>
      obtain rfl := Option.some.inj h
      refine ⟨{
        gen := rfl, vad := rfl, wav := rfl, floor := rfl, sent := rfl, recorded := rfl
        written := le_rfl
        dictates := fun gen x hd => ?_
        known := fun n hn hclosed => ⟨take_map_closeAt stop hclosed, by simpa using hn⟩
        kept := fun r hr => ?_
        added := fun r hr => ?_
        opened := fun st hst => ?_
        starting := fun st hst => by simp at hst }, rfl⟩
      · obtain ⟨w, hw, hd⟩ := hd
        obtain ⟨v, hv, rfl⟩ := List.mem_map.mp hw
        exact .inl ⟨v, hv, holds_closeAt hd⟩
      · dsimp only [DictationOwnsMic.close]
        split
        · exact hr
        · split
          · exact List.mem_append_left _ hr
          · exact hr
      · dsimp only [DictationOwnsMic.close] at hr
        split at hr
        · exact .inl hr
        · next start hstart =>
          split at hr
          · rcases List.mem_append.mp hr with hr | hr
            · exact .inl hr
            · obtain rfl := List.mem_singleton.mp hr
              exact .inr hstart
          · exact .inl hr
      · dsimp only [DictationOwnsMic.close] at hst
        split at hst
        · next hnone => rw [hnone] at hst; contradiction
        · contradiction
    · contradiction
  | finishTask =>
    simp only [stepOutside] at h
    split at h
    · obtain rfl := Option.some.inj h
      exact ⟨.refl_of rfl rfl rfl rfl rfl rfl le_rfl rfl rfl (fun _ h => .inl h), rfl⟩
    · contradiction
  | requestStop =>
    simp only [stepOutside] at h
    split at h
    · obtain rfl := Option.some.inj h
      exact ⟨.refl_of rfl rfl rfl rfl rfl rfl le_rfl rfl rfl (fun _ h => .inl h), rfl⟩
    · contradiction
  | _ => simp [stepOutside] at h

end Outside

end YapStack.Live.Session
