import YapStack.Live.BufferSteps

set_option linter.unusedSectionVars false

namespace YapStack.Live.Buffers

open Spans

variable {f32 : Rounding} {s t : State} {a : Action}

section Windows

/-- Fewer windows, or no more than one that is fresh. -/
theorem WindowsFresh.imp {slot : Slot} {owns owns' : DictationOwnsMic} {id : Nat}
    (h : WindowsFresh slot owns id)
    (hsub : slot.watchesMic = true → ∀ b ∈ owns'.buffers, b ∈ owns.buffers ∨ b = id) :
    WindowsFresh slot owns' id := by
  intro huses hun b hb
  rcases hsub huses b hb with hb | rfl
  · exact h huses hun b hb
  · rfl

theorem mem_buffers {owns : DictationOwnsMic} {b : Nat} :
    b ∈ owns.buffers ↔ (∃ start, owns.opened = some start ∧ start.buffer = b) ∨
      ∃ w ∈ owns.closed, w.1.buffer = b ∨ w.2.buffer = b := by
  simp only [DictationOwnsMic.buffers, List.mem_append, List.mem_map, Option.mem_toList,
    List.mem_flatMap, List.mem_cons, List.not_mem_nil, or_false]
  refine or_congr Iff.rfl (exists_congr fun w => and_congr_right fun _ => ?_)
  rw [eq_comm (a := b), eq_comm (a := b)]

theorem mem_buffers_close {owns : DictationOwnsMic} {stop : Bound} {b : Nat}
    (h : b ∈ (owns.close stop).buffers) : b ∈ owns.buffers ∨ b = stop.buffer := by
  unfold DictationOwnsMic.close at h
  split at h
  · exact .inl h
  · next start hopen =>
    rcases mem_buffers.mp h with ⟨start', hs, _⟩ | ⟨w, hw, hb⟩
    · contradiction
    · dsimp only at hw
      split at hw
      · rcases List.mem_append.mp hw with hw | hw
        · exact .inl (mem_buffers.mpr (.inr ⟨w, hw, hb⟩))
        · obtain rfl := List.mem_singleton.mp hw
          rcases hb with rfl | rfl
          · exact .inl (mem_buffers_of_opened hopen)
          · exact .inr rfl
      · exact .inl (mem_buffers.mpr (.inr ⟨w, hw, hb⟩))

theorem mem_buffers_prune {owns : DictationOwnsMic} {minPos b : Nat}
    (h : b ∈ (owns.pruneBefore minPos).buffers) : b ∈ owns.buffers := by
  rcases mem_buffers.mp h with hopen | ⟨w, hw, hb⟩
  · exact mem_buffers.mpr (.inl hopen)
  · exact mem_buffers.mpr (.inr ⟨w, (List.dropWhile_sublist _).mem hw, hb⟩)

end Windows

/-- Only the windows change. -/
theorem Inv.setOwns (h : Inv s) {owns : DictationOwnsMic}
    (hsub : (s.slots .session).watchesMic = true →
      ∀ b ∈ owns.buffers, b ∈ s.owns.buffers ∨ b = s.ids .mic) :
    Inv { s with owns := owns } :=
  ⟨h.reads, h.slots, h.windows.imp hsub⟩

section Start

theorem begin_fresh {kind : LiveSourceKind} {start : Starting} (h : StartFresh kind s.ids start)
    (hstart : ∀ bound ∈ start.start,
      bound.buffer = s.ids .mic ∨ (s.buffers .mic).ring.writePos < bound.pos)
    (rewind : AudioSourceLabel → Nat) (backfill : Bool) (anchor : ℚ) :
    LoopFresh s.ids ⟨start.source, start.begin s.buffers rewind backfill anchor, none⟩ := by
  have hflush : ∀ label, start.source.checks label = true →
      ∀ b ∈ (start.flush.map (fun f => f label)).toList.map Bound.buffer, b = s.ids label := by
    intro label hc b hb
    obtain ⟨bound, hbound, rfl⟩ := List.mem_map.mp hb
    obtain ⟨f, hf, rfl⟩ := Option.map_eq_some_iff.mp (Option.mem_toList.mp hbound)
    exact h.flush f hf label hc
  have hsingle : ∀ label, ∀ b ∈ [(s.buffers label).id], b = s.ids label :=
    fun label b hb => List.mem_singleton.mp hb
  refine ⟨fun label source hs => ?_, fun label source hs => ?_, fun hd hh => by contradiction⟩
  · simp only [Starting.begin] at hs
    split at hs
    · assumption
    · contradiction
  · show Fresh (s.ids label) source
    simp only [Starting.begin] at hs
    split at hs
    · next hc =>
      split at hs
      · next bound hb =>
        cases hs
        refine ⟨fun b hmem => ?_, hflush _ hc, fun r hr => by contradiction⟩
        dsimp only at hmem
        split at hmem
        · next hle =>
          obtain rfl := List.mem_singleton.mp hmem
          exact (hstart bound hb).resolve_right (by omega)
        · exact hsingle .mic b hmem
      · cases hs
        exact ⟨hsingle _, hflush _ hc, fun r hr => by contradiction⟩
    · contradiction

theorem inv_stepStart (h : Inv s) (hg : Guarded s a) (hst : stepStart s a = some t) : Inv t := by
  cases a with
  | readStart =>
    obtain rfl := Option.some.inj hst
    exact ⟨h.reads, h.slots, h.windows⟩
  | reserveSession source =>
    simp only [stepStart] at hst
    split at hst
    · next hslot =>
      obtain rfl := Option.some.inj hst
      refine Inv.setSlot (h.setOwns fun huses => ?_)
        ⟨fun _ => rfl, fun _ => rfl, fun f hf => by contradiction⟩ (fun _ hw => by contradiction)
      rw [hslot] at huses
      contradiction
    · contradiction
  | reserveDictation start =>
    simp only [stepStart] at hst
    split at hst
    · split at hst
      · obtain rfl := Option.some.inj hst
        refine Inv.setSlot (s := { s with
            owns := { s.owns with opened := some start }, starts := s.starts.erase start })
          ?_ ⟨LiveSourceKind.noConfusion, fun _ => rfl, fun f hf => by contradiction⟩
          LiveSourceKind.noConfusion
        have ho : Inv { s with owns := { s.owns with opened := some start } } := by
          refine h.setOwns fun huses b hb => ?_
          rcases mem_buffers.mp hb with ⟨start', hs, rfl⟩ | hclosed
          · obtain rfl := Option.some.inj hs
            exact .inr (hg huses)
          · exact .inl (mem_buffers.mpr (.inr hclosed))
        exact ⟨ho.reads, ho.slots, ho.windows⟩
      · contradiction
    · contradiction
  | preflight kind probe =>
    simp only [stepStart] at hst
    split at hst
    · next start hslot =>
      split at hst
      · contradiction
      · next label todo htodo =>
        obtain rfl := Option.some.inj hst
        have hstart : StartFresh kind s.ids start := by
          have := h.slots kind
          rwa [hslot] at this
        have hflush : start.flush = none := hstart.todo (by rw [htodo]; exact List.cons_ne_nil _ _)
        refine h.replace (fun hne => ?_)
          ⟨hstart.session, fun _ => hflush, fun f hf => by rw [hflush] at hf; contradiction⟩
          (fun _ hw => by contradiction)
        cases probe with
        | none => exact absurd rfl hne
        | some probe =>
          simp only [Guarded, hslot] at hg
          exact hg label (by rw [htodo]; rfl) hne
    · contradiction
  | readFlush kind rewind =>
    simp only [stepStart] at hst
    split at hst
    · next start hslot =>
      split at hst
      · next hc =>
        obtain rfl := Option.some.inj hst
        have hstart : StartFresh kind s.ids start := by
          have := h.slots kind
          rwa [hslot] at this
        refine h.setSlot ⟨hstart.session, fun hne => absurd hc.1 hne, fun f hf label _ => ?_⟩
          (fun _ hw => by contradiction)
        obtain rfl := Option.mem_some_iff.mp hf
        rfl
      · contradiction
    · contradiction
  | publish =>
    simp only [stepStart] at hst
    split at hst
    · split at hst
      · obtain rfl := Option.some.inj hst
        exact ⟨h.reads, h.slots, h.windows⟩
      · contradiction
    · contradiction
  | spawn kind =>
    simp only [stepStart] at hst
    split at hst
    · next start hslot =>
      split at hst
      · obtain rfl := Option.some.inj hst
        have hstart : SlotFresh kind s.ids (.spawned start) := by
          have := h.slots kind
          rwa [hslot] at this
        have hp : Inv { s with
            present := s.present || decide (kind = LiveSourceKind.session) } :=
          ⟨h.reads, h.slots, h.windows⟩
        exact hp.setSlot hstart (fun _ hw => by contradiction)
      · contradiction
    · contradiction
  | abortStart kind =>
    simp only [stepStart] at hst
    split at hst
    · obtain rfl := Option.some.inj hst
      cases kind with
      | session =>
        exact Inv.setSlot (s := { s with receiver := false }) ⟨h.reads, h.slots, h.windows⟩ trivial
          (fun _ huses => by contradiction)
      | dictation =>
        refine Inv.setSlot (h.setOwns fun _ b hb => ?_) trivial LiveSourceKind.noConfusion
        rcases mem_buffers.mp hb with ⟨start', hs, _⟩ | hclosed
        · contradiction
        · exact .inl (mem_buffers.mpr (.inr hclosed))
    · contradiction
  | begin kind rewind backfill anchor =>
    simp only [stepStart] at hst
    split at hst
    · next start hslot =>
      obtain rfl := Option.some.inj hst
      have hstart : StartFresh kind s.ids start := by
        have := h.slots kind
        rwa [hslot] at this
      refine h.setSlot (begin_fresh hstart (fun bound hb => ?_) rewind backfill anchor) ?_
      · cases kind with
        | session =>
          rw [hstart.session rfl] at hb
          contradiction
        | dictation =>
          simp only [Guarded, hslot] at hg
          exact hg bound hb
      · rintro rfl huses - b hb
        simp only [Guarded, hslot] at hg
        exact hg huses b hb
    · contradiction
  | _ => contradiction

end Start

section Running

theorem Inv.running (h : Inv s) {kind : LiveSourceKind} {loop : Loop}
    (hslot : s.slots kind = .running loop) : LoopFresh s.ids loop := by
  have := h.slots kind
  rwa [hslot] at this

/-- The windows of a session whose slot goes on in the same way. -/
theorem Inv.windows_of (h : Inv s) {kind : LiveSourceKind} {loop : Loop} {slot : Slot}
    (hslot : s.slots kind = .running loop) (huses : slot.watchesMic = loop.source.checks .mic)
    (hun : slot.unrebased = Slot.unrebased (.running loop)) :
    kind = .session → WindowsFresh slot s.owns (s.ids .mic) := by
  rintro rfl hu hr b hb
  have hw := h.windows
  rw [hslot] at hw
  exact hw (huses.symm.trans hu) (hun.symm.trans hr) b hb

theorem LoopFresh.setSource {ids : AudioSourceLabel → Nat} {loop : Loop} (h : LoopFresh ids loop)
    {label : AudioSourceLabel} {source source' : Source} (hs : loop.sources label = some source)
    (hf : Fresh (loop.bufferOf ids label) source')
    (hread : loop.handling.isSome = true → source'.flushRead = source.flushRead) :
    LoopFresh ids (loop.setSource label source') where
  checks l q hq := by
    by_cases hl : l = label
    · subst hl
      exact h.checks l source hs
    · exact h.checks l q (by simpa [Loop.setSource, hl] using hq)
  fresh l q hq := by
    by_cases hl : l = label
    · subst hl
      obtain rfl : source' = q := by simpa [Loop.setSource] using hq
      exact hf
    · exact h.fresh l q (by simpa [Loop.setSource, hl] using hq)
  handled hd hh := by
    obtain ⟨hc, hp, hnone⟩ := h.handled hd hh
    refine ⟨hc, hp, fun q hq => ?_⟩
    by_cases hl : hd.label = label
    · subst hl
      obtain rfl : source' = q := by simpa [Loop.setSource] using hq
      rw [hread (Option.isSome_of_mem hh)]
      exact hnone source hs
    · exact hnone q (by simpa [Loop.setSource, hl] using hq)

theorem inv_stepLoop (h : Inv s) (hst : stepLoop f32 s a = some t) : Inv t := by
  cases a with
  | onSource kind label op =>
    simp only [stepLoop] at hst
    split at hst
    · next loop hslot =>
      split at hst
      · next source hhandling hsource =>
        obtain ⟨⟨source', reads⟩, hstep, rfl⟩ := Option.map_eq_some_iff.mp hst
        have hloop := h.running hslot
        have hbuffer : loop.bufferOf s.ids label = (s.buffers label).id := by
          unfold Loop.bufferOf
          rw [hhandling]
          rfl
        have hfresh := hloop.fresh label source hsource
        rw [hbuffer] at hfresh
        have hwin : kind = .session → label = .mic →
            ∀ b ∈ s.owns.buffers, b = (s.buffers label).id := by
          rintro rfl rfl
          exact h.windows (by rw [hslot]; exact hloop.checks _ source hsource)
            (by simp [hslot, Slot.unrebased, hhandling])
        obtain ⟨hf, hr⟩ := Source.step_fresh hfresh hwin hstep
        have hi : Inv { s with reads := s.reads ++ reads } := by
          refine ⟨fun r hmem => ?_, h.slots, h.windows⟩
          rcases List.mem_append.mp hmem with hmem | hmem
          · exact h.reads r hmem
          · exact hr r hmem
        rw [← hbuffer] at hf
        exact hi.setSlot (hloop.setSource hsource hf (fun hsome => by
          rw [hhandling] at hsome; contradiction)) (h.windows_of hslot rfl rfl)
      · contradiction
    · contradiction
  | prune minPos =>
    simp only [stepLoop] at hst
    split at hst
    · obtain rfl := Option.some.inj hst
      exact h.setOwns fun _ b hb => .inl (mem_buffers_prune hb)
    · contradiction
  | stop =>
    obtain rfl := Option.some.inj hst
    exact ⟨h.reads, h.slots, h.windows⟩
  | finish kind =>
    simp only [stepLoop] at hst
    split at hst
    · split at hst
      · cases kind with
        | session =>
          obtain rfl := Option.some.inj hst
          exact Inv.setSlot (s := { s with receiver := false }) ⟨h.reads, h.slots, h.windows⟩
            trivial (fun _ huses => by contradiction)
        | dictation =>
          obtain rfl := Option.some.inj hst
          exact h.setSlot (fun b hb => by contradiction) LiveSourceKind.noConfusion
      · contradiction
    · contradiction
  | readEnd =>
    simp only [stepLoop] at hst
    split at hst
    · obtain rfl := Option.some.inj hst
      refine h.setSlot (fun b hb => ?_) LiveSourceKind.noConfusion
      obtain rfl := Option.mem_some_iff.mp hb
      rfl
    · contradiction
  | close =>
    simp only [stepLoop] at hst
    split at hst
    · next stop hslot =>
      obtain rfl := Option.some.inj hst
      have hstop : SlotFresh .dictation s.ids (.finalizing (some stop)) := by
        have := h.slots .dictation
        rwa [hslot] at this
      refine Inv.setSlot (h.setOwns fun _ b hb => ?_) trivial LiveSourceKind.noConfusion
      rcases mem_buffers_close hb with hb | rfl
      · exact .inl hb
      · exact .inr (hstop stop rfl)
    · contradiction
  | release kind =>
    simp only [stepLoop] at hst
    split at hst
    · obtain rfl := Option.some.inj hst
      have hp : Inv { s with
          clearing := s.clearing || decide (kind = LiveSourceKind.session) } :=
        ⟨h.reads, h.slots, h.windows⟩
      exact hp.setSlot trivial (fun _ huses => by contradiction)
    · contradiction
  | clearPresent =>
    simp only [stepLoop] at hst
    split at hst
    · obtain rfl := Option.some.inj hst
      exact ⟨h.reads, h.slots, h.windows⟩
    · contradiction
  | _ => contradiction

end Running

section Replace

/-- A loop that restarts a source which no other runtime uses. -/
theorem restartInLoop_inv (h : Inv s) {kind : LiveSourceKind} {loop : Loop}
    (hslot : s.slots kind = .running loop) (hsettled : loop.Settled) {label : AudioSourceLabel}
    {source : Source} (hsource : loop.sources label = some source) {probe : Probe}
    (hother : Replaces s label probe → (s.slots kind.other).uses label = false) :
    Inv (restartInLoop s kind loop label probe) := by
  unfold restartInLoop
  dsimp only
  split
  · exact h
  · next hne =>
    have hloop := h.running hslot
    have hchecks := hloop.checks label source hsource
    refine h.replace (fun _ => hother hne) ⟨hloop.checks, fun l q hq => ?_, fun hd hh => ?_⟩ ?_
    · have hf := hloop.fresh l q hq
      unfold Loop.bufferOf at hf ⊢
      rw [hsettled.1] at hf
      dsimp only at hf ⊢
      split
      · next hl =>
        subst hl
        exact hf
      · next hl =>
        rw [State.ids_setBuffer (fun _ => Ne.symm hl)]
        exact hf
    · obtain rfl := Option.mem_some_iff.mp hh
      exact ⟨hchecks, fun p hp => by contradiction, fun q hq => (hsettled.2 label q hq).2⟩
    · rintro rfl huses hun b hb
      have hl : AudioSourceLabel.mic ≠ label := by
        rintro rfl
        simp [Slot.unrebased] at hun
      rw [State.ids_setBuffer (fun _ => hl)]
      refine h.windows (by rw [hslot]; exact huses) ?_ b hb
      rw [hslot]
      simp [Slot.unrebased, hsettled.1]

theorem inv_stepReplace (h : Inv s) (hg : Guarded s a) (hst : stepReplace s a = some t) :
    Inv t := by
  cases a with
  | takeIntent probe =>
    simp only [stepReplace] at hst
    split at hst
    · next loop label queue hslot hqueue =>
      split at hst
      · next hsettled =>
        have hq : Inv { s with queue := queue } := ⟨h.reads, h.slots, h.windows⟩
        split at hst
        · next source probe hsource =>
          obtain rfl := Option.some.inj hst
          refine restartInLoop_inv hq hslot hsettled hsource (fun hr => ?_)
          exact hg label (by rw [hqueue]; rfl) hr
        · obtain rfl := Option.some.inj hst
          exact hq
      · contradiction
    · contradiction
  | watchdog kind label probe =>
    simp only [stepReplace] at hst
    split at hst
    · next loop hslot =>
      split at hst
      · next hc =>
        obtain rfl := Option.some.inj hst
        obtain ⟨source, hsource⟩ := Option.isSome_iff_exists.mp hc.2
        exact restartInLoop_inv h hslot hc.1 hsource hg
      · contradiction
    · contradiction
  | readNewPos kind =>
    simp only [stepReplace] at hst
    split at hst
    · next loop hslot =>
      split at hst
      · next label old hhandling =>
        obtain rfl := Option.some.inj hst
        have hloop := h.running hslot
        have hhd := hloop.handled _ hhandling
        refine h.setSlot ⟨hloop.checks, fun l q hq => ?_, fun hd hh => ?_⟩
          (h.windows_of hslot rfl ?_)
        · have hf := hloop.fresh l q hq
          unfold Loop.bufferOf at hf ⊢
          rw [hhandling] at hf
          exact hf
        · obtain rfl := Option.mem_some_iff.mp hh
          refine ⟨hhd.1, fun p hp => ?_, hhd.2.2⟩
          obtain rfl := Option.mem_some_iff.mp hp
          rfl
        · simp [Slot.unrebased, hhandling]
      · contradiction
    · contradiction
  | rebase kind =>
    simp only [stepReplace] at hst
    split at hst
    · next loop hslot =>
      split at hst
      · next label old newPos hhandling =>
        obtain rfl := Option.some.inj hst
        have hloop := h.running hslot
        obtain ⟨hchecks, hpos, hread⟩ := hloop.handled _ hhandling
        have hrebased : kind = LiveSourceKind.session ∧ label = AudioSourceLabel.mic →
            ∀ b ∈ (s.owns.rebaseForMicBufferReplacement newPos).buffers, b = s.ids .mic := by
          rintro ⟨rfl, rfl⟩ b hb
          rcases mem_buffers.mp hb with ⟨start, hs, rfl⟩ | ⟨w, hw, _⟩
          · obtain ⟨_, _, rfl⟩ := Option.map_eq_some_iff.mp hs
            exact hpos newPos rfl
          · exact (List.not_mem_nil hw).elim
        have hi : Inv { s with
            owns := if kind = LiveSourceKind.session ∧ label = AudioSourceLabel.mic then
              s.owns.rebaseForMicBufferReplacement newPos else s.owns } := by
          refine h.setOwns fun _ b hb => ?_
          split at hb
          · next hc => exact .inr (hrebased hc b hb)
          · exact .inl hb
        refine hi.setSlot ⟨hloop.checks, fun l q hq => ?_, fun hd hh => ?_⟩ ?_
        · have hf := hloop.fresh l q hq
          unfold Loop.bufferOf at hf ⊢
          rw [hhandling] at hf
          exact hf
        · obtain rfl := Option.mem_some_iff.mp hh
          exact ⟨hchecks, hpos, hread⟩
        · rintro rfl huses - b hb
          by_cases hl : label = .mic
          · rw [if_pos ⟨rfl, hl⟩] at hb
            exact hrebased ⟨rfl, hl⟩ b hb
          · refine hi.windows (by rw [hslot]; exact huses) ?_ b hb
            rw [hslot]
            simp [Slot.unrebased, hhandling, hl]
      · contradiction
    · contradiction
  | rescue kind sent =>
    simp only [stepReplace] at hst
    split at hst
    · next loop hslot =>
      split at hst
      · next label old newPos hhandling =>
        obtain ⟨source, hsource, rfl⟩ := Option.map_eq_some_iff.mp hst
        have hloop := h.running hslot
        have hf := hloop.fresh label source hsource
        have hbuffer : loop.bufferOf s.ids label = old.id := by
          unfold Loop.bufferOf
          rw [hhandling]
          simp
        have hi : Inv { s with
            reads := s.reads ++ [Read.mk source.of old.id, Read.mk source.flushOf old.id] } := by
          refine ⟨fun r hmem => ?_, h.slots, h.windows⟩
          rw [hbuffer] at hf
          simp only [List.mem_append, List.mem_cons, List.not_mem_nil, or_false] at hmem
          rcases hmem with hmem | rfl | rfl
          · exact h.reads r hmem
          · exact hf.of
          · exact hf.flushOf
        exact hi.setSlot (hloop.setSource hsource { hf with } (fun _ => rfl))
          (h.windows_of hslot rfl rfl)
      · contradiction
    · contradiction
  | reset kind anchor =>
    simp only [stepReplace] at hst
    split at hst
    · next loop hslot =>
      split at hst
      · next label old newPos hhandling =>
        obtain ⟨source, hsource, rfl⟩ := Option.map_eq_some_iff.mp hst
        have hloop := h.running hslot
        obtain ⟨hchecks, hpos, hread⟩ := hloop.handled _ hhandling
        have hnew := hpos newPos rfl
        refine h.setSlot ⟨fun l q hq => ?_, fun l q hq => ?_, fun hd hh => by contradiction⟩
          (h.windows_of hslot rfl ?_)
        · by_cases hl : l = label
          · subst hl
            exact hchecks
          · exact hloop.checks l q (by simpa [Loop.setSource, hl] using hq)
        · by_cases hl : l = label
          · subst hl
            obtain rfl : source.replaced kind l newPos (s.buffers l).format anchor = q := by
              simpa [Loop.setSource] using hq
            refine ⟨fun b hb => ?_, fun b hb => ?_, fun r hr => ?_⟩
            · exact (List.mem_singleton.mp hb).trans hnew
            · exact (List.mem_singleton.mp hb).trans hnew
            · rw [show (source.replaced kind l newPos (s.buffers l).format anchor).flushRead = none
                from hread source hsource] at hr
              contradiction
          · have hf := hloop.fresh l q (by simpa [Loop.setSource, hl] using hq)
            unfold Loop.bufferOf at hf
            rw [hhandling] at hf
            dsimp only at hf
            rw [if_neg (Ne.symm hl)] at hf
            exact hf
        · simp [Slot.unrebased, hhandling, Loop.setSource]
      · contradiction
    · contradiction
  | _ => contradiction

end Replace

theorem inv_stepOutside (h : Inv s) (hg : Guarded s a) (hst : stepOutside s a = some t) :
    Inv t := by
  cases a with
  | write label n =>
    obtain rfl := Option.some.inj hst
    exact h.setBuffer (fun hne => absurd rfl hne)
  | trySend label active =>
    simp only [stepOutside] at hst
    split at hst
    · split at hst
      · obtain rfl := Option.some.inj hst
        exact ⟨h.reads, h.slots, h.windows⟩
      · obtain rfl := Option.some.inj hst
        exact ⟨h.reads, h.slots, h.windows⟩
    · contradiction
  | route =>
    simp only [stepOutside] at hst
    split at hst
    · obtain rfl := Option.some.inj hst
      exact ⟨h.reads, h.slots, h.windows⟩
    · contradiction
  | directRestart probe =>
    simp only [stepOutside] at hst
    split at hst
    · next label hbroker =>
      obtain rfl := Option.some.inj hst
      have hi : Inv { s with broker := .idle } := ⟨h.reads, h.slots, h.windows⟩
      refine hi.setBuffer (fun hne => ?_)
      cases probe with
      | none => exact absurd rfl hne
      | some probe =>
        simp only [Guarded, hbroker] at hg
        intro kind
        cases kind with
        | session => exact (hg hne).1
        | dictation => exact (hg hne).2
    · contradiction
  | _ => contradiction

theorem inv_step (h : Inv s) (hg : Guarded s a) (hst : step f32 s a = some t) : Inv t := by
  rcases Option.or_eq_some_iff.mp hst with hstart | ⟨_, hst⟩
  · exact inv_stepStart h hg hstart
  · rcases Option.or_eq_some_iff.mp hst with hloop | ⟨_, hst⟩
    · exact inv_stepLoop h hloop
    · rcases Option.or_eq_some_iff.mp hst with hreplace | ⟨_, hout⟩
      · exact inv_stepReplace h hg hreplace
      · exact inv_stepOutside h hg hout

theorem inv_initial (h : Initial s) : Inv s where
  reads r hr := by
    rw [h.reads] at hr
    exact (List.not_mem_nil hr).elim
  slots kind := by
    rw [h.slots kind]
    trivial
  windows huses := by
    rw [h.slots .session] at huses
    contradiction

theorem Inv.current (h : Inv s) : Current s := by
  refine ⟨h.reads, fun kind loop hslot label source hs hhandling b hb => ?_⟩
  have hf := (h.running hslot).fresh label source hs
  have hbuffer : loop.bufferOf s.ids label = (s.buffers label).id := by
    unfold Loop.bufferOf
    split
    · rfl
    · next hd hhd => rw [if_neg (hhandling hd hhd)]; rfl
  rw [hbuffer] at hf
  rcases List.mem_append.mp hb with hb | hb
  · exact hf.of b hb
  · exact hf.flushOf b hb

section Runs

def mono (rate : Nat) (h : 0 < rate) : Format := ⟨rate, 1, h, by decide⟩

def capturing : State where
  buffers := fun _ => ⟨0, ⟨480000, 0⟩, mono 16000 (by decide)⟩
  owns := .new
  starts := []
  slots := fun _ => .idle
  inbox := false
  receiver := false
  queue := []
  present := false
  clearing := false
  broker := .idle
  reads := []

theorem capturing_initial : Initial capturing := ⟨fun _ => rfl, rfl⟩

/-- The format of another microphone. -/
def otherMic : Probe := ⟨mono 48000 (by decide), 1440000⟩

def startSession : List Action :=
  [.reserveSession .micOnly, .preflight .session none, .readFlush .session (fun _ => 0), .publish,
    .spawn .session, .begin .session (fun _ => 0) false 0]

def startDictation (start : Bound) : List Action :=
  [.readStart, .reserveDictation start, .spawn .dictation, .begin .dictation (fun _ => 0) false 0]

/-- A session changes its microphone, and then someone dictates. -/
def changeThenDictate : List Action :=
  [.write .mic 160000] ++ startSession ++
    [.write .mic 16000, .onSource .session .mic .extract, .onSource .session .mic (.feed [] 0),
      .watchdog .session .mic otherMic, .write .mic 480, .readNewPos .session, .rebase .session,
      .rescue .session true, .write .mic 480, .reset .session 0,
      .onSource .session .mic .extract] ++
    startDictation ⟨960, 1⟩ ++ [.onSource .dictation .mic .extract]

/-- A dictation changes the microphone of a running session. -/
def changeInDictation : List Action :=
  [.write .mic 160000] ++ startSession ++ startDictation ⟨160000, 0⟩ ++
    [.watchdog .dictation .mic otherMic, .write .mic 48000, .onSource .session .mic .extract]

end Runs

end YapStack.Live.Buffers
