import YapStack.Live.Buffers

set_option linter.unusedSectionVars false

namespace YapStack.Live.Buffers

open Spans

/-- All positions of the source are that of one buffer. -/
structure Fresh (id : Nat) (s : Source) : Prop where
  of : ∀ b ∈ s.of, b = id
  flushOf : ∀ b ∈ s.flushOf, b = id
  flushRead : ∀ r ∈ s.flushRead, r.buffer = id

/-- The buffer that a loop's positions belong to: the dropped one until its replacement is
handled. -/
def Loop.bufferOf (loop : Loop) (ids : AudioSourceLabel → Nat) (label : AudioSourceLabel) : Nat :=
  match loop.handling with
  | none => ids label
  | some h => if h.label = label then h.old.id else ids label

structure LoopFresh (ids : AudioSourceLabel → Nat) (loop : Loop) : Prop where
  checks : ∀ label source, loop.sources label = some source → loop.source.checks label = true
  fresh : ∀ label source, loop.sources label = some source →
    Fresh (loop.bufferOf ids label) source
  handled : ∀ h ∈ loop.handling, loop.source.checks h.label = true ∧
    (∀ p ∈ h.newPos, p.buffer = ids h.label) ∧
      ∀ source, loop.sources h.label = some source → source.flushRead = none

structure StartFresh (kind : LiveSourceKind) (ids : AudioSourceLabel → Nat) (start : Starting) :
    Prop where
  session : kind = .session → start.start = none
  todo : start.todo ≠ [] → start.flush = none
  flush : ∀ f ∈ start.flush, ∀ label, start.source.checks label = true →
    (f label).buffer = ids label

def SlotFresh (kind : LiveSourceKind) (ids : AudioSourceLabel → Nat) : Slot → Prop
  | .idle | .closed => True
  | .starting start | .spawned start => StartFresh kind ids start
  | .running loop => LoopFresh ids loop
  | .finalizing stop => ∀ b ∈ stop, b.buffer = ids .mic

/-- The dictation windows still have bounds of a dropped mic buffer. -/
def Slot.unrebased : Slot → Bool
  | .running loop =>
    (loop.handling.map (fun h => decide (h.label = .mic) && !h.rebased)).getD false
  | _ => false

def State.ids (s : State) (label : AudioSourceLabel) : Nat := (s.buffers label).id

/-- What a session that runs on the mic relies on. -/
def WindowsFresh (slot : Slot) (owns : DictationOwnsMic) (id : Nat) : Prop :=
  slot.watchesMic = true → slot.unrebased = false → ∀ b ∈ owns.buffers, b = id

structure Inv (s : State) : Prop where
  reads : ∀ r ∈ s.reads, ∀ b ∈ r.of, b = r.buffer
  slots : ∀ kind, SlotFresh kind s.ids (s.slots kind)
  windows : WindowsFresh (s.slots .session) s.owns (s.ids .mic)

section Sources

variable {f32 : Rounding}

theorem forall_cons_eq {id a : Nat} {of : List Nat} (ha : a = id) (h : ∀ b ∈ of, b = id) :
    ∀ b ∈ a :: of, b = id := by
  intro b hb
  rcases List.mem_cons.mp hb with rfl | hb
  · exact ha
  · exact h b hb

theorem mem_buffers_of_opened {owns : DictationOwnsMic} {start : Bound}
    (h : owns.opened = some start) : start.buffer ∈ owns.buffers := by
  simp [DictationOwnsMic.buffers, h]

theorem mem_buffers_of_closed {owns : DictationOwnsMic} {w : Bound × Bound} (h : w ∈ owns.closed) :
    w.1.buffer ∈ owns.buffers ∧ w.2.buffer ∈ owns.buffers := by
  unfold DictationOwnsMic.buffers
  exact ⟨List.mem_append_right _ (List.mem_flatMap.mpr ⟨w, h, by simp⟩),
    List.mem_append_right _ (List.mem_flatMap.mpr ⟨w, h, by simp⟩)⟩

/-- A step of a loop reads its buffer at positions of that buffer, and takes new positions from
it only. -/
theorem Source.step_fresh {kind : LiveSourceKind} {label : AudioSourceLabel}
    {owns : DictationOwnsMic} {buffer : Buffer} {s t : Source} {op : SourceStep}
    {reads : List Read} (h : Fresh buffer.id s)
    (hw : kind = .session → label = .mic → ∀ b ∈ owns.buffers, b = buffer.id)
    (hs : s.step f32 kind label owns buffer op = some (t, reads)) :
    Fresh buffer.id t ∧ ∀ r ∈ reads, ∀ b ∈ r.of, b = r.buffer := by
  have hread : ∀ of : List Nat, (∀ b ∈ of, b = buffer.id) →
      ∀ r ∈ [Read.mk of buffer.id], ∀ b ∈ r.of, b = r.buffer := by
    intro of hof r hr
    obtain rfl := List.mem_singleton.mp hr
    exact hof
  have hnone : ∀ r ∈ ([] : List Read), ∀ b ∈ r.of, b = r.buffer :=
    fun r hr => (List.not_mem_nil hr).elim
  cases op with
  | extract =>
    cases hs
    exact ⟨{ h with of := forall_cons_eq rfl h.of }, hread _ h.of⟩
  | feed frames pending =>
    obtain ⟨newPos, _, hs⟩ := Option.map_eq_some_iff.mp hs
    cases hs
    exact ⟨{ h with }, hnone⟩
  | readWav limit trim =>
    obtain ⟨pos, _, hs⟩ := Option.map_eq_some_iff.mp hs
    cases hs
    refine ⟨{ h with flushOf := forall_cons_eq rfl h.flushOf, flushRead := fun r hr => ?_ },
      hread _ h.flushOf⟩
    obtain rfl := Option.mem_some_iff.mp hr
    rfl
  | writeWav =>
    obtain ⟨read, hr, hs⟩ := Option.map_eq_some_iff.mp hs
    cases hs
    refine ⟨{ h with flushRead := fun r hr => by contradiction }, fun r hr => ?_⟩
    split at hr
    · next hkind =>
      obtain rfl := List.mem_singleton.mp hr
      intro b hb
      exact (hw hkind.1 hkind.2 b hb).trans (h.flushRead read ‹_›).symm
    · exact (List.not_mem_nil hr).elim
  | drain =>
    cases hs
    exact ⟨{ h with }, hnone⟩
  | poll frames clock =>
    cases hs
    exact ⟨{ h with }, hnone⟩
  | consume window now =>
    simp only [Source.step] at hs
    split at hs
    · next hc =>
      cases hs
      obtain ⟨hstart, hstop⟩ := mem_buffers_of_closed hc.2.2.1
      have h1 := hw hc.1 hc.2.1 _ hstart
      have h2 := hw hc.1 hc.2.1 _ hstop
      exact ⟨{ h with
          of := forall_cons_eq h1 (forall_cons_eq h2 (forall_cons_eq rfl h.of)) },
        hread _ (forall_cons_eq h1 h.of)⟩
    · contradiction
  | settle now =>
    simp only [Source.step] at hs
    split at hs
    · contradiction
    · next start hopen =>
      split at hs
      · next hc =>
        cases hs
        have h1 := hw hc.1 hc.2.1 _ (mem_buffers_of_opened hopen)
        exact ⟨{ h with of := forall_cons_eq h1 (forall_cons_eq rfl h.of) },
          hread _ (forall_cons_eq h1 h.of)⟩
      · contradiction
  | dispatch isForceChunk origin now =>
    cases hs
    exact ⟨{ h with of := forall_cons_eq rfl h.of }, hread _ h.of⟩
  | advanceIdle =>
    cases hs
    exact ⟨{ h with of := forall_cons_eq rfl h.of }, hnone⟩
  | copyFinal =>
    cases hs
    exact ⟨h, hread _ h.of⟩

end Sources

section Slots

theorem StartFresh.congr {kind : LiveSourceKind} {ids ids' : AudioSourceLabel → Nat}
    {start : Starting}
    (hids : ∀ label, (start.flush.isSome && start.source.checks label) = true →
      ids' label = ids label)
    (h : StartFresh kind ids start) : StartFresh kind ids' start := by
  refine { h with flush := fun f hf label hc => (h.flush f hf label hc).trans ?_ }
  exact (hids label (by rw [Option.isSome_of_mem hf, hc]; rfl)).symm

theorem LoopFresh.congr {ids ids' : AudioSourceLabel → Nat} {loop : Loop}
    (hids : ∀ label, loop.source.checks label = true → ids' label = ids label)
    (h : LoopFresh ids loop) : LoopFresh ids' loop := by
  refine { h with fresh := fun label source hs => ?_, handled := fun hd hh => ?_ }
  · have hbuffer : loop.bufferOf ids' label = loop.bufferOf ids label := by
      unfold Loop.bufferOf
      rw [hids label (h.checks label source hs)]
    rw [hbuffer]
    exact h.fresh label source hs
  · obtain ⟨hc, hp, hread⟩ := h.handled hd hh
    exact ⟨hc, fun p hpos => (hp p hpos).trans (hids _ hc).symm, hread⟩

/-- A slot depends on the buffers that it uses, and on no other. -/
theorem SlotFresh.congr {kind : LiveSourceKind} {ids ids' : AudioSourceLabel → Nat} {slot : Slot}
    (hids : ∀ label, slot.uses label = true → ids' label = ids label)
    (h : SlotFresh kind ids slot) : SlotFresh kind ids' slot := by
  cases slot with
  | idle | closed => trivial
  | starting start | spawned start => exact StartFresh.congr hids h
  | running loop => exact LoopFresh.congr hids h
  | finalizing stop =>
    intro b hb
    exact (h b hb).trans (hids .mic (by rw [Slot.uses, Option.isSome_of_mem hb]; rfl)).symm

@[simp] theorem State.ids_setBuffer_self (s : State) (label : AudioSourceLabel)
    (buffer : Buffer) : (s.setBuffer label buffer).ids label = buffer.id := by
  simp [State.ids, State.setBuffer]

/-- A replaced buffer is a change for its own source only. -/
theorem State.ids_setBuffer {s : State} {label l : AudioSourceLabel} {buffer : Buffer}
    (h : buffer.id ≠ s.ids label → l ≠ label) : (s.setBuffer label buffer).ids l = s.ids l := by
  by_cases hl : l = label
  · subst hl
    rw [ids_setBuffer_self]
    by_contra hne
    exact h hne rfl
  · simp [State.ids, State.setBuffer, hl]

theorem ne_of_uses {slot : Slot} {label l : AudioSourceLabel} (h : slot.uses label = false)
    (hl : slot.uses l = true) : l ≠ label := by
  rintro rfl
  rw [h] at hl
  contradiction

theorem Slot.uses_of_watchesMic {slot : Slot} (h : slot.watchesMic = true) :
    slot.uses .mic = true := by
  cases slot with
  | running loop => exact h
  | _ => contradiction

/-- One party changes its own slot and the buffer of one source. Who else uses that source
keeps the buffer. -/
theorem Inv.replace {s : State} (h : Inv s) {label : AudioSourceLabel} {buffer : Buffer}
    {kind : LiveSourceKind} {slot : Slot}
    (hother : buffer.id ≠ s.ids label → (s.slots kind.other).uses label = false)
    (hslot : SlotFresh kind (s.setBuffer label buffer).ids slot)
    (hwin : kind = .session →
      WindowsFresh slot s.owns ((s.setBuffer label buffer).ids .mic)) :
    Inv ((s.setBuffer label buffer).setSlot kind slot) := by
  have hids : ∀ l, (s.slots kind.other).uses l = true →
      (s.setBuffer label buffer).ids l = s.ids l :=
    fun l hl => State.ids_setBuffer (fun hne => ne_of_uses (hother hne) hl)
  refine ⟨h.reads, fun k => ?_, ?_⟩
  · show SlotFresh k (s.setBuffer label buffer).ids (Function.update s.slots kind slot k)
    by_cases hk : k = kind
    · subst hk
      rw [Function.update_self]
      exact hslot
    · rw [Function.update_of_ne hk]
      have hk : k = kind.other := by cases k <;> cases kind <;> first | rfl | exact absurd rfl hk
      subst hk
      exact (h.slots _).congr hids
  · show WindowsFresh (Function.update s.slots kind slot .session) s.owns _
    cases kind with
    | session =>
      rw [Function.update_self]
      exact hwin rfl
    | dictation =>
      rw [Function.update_of_ne LiveSourceKind.noConfusion]
      intro huses hun b hb
      exact (h.windows huses hun b hb).trans (hids .mic (Slot.uses_of_watchesMic huses)).symm

theorem State.setBuffer_self (s : State) (label : AudioSourceLabel) :
    s.setBuffer label (s.buffers label) = s := by
  unfold State.setBuffer
  rw [Function.update_eq_self]

/-- One party changes its own slot. -/
theorem Inv.setSlot {s : State} (h : Inv s) {kind : LiveSourceKind} {slot : Slot}
    (hslot : SlotFresh kind s.ids slot)
    (hwin : kind = .session → WindowsFresh slot s.owns (s.ids .mic)) :
    Inv (s.setSlot kind slot) := by
  have hself := s.setBuffer_self .mic
  have hr : Inv ((s.setBuffer .mic (s.buffers .mic)).setSlot kind slot) :=
    h.replace (fun hne => absurd rfl hne) (by rw [hself]; exact hslot) (by rw [hself]; exact hwin)
  rwa [hself] at hr

/-- A buffer that nobody uses can be replaced. -/
theorem Inv.setBuffer {s : State} (h : Inv s) {label : AudioSourceLabel} {buffer : Buffer}
    (hfree : buffer.id ≠ s.ids label → ∀ kind, (s.slots kind).uses label = false) :
    Inv (s.setBuffer label buffer) := by
  have hids : ∀ kind l, (s.slots kind).uses l = true →
      (s.setBuffer label buffer).ids l = s.ids l :=
    fun kind l hl => State.ids_setBuffer (fun hne => ne_of_uses (hfree hne kind) hl)
  exact ⟨h.reads, fun kind => (h.slots kind).congr (hids kind), fun huses hun b hb =>
    (h.windows huses hun b hb).trans
      (hids .session .mic (Slot.uses_of_watchesMic huses)).symm⟩

end Slots

end YapStack.Live.Buffers
