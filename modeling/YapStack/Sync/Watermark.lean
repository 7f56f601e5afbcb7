import YapStack.Sync.PullSteps

set_option linter.unusedSectionVars false

namespace YapStack.Sync.Puller

open Relay.Sequence

variable {Client : Type} [DecidableEq Client] (wire : WireText Client)

/-- Both a merged and a stashed row have a place of their own. -/
def Placed (i : Inbox) (r : ChangeRow) : Prop :=
  ∃ n, i.arrived[n]? = some r ∧ (n ∈ i.applied ∨ ∃ s ∈ i.pending, s.arrival = n)

/-- The change sits verbatim in the crypto quarantine, or a cipher of this device
opened it and each of its rows is applied or stashed. -/
def Kept (p : Puller Client) (pc : PulledChange Client) : Prop :=
  (∃ detail, cryptoRow wire pc detail ∈ p.crypto) ∨
    ∃ cipher ∈ p.used, ∃ cs, decodePulledChangeset wire cipher pc = .ok cs ∧
      ∀ r ∈ cs.rows, Placed p.inbox.db r

/-- Up to the watermark the relay has no gap, and every change of it is kept. -/
def Complete (p : Puller Client) : Prop :=
  ∀ seq, 0 < seq → seq ≤ p.watermark →
    ∃ c, p.relay.row seq = some c ∧ Kept wire p (pulledChange wire (c, seq))

/-- What may leave the two quarantines: a stashed row that was applied, a changeset
that was merged. -/
structure Leaves (p t : Puller Client) : Prop where
  pending : ∀ s ∈ p.inbox.db.pending,
    s ∈ t.inbox.db.pending ∨ s.arrival ∈ t.inbox.db.applied
  arrived : ∃ done, t.inbox.db.arrived = p.inbox.db.arrived ++ done
  crypto : ∀ row ∈ p.crypto, row ∈ t.crypto ∨ ∃ pc, row.change wire = some pc ∧
    ∃ cipher ∈ t.used, ∃ cs, decodePulledChangeset wire cipher pc = .ok cs ∧
      ∀ r ∈ cs.rows, Placed t.inbox.db r

variable {wire} {p t : Puller Client}

theorem placed_of_arrived {i : Inbox} (h : i.Sound) {r : ChangeRow} (hr : r ∈ i.arrived) :
    Placed i r := by
  obtain ⟨n, hn⟩ := List.mem_iff_getElem?.mp hr
  have hmem : n ∈ List.range i.arrived.length :=
    List.mem_range.mpr (List.getElem?_eq_some_iff.mp hn).1
  refine ⟨n, hn, ?_⟩
  obtain happ | hst := List.mem_append.mp (h.exact.mem_iff.mpr hmem)
  · exact Or.inl happ
  · exact Or.inr (List.mem_map.mp hst)

theorem Sound.complete (h : p.Sound wire) : p.Complete wire := by
  intro seq hpos hle
  obtain ⟨pc, hs, hk⟩ | ⟨pc, hm, _⟩ := h.watermark seq hpos hle
  · obtain ⟨c, hc, rfl⟩ := hs
    refine ⟨c, hc, ?_⟩
    obtain hk | ⟨cipher, hu, cs, hcs, hrows⟩ := hk
    · exact Or.inl hk
    · exact Or.inr ⟨cipher, hu, cs, hcs, fun r hr => placed_of_arrived h.inbox.db (hrows r hr)⟩
  · cases hm

/-- What a step can do to the inbox and to the crypto quarantine. -/
structure Frame (p t : Puller Client) : Prop where
  inbox : t.inbox = p.inbox ∨ ∃ e, Quarantine.step p.inbox e = some t.inbox
  crypto : p.crypto ⊆ t.crypto ∨ ∃ cipher report row rest,
    p.retry = some ⟨cipher, report, .deleting row rest⟩ ∧
      t.crypto = p.crypto.filter (fun c => c.changesetSeq ≠ row.changesetSeq) ∧
      t.ledger = { p.ledger with crypto := t.crypto }

theorem frame_same (hi : t.inbox = p.inbox) (hc : t.crypto = p.crypto) : Frame p t :=
  ⟨Or.inl hi, Or.inl (hc ▸ List.Subset.refl _)⟩

theorem frame_inbox {e : Quarantine.Event} (hi : Quarantine.step p.inbox e = some t.inbox)
    (hc : t.crypto = p.crypto) : Frame p t :=
  ⟨Or.inr ⟨e, hi⟩, Or.inl (hc ▸ List.Subset.refl _)⟩

theorem takeChange_frame {cycle : PullCycle Client} {pc : PulledChange Client}
    {rest : List (PulledChange Client)} {nextSeq : Nat} {hasMore : Bool}
    (hst : takeChange wire p cycle pc rest nextSeq hasMore = some t) : Frame p t := by
  simp only [takeChange] at hst
  split at hst
  · split at hst <;> cases hst
    exact ⟨Or.inl rfl, Or.inl (Ledger.quarantine_subset _ _ _)⟩
  · obtain ⟨q, hq, rfl⟩ := Option.map_eq_some_iff.mp hst
    exact frame_inbox hq rfl

theorem takeRow_frame {pass : RetryPass Client} {row : CryptoRow} {rest : List CryptoRow}
    (hst : takeRow wire p pass row rest = some t) : Frame p t := by
  simp only [takeRow] at hst
  split at hst
  · cases hst
    exact frame_same rfl rfl
  · split at hst
    · cases hst
      exact frame_same rfl rfl
    · obtain ⟨q, hq, rfl⟩ := Option.map_eq_some_iff.mp hst
      exact frame_inbox hq rfl

theorem step_frame {e : Event Client} (hst : step wire p e = some t) : Frame p t := by
  cases e with
  | nextChange =>
    simp only [step] at hst
    split at hst
    · exact takeChange_frame hst
    · cases hst
  | nextRow =>
    simp only [step] at hst
    split at hst
    · cases hst
      exact frame_same rfl rfl
    · exact takeRow_frame hst
    · cases hst
  | deleteRow =>
    simp only [step] at hst
    split at hst <;> cases hst
    rename_i hm hretry
    exact ⟨Or.inl rfl, Or.inr ⟨_, _, _, _, hretry, rfl, rfl⟩⟩
  | mergeRow applies =>
    obtain ⟨q, hq, rfl⟩ := Option.map_eq_some_iff.mp hst
    split <;> exact frame_inbox hq rfl
  | commitMerge =>
    simp only [step] at hst
    split at hst
    · cases hst
    · obtain ⟨q, hq, rfl⟩ := Option.map_eq_some_iff.mp hst
      exact frame_inbox hq rfl
  | failMerge =>
    simp only [step, Option.map_eq_some_iff] at hst
    obtain ⟨q, hq, rfl⟩ := hst
    exact frame_inbox hq rfl
  | replay e =>
    simp only [step] at hst
    split at hst
    · obtain ⟨q, hq, rfl⟩ := Option.map_eq_some_iff.mp hst
      exact frame_inbox hq rfl
    · cases hst
  | crash =>
    simp only [step, Option.map_eq_some_iff] at hst
    obtain ⟨q, hq, rfl⟩ := hst
    exact frame_inbox hq rfl
  | answer =>
    simp only [step] at hst
    split at hst
    · split at hst <;> cases hst <;> exact frame_same rfl rfl
    · cases hst
  | commit rows =>
    cases hst
    exact frame_same rfl rfl
  | beginPull cipher | readWatermark | setWatermark | failPull | beginRetry cipher | failRetry =>
    simp only [step] at hst
    split at hst <;> cases hst
    all_goals exact frame_same rfl rfl

theorem Frame.keeps (h : Frame p t) (hp : p.inbox.Sound) : Keeps p.inbox.db t.inbox.db := by
  obtain heq | ⟨e, he⟩ := h.inbox
  · exact heq ▸ Keeps.refl _
  · exact Quarantine.step_keeps hp he

/-- A changeset leaves the crypto quarantine only when it is merged. -/
theorem step_crypto {e : Event Client} (h : p.Sound wire) (hst : step wire p e = some t)
    {row : CryptoRow} (hr : row ∈ p.crypto) : row ∈ t.crypto ∨
      ∃ pc, row.change wire = some pc ∧ t.ledger.Merged wire pc := by
  obtain hsub | ⟨cipher, report, gone, rest, hretry, hc, hl⟩ := (step_frame hst).crypto
  · exact Or.inl (hsub hr)
  · by_cases hseq : row.changesetSeq = gone.changesetSeq
    · obtain ⟨_, hv, pc, hpc, hm⟩ := h.retry _ hretry
      have hgone := serves_of_verbatim (hv gone List.mem_cons_self) hpc
      obtain ⟨pc', detail, hs, hrow⟩ := h.crypto row hr
      obtain rfl := hgone.unique (hseq ▸ hs)
      refine Or.inr ⟨pc', hrow ▸ Ledger.change_cryptoRow pc' detail, ?_⟩
      rw [hl]
      exact hm
    · exact Or.inl (hc ▸ List.mem_filter.mpr ⟨hr, by simpa using hseq⟩)

theorem step_leaves {e : Event Client} (h : p.Sound wire) (hst : step wire p e = some t) :
    Leaves wire p t := by
  have ht := step_sound h hst
  have hkeeps := (step_frame hst).keeps h.inbox
  refine ⟨hkeeps.pending, hkeeps.arrived, fun row hr => ?_⟩
  obtain hr | ⟨pc, hpc, cipher, hu, cs, hcs, hrows⟩ := step_crypto h hst hr
  · exact Or.inl hr
  · exact Or.inr ⟨pc, hpc, cipher, hu, cs, hcs,
      fun r hr => placed_of_arrived ht.inbox.db (hrows r hr)⟩

/-- The pull watermark never passes unprocessed data. -/
theorem watermark_passes_only_kept (schema : LocalSchema) (relay : Store Client)
    (events : List (Event Client)) :
    Runs.Along (step wire) (fun p _ t => Complete wire t ∧ Leaves wire p t) (init schema relay)
      events := by
  refine Runs.along_of_invariant (I := Sound wire) (fun p e t h _ hst => step_sound h hst) ?_
    (sound_init schema relay) (Runs.along_true _ _)
  intro p e t h _ hst
  exact ⟨(step_sound h hst).complete, step_leaves h hst⟩

end YapStack.Sync.Puller
