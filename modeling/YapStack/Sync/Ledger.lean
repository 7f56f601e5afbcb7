import YapStack.Sync.Pull

set_option linter.unusedSectionVars false

namespace YapStack.Sync

open Relay.Sequence

/-- What the pull has durably done, and with what. -/
structure Ledger (Client : Type) where
  relay : Store Client
  crypto : List CryptoRow
  used : List (ChangesetCipher Client)
  arrived : List ChangeRow

variable {Client : Type} [DecidableEq Client] (wire : WireText Client)

namespace Ledger

variable (l : Ledger Client)

/-- The change that the relay serves at a seq. -/
def Serves (seq : Nat) (pc : PulledChange Client) : Prop :=
  ∃ c, l.relay.row seq = some c ∧ pc = pulledChange wire (c, seq)

/-- A cipher of this device opened the change, and its rows all arrived. -/
def Merged (pc : PulledChange Client) : Prop :=
  ∃ cipher ∈ l.used, ∃ cs, decodePulledChangeset wire cipher pc = .ok cs ∧
    ∀ r ∈ cs.rows, r ∈ l.arrived

/-- The change sits verbatim in the quarantine, or its rows arrived. -/
def Processed (seq : Nat) : Prop :=
  ∃ pc, l.Serves wire seq pc ∧
    ((∃ detail, cryptoRow wire pc detail ∈ l.crypto) ∨ l.Merged wire pc)

/-- A quarantined row is the relay's change at its seq, as received. -/
def Verbatim (row : CryptoRow) : Prop :=
  ∃ pc detail, l.Serves wire row.changesetSeq pc ∧ row = cryptoRow wire pc detail

/-- Every change up to a seq is processed or still to be taken. -/
def Upto (rest : List (PulledChange Client)) (nextSeq : Nat) : Prop :=
  ∀ seq, 0 < seq → seq ≤ nextSeq →
    l.Processed wire seq ∨ ∃ pc ∈ rest, pc.changesetSeq = seq

structure Extends (l' : Ledger Client) : Prop where
  relay : ∃ more, l'.relay = l.relay ++ more
  used : l.used ⊆ l'.used
  arrived : l.arrived ⊆ l'.arrived
  processed : ∀ seq, l.Processed wire seq → l'.Processed wire seq

variable {wire} {l} {l' : Ledger Client} {seq : Nat} {pc : PulledChange Client} {row : CryptoRow}

theorem Serves.changesetSeq (h : l.Serves wire seq pc) : pc.changesetSeq = seq := by
  obtain ⟨c, _, rfl⟩ := h
  rfl

theorem Serves.extends (h : l.Serves wire seq pc) (hx : ∃ more, l'.relay = l.relay ++ more) :
    l'.Serves wire seq pc := by
  obtain ⟨c, hc, rfl⟩ := h
  obtain ⟨more, hmore⟩ := hx
  exact ⟨c, hmore ▸ Store.row_append_of_some hc, rfl⟩

theorem Merged.extends (h : l.Merged wire pc) (hu : l.used ⊆ l'.used)
    (ha : l.arrived ⊆ l'.arrived) : l'.Merged wire pc := by
  obtain ⟨cipher, hc, cs, hcs, hrows⟩ := h
  exact ⟨cipher, hu hc, cs, hcs, fun r hr => ha (hrows r hr)⟩

theorem Verbatim.extends (h : l.Verbatim wire row) (hx : l.Extends wire l') :
    l'.Verbatim wire row := by
  obtain ⟨pc, detail, hs, hrow⟩ := h
  exact ⟨pc, detail, hs.extends hx.relay, hrow⟩

theorem Upto.extends {rest : List (PulledChange Client)} {nextSeq : Nat}
    (h : l.Upto wire rest nextSeq) (hx : l.Extends wire l') : l'.Upto wire rest nextSeq := by
  intro seq hpos hle
  obtain hp | hp := h seq hpos hle
  · exact Or.inl (hx.processed seq hp)
  · exact Or.inr hp

theorem Upto.taken {rest : List (PulledChange Client)} {nextSeq : Nat}
    (h : l.Upto wire (pc :: rest) nextSeq) (hp : l.Processed wire pc.changesetSeq) :
    l.Upto wire rest nextSeq := by
  intro seq hpos hle
  obtain hs | ⟨pc', hm, rfl⟩ := h seq hpos hle
  · exact Or.inl hs
  · obtain rfl | hm := List.mem_cons.mp hm
    · exact Or.inl hp
    · exact Or.inr ⟨pc', hm, rfl⟩

/-- Nothing is taken back: the relay, the ciphers, the arrived rows and the quarantine grow. -/
theorem extends_of_subset (hr : ∃ more, l'.relay = l.relay ++ more) (hu : l.used ⊆ l'.used)
    (ha : l.arrived ⊆ l'.arrived) (hc : l.crypto ⊆ l'.crypto) : l.Extends wire l' := by
  refine ⟨hr, hu, ha, fun seq hp => ?_⟩
  obtain ⟨pc, hs, ⟨detail, hd⟩ | hm⟩ := hp
  · exact ⟨pc, hs.extends hr, Or.inl ⟨detail, hc hd⟩⟩
  · exact ⟨pc, hs.extends hr, Or.inr (hm.extends hu ha)⟩

theorem extends_refl (l : Ledger Client) : l.Extends wire l :=
  ⟨⟨[], by simp⟩, List.Subset.refl _, List.Subset.refl _, fun _ h => h⟩

theorem Serves.unique {pc' : PulledChange Client} (h : l.Serves wire seq pc)
    (h' : l.Serves wire seq pc') : pc' = pc := by
  obtain ⟨c, hc, rfl⟩ := h
  obtain ⟨c', hc', rfl⟩ := h'
  rw [hc] at hc'
  cases hc'
  rfl

/-- A quarantined change may be deleted once it is merged. -/
theorem extends_delete (hs : l.Serves wire seq pc) (hm : l.Merged wire pc) :
    l.Extends wire { l with crypto := l.crypto.filter (fun row => row.changesetSeq ≠ seq) } := by
  refine ⟨⟨[], by simp⟩, List.Subset.refl _, List.Subset.refl _, fun seq' hp => ?_⟩
  obtain ⟨pc', hs', ⟨detail, hd⟩ | hm'⟩ := hp
  · by_cases heq : seq' = seq
    · subst seq'
      obtain rfl := hs.unique hs'
      exact ⟨pc', hs', Or.inr hm⟩
    · have hne : (cryptoRow wire pc' detail).changesetSeq ≠ seq := by
        rw [cryptoRow, hs'.changesetSeq]
        exact heq
      exact ⟨pc', hs', Or.inl ⟨detail, List.mem_filter.mpr ⟨hd, by simpa using hne⟩⟩⟩
  · exact ⟨pc', hs', Or.inr hm'⟩

/-- The row that the quarantine holds parses back to the change it was made from. -/
theorem change_cryptoRow (pc : PulledChange Client) (detail : String) :
    (cryptoRow wire pc detail).change wire = some pc := by
  simp [CryptoRow.change, cryptoRow, wire.parse_text]

theorem quarantine_subset (rows : List CryptoRow) (pc : PulledChange Client) (detail : String) :
    rows ⊆ quarantineUndecryptable wire rows pc detail := by
  simp only [quarantineUndecryptable]
  split
  · exact List.Subset.refl _
  · exact List.subset_append_left _ _

theorem quarantine_processed (detail : String) (hv : ∀ row ∈ l.crypto, l.Verbatim wire row)
    (hs : l.Serves wire seq pc) :
    let l' := { l with crypto := quarantineUndecryptable wire l.crypto pc detail }
    l'.Processed wire seq ∧ ∀ row ∈ l'.crypto, l'.Verbatim wire row := by
  simp only [quarantineUndecryptable]
  split
  · rename_i hany
    obtain ⟨row, hrow, heq⟩ := List.any_eq_true.mp hany
    obtain ⟨pc', detail', hs', rfl⟩ := hv row hrow
    rw [decide_eq_true_eq, hs.changesetSeq] at heq
    obtain rfl := hs.unique (heq ▸ hs')
    exact ⟨⟨pc', hs, Or.inl ⟨detail', hrow⟩⟩, hv⟩
  · refine ⟨⟨pc, hs, Or.inl ⟨detail, by simp⟩⟩, fun row hrow => ?_⟩
    obtain hrow | hrow := List.mem_append.mp hrow
    · exact hv row hrow
    · rw [List.mem_singleton.mp hrow]
      refine ⟨pc, detail, ?_, rfl⟩
      have hseq : (cryptoRow wire pc detail).changesetSeq = seq := hs.changesetSeq
      rw [hseq]
      exact hs

theorem readChanges_getElem? {st : Store Client} {since limit i : Nat} (hi : i < limit) :
    (readChanges st since limit)[i]? = st[since + i]?.map (fun c => (c, since + 1 + i)) := by
  rw [readChanges, List.getElem?_take_of_lt hi, List.getElem?_zipIdx, List.getElem?_drop]

theorem serves_of_mem_readChanges {since limit : Nat} {row : PushChange Client × Nat}
    (h : row ∈ readChanges l.relay since limit) :
    since < row.2 ∧ l.Serves wire row.2 (pulledChange wire row) := by
  obtain ⟨c, seq⟩ := row
  obtain ⟨hge, hget⟩ := List.mem_zipIdx_iff_le_and_getElem?_sub.mp (List.mem_of_mem_take h)
  simp only at hge hget ⊢
  refine ⟨hge, c, ?_, rfl⟩
  rw [List.getElem?_drop] at hget
  rw [Store.row, if_neg (by omega), ← hget]
  congr 1
  omega

theorem pullPage_changes (st : Store Client) (since limit : Nat) :
    (pullPage wire st since limit).changes =
      (readChanges st since (clampLimit limit)).map (pulledChange wire) := by
  simp only [pullPage, readChanges, List.take_take, Nat.min_eq_left (Nat.le_succ _)]

theorem readChanges_seq {st : Store Client} {since limit i : Nat} {row : PushChange Client × Nat}
    (h : (readChanges st since limit)[i]? = some row) : row.2 = since + 1 + i := by
  have hlen := (List.getElem?_eq_some_iff.mp h).1
  rw [readChanges, List.length_take] at hlen
  rw [readChanges_getElem? (by omega), Option.map_eq_some_iff] at h
  obtain ⟨c, _, rfl⟩ := h
  rfl

/-- Every seq from the cursor to the page's `next_seq` is on the page. -/
theorem mem_page {since limit : Nat} (hlt : since < seq)
    (hle : seq ≤ (pullPage wire l.relay since limit).nextSeq) :
    ∃ pc ∈ (pullPage wire l.relay since limit).changes, pc.changesetSeq = seq := by
  have hnext : (pullPage wire l.relay since limit).nextSeq =
      ((pullPage wire l.relay since limit).changes.getLast?.map
        PulledChange.changesetSeq).getD since := rfl
  rw [hnext, pullPage_changes, List.getLast?_map, List.getLast?_eq_getElem?] at hle
  rw [pullPage_changes]
  have hseq : ∀ i row, (readChanges l.relay since (clampLimit limit))[i]? = some row →
      row.2 = since + 1 + i := fun i row h => readChanges_seq h
  generalize readChanges l.relay since (clampLimit limit) = rows at hle hseq ⊢
  cases hlast : rows[rows.length - 1]? with
  | none =>
    rw [hlast] at hle
    exact absurd hle (by simpa using hlt)
  | some row =>
    rw [hlast] at hle
    have hlastSeq := hseq _ row hlast
    have hlen := (List.getElem?_eq_some_iff.mp hlast).1
    have hle : seq ≤ row.2 := hle
    have hi : seq - since - 1 < rows.length := by omega
    have hrowSeq := hseq _ _ (List.getElem?_eq_getElem hi)
    refine ⟨_, List.mem_map_of_mem (List.getElem_mem hi), ?_⟩
    simp only [pulledChange]
    omega

theorem page_upto {since limit : Nat} (h : l.Upto wire [] since) :
    l.Upto wire (pullPage wire l.relay since limit).changes
        (pullPage wire l.relay since limit).nextSeq ∧
      ∀ pc ∈ (pullPage wire l.relay since limit).changes, l.Serves wire pc.changesetSeq pc := by
  refine ⟨fun seq hpos hle => ?_, fun pc hpc => ?_⟩
  · by_cases hlt : since < seq
    · exact Or.inr (mem_page hlt hle)
    · obtain hp | ⟨pc, hm, _⟩ := h seq hpos (by omega)
      · exact Or.inl hp
      · cases hm
  · obtain ⟨row, hrow, rfl⟩ := List.mem_map.mp hpc
    exact (serves_of_mem_readChanges (List.mem_of_mem_take hrow)).2

end Ledger

end YapStack.Sync
