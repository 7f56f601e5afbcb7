import YapStack.Crypto.AudioSegments

set_option linter.unusedSectionVars false

namespace YapStack.Crypto

section AudioTampering

open Readers

theorem Filled.steady {src : Reader UInt8} {len : Nat} {out : Bytes × Reader UInt8}
    (h : Filled src len out) (hs : src.Steady) : out.2.Steady := by
  obtain ⟨-, -, steps, hscript⟩ := h
  intro message hin
  exact hs message (hscript ▸ List.mem_append_right _ hin)

/-- A block of known length at the front of what is left, or an error. -/
theorem readExactOr_spec (src : Reader UInt8) (n : Nat) :
    (∃ e, readExactOr src n = .error e ∧ (src.Steady → src.rest.length < n)) ∨
      ∃ b src', readExactOr src n = .ok (b, src') ∧ src.rest = b.val ++ src'.rest ∧
        (src.Steady → src'.Steady) := by
  obtain ⟨message, he, hfail⟩ | ⟨⟨buf, src'⟩, ho, hf⟩ := readFull_spec src n
  · exact .inl ⟨.io message, by rw [readExactOr, he], fun hs => absurd hfail (hs message)⟩
  · have hsteady := hf.steady
    obtain ⟨hbuf, hrest, -⟩ := hf
    simp only at hbuf hrest hsteady
    by_cases hlen : buf.length = n
    · right
      refine ⟨⟨buf, hlen⟩, src', by rw [readExactOr, ho]; exact dif_pos hlen, ?_, hsteady⟩
      simp only [hrest, hbuf, List.take_append_drop]
    · left
      refine ⟨.crypto .malformed, by rw [readExactOr, ho]; exact dif_neg hlen, fun _ => ?_⟩
      rw [hbuf, List.length_take] at hlen
      omega

theorem readExactOr_ok {src : Reader UInt8} {n : Nat} (b : Block n) {rest : Bytes}
    (hs : src.Steady) (hsrc : src.rest = b.val ++ rest) :
    ∃ src', readExactOr src n = .ok (b, src') ∧ src'.rest = rest ∧ src'.Steady := by
  obtain ⟨e, -, hshort⟩ | ⟨b', src', ho, hrest, hs'⟩ := readExactOr_spec src n
  · have := hshort hs
    rw [hsrc, List.length_append, b.property] at this
    omega
  · rw [hsrc] at hrest
    obtain ⟨hb, hr⟩ := List.append_inj hrest (by rw [b.property, b'.property])
    obtain rfl := Subtype.ext hb
    exact ⟨src', ho, hr.symm, hs' hs⟩

/-- The chunks of a plaintext. An empty one is sealed as one empty chunk. -/
def chunksOf (chunkSize : UInt32) (plaintext : Bytes) : List Bytes :=
  orBlank (some []) (pieces chunkSize.toNat plaintext)

section Chunks

variable {chunkSize : UInt32} {plaintext : Bytes}

theorem chunksOf_cases (hpos : 0 < chunkSize.toNat) (plaintext : Bytes) :
    (plaintext = [] ∧ chunksOf chunkSize plaintext = [[]]) ∨
      (chunksOf chunkSize plaintext = pieces chunkSize.toNat plaintext ∧
        chunksOf chunkSize plaintext ≠ []) := by
  by_cases h : plaintext = []
  · left
    rw [chunksOf, h, pieces_nil]
    exact ⟨rfl, rfl⟩
  · right
    have hne : pieces chunkSize.toNat plaintext ≠ [] := by
      rw [pieces_of_ne hpos h]
      exact List.cons_ne_nil _ _
    rw [chunksOf, orBlank, if_neg hne]
    exact ⟨rfl, hne⟩

theorem chunksOf_ne_nil (hpos : 0 < chunkSize.toNat) : chunksOf chunkSize plaintext ≠ [] := by
  obtain ⟨-, h⟩ | ⟨-, h⟩ := chunksOf_cases hpos plaintext
  · exact h ▸ List.cons_ne_nil _ _
  · exact h

theorem flatten_chunksOf (hpos : 0 < chunkSize.toNat) :
    (chunksOf chunkSize plaintext).flatten = plaintext := by
  obtain ⟨hp, h⟩ | ⟨h, -⟩ := chunksOf_cases hpos plaintext
  · rw [h, hp]
    rfl
  · rw [h, flatten_pieces hpos]

theorem framed_chunksOf (hpos : 0 < chunkSize.toNat) (plaintext : Bytes) :
    Framed chunkSize.toNat (chunksOf chunkSize plaintext) ∧
      ∀ chunk ∈ chunksOf chunkSize plaintext, chunk.length ≤ chunkSize.toNat := by
  obtain ⟨-, h⟩ | ⟨h, -⟩ := chunksOf_cases hpos plaintext
  · rw [h]
    exact ⟨Nat.zero_le _, by simp⟩
  · rw [h]
    exact ⟨framed_pieces hpos plaintext, length_le_of_mem_pieces hpos plaintext⟩

end Chunks

/-- The segments of a sealed plaintext. -/
def sealedSegments (aead : StreamAead) (key : Block 32) (np : Block noncePrefixLen)
    (chunkSize : UInt32) (plaintext : Bytes) : List Segment :=
  segments aead key np (audioHeader chunkSize np).val 0 (chunksOf chunkSize plaintext)

def sealedBytes (aead : StreamAead) (key : Block 32) (np : Block noncePrefixLen)
    (chunkSize : UInt32) (plaintext : Bytes) : Bytes :=
  (audioHeader chunkSize np).val ++
    (sealedSegments aead key np chunkSize plaintext).flatMap (·.ct)

section Streams

variable {aead : StreamAead} {key : Block 32} {np : Block noncePrefixLen} {chunkSize : UInt32}
  {plaintext : Bytes} {src : Reader UInt8}

theorem toNat_pos (hpos : chunkSize ≠ 0) : 0 < chunkSize.toNat := by
  rw [Nat.pos_iff_ne_zero, Ne, ← UInt32.toNat_zero, UInt32.toNat_inj]
  exact hpos

theorem sealSegments_eq (hpos : chunkSize ≠ 0) (hs : src.Steady) (dst : Bytes) :
    sealSegments aead key np chunkSize src dst =
      sendAll (StreamState.encryptNext aead (audioHeader chunkSize np).val)
        (StreamState.encryptLast aead (audioHeader chunkSize np).val)
        (chunksOf chunkSize src.rest) ⟨key, np, 0⟩ (dst ++ (audioHeader chunkSize np).val) := by
  rw [sealSegments, if_neg hpos]
  obtain ⟨message, -, hfail⟩ | heq := lookahead_spec (toNat_pos hpos) (some []) src
    ⟨key, np, 0⟩ none (dst ++ (audioHeader chunkSize np).val)
  · exact absurd hfail (hs message)
  · exact heq

theorem sealSegments_ok (hpos : chunkSize ≠ 0) (hmax : chunkSize.toNat ≤ maxChunkSize)
    (hs : src.Steady) (hfits : (chunksOf chunkSize src.rest).length ≤ counterMax + 1)
    (dst : Bytes) :
    sealSegments aead key np chunkSize src dst =
      (.ok (), dst ++ sealedBytes aead key np chunkSize src.rest) := by
  have hlen := toNat_pos hpos
  have hsize : ∀ chunk ∈ chunksOf chunkSize src.rest, chunk.length ≤ maxChunkSize :=
    fun chunk hc => Nat.le_trans ((framed_chunksOf hlen _).2 chunk hc) hmax
  rw [sealSegments_eq hpos hs, sendAll_encrypt aead key np _ (chunksOf_ne_nil hlen) hsize 0
    (by rwa [Nat.zero_add]), List.append_assoc]
  rfl

theorem sealSegments_overflow (hpos : chunkSize ≠ 0) (hs : src.Steady)
    (hover : counterMax + 1 < (chunksOf chunkSize src.rest).length) (dst : Bytes) :
    (sealSegments aead key np chunkSize src dst).1 = .error (.crypto .seal) := by
  rw [sealSegments_eq hpos hs]
  exact sendAll_overflow aead key np _ 0 (Nat.zero_le _) (by rwa [Nat.zero_add]) _

theorem header_chunkSize (chunkSize : UInt32) (np : Block noncePrefixLen) :
    Bytes.ofBe (((audioHeader chunkSize np).val.drop 1).take 4) = chunkSize.toNat := by
  rw [audioHeader, List.drop_one, List.tail_cons, List.take_left' (by simp [Bytes.u32be]),
    Bytes.ofBe_u32be]

theorem header_noncePrefix (h : noncePrefixLen ≤ ((audioHeader chunkSize np).val.drop 5).length) :
    Block.ofTake noncePrefixLen ((audioHeader chunkSize np).val.drop 5) h = np := by
  have hdrop : (audioHeader chunkSize np).val.drop 5 = np.val := by
    rw [audioHeader, List.drop_succ_cons]
    exact List.drop_left' (by simp [Bytes.u32be])
  apply Subtype.ext
  simp only [Block.ofTake, hdrop]
  exact List.take_of_length_le (Nat.le_of_eq np.property)

theorem openSegments_ok (hpos : chunkSize ≠ 0) (hmax : chunkSize.toNat ≤ maxChunkSize)
    (hfits : (chunksOf chunkSize plaintext).length ≤ counterMax + 1)
    (hopens : ∀ seg ∈ sealedSegments aead key np chunkSize plaintext,
      aead.decrypt key seg.nonce seg.aad seg.ct = some seg.msg)
    (hs : src.Steady) (hsrc : src.rest = sealedBytes aead key np chunkSize plaintext)
    (dst : Bytes) : openSegments aead src key dst = (.ok (), dst ++ plaintext) := by
  have hlen := toNat_pos hpos
  obtain ⟨hframed, hsize⟩ := framed_chunksOf hlen plaintext
  have hsize' : ∀ chunk ∈ chunksOf chunkSize plaintext, chunk.length ≤ maxChunkSize :=
    fun chunk hc => Nat.le_trans (hsize chunk hc) hmax
  obtain ⟨src', hread, hrest, hs'⟩ := readExactOr_ok (audioHeader chunkSize np) hs hsrc
  have hversion : (audioHeader chunkSize np).val.headD 0 = audioStreamVersion := rfl
  have hsize0 : ¬(chunkSize.toNat = 0 ∨ maxChunkSize < chunkSize.toNat) := by omega
  rw [openSegments, hread]
  simp only [header_chunkSize, header_noncePrefix, hversion, ne_eq, not_true_eq_false, if_false, if_neg hsize0]
  obtain ⟨hf, hne⟩ := framed_segments aead key np (audioHeader chunkSize np).val hframed hsize' 0
  have hunits : pieces (chunkSize.toNat + streamTagLen) src'.rest =
      (sealedSegments aead key np chunkSize plaintext).map (·.ct) := by
    rw [hrest, List.flatMap_def]
    exact pieces_flatten (by omega) hf hne
  have hunit : 0 < chunkSize.toNat + streamTagLen := by omega
  obtain ⟨message, -, hfail⟩ | heq := lookahead_spec hunit none src' ⟨key, np, 0⟩ none dst
  · exact absurd hfail (hs' message)
  · rw [heq, Option.toList_none, List.nil_append, hunits, orBlank_none, sealedSegments, sendAll_decrypt aead key np _ (chunksOf_ne_nil hlen) 0
      (by rwa [Nat.zero_add]) hopens, flatten_chunksOf hlen]

/-- What opens under a key is what was sealed under it, byte for byte. -/
theorem openSegments_sealed
    (hideal : Idealised aead key (sealedSegments aead key np chunkSize plaintext))
    (hfits : (chunksOf chunkSize plaintext).length ≤ counterMax + 1) {dst : Bytes}
    (h : (openSegments aead src key dst).1 = .ok ()) :
    src.rest = sealedBytes aead key np chunkSize plaintext := by
  obtain ⟨e, he, -⟩ | ⟨header, src', hread, hrest, -⟩ := readExactOr_spec src audioHeaderLen
  · rw [openSegments, he] at h
    cases h
  · rw [openSegments, hread] at h
    simp only at h
    split at h
    · cases h
    · split at h
      · cases h
      · have hunit : 0 < Bytes.ofBe ((header.val.drop 1).take 4) + streamTagLen :=
          Nat.add_pos_right _ (by decide)
        obtain ⟨message, he, -⟩ | heq := lookahead_spec hunit none src' ⟨key, _, 0⟩ none dst
        · rw [he] at h
          cases h
        · rw [heq] at h
          obtain ⟨-, haad, hunits⟩ := hideal.units_eq hfits (Nat.zero_le _) h
          rw [List.drop_zero, Option.toList_none, List.nil_append, orBlank_none] at hunits
          have hflat := flatten_pieces hunit src'.rest
          rw [hunits] at hflat
          rw [hrest, haad, sealedBytes, sealedSegments, List.flatMap_def, hflat]

end Streams

end AudioTampering

section AudioEdits

open Readers

theorem length_flatten_eraseIdx {l : List Bytes} {i : Nat} {a : Bytes} (h : l[i]? = some a) :
    (l.eraseIdx i).flatten.length + a.length = l.flatten.length := by
  induction l generalizing i with
  | nil => simp at h
  | cons b l ih =>
    cases i with
    | zero =>
      rw [List.getElem?_cons_zero, Option.some.injEq] at h
      rw [List.eraseIdx_cons_zero, List.flatten_cons, List.length_append, h, Nat.add_comm]
    | succ i =>
      rw [List.getElem?_cons_succ] at h
      have hrec := ih h
      rw [List.eraseIdx_cons_succ, List.flatten_cons, List.flatten_cons, List.length_append,
        List.length_append]
      omega

theorem length_flatten_insertIdx {l : List Bytes} {j : Nat} (a : Bytes) (h : j ≤ l.length) :
    (l.insertIdx j a).flatten.length = l.flatten.length + a.length := by
  induction l generalizing j with
  | nil =>
    obtain rfl := Nat.le_zero.mp h
    simp
  | cons b l ih =>
    cases j with
    | zero => simp only [List.insertIdx_zero, List.flatten_cons, List.length_append]; omega
    | succ j =>
      have hrec := ih (Nat.le_of_succ_le_succ h)
      rw [List.insertIdx_succ_cons, List.flatten_cons, List.flatten_cons, List.length_append,
        List.length_append]
      omega

variable (aead : StreamAead) (key : Block 32) (np : Block noncePrefixLen) (chunkSize : UInt32)
  (plaintext : Bytes)

/-- However it is read, this blob does not open. -/
def Rejects (blob : Bytes) : Prop :=
  ∀ (src : Reader UInt8) (dst : Bytes), src.rest = blob →
    ∃ e, (openSegments aead src key dst).1 = .error e

def ciphertexts : List Bytes :=
  (sealedSegments aead key np chunkSize plaintext).map (·.ct)

/-- The header and any list of segments behind it. -/
def framedBytes (cts : List Bytes) : Bytes :=
  (audioHeader chunkSize np).val ++ cts.flatten

/-- The blob comes back from sealing and opening it, however both are read. -/
structure RoundTrips : Prop where
  sealed : ∀ src dst, src.Steady → src.rest = plaintext →
    sealSegments aead key np chunkSize src dst =
      (.ok (), dst ++ sealedBytes aead key np chunkSize plaintext)
  opened : ∀ src dst, src.Steady → src.rest = sealedBytes aead key np chunkSize plaintext →
    openSegments aead src key dst = (.ok (), dst ++ plaintext)

structure DetectsEdits : Prop where
  other : ∀ blob, blob ≠ sealedBytes aead key np chunkSize plaintext → Rejects aead key blob
  truncated : ∀ n < (sealedBytes aead key np chunkSize plaintext).length,
    Rejects aead key ((sealedBytes aead key np chunkSize plaintext).take n)
  dropped : ∀ i < (ciphertexts aead key np chunkSize plaintext).length, Rejects aead key
    (framedBytes np chunkSize ((ciphertexts aead key np chunkSize plaintext).eraseIdx i))
  repeated : ∀ ct ∈ ciphertexts aead key np chunkSize plaintext,
    ∀ j ≤ (ciphertexts aead key np chunkSize plaintext).length, Rejects aead key
      (framedBytes np chunkSize ((ciphertexts aead key np chunkSize plaintext).insertIdx j ct))
  swapped : ∀ i j a b, (ciphertexts aead key np chunkSize plaintext)[i]? = some a →
    (ciphertexts aead key np chunkSize plaintext)[j]? = some b → a.length = b.length → a ≠ b →
    Rejects aead key (framedBytes np chunkSize
      (((ciphertexts aead key np chunkSize plaintext).set i b).set j a))
  rearranged : ∀ cts, (framedBytes np chunkSize cts ≠ sealedBytes aead key np chunkSize plaintext) →
    Rejects aead key (framedBytes np chunkSize cts)
  appended : ∀ extra, extra ≠ [] →
    Rejects aead key (sealedBytes aead key np chunkSize plaintext ++ extra)
  version : ∀ v, v ≠ audioStreamVersion →
    Rejects aead key (v :: (sealedBytes aead key np chunkSize plaintext).tail)
  chunkSize : ∀ chunkSize', chunkSize' ≠ chunkSize → Rejects aead key
    (framedBytes np chunkSize' (ciphertexts aead key np chunkSize plaintext))

variable {aead key np chunkSize plaintext}

theorem sealedBytes_eq : sealedBytes aead key np chunkSize plaintext =
    framedBytes np chunkSize (ciphertexts aead key np chunkSize plaintext) := by
  rw [sealedBytes, framedBytes, ciphertexts, List.flatMap_def]

theorem ciphertexts_ne_nil (aead : StreamAead) (key : Block 32) (np : Block noncePrefixLen)
    (plaintext : Bytes) (hpos : chunkSize ≠ 0) (hmax : chunkSize.toNat ≤ maxChunkSize) :
    ∀ ct ∈ ciphertexts aead key np chunkSize plaintext, ct ≠ [] := by
  obtain ⟨hframed, hsize⟩ := framed_chunksOf (toNat_pos hpos) plaintext
  exact (framed_segments aead key np _ hframed
    (fun chunk hc => Nat.le_trans (hsize chunk hc) hmax) 0).2

theorem length_framedBytes (np : Block noncePrefixLen) (chunkSize : UInt32) (cts : List Bytes) :
    (framedBytes np chunkSize cts).length = audioHeaderLen + cts.flatten.length := by
  rw [framedBytes, List.length_append, (audioHeader chunkSize np).property]

theorem set_self {α : Type} {l : List α} {i : Nat} {a : α} (h : l[i]? = some a) :
    l.set i a = l := by
  obtain ⟨hi, rfl⟩ := List.getElem?_eq_some_iff.mp h
  exact List.set_getElem_self hi

/-- Two segments of one length that trade places change what they are put together to. -/
theorem flatten_swap {l : List Bytes} {i j : Nat} {a b : Bytes} (hi : l[i]? = some a)
    (hj : l[j]? = some b) (hlen : a.length = b.length) (hne : a ≠ b) :
    ((l.set i b).set j a).flatten ≠ l.flatten := by
  intro hflat
  have hlengths : ((l.set i b).set j a).map List.length = l.map List.length := by
    have hi' : (l.map List.length)[i]? = some a.length := by rw [List.getElem?_map, hi]; rfl
    have hj' : (l.map List.length)[j]? = some a.length := by rw [List.getElem?_map, hj, hlen]; rfl
    rw [List.map_set, List.map_set, ← hlen, set_self hi', set_self hj']
  have heq := List.eq_iff_flatten_eq.mpr ⟨hflat, hlengths⟩
  have hget := congrArg (fun l => l[j]?) heq
  rw [List.getElem?_set_self, hj, Option.some.injEq] at hget
  · exact hne hget
  · rw [List.length_set]
    exact (List.getElem?_eq_some_iff.mp hj).1

theorem ne_of_length {a b : Bytes} (h : a.length ≠ b.length) : a ≠ b :=
  fun hab => h (congrArg List.length hab)

/-- One blob opens under the key, so everything else is an edit of it. -/
theorem detectsEdits (hpos : chunkSize ≠ 0) (hmax : chunkSize.toNat ≤ maxChunkSize)
    (hideal : Idealised aead key (sealedSegments aead key np chunkSize plaintext))
    (hfits : (chunksOf chunkSize plaintext).length ≤ counterMax + 1) :
    DetectsEdits aead key np chunkSize plaintext := by
  have hother : ∀ blob, blob ≠ sealedBytes aead key np chunkSize plaintext →
      Rejects aead key blob := by
    intro blob hne src dst hsrc
    cases hopen : (openSegments aead src key dst).1 with
    | error e => exact ⟨e, rfl⟩
    | ok u => exact absurd (hsrc ▸ openSegments_sealed hideal hfits hopen) hne
  have hne := ciphertexts_ne_nil aead key np plaintext hpos hmax
  have hlen := length_framedBytes np chunkSize
  refine ⟨hother, ?_, ?_, ?_, ?_, fun cts h => hother _ h, ?_, ?_, ?_⟩
  · intro n hn
    apply hother
    apply ne_of_length
    rw [List.length_take]
    omega
  · intro i hi
    apply hother
    apply ne_of_length
    have hget := List.getElem?_eq_getElem hi
    have hdrop := length_flatten_eraseIdx hget
    have hpos := List.length_pos_iff.mpr (hne _ (List.getElem_mem hi))
    rw [sealedBytes_eq, hlen, hlen]
    omega
  · intro ct hct j hj
    apply hother
    apply ne_of_length
    have hpos := List.length_pos_iff.mpr (hne ct hct)
    rw [sealedBytes_eq, hlen, hlen, length_flatten_insertIdx ct hj]
    omega
  · intro i j a b hi hj hab hswap
    apply hother
    rw [sealedBytes_eq, framedBytes, framedBytes, Ne, List.append_cancel_left_eq]
    exact flatten_swap hi hj hab hswap
  · intro extra hextra
    apply hother
    apply ne_of_length
    have := List.length_pos_iff.mpr hextra
    rw [List.length_append]
    omega
  · intro v hv
    apply hother
    rw [sealedBytes, audioHeader, List.cons_append, List.tail_cons]
    exact fun heq => hv (List.cons.inj heq).1
  · intro chunkSize' hcs
    apply hother
    rw [sealedBytes_eq, framedBytes, framedBytes]
    intro heq
    obtain ⟨hheader, -⟩ := List.append_inj heq
      (by rw [(audioHeader _ _).property, (audioHeader _ _).property])
    have hsize := header_chunkSize chunkSize' np
    rw [hheader, header_chunkSize] at hsize
    exact hcs (UInt32.toNat_inj.mp hsize.symm)

end AudioEdits

end YapStack.Crypto
