import YapStack.Crypto.AudioStream

set_option linter.unusedSectionVars false

namespace YapStack.Crypto

section AudioFrames

open Readers

variable {next : StreamState → Bytes → Except CryptoError (Bytes × StreamState)}
  {last : StreamState → Bytes → Except CryptoError Bytes}

/-- A list of units, the last of them by `last`. -/
def sendAll (next : StreamState → Bytes → Except CryptoError (Bytes × StreamState))
    (last : StreamState → Bytes → Except CryptoError Bytes) :
    List Bytes → StreamState → Bytes → Written Unit
  | [], _, dst => (.error (.crypto .malformed), dst)
  | [unit], state, dst =>
    match last state unit with
    | .error e => (.error (.crypto e), dst)
    | .ok seg => (.ok (), dst ++ seg)
  | unit :: unit' :: units, state, dst =>
    match next state unit with
    | .error e => (.error (.crypto e), dst)
    | .ok (seg, state) => sendAll next last (unit' :: units) state (dst ++ seg)

/-- What goes out of an input in these pieces. -/
def orBlank (blank : Option Bytes) (units : List Bytes) : List Bytes :=
  if units = [] then blank.toList else units

theorem orBlank_none (units : List Bytes) : orBlank none units = units := by
  cases units with
  | nil => rfl
  | cons unit units => rfl

theorem finish_eq (blank : Option Bytes) (state : StreamState) (pending : Option Bytes)
    (dst : Bytes) :
    finish last blank state pending dst =
      sendAll next last (orBlank blank pending.toList) state dst := by
  cases pending with
  | none =>
    cases blank with
    | none => rfl
    | some b => rfl
  | some chunk => rfl

theorem sendAll_cons {unit : Bytes} {units : List Bytes} (hu : units ≠ []) (state : StreamState)
    (dst : Bytes) :
    sendAll next last (unit :: units) state dst =
      match flush next state (some unit) dst with
      | (.error e, dst) => (.error e, dst)
      | (.ok state, dst) => sendAll next last units state dst := by
  obtain ⟨unit', units, rfl⟩ := List.exists_cons_of_ne_nil hu
  rw [sendAll, flush]
  cases next state unit with
  | error e => rfl
  | ok out => rfl

section Lookahead

variable {len : Nat} {blank : Option Bytes} {src src' : Reader UInt8} {state : StreamState}
  {pending : Option Bytes} {dst chunk : Bytes}

theorem lookahead_of_error {e : StreamError} (h : readFull src len = .error e) :
    lookahead len next last blank src state pending dst = (.error e, dst) := by
  rw [lookahead]
  split
  · rename_i h'
    rw [h, Except.error.injEq] at h'
    rw [h']
  · rename_i h'
    rw [h] at h'
    cases h'

theorem lookahead_of_ok (h : readFull src len = .ok (chunk, src')) :
    lookahead len next last blank src state pending dst =
      if chunk = [] then finish last blank state pending dst
      else
        match flush next state pending dst with
        | (.error e, dst) => (.error e, dst)
        | (.ok state, dst) =>
          if chunk.length < len then finish last blank state (some chunk) dst
          else lookahead len next last blank src' state (some chunk) dst := by
  rw [lookahead]
  split
  · rename_i h'
    rw [h] at h'
    cases h'
  · rename_i h'
    rw [h] at h'
    cases h'
    by_cases hc : chunk = []
    · rw [dif_pos hc, if_pos hc]
    · exact (dif_neg hc).trans (if_neg hc).symm

/-- Whatever the reader does, the loop sends the pieces of its input, unless
the reader fails. -/
theorem lookahead_spec (hlen : 0 < len) (blank : Option Bytes) (src : Reader UInt8)
    (state : StreamState) (pending : Option Bytes) (dst : Bytes) :
    (∃ message, (lookahead len next last blank src state pending dst).1 = .error (.io message) ∧
        .failed message ∈ src.script) ∨
      lookahead len next last blank src state pending dst =
        sendAll next last (orBlank blank (pending.toList ++ pieces len src.rest)) state dst := by
  induction hm : src.rest.length using Nat.strongRecOn generalizing src state pending dst with
  | ind m ih =>
    obtain ⟨message, he, hfail⟩ | ⟨⟨chunk, src'⟩, ho, hchunk, hrest, steps, hs⟩ :=
      readFull_spec src len
    · exact .inl ⟨message, by rw [lookahead_of_error he], hfail⟩
    · simp only at hchunk hrest hs
      rw [lookahead_of_ok ho]
      by_cases hnil : chunk = []
      · right
        have hempty : src.rest = [] := by
          rw [hnil] at hchunk
          obtain h0 | h0 := List.take_eq_nil_iff.mp hchunk.symm
          · omega
          · exact h0
        rw [if_pos hnil, finish_eq, hempty, pieces_nil, List.append_nil]
      · have hne : src.rest ≠ [] := by
          rintro h0
          exact hnil (by rw [hchunk, h0, List.take_nil])
        have hpieces : pieces len src.rest = chunk :: pieces len src'.rest := by
          rw [pieces_of_ne hlen hne, ← hchunk, ← hrest]
        -- The chunk that was held back has gone out, this one is held back now.
        have hloop : ∀ state dst,
            (∃ message, (if chunk.length < len then finish last blank state (some chunk) dst
                else lookahead len next last blank src' state (some chunk) dst).1 =
                .error (.io message) ∧ .failed message ∈ src.script) ∨
              (if chunk.length < len then finish last blank state (some chunk) dst
                else lookahead len next last blank src' state (some chunk) dst) =
                sendAll next last (pieces len src.rest) state dst := by
          intro state dst
          by_cases hshort : chunk.length < len
          · right
            have hend : src'.rest = [] := by
              rw [hrest, List.drop_eq_nil_iff]
              rw [hchunk, List.length_take] at hshort
              omega
            rw [if_pos hshort, finish_eq, hpieces, hend, pieces_nil]
            rfl
          · have hless : src'.rest.length < m := by
              have hpos := List.length_pos_iff.mpr hne
              rw [hrest, List.length_drop]
              omega
            rw [if_neg hshort]
            obtain ⟨message, he, hfail⟩ | heq := ih _ hless src' state (some chunk) dst rfl
            · exact .inl ⟨message, he, hs ▸ List.mem_append_right _ hfail⟩
            · right
              rw [heq, hpieces]
              rfl
        rw [if_neg hnil]
        cases pending with
        | none =>
          have hblank : orBlank blank ((none : Option Bytes).toList ++ pieces len src.rest) =
              pieces len src.rest := by
            rw [hpieces]
            rfl
          rw [hblank]
          exact hloop state dst
        | some prev =>
          have hblank : orBlank blank ((some prev).toList ++ pieces len src.rest) =
              prev :: pieces len src.rest := rfl
          rw [hblank, sendAll_cons (by rw [hpieces]; exact List.cons_ne_nil _ _)]
          obtain ⟨out, hout⟩ : ∃ out, flush next state (some prev) dst = out := ⟨_, rfl⟩
          rw [hout]
          obtain ⟨result, dst'⟩ := out
          cases result with
          | error e => exact .inr rfl
          | ok state' => exact hloop state' dst'

end Lookahead

end AudioFrames

section AudioSegments

open Readers

theorem streamNonce_inj {np np' : Block noncePrefixLen} {i j : Nat} {b c : Bool}
    (hi : i ≤ counterMax) (hj : j ≤ counterMax)
    (h : streamNonce np i b = streamNonce np' j c) : np = np' ∧ i = j ∧ b = c := by
  have hval := congrArg Subtype.val h
  simp only [streamNonce] at hval
  obtain ⟨hp, hrest⟩ := List.append_inj hval (by rw [np.property, np'.property])
  obtain ⟨hpos, hflag⟩ := List.append_inj hrest (by simp)
  refine ⟨Subtype.ext hp, ?_, ?_⟩
  · have hof := congrArg Bytes.ofBe hpos
    rw [Bytes.ofBe_be, Bytes.ofBe_be] at hof
    simp only [counterMax] at hi hj
    omega
  · cases b <;> cases c <;> simp at hflag ⊢

/-- One sealed segment, with what it was sealed under. -/
structure Segment where
  nonce : Block 24
  aad : Bytes
  msg : Bytes
  ct : Bytes
  deriving DecidableEq

section Segments

variable (aead : StreamAead) (key : Block 32) (np : Block noncePrefixLen) (aad : Bytes)

def sealAt (position : Nat) (last : Bool) (msg : Bytes) : Segment :=
  ⟨streamNonce np position last, aad, msg,
    (aead.encrypt key (streamNonce np position last) aad msg).getD []⟩

/-- The segments of these chunks, from this position on. -/
def segments : Nat → List Bytes → List Segment
  | _, [] => []
  | position, [chunk] => [sealAt aead key np aad position true chunk]
  | position, chunk :: chunk' :: chunks =>
    sealAt aead key np aad position false chunk :: segments (position + 1) (chunk' :: chunks)

theorem length_segments (position : Nat) (chunks : List Bytes) :
    (segments aead key np aad position chunks).length = chunks.length := by
  induction chunks generalizing position with
  | nil => rfl
  | cons chunk chunks ih =>
    cases chunks with
    | nil => rfl
    | cons chunk' chunks => simp only [segments, List.length_cons, ih]

theorem segments_get {position i : Nat} {chunks : List Bytes} {seg : Segment}
    (h : (segments aead key np aad position chunks)[i]? = some seg) :
    seg.nonce = streamNonce np (position + i) (i + 1 = chunks.length) ∧ seg.aad = aad := by
  induction chunks generalizing position i with
  | nil => simp [segments] at h
  | cons chunk chunks ih =>
    cases chunks with
    | nil =>
      obtain ⟨hi, hseg⟩ := List.getElem?_eq_some_iff.mp h
      have hzero : i = 0 := by simpa [segments] using hi
      subst hzero
      rw [← hseg]
      exact ⟨rfl, rfl⟩
    | cons chunk' chunks =>
      rw [segments] at h
      cases i with
      | zero =>
        rw [List.getElem?_cons_zero, Option.some.injEq] at h
        rw [← h]
        exact ⟨by simp [sealAt], rfl⟩
      | succ i =>
        rw [List.getElem?_cons_succ] at h
        obtain ⟨hn, ha⟩ := ih h
        refine ⟨?_, ha⟩
        rw [hn, Nat.add_assoc, Nat.add_comm 1 i]
        simp only [List.length_cons, Nat.add_right_cancel_iff]

theorem sealAt_ct (position : Nat) (last : Bool) {msg : Bytes} (hmsg : msg.length ≤ maxChunkSize) :
    aead.encrypt key (streamNonce np position last) aad msg =
      some (sealAt aead key np aad position last msg).ct := by
  obtain ⟨ct, hct⟩ := Option.isSome_iff_exists.mp (aead.seals hmsg)
  rw [hct]
  simp [sealAt, hct]

theorem length_ct (position : Nat) (last : Bool) {msg : Bytes} (hmsg : msg.length ≤ maxChunkSize) :
    (sealAt aead key np aad position last msg).ct.length = msg.length + streamTagLen :=
  aead.tag (sealAt_ct aead key np aad position last hmsg)

/-- Sealing keeps the frame: a tag longer, piece by piece. -/
theorem framed_segments {len : Nat} {chunks : List Bytes} (h : Framed len chunks)
    (hsize : ∀ chunk ∈ chunks, chunk.length ≤ maxChunkSize) (position : Nat) :
    Framed (len + streamTagLen) ((segments aead key np aad position chunks).map (·.ct)) ∧
      ∀ ct ∈ (segments aead key np aad position chunks).map (·.ct), ct ≠ [] := by
  induction chunks generalizing position with
  | nil => exact ⟨trivial, by simp [segments]⟩
  | cons chunk chunks ih =>
    have hct := fun last => length_ct aead key np aad position last
      (hsize chunk List.mem_cons_self)
    have hne : ∀ last, (sealAt aead key np aad position last chunk).ct ≠ [] := by
      intro last
      rw [← List.length_pos_iff, hct, streamTagLen]
      omega
    cases chunks with
    | nil =>
      have hlen : chunk.length ≤ len := h
      refine ⟨?_, by simpa [segments] using hne true⟩
      simp only [segments, List.map_cons, List.map_nil, Framed, hct]
      omega
    | cons chunk' chunks =>
      obtain ⟨hlen, hrest⟩ := h
      obtain ⟨hf, hn⟩ := ih hrest (fun c hc => hsize c (List.mem_cons_of_mem _ hc)) (position + 1)
      rw [segments, List.map_cons]
      refine ⟨?_, ?_⟩
      · exact framed_cons (by rw [hct, hlen]) hf
      · intro ct hin
        obtain rfl | hin := List.mem_cons.mp hin
        · exact hne false
        · exact hn ct hin

/-- Sealing every chunk within the counter writes the segments. -/
theorem sendAll_encrypt {chunks : List Bytes} (hne : chunks ≠ [])
    (hsize : ∀ chunk ∈ chunks, chunk.length ≤ maxChunkSize) (position : Nat)
    (hfits : position + chunks.length ≤ counterMax + 1) (dst : Bytes) :
    sendAll (StreamState.encryptNext aead aad) (StreamState.encryptLast aead aad) chunks
        ⟨key, np, position⟩ dst =
      (.ok (), dst ++ (segments aead key np aad position chunks).flatMap (·.ct)) := by
  induction chunks generalizing position dst with
  | nil => exact absurd rfl hne
  | cons chunk chunks ih =>
    have hct := fun last => sealAt_ct aead key np aad position last
      (hsize chunk List.mem_cons_self)
    cases chunks with
    | nil =>
      rw [sendAll, StreamState.encryptLast, StreamState.last]
      simp only [hct, segments, List.flatMap_cons, List.flatMap_nil, List.append_nil]
    | cons chunk' chunks =>
      have hpos : position ≠ counterMax := by
        simp only [List.length_cons] at hfits
        omega
      rw [sendAll, StreamState.encryptNext, StreamState.next]
      simp only [hct, if_neg hpos]
      have hrest := ih (List.cons_ne_nil _ _)
        (fun c hc => hsize c (List.mem_cons_of_mem _ hc)) (position + 1)
        (by simp only [List.length_cons] at hfits ⊢; omega)
        (dst ++ (sealAt aead key np aad position false chunk).ct)
      rw [StreamState.encryptNext] at hrest
      rw [hrest, segments, List.flatMap_cons, List.append_assoc]

/-- One chunk too many for the counter. -/
theorem sendAll_overflow {chunks : List Bytes} (position : Nat) (hpos : position ≤ counterMax)
    (hover : counterMax + 1 < position + chunks.length) (dst : Bytes) :
    (sendAll (StreamState.encryptNext aead aad) (StreamState.encryptLast aead aad) chunks
      ⟨key, np, position⟩ dst).1 = .error (.crypto .seal) := by
  induction chunks generalizing position dst with
  | nil =>
    rw [List.length_nil] at hover
    omega
  | cons chunk chunks ih =>
    cases chunks with
    | nil =>
      simp only [List.length_cons, List.length_nil] at hover
      omega
    | cons chunk' chunks =>
      rw [sendAll, StreamState.encryptNext, StreamState.next]
      by_cases htop : position = counterMax
      · simp only [if_pos htop]
      · simp only [if_neg htop]
        cases aead.encrypt key (streamNonce np position false) aad chunk with
        | none => rfl
        | some ct =>
          have hrest := ih (position + 1) (by omega)
            (by simp only [List.length_cons] at hover ⊢; omega) (dst ++ ct)
          rw [StreamState.encryptNext] at hrest
          exact hrest

/-- What decryption knows of what was sealed under this key. -/
structure Idealised (made : List Segment) : Prop where
  opens : ∀ seg ∈ made, aead.decrypt key seg.nonce seg.aad seg.ct = some seg.msg
  authentic : ∀ nonce aad ct, (aead.decrypt key nonce aad ct).isSome →
    ∃ seg ∈ made, seg.nonce = nonce ∧ seg.aad = aad ∧ seg.ct = ct

theorem sendAll_decrypt {chunks : List Bytes} (hne : chunks ≠ []) (position : Nat)
    (hfits : position + chunks.length ≤ counterMax + 1)
    (hopens : ∀ seg ∈ segments aead key np aad position chunks,
      aead.decrypt key seg.nonce seg.aad seg.ct = some seg.msg) (dst : Bytes) :
    sendAll (StreamState.decryptNext aead aad) (StreamState.decryptLast aead aad)
        ((segments aead key np aad position chunks).map (·.ct)) ⟨key, np, position⟩ dst =
      (.ok (), dst ++ chunks.flatten) := by
  induction chunks generalizing position dst with
  | nil => exact absurd rfl hne
  | cons chunk chunks ih =>
    cases chunks with
    | nil =>
      have hopen := hopens _ List.mem_cons_self
      rw [segments, List.map_cons, List.map_nil, sendAll, StreamState.decryptLast,
        StreamState.last]
      simp only [sealAt] at hopen ⊢
      rw [hopen]
      simp
    | cons chunk' chunks =>
      have hpos : position ≠ counterMax := by
        simp only [List.length_cons] at hfits
        omega
      have hopen := hopens _ List.mem_cons_self
      have hrest := ih (List.cons_ne_nil _ _) (position + 1)
        (by simp only [List.length_cons] at hfits ⊢; omega)
        (fun seg hseg => hopens seg (List.mem_cons_of_mem _ hseg)) (dst ++ chunk)
      have htail : (segments aead key np aad (position + 1) (chunk' :: chunks)).map (·.ct) ≠ [] := by
        rw [Ne, List.map_eq_nil_iff, ← List.length_eq_zero_iff, length_segments]
        exact Nat.succ_ne_zero _
      rw [segments, List.map_cons, sendAll_cons htail, flush, StreamState.decryptNext,
        StreamState.next, if_neg hpos]
      rw [StreamState.decryptNext] at hrest
      simp only [sealAt] at hopen ⊢
      rw [hopen]
      simp only
      rw [hrest]
      simp only [List.flatten_cons, List.append_assoc]

variable {aead key np aad} {chunks : List Bytes}

/-- What opens at a position is the segment sealed there. -/
theorem Idealised.sealed_at (hideal : Idealised aead key (segments aead key np aad 0 chunks))
    (hfits : chunks.length ≤ counterMax + 1) {np' : Block noncePrefixLen} {aad' unit out : Bytes}
    {position : Nat} {last : Bool} (hpos : position ≤ counterMax)
    (h : aead.decrypt key (streamNonce np' position last) aad' unit = some out) :
    np' = np ∧ aad' = aad ∧ last = decide (position + 1 = chunks.length) ∧
      ∃ seg, (segments aead key np aad 0 chunks)[position]? = some seg ∧ seg.ct = unit := by
  obtain ⟨seg, hseg, hnonce, haad, hct⟩ :=
    hideal.authentic _ _ _ (Option.isSome_iff_exists.mpr ⟨out, h⟩)
  obtain ⟨i, hi⟩ := List.mem_iff_getElem?.mp hseg
  obtain ⟨hn, ha⟩ := segments_get aead key np aad hi
  have hlt : i < chunks.length := by
    have := (List.getElem?_eq_some_iff.mp hi).1
    rwa [length_segments] at this
  rw [hnonce, Nat.zero_add] at hn
  obtain ⟨hnp, rfl, hlast⟩ := streamNonce_inj hpos (by omega) hn
  exact ⟨hnp, haad.symm.trans ha, hlast, seg, hi, hct⟩

theorem drop_of_getElem? {α : Type} {l : List α} {i : Nat} {a : α} (h : l[i]? = some a) :
    l.drop i = a :: l.drop (i + 1) := by
  obtain ⟨hi, ha⟩ := List.getElem?_eq_some_iff.mp h
  rw [List.drop_eq_getElem_cons hi, ha]

/-- Units that open from a position on are the segments sealed from there on. -/
theorem Idealised.units_eq (hideal : Idealised aead key (segments aead key np aad 0 chunks))
    (hfits : chunks.length ≤ counterMax + 1) {np' : Block noncePrefixLen} {aad' : Bytes}
    {units : List Bytes} {position : Nat} {dst : Bytes} (hpos : position ≤ counterMax)
    (h : (sendAll (StreamState.decryptNext aead aad') (StreamState.decryptLast aead aad') units
      ⟨key, np', position⟩ dst).1 = .ok ()) :
    np' = np ∧ aad' = aad ∧
      units = ((segments aead key np aad 0 chunks).drop position).map (·.ct) := by
  induction units generalizing position dst with
  | nil =>
    rw [sendAll] at h
    cases h
  | cons unit units ih =>
    cases units with
    | nil =>
      rw [sendAll, StreamState.decryptLast, StreamState.last] at h
      cases hdec : aead.decrypt key (streamNonce np' position true) aad' unit with
      | none =>
        simp only [hdec] at h
        cases h
      | some out =>
        obtain ⟨hnp, haad, hlast, seg, hseg, hct⟩ := hideal.sealed_at hfits hpos hdec
        have hend : position + 1 = chunks.length := of_decide_eq_true hlast.symm
        refine ⟨hnp, haad, ?_⟩
        rw [drop_of_getElem? hseg, List.map_cons, hct, List.drop_eq_nil_of_le, List.map_nil]
        rw [length_segments]
        omega
    | cons unit' units =>
      rw [sendAll, StreamState.decryptNext, StreamState.next] at h
      by_cases htop : position = counterMax
      · simp only [if_pos htop] at h
        cases h
      · simp only [if_neg htop] at h
        cases hdec : aead.decrypt key (streamNonce np' position false) aad' unit with
        | none =>
          simp only [hdec] at h
          cases h
        | some out =>
          simp only [hdec] at h
          obtain ⟨hnp, haad, -, seg, hseg, hct⟩ := hideal.sealed_at hfits hpos hdec
          have hnext : position + 1 ≤ counterMax := by omega
          obtain ⟨-, -, hunits⟩ := ih hnext h
          exact ⟨hnp, haad, by rw [drop_of_getElem? hseg, List.map_cons, hct, hunits]⟩

end Segments

end AudioSegments

end YapStack.Crypto
