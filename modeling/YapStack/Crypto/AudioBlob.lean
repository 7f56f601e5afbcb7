import YapStack.Crypto.AudioTampering

set_option linter.unusedSectionVars false

namespace YapStack.Crypto

open Readers

theorem AudioIdentity.wrapAad_inj {id id' : AudioIdentity} (h : id.wrapAad = id'.wrapAad) :
    id = id' := by
  have hsize : ∀ (id : AudioIdentity), ∀ f ∈ [[version], domainWrapAudioStream, id.tenantId.val,
      id.sessionId.val, id.partId.val, Bytes.u32be id.epoch], f.length < 2 ^ 32 := by
    intro id f hf
    have ht := id.tenantId.property
    have hs := id.sessionId.property
    have hp := id.partId.property
    have hd : domainWrapAudioStream.length < 2 ^ 32 := by decide +kernel
    simp only [List.mem_cons, List.not_mem_nil, or_false] at hf
    obtain rfl | rfl | rfl | rfl | rfl | rfl := hf
    · decide
    · exact hd
    · omega
    · omega
    · omega
    · simp [Bytes.u32be]
  have hfields := Bytes.lp_inj (hsize id) (hsize id') h
  simp only [List.cons.injEq, true_and, and_true] at hfields
  obtain ⟨ht, hs, hp, he⟩ := hfields
  have hepoch : id.epoch = id'.epoch := by
    have hof := congrArg Bytes.ofBe he
    rwa [Bytes.ofBe_u32be, Bytes.ofBe_u32be, UInt32.toNat_inj] at hof
  cases id
  cases id'
  simp only [AudioIdentity.mk.injEq]
  exact ⟨Subtype.ext ht, Subtype.ext hs, Subtype.ext hp, hepoch⟩

/-- The wrapped key opens under the AAD it was wrapped with and no other. -/
def WrapAuthentic (prim : Primitives) (vaultKey dataKey : Block 32) (wrapNonce : Block 24)
    (aad : Bytes) : Prop :=
  ∀ ct aad', prim.encrypt (aeadKeyOf prim vaultKey wrapNonce) wrapNonce aad dataKey.val = some ct →
    (prim.decrypt (aeadKeyOf prim vaultKey wrapNonce) wrapNonce aad' ct).isSome → aad' = aad

variable {prim : Primitives} {aead : StreamAead} {vaultKey : Block 32} {id id' : AudioIdentity}
  {draw : BlobDraw} {src : Reader UInt8} {wrapped blob dst : Bytes}

theorem unwrap_foreign (hwrap : wrapAudioKey prim vaultKey draw.dataKey draw.wrapNonce id =
      .ok wrapped)
    (hauth : WrapAuthentic prim vaultKey draw.dataKey draw.wrapNonce id.wrapAad)
    (hid : id' ≠ id) : ∃ e, unwrapAudioKey prim vaultKey wrapped id' = .error e := by
  have haad : id'.wrapAad ≠ id.wrapAad := fun h => hid (AudioIdentity.wrapAad_inj h)
  have hopen : openCommitting prim vaultKey wrapped id'.wrapAad = .error .open := by
    apply openCommitting_other hwrap
    intro ct hct
    cases hdec : prim.decrypt (aeadKeyOf prim vaultKey draw.wrapNonce) draw.wrapNonce
        id'.wrapAad ct with
    | none => rfl
    | some msg => exact absurd (hauth ct _ hct (by rw [hdec]; rfl)) haad
  exact ⟨.open, by rw [unwrapAudioKey, hopen]⟩

theorem sendAll_appends {next : StreamState → Bytes → Except CryptoError (Bytes × StreamState)}
    {last : StreamState → Bytes → Except CryptoError Bytes} (units : List Bytes)
    (state : StreamState) (dst : Bytes) :
    ∃ w, (sendAll next last units state dst).2 = dst ++ w := by
  induction units generalizing state dst with
  | nil => exact ⟨[], (List.append_nil dst).symm⟩
  | cons unit units ih =>
    cases units with
    | nil =>
      rw [sendAll]
      cases last state unit with
      | error e => exact ⟨[], (List.append_nil dst).symm⟩
      | ok seg => exact ⟨seg, rfl⟩
    | cons unit' units =>
      rw [sendAll]
      cases next state unit with
      | error e => exact ⟨[], (List.append_nil dst).symm⟩
      | ok out =>
        obtain ⟨w, hw⟩ := ih out.2 (dst ++ out.1)
        exact ⟨out.1 ++ w, by rw [← List.append_assoc]; exact hw⟩

theorem sealSegments_appends {key : Block 32} {np : Block noncePrefixLen} {chunkSize : UInt32}
    (h : sealSegments aead key np chunkSize src dst = (.ok (), blob)) : ∃ w, blob = dst ++ w := by
  by_cases hpos : chunkSize = 0
  · rw [sealSegments, if_pos hpos] at h
    cases h
  · rw [sealSegments, if_neg hpos] at h
    obtain ⟨message, he, -⟩ | heq := lookahead_spec (toNat_pos hpos) (some []) src ⟨key, np, 0⟩
      none (dst ++ (audioHeader chunkSize np).val)
    · rw [h] at he
      cases he
    · rw [heq] at h
      obtain ⟨w, hw⟩ := sendAll_appends _ _ (dst ++ (audioHeader chunkSize np).val)
      rw [h, List.append_assoc] at hw
      exact ⟨_, hw⟩

/-- A sealed blob begins with its wrapped key. -/
theorem sealBlob_ok (h : sealBlob prim aead vaultKey id draw src [] = (.ok (), blob)) :
    ∃ wrapped rest, wrapAudioKey prim vaultKey draw.dataKey draw.wrapNonce id = .ok wrapped ∧
      wrapped.length < 2 ^ 32 ∧
      blob = Bytes.u32be (UInt32.ofNat wrapped.length) ++ (wrapped ++ rest) := by
  rw [sealBlob] at h
  cases hwrap : wrapAudioKey prim vaultKey draw.dataKey draw.wrapNonce id with
  | error e =>
    rw [hwrap] at h
    cases h
  | ok wrapped =>
    rw [hwrap] at h
    by_cases hlen : wrapped.length < 2 ^ 32
    · simp only [if_pos hlen] at h
      obtain ⟨rest, rfl⟩ := sealSegments_appends h
      exact ⟨wrapped, rest, rfl, hlen, by rw [List.nil_append, List.append_assoc]⟩
    · simp only [if_neg hlen] at h
      cases h

/-- Under another identity the wrapped key does not open, and the output is as it was. -/
theorem openBlob_foreign
    (hauth : WrapAuthentic prim vaultKey draw.dataKey draw.wrapNonce id.wrapAad)
    (hseal : sealBlob prim aead vaultKey id draw src [] = (.ok (), blob)) (hid : id' ≠ id)
    {src' : Reader UInt8} (hsrc : src'.rest = blob) (dst : Bytes) :
    ∃ e, openBlob prim aead vaultKey id' src' dst = (.error e, dst) := by
  obtain ⟨wrapped, rest, hwrap, hlen, rfl⟩ := sealBlob_ok hseal
  rw [openBlob]
  obtain ⟨e, he, -⟩ | ⟨lenb, src1, hread, hrest, -⟩ := readExactOr_spec src' 4
  · exact ⟨e, by rw [he]⟩
  · rw [hsrc] at hrest
    obtain ⟨hlenb, hrest1⟩ := List.append_inj hrest (by rw [lenb.property]; simp [Bytes.u32be])
    have hwlen : Bytes.ofBe lenb.val = wrapped.length := by
      rw [← hlenb, Bytes.ofBe_u32be, UInt32.toNat_ofNat', Nat.mod_eq_of_lt hlen]
    rw [hread]
    simp only
    split
    · exact ⟨_, rfl⟩
    · obtain ⟨e, he, -⟩ | ⟨w, src2, hread2, hrest2, -⟩ :=
        readExactOr_spec src1 (Bytes.ofBe lenb.val)
      · exact ⟨e, by rw [he]⟩
      · rw [← hrest1] at hrest2
        obtain ⟨hw, -⟩ := List.append_inj hrest2 (by rw [w.property, hwlen])
        obtain ⟨e, he⟩ := unwrap_foreign hwrap hauth hid
        rw [hw] at he
        exact ⟨.crypto e, by simp only [hread2, he]⟩

theorem audioChunkSize_ne : audioChunkSize ≠ 0 := by decide +kernel

theorem audioChunkSize_le : audioChunkSize.toNat ≤ maxChunkSize := by decide +kernel

theorem sealBlob_eq (hwrap : wrapAudioKey prim vaultKey draw.dataKey draw.wrapNonce id =
      .ok wrapped) (hlen : wrapped.length < 2 ^ 32) (hs : src.Steady)
    (hfits : (chunksOf audioChunkSize src.rest).length ≤ counterMax + 1) (dst : Bytes) :
    sealBlob prim aead vaultKey id draw src dst =
      (.ok (), dst ++ Bytes.u32be (UInt32.ofNat wrapped.length) ++ wrapped ++
        sealedBytes aead draw.dataKey draw.noncePrefix audioChunkSize src.rest) := by
  rw [sealBlob, hwrap]
  simp only [if_pos hlen]
  rw [sealSegments_ok audioChunkSize_ne audioChunkSize_le hs hfits]

/-- Under its own identity the blob opens to what was sealed. -/
theorem openBlob_sealBlob (hopens : ∀ seg ∈ sealedSegments aead draw.dataKey draw.noncePrefix
      audioChunkSize src.rest, aead.decrypt draw.dataKey seg.nonce seg.aad seg.ct = some seg.msg)
    (hfits : (chunksOf audioChunkSize src.rest).length ≤ counterMax + 1) (hs : src.Steady)
    (hseal : sealBlob prim aead vaultKey id draw src [] = (.ok (), blob)) {src' : Reader UInt8}
    (hs' : src'.Steady) (hsrc : src'.rest = blob) (dst : Bytes) :
    openBlob prim aead vaultKey id src' dst = (.ok (), dst ++ src.rest) := by
  obtain ⟨wrapped, rest, hwrap, hlen, hblob⟩ := sealBlob_ok hseal
  have hsealed : rest = sealedBytes aead draw.dataKey draw.noncePrefix audioChunkSize src.rest := by
    rw [sealBlob_eq hwrap hlen hs hfits, hblob, List.nil_append, List.append_assoc,
      Prod.mk.injEq, List.append_cancel_left_eq, List.append_cancel_left_eq] at hseal
    exact hseal.2.symm
  have hwlen := length_sealCommitting hwrap
  rw [draw.dataKey.property] at hwlen
  have hlenb : Bytes.ofBe (Bytes.u32be (UInt32.ofNat wrapped.length)) = wrapped.length := by
    rw [Bytes.ofBe_u32be, UInt32.toNat_ofNat', Nat.mod_eq_of_lt hlen]
  obtain ⟨src1, hread, hrest1, hs1⟩ := readExactOr_ok
    (n := 4) ⟨Bytes.u32be (UInt32.ofNat wrapped.length), by simp [Bytes.u32be]⟩ hs'
    (hsrc.trans hblob)
  obtain ⟨src2, hread2, hrest2, hs2⟩ := readExactOr_ok ⟨wrapped, hlenb.symm⟩ hs1 hrest1
  have hunwrap : unwrapAudioKey prim vaultKey wrapped id = .ok draw.dataKey := by
    rw [unwrapAudioKey, openCommitting_seal hwrap]
    exact dif_pos draw.dataKey.property
  have hsize : ¬(Bytes.ofBe (Bytes.u32be (UInt32.ofNat wrapped.length)) = 0 ∨
      maxWrappedKeyLen < Bytes.ofBe (Bytes.u32be (UInt32.ofNat wrapped.length))) := by
    rw [hlenb, maxWrappedKeyLen]
    omega
  rw [openBlob, hread]
  simp only [hread2, hunwrap]
  rw [if_neg hsize]
  exact openSegments_ok audioChunkSize_ne audioChunkSize_le hfits hopens hs2
    (hrest2.trans hsealed) dst

/-- The chunks of a plaintext, counted. -/
theorem length_chunksOf_le {chunkSize : UInt32} (hpos : chunkSize ≠ 0) (plaintext : Bytes)
    {n : Nat} (hn : 0 < n) :
    (chunksOf chunkSize plaintext).length ≤ n ↔ plaintext.length ≤ n * chunkSize.toNat := by
  obtain ⟨hp, h⟩ | ⟨h, -⟩ := chunksOf_cases (toNat_pos hpos) plaintext
  · rw [h, hp]
    simpa using Nat.succ_le_of_lt hn
  · rw [h, length_pieces_le (toNat_pos hpos)]

/-- An AEAD that opens what is on the list and nothing else. -/
def StreamAead.ideal (made : List Segment) : StreamAead where
  encrypt _ _ _ msg := some (msg ++ blankTag)
  decrypt _ nonce aad ct :=
    if ∃ seg ∈ made, seg.nonce = nonce ∧ seg.aad = aad ∧ seg.ct = ct then
      some (ct.take (ct.length - streamTagLen))
    else none
  seals _ := rfl
  tag h := by
    cases h
    simp [blankTag, streamTagLen]

theorem ideal_segments (made made' : List Segment) (key : Block 32) (np : Block noncePrefixLen)
    (aad : Bytes) (position : Nat) (chunks : List Bytes) :
    segments (.ideal made) key np aad position chunks =
      segments (.ideal made') key np aad position chunks ∧
    ∀ seg ∈ segments (.ideal made) key np aad position chunks, seg.ct = seg.msg ++ blankTag := by
  induction chunks generalizing position with
  | nil => exact ⟨rfl, by simp [segments]⟩
  | cons chunk chunks ih =>
    cases chunks with
    | nil =>
      refine ⟨rfl, fun seg hseg => ?_⟩
      rw [segments, List.mem_singleton] at hseg
      exact hseg ▸ rfl
    | cons chunk' chunks =>
      obtain ⟨heq, hct⟩ := ih (position + 1)
      rw [segments, segments, heq]
      refine ⟨rfl, fun seg hseg => ?_⟩
      obtain rfl | hseg := List.mem_cons.mp hseg
      · rfl
      · exact hct seg (heq ▸ hseg)

/-- Every sealed plaintext has an AEAD that is ideal for it. -/
theorem exists_idealised (key : Block 32) (np : Block noncePrefixLen) (chunkSize : UInt32)
    (plaintext : Bytes) :
    ∃ aead, Idealised aead key (sealedSegments aead key np chunkSize plaintext) := by
  obtain ⟨made, hmade⟩ : ∃ made, made = sealedSegments (.ideal []) key np chunkSize plaintext :=
    ⟨_, rfl⟩
  obtain ⟨heq, hct⟩ := ideal_segments made [] key np (audioHeader chunkSize np).val 0
    (chunksOf chunkSize plaintext)
  refine ⟨.ideal made, ⟨fun seg hseg => ?_, fun nonce aad ct h => ?_⟩⟩
  · have hin : seg ∈ made := by
      rw [hmade, sealedSegments, ← heq]
      exact hseg
    have hany : ∃ s ∈ made, s.nonce = seg.nonce ∧ s.aad = seg.aad ∧ s.ct = seg.ct :=
      ⟨seg, hin, rfl, rfl, rfl⟩
    have hdec : (StreamAead.ideal made).decrypt key seg.nonce seg.aad seg.ct =
        some (seg.ct.take (seg.ct.length - streamTagLen)) := if_pos hany
    rw [hdec, hct seg hseg]
    simp [blankTag, streamTagLen]
  · rw [sealedSegments, heq, ← sealedSegments, ← hmade]
    by_contra hno
    simp only [StreamAead.ideal, if_neg hno] at h
    exact absurd h (by simp)

variable {key : Block 32} {np : Block noncePrefixLen} {chunkSize : UInt32} {plaintext : Bytes}

theorem audio_stream_detects_edits (hpos : chunkSize ≠ 0)
    (hmax : chunkSize.toNat ≤ maxChunkSize)
    (hideal : Idealised aead key (sealedSegments aead key np chunkSize plaintext)) :
    (plaintext.length ≤ 2 ^ 32 * chunkSize.toNat →
      RoundTrips aead key np chunkSize plaintext ∧
        DetectsEdits aead key np chunkSize plaintext) ∧
    (2 ^ 32 * chunkSize.toNat < plaintext.length → ∀ src dst, src.Steady → src.rest = plaintext →
      (sealSegments aead key np chunkSize src dst).1 = .error (.crypto .seal)) ∧
    ∀ (prim : Primitives) (vaultKey : Block 32) (id id' : AudioIdentity) (draw : BlobDraw)
      (src : Reader UInt8) (blob : Bytes),
      WrapAuthentic prim vaultKey draw.dataKey draw.wrapNonce id.wrapAad →
      sealBlob prim aead vaultKey id draw src [] = (.ok (), blob) → id' ≠ id →
      ∀ (src' : Reader UInt8) dst, src'.rest = blob →
        ∃ e, openBlob prim aead vaultKey id' src' dst = (.error e, dst) := by
  have hcount := length_chunksOf_le hpos plaintext (Nat.two_pow_pos 32)
  have htop : counterMax + 1 = 2 ^ 32 := by decide
  refine ⟨fun hlen => ⟨⟨?_, ?_⟩, ?_⟩, ?_, ?_⟩
  · intro src dst hs hsrc
    have hfits : (chunksOf chunkSize src.rest).length ≤ counterMax + 1 := by
      rw [hsrc, htop]
      exact hcount.mpr hlen
    rw [sealSegments_ok hpos hmax hs hfits, hsrc]
  · intro src dst hs hsrc
    exact openSegments_ok hpos hmax (htop ▸ hcount.mpr hlen) hideal.opens hs hsrc dst
  · exact detectsEdits hpos hmax hideal (htop ▸ hcount.mpr hlen)
  · intro hover src dst hs hsrc
    apply sealSegments_overflow hpos hs
    rw [hsrc, htop]
    exact Nat.lt_of_not_le fun hle => absurd (hcount.mp hle) (Nat.not_le_of_lt hover)
  · intro prim vaultKey id id' draw src blob hauth hseal hid src' dst hsrc
    exact openBlob_foreign hauth hseal hid hsrc dst

/-- A cipher whose tag tells one AAD from the others. -/
def Primitives.bound (aad : Bytes) : Primitives where
  mac _ _ := ⟨List.replicate 32 0, length_zeros32⟩
  encrypt _ _ aad' msg := some (msg ++ List.replicate 16 (if aad' = aad then 0 else 1))
  decrypt _ _ aad' ct :=
    if ct.drop (ct.length - 16) = List.replicate 16 (if aad' = aad then 0 else 1) then
      some (ct.take (ct.length - 16))
    else none
  tag h := by
    cases h
    simp
  opens h := by
    cases h
    simp

theorem bound_authentic (vaultKey dataKey : Block 32) (wrapNonce : Block 24) (aad : Bytes) :
    WrapAuthentic (.bound aad) vaultKey dataKey wrapNonce aad := by
  intro ct aad' hct h
  simp only [Primitives.bound, if_true, Option.some.injEq] at hct h
  by_contra hne
  rw [← hct, if_neg hne] at h
  simp at h

def blankBlock (n : Nat) : Block n :=
  ⟨List.replicate n 0, List.length_replicate⟩

def blankDraw : BlobDraw :=
  ⟨blankBlock 32, blankBlock noncePrefixLen, blankBlock 24⟩

def blankIdentity : AudioIdentity :=
  ⟨blankBlock 16, blankBlock 16, blankBlock 16, 0⟩

theorem audio_stream_detects_edits_five : ∃ aead prim blob,
    RoundTrips aead (blankBlock 32) (blankBlock noncePrefixLen) 2 [1, 2, 3, 4, 5] ∧
      DetectsEdits aead (blankBlock 32) (blankBlock noncePrefixLen) 2 [1, 2, 3, 4, 5] ∧
      sealBlob prim aead (blankBlock 32) blankIdentity blankDraw ⟨[1, 2, 3], [.short 1]⟩ [] =
        (.ok (), blob) ∧
      ∀ id', id' ≠ blankIdentity → ∀ dst, ∃ e,
        openBlob prim aead (blankBlock 32) id' ⟨blob, []⟩ dst = (.error e, dst) := by
  obtain ⟨aead, hideal⟩ := exists_idealised (blankBlock 32) (blankBlock noncePrefixLen) 2
    [1, 2, 3, 4, 5]
  obtain ⟨hshort, -, hforeign⟩ := audio_stream_detects_edits (by decide) (by decide) hideal
  obtain ⟨hround, hdetects⟩ := hshort (by decide)
  obtain ⟨wrapped, hwrap⟩ : ∃ wrapped, wrapAudioKey (.bound blankIdentity.wrapAad) (blankBlock 32)
      blankDraw.dataKey blankDraw.wrapNonce blankIdentity = .ok wrapped := ⟨_, rfl⟩
  have hlen := length_sealCommitting hwrap
  rw [blankDraw.dataKey.property] at hlen
  have hsteady : (⟨[1, 2, 3], [.short 1]⟩ : Reader UInt8).Steady := by simp [Reader.Steady]
  have hfits : (chunksOf audioChunkSize [1, 2, 3]).length ≤ counterMax + 1 := by
    rw [length_chunksOf_le audioChunkSize_ne _ (Nat.succ_pos _)]
    decide +kernel
  have hseal : sealBlob _ aead _ _ _ _ [] = _ := sealBlob_eq hwrap (by omega) hsteady hfits []
  refine ⟨aead, _, _, hround, hdetects, hseal, fun id' hid dst => ?_⟩
  exact hforeign _ _ _ _ _ _ _ (bound_authentic _ _ _ _) hseal hid _ dst rfl

/-- A plaintext of 2^32 + 1 chunks is one chunk too long for the counter. -/
theorem seal_refuses_four_gib : ∃ aead,
    Idealised aead (blankBlock 32) (sealedSegments aead (blankBlock 32) (blankBlock noncePrefixLen)
      1 (List.replicate (2 ^ 32 + 1) 0)) ∧
    (sealSegments aead (blankBlock 32) (blankBlock noncePrefixLen) 1
      ⟨List.replicate (2 ^ 32 + 1) 0, []⟩ []).1 ≠ .ok () := by
  obtain ⟨plaintext, hp⟩ : ∃ plaintext : Bytes, plaintext = List.replicate (2 ^ 32 + 1) 0 :=
    ⟨_, rfl⟩
  have hlong : 2 ^ 32 < plaintext.length := by
    rw [hp, List.length_replicate]
    exact Nat.lt_succ_self _
  rw [← hp]
  obtain ⟨aead, hideal⟩ := exists_idealised (blankBlock 32) (blankBlock noncePrefixLen) 1 plaintext
  refine ⟨aead, hideal, ?_⟩
  have hover : counterMax + 1 < (chunksOf 1 plaintext).length := by
    apply Nat.lt_of_not_le
    intro hle
    rw [length_chunksOf_le (by decide) plaintext (by decide)] at hle
    have htop : counterMax + 1 = 2 ^ 32 := by decide
    rw [htop, UInt32.toNat_one, Nat.mul_one] at hle
    omega
  rw [sealSegments_overflow (by decide) (fun _ => List.not_mem_nil) hover]
  exact fun h => by cases h

end YapStack.Crypto
