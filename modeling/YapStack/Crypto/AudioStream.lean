import YapStack.Crypto.Aead
import YapStack.Foundation.Readers

namespace YapStack.Crypto

open Readers

def domainWrapAudioStream : Bytes := Bytes.utf8 "yapstack.wrap.audio.stream.v1"

def audioStreamVersion : UInt8 := 0x01

def audioChunkSize : UInt32 := 1024 * 1024

def noncePrefixLen : Nat := 19

def streamTagLen : Nat := 16

def audioHeaderLen : Nat := 1 + 4 + noncePrefixLen

def maxChunkSize : Nat := 64 * 1024 * 1024

def maxWrappedKeyLen : Nat := 4096

/-- XChaCha20-Poly1305 under the STREAM construction. It seals every message
of a chunk's length; what it opens is left to the statements. -/
structure StreamAead where
  encrypt : Block 32 → Block 24 → Bytes → Bytes → Option Bytes
  decrypt : Block 32 → Block 24 → Bytes → Bytes → Option Bytes
  seals : ∀ {key nonce aad msg}, msg.length ≤ maxChunkSize →
    (encrypt key nonce aad msg).isSome
  tag : ∀ {key nonce aad msg ct}, encrypt key nonce aad msg = some ct →
    ct.length = msg.length + streamTagLen

inductive StreamError
  | crypto (error : CryptoError)
  | io (message : String)
  deriving DecidableEq

/-- The nonce of one segment: prefix, counter and the flag of the last one. -/
def streamNonce (noncePrefix : Block noncePrefixLen) (position : Nat) (last : Bool) : Block 24 :=
  ⟨noncePrefix.val ++ (Bytes.be 4 position ++ [if last then 1 else 0]), by
    simp [noncePrefix.property, noncePrefixLen]⟩

/-- `EncryptorBE32` and `DecryptorBE32`. -/
structure StreamState where
  key : Block 32
  noncePrefix : Block noncePrefixLen
  position : Nat

def counterMax : Nat := 2 ^ 32 - 1

namespace StreamState

/-- One segment that is not the last. The top counter value is kept for a last one. -/
def next (cipher : Block 32 → Block 24 → Bytes → Bytes → Option Bytes) (fault : CryptoError)
    (aad : Bytes) (s : StreamState) (msg : Bytes) : Except CryptoError (Bytes × StreamState) :=
  if s.position = counterMax then .error fault
  else
    match cipher s.key (streamNonce s.noncePrefix s.position false) aad msg with
    | none => .error fault
    | some out => .ok (out, { s with position := s.position + 1 })

def last (cipher : Block 32 → Block 24 → Bytes → Bytes → Option Bytes) (fault : CryptoError)
    (aad : Bytes) (s : StreamState) (msg : Bytes) : Except CryptoError Bytes :=
  match cipher s.key (streamNonce s.noncePrefix s.position true) aad msg with
  | none => .error fault
  | some out => .ok out

def encryptNext (aead : StreamAead) (aad : Bytes) := next aead.encrypt .seal aad

def encryptLast (aead : StreamAead) (aad : Bytes) := last aead.encrypt .seal aad

def decryptNext (aead : StreamAead) (aad : Bytes) := next aead.decrypt .open aad

def decryptLast (aead : StreamAead) (aad : Bytes) := last aead.decrypt .open aad

end StreamState

/-- Read until the buffer is full or the input ends. -/
def readFull (src : Reader UInt8) (len : Nat) : Except StreamError (Bytes × Reader UInt8) :=
  if len = 0 then .ok ([], src)
  else
    match _h : src.read len with
    | (.items [], src') => .ok ([], src')
    | (.items (x :: xs), src') =>
      match readFull src' (len - (x :: xs).length) with
      | .error e => .error e
      | .ok (more, src'') => .ok (x :: xs ++ more, src'')
    | (.interrupted, src') => readFull src' len
    | (.failed message, _) => .error (.io message)
termination_by src.script.length + len
decreasing_by
  · obtain ⟨_, _, _, steps, hs⟩ := Reader.read_items _h
    have hlen := congrArg List.length hs
    simp only [List.length_append, List.length_cons] at hlen ⊢
    omega
  · obtain ⟨-, hs⟩ := Reader.read_interrupted _h
    have hlen := congrArg List.length hs
    simp only [List.length_cons] at hlen
    omega

theorem readFull_zero (src : Reader UInt8) : readFull src 0 = .ok ([], src) := by
  rw [readFull, if_pos rfl]

theorem readFull_eq (src : Reader UInt8) {len : Nat} (hlen : len ≠ 0) :
    readFull src len =
      match src.read len with
      | (.items [], src') => .ok ([], src')
      | (.items (x :: xs), src') =>
        (readFull src' (len - (x :: xs).length)).map (fun out => (x :: xs ++ out.1, out.2))
      | (.interrupted, src') => readFull src' len
      | (.failed message, _) => .error (.io message) := by
  rw [readFull, if_neg hlen]
  split
  · rename_i h
    simp only [h]
  · rename_i h
    simp only [h]
    split
    · rename_i h'
      rw [h', Except.map]
    · rename_i h'
      rw [h', Except.map]
  · rename_i h
    simp only [h]
  · rename_i h
    simp only [h]

/-- A buffer that was filled or cut short by the end of the input. -/
def Filled (src : Reader UInt8) (len : Nat) (out : Bytes × Reader UInt8) : Prop :=
  out.1 = src.rest.take len ∧ out.2.rest = src.rest.drop len ∧
    ∃ steps, src.script = steps ++ out.2.script

/-- Reading on in the same buffer. -/
theorem Filled.after {src src' : Reader UInt8} {len : Nat} {xs : Bytes}
    {out : Bytes × Reader UInt8} (hxs : xs.length ≤ len) (hrest : src.rest = xs ++ src'.rest)
    (hs : ∃ steps, src.script = steps ++ src'.script) (h : Filled src' (len - xs.length) out) :
    Filled src len (xs ++ out.1, out.2) := by
  obtain ⟨hout, hrest', steps', hs'⟩ := h
  obtain ⟨steps, hs⟩ := hs
  refine ⟨?_, ?_, steps ++ steps', by rw [hs, hs', List.append_assoc]⟩
  · rw [hout, hrest, List.take_append, List.take_of_length_le hxs]
  · rw [hrest', hrest, List.drop_append, List.drop_eq_nil_of_le hxs, List.nil_append]

/-- The fate of a read, for every way the reader cuts its input. -/
theorem readFull_spec (src : Reader UInt8) (len : Nat) :
    (∃ message, readFull src len = .error (.io message) ∧ .failed message ∈ src.script) ∨
      ∃ out, readFull src len = .ok out ∧ Filled src len out := by
  induction hm : src.script.length + len using Nat.strongRecOn generalizing src len with
  | ind m ih =>
    by_cases hlen : len = 0
    · subst hlen
      exact .inr ⟨_, readFull_zero src, rfl, rfl, [], rfl⟩
    · rw [readFull_eq src hlen]
      obtain ⟨r, hr⟩ : ∃ r, src.read len = r := ⟨_, rfl⟩
      obtain ⟨result, src'⟩ := r
      simp only [hr]
      cases result with
      | items xs =>
        obtain ⟨hxs, hend, hrest, hsteps⟩ := Reader.read_items hr
        cases xs with
        | nil =>
          have hnil : src.rest = [] := hend (by omega) rfl
          have hnil' : src'.rest = [] := by simpa [hnil] using hrest.symm
          exact .inr ⟨_, rfl, by simp [hnil], by simp [hnil, hnil'], hsteps⟩
        | cons x xs =>
          obtain ⟨steps, hs⟩ := hsteps
          have hscript := congrArg List.length hs
          rw [List.length_append] at hscript
          have hpos : 0 < (x :: xs).length := Nat.succ_pos _
          obtain ⟨message, he, hm'⟩ | ⟨out, ho, hf⟩ :=
            ih _ (by omega) src' (len - (x :: xs).length) rfl
          · refine .inl ⟨message, by simp only [he, Except.map], ?_⟩
            rw [hs]
            exact List.mem_append_right _ hm'
          · exact .inr ⟨_, by simp only [ho, Except.map], hf.after hxs hrest ⟨steps, hs⟩⟩
      | interrupted =>
        obtain ⟨hrest, hs⟩ := Reader.read_interrupted hr
        have hscript := congrArg List.length hs
        rw [List.length_cons] at hscript
        obtain ⟨message, he, hm'⟩ | ⟨out, ho, hf⟩ := ih _ (by omega) src' len rfl
        · exact .inl ⟨message, he, hs ▸ List.mem_cons_of_mem _ hm'⟩
        · obtain ⟨hout, hrest', steps, hs'⟩ := hf
          refine .inr ⟨out, ho, hrest ▸ hout, hrest ▸ hrest', .interrupted :: steps, ?_⟩
          rw [hs, hs', List.cons_append]
      | failed message => exact .inl ⟨message, rfl, Reader.read_failed hr⟩

theorem filled_of_ok {src : Reader UInt8} {len : Nat} {out : Bytes × Reader UInt8}
    (h : readFull src len = .ok out) : Filled src len out := by
  obtain ⟨message, he, -⟩ | ⟨out', ho, hf⟩ := readFull_spec src len
  · rw [he] at h
    cases h
  · rw [ho, Except.ok.injEq] at h
    exact h ▸ hf

def readExactOr (src : Reader UInt8) (n : Nat) : Except StreamError (Block n × Reader UInt8) :=
  match readFull src n with
  | .error e => .error e
  | .ok (buf, src) => if h : buf.length = n then .ok (⟨buf, h⟩, src) else .error (.crypto .malformed)

/-- What a run has written, and how it ended. -/
abbrev Written (β : Type) := Except StreamError β × Bytes

/-- The chunk held back goes out as one that is not the last. -/
def flush (next : StreamState → Bytes → Except CryptoError (Bytes × StreamState))
    (state : StreamState) (pending : Option Bytes) (dst : Bytes) : Written StreamState :=
  match pending with
  | none => (.ok state, dst)
  | some prev =>
    match next state prev with
    | .error e => (.error (.crypto e), dst)
    | .ok (seg, state) => (.ok state, dst ++ seg)

/-- The chunk held back at the end of the input goes out as the last. -/
def finish (last : StreamState → Bytes → Except CryptoError Bytes) (blank : Option Bytes)
    (state : StreamState) (pending : Option Bytes) (dst : Bytes) : Written Unit :=
  match pending.or blank with
  | none => (.error (.crypto .malformed), dst)
  | some chunk =>
    match last state chunk with
    | .error e => (.error (.crypto e), dst)
    | .ok seg => (.ok (), dst ++ seg)

/-- Read the input in units with one unit held back, so that the last is known
when it goes out. -/
def lookahead (len : Nat)
    (next : StreamState → Bytes → Except CryptoError (Bytes × StreamState))
    (last : StreamState → Bytes → Except CryptoError Bytes) (blank : Option Bytes)
    (src : Reader UInt8) (state : StreamState) (pending : Option Bytes) (dst : Bytes) :
    Written Unit :=
  match _h : readFull src len with
  | .error e => (.error e, dst)
  | .ok (chunk, src') =>
    if _hc : chunk = [] then finish last blank state pending dst
    else
      match flush next state pending dst with
      | (.error e, dst) => (.error e, dst)
      | (.ok state, dst) =>
        if chunk.length < len then finish last blank state (some chunk) dst
        else lookahead len next last blank src' state (some chunk) dst
termination_by src.rest.length
decreasing_by
  obtain ⟨hchunk, hrest, -⟩ := filled_of_ok _h
  have hne := List.length_pos_iff.mpr _hc
  rw [show chunk = src.rest.take len from hchunk, List.length_take] at hne
  rw [hrest, List.length_drop]
  omega

def audioHeader (chunkSize : UInt32) (noncePrefix : Block noncePrefixLen) :
    Block audioHeaderLen :=
  ⟨audioStreamVersion :: (Bytes.u32be chunkSize ++ noncePrefix.val), by
    simp [Bytes.u32be, noncePrefix.property, audioHeaderLen, noncePrefixLen]⟩

def sealSegments (aead : StreamAead) (dataKey : Block 32) (noncePrefix : Block noncePrefixLen)
    (chunkSize : UInt32) (src : Reader UInt8) (dst : Bytes) : Written Unit :=
  if chunkSize = 0 then (.error (.crypto .malformed), dst)
  else
    let header := (audioHeader chunkSize noncePrefix).val
    lookahead chunkSize.toNat (StreamState.encryptNext aead header)
      (StreamState.encryptLast aead header) (some []) src ⟨dataKey, noncePrefix, 0⟩ none
      (dst ++ header)

def openSegments (aead : StreamAead) (src : Reader UInt8) (dataKey : Block 32) (dst : Bytes) :
    Written Unit :=
  match readExactOr src audioHeaderLen with
  | .error e => (.error e, dst)
  | .ok (header, src) =>
    let v := header.val.headD 0
    if v ≠ audioStreamVersion then (.error (.crypto (.version v)), dst)
    else
      let chunkSize := Bytes.ofBe ((header.val.drop 1).take 4)
      if chunkSize = 0 ∨ maxChunkSize < chunkSize then (.error (.crypto .malformed), dst)
      else
        let noncePrefix : Block noncePrefixLen :=
          Block.ofTake _ (header.val.drop 5) (by simp [header.property, audioHeaderLen])
        lookahead (chunkSize + streamTagLen) (StreamState.decryptNext aead header.val)
          (StreamState.decryptLast aead header.val) none src ⟨dataKey, noncePrefix, 0⟩ none dst

structure AudioIdentity where
  tenantId : Block 16
  sessionId : Block 16
  partId : Block 16
  epoch : UInt32
  deriving DecidableEq

def AudioIdentity.wrapAad (id : AudioIdentity) : Bytes :=
  Bytes.lp [[version], domainWrapAudioStream, id.tenantId.val, id.sessionId.val, id.partId.val,
    Bytes.u32be id.epoch]

variable (prim : Primitives) (aead : StreamAead)

def wrapAudioKey (vaultKey dataKey : Block 32) (wrapNonce : Block 24) (id : AudioIdentity) :
    Except CryptoError Bytes :=
  sealCommitting prim vaultKey wrapNonce dataKey.val id.wrapAad

def unwrapAudioKey (vaultKey : Block 32) (wrapped : Bytes) (id : AudioIdentity) :
    Except CryptoError (Block 32) :=
  match openCommitting prim vaultKey wrapped id.wrapAad with
  | .error e => .error e
  | .ok pt => if h : pt.length = 32 then .ok ⟨pt, h⟩ else .error .malformed

/-- What `seal_blob` draws from the system. -/
structure BlobDraw where
  dataKey : Block 32
  noncePrefix : Block noncePrefixLen
  wrapNonce : Block 24

def sealBlob (vaultKey : Block 32) (id : AudioIdentity) (draw : BlobDraw) (src : Reader UInt8)
    (dst : Bytes) : Written Unit :=
  match wrapAudioKey prim vaultKey draw.dataKey draw.wrapNonce id with
  | .error e => (.error (.crypto e), dst)
  | .ok wrapped =>
    if wrapped.length < 2 ^ 32 then
      sealSegments aead draw.dataKey draw.noncePrefix audioChunkSize src
        (dst ++ Bytes.u32be (UInt32.ofNat wrapped.length) ++ wrapped)
    else (.error (.crypto .seal), dst)

def openBlob (vaultKey : Block 32) (id : AudioIdentity) (src : Reader UInt8) (dst : Bytes) :
    Written Unit :=
  match readExactOr src 4 with
  | .error e => (.error e, dst)
  | .ok (lenb, src) =>
    let wlen := Bytes.ofBe lenb.val
    if wlen = 0 ∨ maxWrappedKeyLen < wlen then (.error (.crypto .malformed), dst)
    else
      match readExactOr src wlen with
      | .error e => (.error e, dst)
      | .ok (wrapped, src) =>
        match unwrapAudioKey prim vaultKey wrapped.val id with
        | .error e => (.error (.crypto e), dst)
        | .ok dataKey => openSegments aead src dataKey dst

end YapStack.Crypto
