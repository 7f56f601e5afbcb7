import Mathlib.Data.List.Basic
import YapStack.Foundation.Bytes

namespace YapStack.Crypto

/-- A byte string of a fixed length. -/
abbrev Block (n : Nat) := {b : Bytes // b.length = n}

/-- HMAC-SHA256 and XChaCha20-Poly1305. -/
structure Primitives where
  mac : Bytes → Bytes → Block 32
  encrypt : Block 32 → Block 24 → Bytes → Bytes → Option Bytes
  decrypt : Block 32 → Block 24 → Bytes → Bytes → Option Bytes
  tag : ∀ {key nonce aad msg ct}, encrypt key nonce aad msg = some ct → ct.length = msg.length + 16
  opens : ∀ {key nonce aad msg ct},
    encrypt key nonce aad msg = some ct → decrypt key nonce aad ct = some msg

def version : UInt8 := 1

def commitInfo : Bytes := Bytes.utf8 "yapstack.commit.v1"

inductive CryptoError
  | «seal»
  | «open»
  | commitment
  | version (v : UInt8)
  | malformed
  deriving DecidableEq

def blankTag : Bytes := List.replicate 16 0

theorem length_zeros32 : (List.replicate 32 (0 : UInt8)).length = 32 := List.length_replicate

theorem length_zeros24 : (List.replicate 24 (0 : UInt8)).length = 24 := List.length_replicate

/-- A sealed message is the message and a blank tag. -/
def Primitives.plain : Primitives where
  mac _ _ := ⟨List.replicate 32 0, length_zeros32⟩
  encrypt _ _ _ msg := some (msg ++ blankTag)
  decrypt _ _ _ ct :=
    if ct.drop (ct.length - 16) = blankTag then some (ct.take (ct.length - 16)) else none
  tag h := by
    cases h
    simp [blankTag]
  opens h := by
    cases h
    simp [blankTag]

variable (prim : Primitives)

/-- HKDF: the blocks `T(counter)`, `T(counter + 1)`, .. after the block `t`. -/
def expandBlocks (prk info : Bytes) : Nat → UInt8 → Bytes → Bytes
  | 0, _, _ => []
  | blocks + 1, counter, t =>
    let next := (prim.mac prk (t ++ info ++ [counter])).val
    next ++ expandBlocks prk info blocks (counter + 1) next

def expand (prk info : Bytes) (okmLen : Nat) : Bytes :=
  (expandBlocks prim prk info ((okmLen + 31) / 32) 1 []).take okmLen

def extractExpand (salt ikm info : Bytes) (okmLen : Nat) : Bytes :=
  expand prim (prim.mac salt ikm).val info okmLen

theorem length_expandBlocks (prk info : Bytes) (blocks : Nat) (counter : UInt8) (t : Bytes) :
    (expandBlocks prim prk info blocks counter t).length = 32 * blocks := by
  induction blocks generalizing counter t with
  | zero => rfl
  | succ blocks ih =>
    have hmac := (prim.mac prk (t ++ info ++ [counter])).property
    simp only [expandBlocks, List.length_append, ih]
    omega

theorem length_extractExpand (salt ikm info : Bytes) (okmLen : Nat) :
    (extractExpand prim salt ikm info okmLen).length = okmLen := by
  simp only [extractExpand, expand, List.length_take, length_expandBlocks]
  omega

/-- Cut a block off the front of a byte string that is long enough. -/
def Block.ofTake (n : Nat) (b : Bytes) (h : n ≤ b.length) : Block n :=
  ⟨b.take n, List.length_take_of_le h⟩

/-- The commitment of the committing envelope, and its AEAD key. -/
def okm (kRoot : Block 32) (nonce : Block 24) : Block 64 :=
  ⟨extractExpand prim nonce.val kRoot.val commitInfo 64, length_extractExpand prim _ _ _ _⟩

def commitmentOf (kRoot : Block 32) (nonce : Block 24) : Block 32 :=
  Block.ofTake 32 (okm prim kRoot nonce).val (by simp [(okm prim kRoot nonce).property])

def aeadKeyOf (kRoot : Block 32) (nonce : Block 24) : Block 32 :=
  Block.ofTake 32 ((okm prim kRoot nonce).val.drop 32) (by simp [(okm prim kRoot nonce).property])

def sealStandard (key : Block 32) (nonce : Block 24) (plaintext aad : Bytes) :
    Except CryptoError Bytes :=
  match prim.encrypt key nonce aad plaintext with
  | none => .error .seal
  | some ct => .ok (version :: (nonce.val ++ ct))

def openStandard (key : Block 32) (blob aad : Bytes) : Except CryptoError Bytes :=
  match blob with
  | [] => .error .malformed
  | v :: rest =>
    if h : rest.length < 24 + 16 then .error .malformed
    else if v ≠ version then .error (.version v)
    else
      match prim.decrypt key (Block.ofTake 24 rest (by omega)) aad (rest.drop 24) with
      | none => .error .open
      | some msg => .ok msg

def sealCommitting (kRoot : Block 32) (nonce : Block 24) (plaintext aad : Bytes) :
    Except CryptoError Bytes :=
  match prim.encrypt (aeadKeyOf prim kRoot nonce) nonce aad plaintext with
  | none => .error .seal
  | some ct => .ok (version :: ((commitmentOf prim kRoot nonce).val ++ (nonce.val ++ ct)))

def openCommitting (kRoot : Block 32) (blob aad : Bytes) : Except CryptoError Bytes :=
  match blob with
  | [] => .error .malformed
  | v :: rest =>
    if h : rest.length < 32 + 24 + 16 then .error .malformed
    else if v ≠ version then .error (.version v)
    else
      let nonce := Block.ofTake 24 (rest.drop 32) (by simp; omega)
      if (commitmentOf prim kRoot nonce).val ≠ rest.take 32 then .error .commitment
      else
        match prim.decrypt (aeadKeyOf prim kRoot nonce) nonce aad (rest.drop 56) with
        | none => .error .open
        | some msg => .ok msg

variable {prim} {key kRoot : Block 32} {nonce : Block 24} {plaintext aad blob : Bytes}

theorem ofTake_append {n : Nat} (b : Block n) (rest : Bytes) (h : n ≤ (b.val ++ rest).length) :
    Block.ofTake n (b.val ++ rest) h = b := by
  apply Subtype.ext
  simp [Block.ofTake, b.property]

theorem openStandard_seal (h : sealStandard prim key nonce plaintext aad = .ok blob) :
    openStandard prim key blob aad = .ok plaintext := by
  simp only [sealStandard] at h
  split at h
  · cases h
  · rename_i ct hct
    cases h
    have htag := prim.tag hct
    have hn := nonce.property
    have hlen : ¬ (nonce.val ++ ct).length < 24 + 16 := by
      rw [List.length_append]
      omega
    simp only [openStandard, dif_neg hlen, ne_eq, not_true_eq_false, if_false, ofTake_append]
    rw [List.drop_left' hn, prim.opens hct]

/-- Where a committing envelope keeps its ciphertext. -/
theorem committing_layout {ct : Bytes} {key : Block 32}
    (hct : prim.encrypt key nonce aad plaintext = some ct) (commitment : Block 32) :
    ¬ (commitment.val ++ (nonce.val ++ ct)).length < 32 + 24 + 16 ∧
      (commitment.val ++ (nonce.val ++ ct)).drop 56 = ct := by
  have htag := prim.tag hct
  have hn := nonce.property
  have hc := commitment.property
  refine ⟨?_, ?_⟩
  · simp only [List.length_append]
    omega
  · rw [← List.append_assoc]
    apply List.drop_left'
    rw [List.length_append]
    omega

theorem openCommitting_seal (h : sealCommitting prim kRoot nonce plaintext aad = .ok blob) :
    openCommitting prim kRoot blob aad = .ok plaintext := by
  simp only [sealCommitting] at h
  split at h
  · cases h
  · rename_i ct hct
    cases h
    obtain ⟨hlen, hdrop⟩ := committing_layout hct (commitmentOf prim kRoot nonce)
    have hc := (commitmentOf prim kRoot nonce).property
    simp only [openCommitting, dif_neg hlen, ne_eq, not_true_eq_false, if_false,
      List.drop_left' hc, ofTake_append, List.take_left' hc, hdrop, prim.opens hct]

/-- Under another AAD the envelope is as good as the AEAD. -/
theorem openCommitting_other {aad' : Bytes}
    (h : sealCommitting prim kRoot nonce plaintext aad = .ok blob)
    (hother : ∀ ct, prim.encrypt (aeadKeyOf prim kRoot nonce) nonce aad plaintext = some ct →
      prim.decrypt (aeadKeyOf prim kRoot nonce) nonce aad' ct = none) :
    openCommitting prim kRoot blob aad' = .error .open := by
  simp only [sealCommitting] at h
  split at h
  · cases h
  · rename_i ct hct
    cases h
    obtain ⟨hlen, hdrop⟩ := committing_layout hct (commitmentOf prim kRoot nonce)
    have hc := (commitmentOf prim kRoot nonce).property
    simp only [openCommitting, dif_neg hlen, ne_eq, not_true_eq_false, if_false,
      List.drop_left' hc, ofTake_append, List.take_left' hc, hdrop, hother ct hct]

/-- The length of a committing envelope. -/
theorem length_sealCommitting (h : sealCommitting prim kRoot nonce plaintext aad = .ok blob) :
    blob.length = 1 + 32 + 24 + plaintext.length + 16 := by
  simp only [sealCommitting] at h
  split at h
  · cases h
  · rename_i ct hct
    cases h
    have htag := prim.tag hct
    have hn := nonce.property
    have hc := (commitmentOf prim kRoot nonce).property
    simp only [List.length_cons, List.length_append]
    omega

theorem length_sealStandard (h : sealStandard prim key nonce plaintext aad = .ok blob) :
    blob.length = 1 + 24 + plaintext.length + 16 := by
  simp only [sealStandard] at h
  split at h
  · cases h
  · rename_i ct hct
    cases h
    have htag := prim.tag hct
    have hn := nonce.property
    simp only [List.length_cons, List.length_append]
    omega

end YapStack.Crypto
