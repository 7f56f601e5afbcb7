import YapStack.Crypto.Aead

namespace YapStack.Sync

open Crypto

def wrapDataDomain : Bytes := Bytes.utf8 "yapstack.wrap.data.v1"

def domainChangeset : Bytes := Bytes.utf8 "yapstack.changeset.v1"

/-- The length of a committing envelope around a 32-byte key. -/
def wrappedKeyLen : Nat := 1 + 32 + 24 + 32 + 16

/-- What one `seal` draws at random. -/
structure Draw where
  dataKey : Block 32
  wrapNonce : Block 24
  ctNonce : Block 24

/-- The crypto context of an account: the primitives, the byte form of client
ids, and the key and versions that are bound into every changeset. -/
structure ChangesetCipher (Client : Type) where
  prim : Primitives
  clientBytes : Client → Bytes
  vaultKey : Block 32
  epoch : UInt32
  tenantId : Bytes
  schemaVersion : UInt32
  engineVersion : UInt32

namespace ChangesetCipher

variable {Client : Type} (cipher : ChangesetCipher Client)

def wrapAad : Bytes := Bytes.lp [[version], wrapDataDomain, Bytes.u32be cipher.epoch]

def changesetAad (clientId : Client) (clientSeq : Int) : Bytes :=
  Bytes.lp [[version], domainChangeset, cipher.tenantId, cipher.clientBytes clientId,
    Bytes.u64be (UInt64.ofInt clientSeq), Bytes.u32be cipher.schemaVersion,
    Bytes.u32be cipher.engineVersion]

def «seal» (draw : Draw) (payloadAad plaintext : Bytes) : Except CryptoError Bytes := do
  let wrapped ← sealCommitting cipher.prim cipher.vaultKey draw.wrapNonce draw.dataKey.val
    cipher.wrapAad
  let sealed ← sealStandard cipher.prim draw.dataKey draw.ctNonce plaintext payloadAad
  return wrapped ++ sealed

def «open» (payloadAad blob : Bytes) : Except CryptoError Bytes :=
  if blob.length < wrappedKeyLen then .error .malformed
  else do
    let dataKey ← openCommitting cipher.prim cipher.vaultKey (blob.take wrappedKeyLen)
      cipher.wrapAad
    if h : dataKey.length = 32 then
      openStandard cipher.prim ⟨dataKey, h⟩ (blob.drop wrappedKeyLen) payloadAad
    else .error .malformed

def encrypt (draw : Draw) (clientId : Client) (clientSeq : Int) (plaintext : Bytes) :
    Except CryptoError Bytes :=
  cipher.seal draw (cipher.changesetAad clientId clientSeq) plaintext

def decrypt (clientId : Client) (clientSeq : Int) (blob : Bytes) : Except CryptoError Bytes :=
  cipher.open (cipher.changesetAad clientId clientSeq) blob

variable {cipher} {draw : Draw} {clientId : Client} {clientSeq : Int} {aad plaintext blob : Bytes}

theorem seal_eq_ok :
    cipher.seal draw aad plaintext = .ok blob ↔
      ∃ wrapped sealed,
        sealCommitting cipher.prim cipher.vaultKey draw.wrapNonce draw.dataKey.val cipher.wrapAad =
          .ok wrapped ∧
        sealStandard cipher.prim draw.dataKey draw.ctNonce plaintext aad = .ok sealed ∧
        wrapped ++ sealed = blob := by
  simp only [«seal», bind, Except.bind, pure, Except.pure]
  split
  · rename_i e he
    simp [he]
  · rename_i wrapped hw
    split
    · rename_i e he
      simp [he]
    · rename_i sealed hs
      simp [hw, hs]

theorem length_wrapped {wrapped : Bytes}
    (h : sealCommitting cipher.prim cipher.vaultKey draw.wrapNonce draw.dataKey.val cipher.wrapAad =
      .ok wrapped) : wrapped.length = wrappedKeyLen := by
  rw [length_sealCommitting h, draw.dataKey.property, wrappedKeyLen]

/-- A blob is the wrapped key, the header, the plaintext's length and the tag. -/
theorem length_encrypt (h : cipher.encrypt draw clientId clientSeq plaintext = .ok blob) :
    blob.length = wrappedKeyLen + 25 + plaintext.length + 16 := by
  obtain ⟨wrapped, sealed, hw, hs, rfl⟩ := seal_eq_ok.mp h
  rw [List.length_append, length_wrapped hw, length_sealStandard hs]
  omega

theorem open_seal (h : cipher.seal draw aad plaintext = .ok blob) :
    cipher.open aad blob = .ok plaintext := by
  obtain ⟨wrapped, sealed, hw, hs, rfl⟩ := seal_eq_ok.mp h
  have hlen := length_wrapped hw
  have hlong : ¬ (wrapped ++ sealed).length < wrappedKeyLen := by
    rw [List.length_append]
    omega
  simp only [«open», if_neg hlong, List.take_left' hlen, List.drop_left' hlen,
    openCommitting_seal hw, bind, Except.bind, dif_pos draw.dataKey.property]
  exact openStandard_seal hs

theorem decrypt_encrypt (h : cipher.encrypt draw clientId clientSeq plaintext = .ok blob) :
    cipher.decrypt clientId clientSeq blob = .ok plaintext :=
  open_seal h

/-- A cipher that never refuses. -/
def plain : ChangesetCipher Nat where
  prim := Primitives.plain
  clientBytes := Bytes.be 16
  vaultKey := ⟨List.replicate 32 0, length_zeros32⟩
  epoch := 1
  tenantId := []
  schemaVersion := 1
  engineVersion := 1

end ChangesetCipher

def Draw.blank : Draw where
  dataKey := ⟨List.replicate 32 0, length_zeros32⟩
  wrapNonce := ⟨List.replicate 24 0, length_zeros24⟩
  ctNonce := ⟨List.replicate 24 0, length_zeros24⟩

end YapStack.Sync
