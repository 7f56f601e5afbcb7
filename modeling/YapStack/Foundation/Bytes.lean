import Mathlib.Algebra.Group.Nat.Defs
import Mathlib.Data.List.Basic
import Mathlib.Data.List.Induction

namespace YapStack

abbrev Bytes := List UInt8

namespace Bytes

/-- The `width` low bytes of a number, most significant first. -/
def be : Nat → Nat → Bytes
  | 0, _ => []
  | width + 1, n => be width (n / 256) ++ [UInt8.ofNat n]

/-- The number a big-endian byte string stands for. -/
def ofBe (b : Bytes) : Nat := b.foldl (fun n x => n * 256 + x.toNat) 0

/-- `u32::to_be_bytes`. -/
def u32be (n : UInt32) : Bytes := be 4 n.toNat

/-- `u64::to_be_bytes`. -/
def u64be (n : UInt64) : Bytes := be 8 n.toNat

/-- The length-prefixed encoding of a list of fields. -/
def lp (fields : List Bytes) : Bytes :=
  fields.flatMap (fun f => u32be (UInt32.ofNat f.length) ++ f)

/-- `str::as_bytes`. -/
def utf8 (s : String) : Bytes := s.toByteArray.data.toList

/-- `String::from_utf8`. -/
def fromUtf8 (b : Bytes) : Option String := String.fromUTF8? ⟨b.toArray⟩

@[simp] theorem length_be (width n : Nat) : (be width n).length = width := by
  induction width generalizing n with
  | zero => rfl
  | succ width ih => simp [be, ih]

theorem ofBe_be (width n : Nat) : ofBe (be width n) = n % 256 ^ width := by
  induction width generalizing n with
  | zero => simp [be, ofBe, Nat.mod_one]
  | succ width ih =>
    have hrec : ofBe (be width (n / 256) ++ [UInt8.ofNat n]) =
        ofBe (be width (n / 256)) * 256 + n % 256 := by
      simp [ofBe]
    rw [be, hrec, ih, Nat.pow_succ, Nat.mul_comm (256 ^ width), Nat.mod_mul]
    omega

theorem fromUtf8_utf8 (s : String) : fromUtf8 (utf8 s) = some s := by
  have h : (⟨(utf8 s).toArray⟩ : ByteArray) = s.toByteArray := by
    simp [utf8]
  simp only [fromUtf8, h, String.fromUTF8?]
  rw [dif_pos s.isValidUTF8]
  rfl

theorem ofBe_append (b : Bytes) (x : UInt8) : ofBe (b ++ [x]) = ofBe b * 256 + x.toNat := by
  simp [ofBe]

theorem be_ofBe (b : Bytes) : be b.length (ofBe b) = b := by
  induction b using List.reverseRecOn with
  | nil => rfl
  | append_singleton b x ih =>
    have hx := x.toNat_lt
    have hdiv : (ofBe b * 256 + x.toNat) / 256 = ofBe b := by omega
    have hlow : UInt8.ofNat (ofBe b * 256 + x.toNat) = x := by
      apply UInt8.toNat_inj.mp
      rw [UInt8.toNat_ofNat']
      omega
    rw [List.length_append, List.length_singleton, be, ofBe_append, hdiv, hlow, ih]

theorem ofBe_lt (b : Bytes) : ofBe b < 256 ^ b.length := by
  induction b using List.reverseRecOn with
  | nil => simp [ofBe]
  | append_singleton b x ih =>
    have hx := x.toNat_lt
    rw [ofBe_append, List.length_append, List.length_singleton, Nat.pow_succ]
    omega

theorem utf8_fromUtf8 {b : Bytes} {s : String} (h : fromUtf8 b = some s) : utf8 s = b := by
  simp only [fromUtf8, String.fromUTF8?] at h
  split at h
  · cases h
    simp [utf8, String.fromUTF8]
  · cases h

theorem length_le_utf8 (l : List Char) : l.length ≤ (utf8 (String.ofList l)).length := by
  have hsize : (utf8 (String.ofList l)).length = (String.ofList l).utf8ByteSize := rfl
  rw [hsize]
  clear hsize
  induction l with
  | nil => exact Nat.zero_le _
  | cons c l ih =>
    have hcons : String.ofList (c :: l) = String.singleton c ++ String.ofList l := by
      rw [← List.singleton_append, String.ofList_append, String.singleton_eq_ofList]
    have hpos := Char.utf8Size_pos c
    rw [hcons, String.utf8ByteSize_append, String.utf8ByteSize_singleton, List.length_cons]
    omega

theorem ofBe_u32be (n : UInt32) : ofBe (u32be n) = n.toNat := by
  have hn := n.toNat_lt
  rw [u32be, ofBe_be]
  omega

theorem lp_cons (f : Bytes) (fields : List Bytes) :
    lp (f :: fields) = u32be (UInt32.ofNat f.length) ++ (f ++ lp fields) := by
  rw [lp, List.flatMap_cons, List.append_assoc]
  rfl

/-- Two lists of fields whose lengths fit their prefixes, told apart by their encoding. -/
theorem lp_inj {fs gs : List Bytes} (hf : ∀ f ∈ fs, f.length < 2 ^ 32)
    (hg : ∀ g ∈ gs, g.length < 2 ^ 32) (h : lp fs = lp gs) : fs = gs := by
  induction fs generalizing gs with
  | nil =>
    cases gs with
    | nil => rfl
    | cons g gs =>
      rw [lp_cons] at h
      have hlen := congrArg List.length h
      simp only [lp, u32be, List.flatMap_nil, List.length_nil, List.length_append, length_be]
        at hlen
      omega
  | cons f fs ih =>
    cases gs with
    | nil =>
      rw [lp_cons] at h
      have hlen := congrArg List.length h
      simp [lp, u32be] at hlen
    | cons g gs =>
      rw [lp_cons, lp_cons] at h
      obtain ⟨hpre, hrest⟩ := List.append_inj h (by simp [u32be])
      have hlen : f.length = g.length := by
        have hof := congrArg ofBe hpre
        have hf' := hf f List.mem_cons_self
        have hg' := hg g List.mem_cons_self
        rw [ofBe_u32be, ofBe_u32be, UInt32.toNat_ofNat', UInt32.toNat_ofNat'] at hof
        omega
      obtain ⟨rfl, htail⟩ := List.append_inj hrest hlen
      rw [ih (fun x hx => hf x (List.mem_cons_of_mem _ hx))
        (fun x hx => hg x (List.mem_cons_of_mem _ hx)) htail]

end Bytes
end YapStack
