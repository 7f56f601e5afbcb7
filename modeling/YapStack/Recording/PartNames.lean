import Mathlib.Algebra.Group.Nat.Defs
import Mathlib.Data.List.Basic

namespace YapStack.Recording

/-- Session ids are nonempty and have no dot, so that a part's file name can be read back. -/
def SessionId : Type := { s : List Char // s ≠ [] ∧ '.' ∉ s }

instance : DecidableEq SessionId :=
  inferInstanceAs (DecidableEq { s : List Char // s ≠ [] ∧ '.' ∉ s })

inductive Format
  | wav
  | mp3
  deriving DecidableEq

def Format.extension : Format → List Char
  | .wav => ['w', 'a', 'v']
  | .mp3 => ['m', 'p', '3']

/-- `{session}.{part_index}.{wav|mp3}` -/
def partFilename (s : SessionId) (partIndex : ℕ) (f : Format) : List Char :=
  s.val ++ '.' :: (Nat.toDigits 10 partIndex ++ '.' :: f.extension)

/-- Split at the last occurrence of `c`. -/
def rsplitOnce (c : Char) : List Char → Option (List Char × List Char)
  | [] => none
  | x :: xs =>
    match rsplitOnce c xs with
    | some (before, after) => some (x :: before, after)
    | none => if x = c then some ([], xs) else none

def parseFormat (ext : List Char) : Option Format :=
  let lower := ext.map Char.toLower
  if lower = Format.wav.extension then some .wav
  else if lower = Format.mp3.extension then some .mp3
  else none

/-- A decimal `u32`, with an optional plus sign. -/
def parseU32 (cs : List Char) : Option ℕ :=
  let digits := if cs.head? = some '+' then cs.tail else cs
  if digits ≠ [] ∧ digits.all Char.isDigit = true ∧ Nat.ofDigitChars 10 digits 0 < 2 ^ 32 then
    some (Nat.ofDigitChars 10 digits 0)
  else none

def parsePartFilename (name : List Char) : Option (SessionId × ℕ × Format) :=
  (rsplitOnce '.' name).bind (fun (stem, ext) =>
    (parseFormat ext).bind (fun format =>
      (rsplitOnce '.' stem).bind (fun (sessionId, idx) =>
        (parseU32 idx).bind (fun partIndex =>
          if h : sessionId ≠ [] ∧ '.' ∉ sessionId then some (⟨sessionId, h⟩, partIndex, format)
          else none))))

theorem rsplitOnce_of_not_mem {c : Char} {l : List Char} (h : c ∉ l) :
    rsplitOnce c l = none := by
  induction l with
  | nil => rfl
  | cons x xs ih =>
    rw [List.mem_cons, not_or] at h
    simp only [rsplitOnce, ih h.2]
    exact if_neg (Ne.symm h.1)

theorem rsplitOnce_append {c : Char} {b : List Char} (a : List Char) (h : c ∉ b) :
    rsplitOnce c (a ++ c :: b) = some (a, b) := by
  induction a with
  | nil => simp [rsplitOnce, rsplitOnce_of_not_mem h]
  | cons x a ih => simp [rsplitOnce, ih]

theorem parseFormat_extension (f : Format) : parseFormat f.extension = some f := by
  cases f <;> decide

theorem dot_not_mem_extension (f : Format) : '.' ∉ f.extension := by
  cases f <;> decide

theorem isDigit_toDigits {n : ℕ} {c : Char} (h : c ∈ Nat.toDigits 10 n) : c.isDigit = true :=
  Nat.isDigit_of_mem_toDigits (by decide) (by decide) h

theorem dot_not_mem_toDigits (n : ℕ) : '.' ∉ Nat.toDigits 10 n := fun h =>
  absurd (isDigit_toDigits h) (by decide)

theorem parseU32_toDigits (n : ℕ) :
    parseU32 (Nat.toDigits 10 n) = if n < 2 ^ 32 then some n else none := by
  have hhead : (Nat.toDigits 10 n).head? ≠ some '+' := by
    intro hplus
    have hdigit := isDigit_toDigits (List.mem_of_mem_head? hplus)
    exact absurd hdigit (by decide)
  have hall : (Nat.toDigits 10 n).all Char.isDigit = true :=
    List.all_eq_true.mpr (fun c hc => isDigit_toDigits hc)
  simp only [parseU32, if_neg hhead, Nat.ofDigitChars_ten_toDigits, hall, Nat.toDigits_ne_nil,
    ne_eq, not_false_eq_true, true_and]

/-- The name a recording gives its part is the name reconciliation reads. -/
theorem parsePartFilename_partFilename (s : SessionId) (n : ℕ) (f : Format) :
    parsePartFilename (partFilename s n f) = if n < 2 ^ 32 then some (s, n, f) else none := by
  have hstem : partFilename s n f = (s.val ++ '.' :: Nat.toDigits 10 n) ++ '.' :: f.extension := by
    simp [partFilename]
  unfold parsePartFilename
  rw [hstem, rsplitOnce_append _ (dot_not_mem_extension f)]
  simp only [Option.bind_some, parseFormat_extension]
  rw [rsplitOnce_append _ (dot_not_mem_toDigits n)]
  simp only [Option.bind_some, parseU32_toDigits]
  split
  · exact dif_pos s.property
  · rfl

theorem parse_partFilename (s : SessionId) {n : ℕ} (f : Format) (h : n < 2 ^ 32) :
    parsePartFilename (partFilename s n f) = some (s, n, f) := by
  rw [parsePartFilename_partFilename, if_pos h]

theorem eq_of_parse_partFilename {s : SessionId} {n : ℕ} {f : Format} {q : SessionId × ℕ × Format}
    (h : parsePartFilename (partFilename s n f) = some q) : q = (s, n, f) := by
  rw [parsePartFilename_partFilename, Option.ite_none_right_eq_some] at h
  exact (Option.some.inj h.2).symm

end YapStack.Recording
