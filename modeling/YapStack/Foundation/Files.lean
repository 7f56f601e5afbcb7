import Mathlib.Data.Option.Basic
import Mathlib.Logic.Function.Basic

namespace YapStack.Files

variable {P D : Type*} {fs gs : P → Option D} {p q src dst : P} {d : D} {Q Q' : D → Prop}

def Holds (fs : P → Option D) (p : P) (Q : D → Prop) : Prop := ∃ d, fs p = some d ∧ Q d

instance decidableHolds [DecidablePred Q] : Decidable (Holds fs p Q) :=
  match h : fs p with
  | none => .isFalse (by simp [Holds, h])
  | some d => decidable_of_iff (Q d) (by simp [Holds, h])

theorem Holds.imp (h : Holds fs p Q) (himp : ∀ d, Q d → Q' d) : Holds fs p Q' := by
  obtain ⟨d, hd, hq⟩ := h
  exact ⟨d, hd, himp d hq⟩

theorem Holds.ne_none (h : Holds fs p Q) : fs p ≠ none := by
  obtain ⟨d, hd, -⟩ := h
  simp [hd]

theorem Holds.congr (h : Holds fs p Q) (he : gs p = fs p) : Holds gs p Q := by
  obtain ⟨d, hd, hq⟩ := h
  exact ⟨d, he.trans hd, hq⟩

variable [DecidableEq P]

def write (fs : P → Option D) (p : P) (d : D) : P → Option D :=
  Function.update fs p (some d)

def remove (fs : P → Option D) (p : P) : P → Option D :=
  Function.update fs p none

/-- Renaming over a file replaces it. Renaming a file that is not there does nothing. -/
def rename (fs : P → Option D) (src dst : P) : P → Option D :=
  match fs src with
  | none => fs
  | some d => write (remove fs src) dst d

theorem write_self (fs : P → Option D) (p : P) (d : D) : write fs p d p = some d := by
  simp [write]

theorem write_of_ne (h : q ≠ p) : write fs p d q = fs q := by
  simp [write, h]

theorem remove_self (fs : P → Option D) (p : P) : remove fs p p = none := by
  simp [remove]

theorem remove_of_ne (h : q ≠ p) : remove fs p q = fs q := by
  simp [remove, h]

theorem rename_of_none (h : fs src = none) : rename fs src dst = fs := by
  simp [rename, h]

theorem rename_of_some (h : fs src = some d) :
    rename fs src dst = write (remove fs src) dst d := by
  simp [rename, h]

theorem rename_of_ne (hs : q ≠ src) (hd : q ≠ dst) : rename fs src dst q = fs q := by
  cases h : fs src with
  | none => rw [rename_of_none h]
  | some d => rw [rename_of_some h, write_of_ne hd, remove_of_ne hs]

theorem rename_dst (h : fs src = some d) : rename fs src dst dst = some d := by
  rw [rename_of_some h, write_self]

theorem rename_src (h : src ≠ dst) : rename fs src dst src = none := by
  cases hs : fs src with
  | none => rw [rename_of_none hs, hs]
  | some d => rw [rename_of_some hs, write_of_ne h, remove_self]

theorem Holds.write (h : Q d) : Holds (write fs p d) p Q := ⟨d, write_self fs p d, h⟩

theorem Holds.write_of_ne (h : Holds fs q Q) (hne : q ≠ p) :
    Holds (Files.write fs p d) q Q :=
  h.congr (Files.write_of_ne hne)

theorem Holds.remove_of_ne (h : Holds fs q Q) (hne : q ≠ p) : Holds (remove fs p) q Q :=
  h.congr (Files.remove_of_ne hne)

theorem Holds.rename (h : Holds fs src Q) : Holds (rename fs src dst) dst Q := by
  obtain ⟨d, hd, hq⟩ := h
  exact ⟨d, rename_dst hd, hq⟩

theorem Holds.rename_of_ne (h : Holds fs q Q) (hs : q ≠ src) (hd : q ≠ dst) :
    Holds (Files.rename fs src dst) q Q :=
  h.congr (Files.rename_of_ne hs hd)

end YapStack.Files
