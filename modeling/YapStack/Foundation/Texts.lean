import Mathlib.Data.List.DropRight
import Mathlib.Data.List.TakeWhile

namespace YapStack.Texts

variable {α : Type*} {p : α → Bool} {l : List α}

/-- A text without the blanks at its two ends. -/
def trimStart (blank : α → Bool) (l : List α) : List α := l.dropWhile blank

def trimEnd (blank : α → Bool) (l : List α) : List α := l.rdropWhile blank

def trim (blank : α → Bool) (l : List α) : List α := trimEnd blank (trimStart blank l)

theorem filter_dropWhile (p : α → Bool) (l : List α) :
    (l.dropWhile p).filter (fun c => !p c) = l.filter (fun c => !p c) := by
  induction l with
  | nil => rfl
  | cons c l ih =>
    by_cases h : p c = true
    · rw [List.dropWhile_cons_of_pos h, ih, List.filter_cons_of_neg (by simp [h])]
    · rw [List.dropWhile_cons_of_neg h]

theorem filter_trim (p : α → Bool) (l : List α) :
    (trim p l).filter (fun c => !p c) = l.filter (fun c => !p c) := by
  rw [trim, trimEnd, List.rdropWhile, List.filter_reverse, filter_dropWhile, List.filter_reverse,
    List.reverse_reverse, trimStart, filter_dropWhile]

theorem trim_eq_nil : trim p l = [] ↔ ∀ c ∈ l, p c = true := by
  constructor
  · intro h c hc
    by_contra hp
    have hmem : c ∈ l.filter (fun c => !p c) := List.mem_filter.mpr ⟨hc, by simpa using hp⟩
    rw [← filter_trim, h] at hmem
    exact absurd hmem (List.not_mem_nil)
  · intro h
    rw [trim, trimStart, List.dropWhile_eq_nil_iff.mpr h]
    rfl

end YapStack.Texts
