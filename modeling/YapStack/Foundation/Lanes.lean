import Mathlib.Data.List.InsertIdx

namespace YapStack.Lanes

variable {α : Type*} {p : α → Bool}

/-- A queue of two classes: the entries with `p` stand before the others. -/
def Split (p : α → Bool) (hs ns l : List α) : Prop :=
  l = hs ++ ns ∧ (∀ a ∈ hs, p a = true) ∧ ∀ a ∈ ns, p a = false

def InLanes (p : α → Bool) (l : List α) : Prop :=
  ∃ hs ns, Split p hs ns l

theorem inLanes_nil : InLanes p [] :=
  ⟨[], [], rfl, by simp, by simp⟩

theorem Split.takeWhile {hs ns l : List α} (h : Split p hs ns l) : l.takeWhile p = hs := by
  obtain ⟨rfl, hh, hn⟩ := h
  rw [List.takeWhile_append_of_pos hh]
  cases ns with
  | nil => simp
  | cons a ns => simp [hn a List.mem_cons_self]

theorem insertIdx_append (a : α) (xs ys : List α) :
    (xs ++ ys).insertIdx xs.length a = xs ++ a :: ys := by
  induction xs with
  | nil => simp
  | cons x xs ih => simp only [List.cons_append, List.length_cons, List.insertIdx_succ_cons, ih]

theorem Split.insertIdx {hs ns l : List α} (h : Split p hs ns l) (a : α) :
    l.insertIdx (l.takeWhile p).length a = hs ++ a :: ns := by
  rw [h.takeWhile, h.1, insertIdx_append]

theorem Split.insert {hs ns l : List α} (h : Split p hs ns l) {a : α} (ha : p a = true) :
    InLanes p (hs ++ a :: ns) := by
  refine ⟨hs ++ [a], ns, by simp, ?_, h.2.2⟩
  intro b hb
  obtain hb | hb := List.mem_append.mp hb
  · exact h.2.1 b hb
  · exact List.mem_singleton.mp hb ▸ ha

theorem InLanes.push {l : List α} (h : InLanes p l) {a : α} (ha : p a = false) :
    InLanes p (l ++ [a]) := by
  obtain ⟨hs, ns, rfl, hh, hn⟩ := h
  refine ⟨hs, ns ++ [a], by simp, hh, ?_⟩
  intro b hb
  obtain hb | hb := List.mem_append.mp hb
  · exact hn b hb
  · exact List.mem_singleton.mp hb ▸ ha

theorem InLanes.sublist {l l' : List α} (h : InLanes p l) (hl : List.Sublist l' l) :
    InLanes p l' := by
  obtain ⟨hs, ns, rfl, hh, hn⟩ := h
  obtain ⟨xs, ys, rfl, hx, hy⟩ := List.sublist_append_iff.mp hl
  exact ⟨xs, ys, rfl, fun a ha => hh a (hx.subset ha), fun a ha => hn a (hy.subset ha)⟩

/-- The first entry with `p`, and the list without it. -/
theorem findIdx?_split {l : List α} {i : ℕ} (h : l.findIdx? p = some i) :
    ∃ xs a ys, l = xs ++ a :: ys ∧ i = xs.length ∧ p a = true ∧ ∀ b ∈ xs, p b = false := by
  induction l generalizing i with
  | nil => simp at h
  | cons x l ih =>
    rw [List.findIdx?_cons] at h
    by_cases hx : p x = true
    · rw [if_pos hx, Option.some.injEq] at h
      exact ⟨[], x, l, rfl, h.symm, hx, by simp⟩
    · rw [if_neg hx, Option.map_eq_some_iff] at h
      obtain ⟨j, hj, rfl⟩ := h
      obtain ⟨xs, a, ys, rfl, rfl, ha, hxs⟩ := ih hj
      refine ⟨x :: xs, a, ys, rfl, rfl, ha, ?_⟩
      intro b hb
      obtain rfl | hb := List.mem_cons.mp hb
      · exact Bool.not_eq_true _ ▸ hx
      · exact hxs b hb

theorem eraseIdx_append (a : α) (xs ys : List α) :
    (xs ++ a :: ys).eraseIdx xs.length = xs ++ ys := by
  induction xs with
  | nil => rfl
  | cons x xs ih => simp only [List.cons_append, List.length_cons, List.eraseIdx_cons_succ, ih]

end YapStack.Lanes
