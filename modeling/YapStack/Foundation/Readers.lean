import Mathlib.Data.List.Basic

namespace YapStack.Readers

variable {α : Type*}

/-- What one `read` call does next. A short read returns at least one item. -/
inductive ReadStep
  | short (n : ℕ)
  | interrupted
  | failed (message : String)
  deriving DecidableEq, Repr

/-- The items that are left and how the next calls go. A reader at the end of
its script fills whatever it is given. -/
structure Reader (α : Type*) where
  rest : List α
  script : List ReadStep

inductive ReadResult (α : Type*)
  | items (xs : List α)
  | interrupted
  | failed (message : String)

namespace Reader

/-- Read into a buffer of this length. No items mean the end of the input. -/
def read (src : Reader α) (len : ℕ) : ReadResult α × Reader α :=
  match src.script with
  | [] => (.items (src.rest.take len), ⟨src.rest.drop len, []⟩)
  | .short n :: script =>
    let n := min (max n 1) len
    (.items (src.rest.take n), ⟨src.rest.drop n, script⟩)
  | .interrupted :: script => (.interrupted, ⟨src.rest, script⟩)
  | .failed message :: script => (.failed message, ⟨src.rest, script⟩)

def Steady (src : Reader α) : Prop :=
  ∀ message, ReadStep.failed message ∉ src.script

theorem read_items {src src' : Reader α} {len : ℕ} {xs : List α}
    (h : src.read len = (.items xs, src')) :
    xs.length ≤ len ∧ (0 < len → xs = [] → src.rest = []) ∧ src.rest = xs ++ src'.rest ∧
      ∃ steps, src.script = steps ++ src'.script := by
  unfold read at h
  split at h
  · rename_i hscript
    cases h
    refine ⟨List.length_take_le _ _, fun hlen hnil => ?_, (List.take_append_drop _ _).symm, [], ?_⟩
    · obtain h0 | h0 := List.take_eq_nil_iff.mp hnil
      · omega
      · exact h0
    · simp [hscript]
  · rename_i n script hscript
    cases h
    refine ⟨?_, fun hlen hnil => ?_, (List.take_append_drop _ _).symm, [.short n], ?_⟩
    · exact Nat.le_trans (List.length_take_le _ _) (Nat.min_le_right _ _)
    · obtain h0 | h0 := List.take_eq_nil_iff.mp hnil
      · omega
      · exact h0
    · simp [hscript]
  · simp at h
  · simp at h

theorem read_interrupted {src src' : Reader α} {len : ℕ}
    (h : src.read len = (.interrupted, src')) :
    src'.rest = src.rest ∧ src.script = .interrupted :: src'.script := by
  unfold read at h
  split at h
  · simp at h
  · simp at h
  · rename_i script hscript
    cases h
    exact ⟨rfl, hscript⟩
  · simp at h

theorem read_failed {src src' : Reader α} {len : ℕ} {message : String}
    (h : src.read len = (.failed message, src')) : .failed message ∈ src.script := by
  unfold read at h
  split at h
  · simp at h
  · simp at h
  · simp at h
  · rename_i m script hscript
    cases h
    simp [hscript]

end Reader

/-- Cut a list into pieces of one length, the last of which may be shorter. -/
def pieces (len : ℕ) (xs : List α) : List (List α) :=
  if _h : xs = [] ∨ len = 0 then []
  else xs.take len :: pieces len (xs.drop len)
termination_by xs.length
decreasing_by
  have hpos : 0 < xs.length := List.length_pos_iff.mpr (fun hx => _h (.inl hx))
  rw [List.length_drop]
  omega

variable {len : ℕ} {xs : List α}

theorem pieces_nil (len : ℕ) : pieces len ([] : List α) = [] := by
  rw [pieces, dif_pos (.inl rfl)]

theorem pieces_of_ne (hlen : 0 < len) (hxs : xs ≠ []) :
    pieces len xs = xs.take len :: pieces len (xs.drop len) := by
  rw [pieces, dif_neg]
  rintro (h | h)
  · exact hxs h
  · omega

theorem pieces_of_le (hlen : 0 < len) (hxs : xs ≠ []) (h : xs.length ≤ len) :
    pieces len xs = [xs] := by
  rw [pieces_of_ne hlen hxs, List.take_of_length_le h, List.drop_eq_nil_of_le h, pieces_nil]

/-- Rules for a statement about every piece of a list. -/
theorem pieces_induction {motive : List α → Prop} (hlen : 0 < len) (nil : motive [])
    (cut : ∀ xs, xs ≠ [] → motive (xs.drop len) → motive xs) (xs : List α) : motive xs := by
  induction hn : xs.length using Nat.strongRecOn generalizing xs with
  | ind n ih =>
    by_cases hxs : xs = []
    · exact hxs ▸ nil
    · have hpos := List.length_pos_iff.mpr hxs
      refine cut xs hxs (ih (xs.drop len).length ?_ _ rfl)
      rw [List.length_drop]
      omega

theorem flatten_pieces (hlen : 0 < len) (xs : List α) : (pieces len xs).flatten = xs := by
  induction xs using pieces_induction hlen with
  | nil => rw [pieces_nil, List.flatten_nil]
  | cut xs hxs ih => rw [pieces_of_ne hlen hxs, List.flatten_cons, ih, List.take_append_drop]

theorem length_le_of_mem_pieces (hlen : 0 < len) (xs : List α) :
    ∀ ys ∈ pieces len xs, ys.length ≤ len := by
  induction xs using pieces_induction hlen with
  | nil => simp [pieces_nil]
  | cut xs hxs ih =>
    rw [pieces_of_ne hlen hxs]
    intro ys hys
    obtain rfl | hys := List.mem_cons.mp hys
    · exact List.length_take_le _ _
    · exact ih ys hys

/-- Whole pieces before a last one that may be shorter. -/
def Framed (len : ℕ) : List (List α) → Prop
  | [] => True
  | [ys] => ys.length ≤ len
  | ys :: yss => ys.length = len ∧ Framed len yss

theorem framed_cons {ys : List α} {yss : List (List α)} (hys : ys.length = len)
    (h : Framed len yss) : Framed len (ys :: yss) := by
  cases yss with
  | nil => exact Nat.le_of_eq hys
  | cons zs zss => exact ⟨hys, h⟩

theorem framed_pieces (hlen : 0 < len) (xs : List α) : Framed len (pieces len xs) := by
  induction xs using pieces_induction hlen with
  | nil => simp [pieces_nil, Framed]
  | cut xs hxs ih =>
    by_cases h : xs.length ≤ len
    · rw [pieces_of_le hlen hxs h]
      exact h
    · rw [pieces_of_ne hlen hxs]
      exact framed_cons (List.length_take_of_le (by omega)) ih

/-- Pieces that are put together are cut where they were. -/
theorem pieces_flatten (hlen : 0 < len) {yss : List (List α)} (h : Framed len yss)
    (hne : ∀ ys ∈ yss, ys ≠ []) : pieces len yss.flatten = yss := by
  induction yss with
  | nil => exact pieces_nil len
  | cons ys yss ih =>
    cases yss with
    | nil =>
      rw [List.flatten_cons, List.flatten_nil, List.append_nil]
      exact pieces_of_le hlen (hne ys List.mem_cons_self) h
    | cons zs zss =>
      obtain ⟨hys, hrest⟩ := h
      have hflat : (ys :: zs :: zss).flatten ≠ [] := by
        rw [List.flatten_cons, Ne, List.append_eq_nil_iff]
        exact fun hnil => hne ys List.mem_cons_self hnil.1
      rw [pieces_of_ne hlen hflat, List.flatten_cons, List.take_left' hys, List.drop_left' hys,
        ih hrest (fun ys' h' => hne ys' (List.mem_cons_of_mem ys h'))]

theorem length_pieces_le (hlen : 0 < len) (xs : List α) (n : ℕ) :
    (pieces len xs).length ≤ n ↔ xs.length ≤ n * len := by
  induction xs using pieces_induction hlen generalizing n with
  | nil => simp [pieces_nil]
  | cut xs hxs ih =>
    have hpos := List.length_pos_iff.mpr hxs
    rw [pieces_of_ne hlen hxs, List.length_cons]
    cases n with
    | zero => simp [hxs]
    | succ n =>
      rw [Nat.add_le_add_iff_right, ih, List.length_drop, Nat.succ_mul]
      omega

end YapStack.Readers
