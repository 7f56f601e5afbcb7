import Mathlib.Algebra.Ring.Int.Defs
import Mathlib.Algebra.BigOperators.Group.List.Basic
import Mathlib.Algebra.Order.BigOperators.Group.List
import Mathlib.Data.Int.Order.Basic
import Mathlib.Data.List.AList

namespace YapStack

/-- A table of rows with a primary key, for transactions that run one at a time. -/
abbrev Rows (K V : Type*) := AList (fun _ : K => V)

namespace Rows

variable {K V : Type*} [DecidableEq K]

def modify (rows : Rows K V) (k : K) (g : V → V) : Rows K V :=
  match rows.lookup k with
  | none => rows
  | some v => rows.insert k (g v)

/-- The sum of a measure over all rows. -/
def total (f : K → V → Int) (rows : Rows K V) : Int :=
  (rows.entries.map (fun e => f e.1 e.2)).sum

variable {rows : Rows K V} {k j : K} {v : V} {f f' : K → V → Int} {g : V → V}

theorem modify_of_some (h : rows.lookup k = some v) : rows.modify k g = rows.insert k (g v) := by
  simp only [modify, h]

theorem modify_of_none (h : rows.lookup k = none) : rows.modify k g = rows := by
  simp only [modify, h]

theorem lookup_modify (rows : Rows K V) (k j : K) (g : V → V) :
    (rows.modify k g).lookup j = if j = k then (rows.lookup k).map g else rows.lookup j := by
  cases h : rows.lookup k with
  | none =>
    rw [modify_of_none h]
    split
    · subst j
      exact h
    · rfl
  | some v =>
    rw [modify_of_some h]
    split
    · subst j
      exact AList.lookup_insert rows
    · rename_i hne
      exact AList.lookup_insert_ne hne

theorem total_insert (rows : Rows K V) (k : K) (v : V) (f : K → V → Int) :
    total f (rows.insert k v) = f k v + total f (rows.erase k) := by
  rw [total, AList.entries_insert, List.map_cons, List.sum_cons]
  rfl

theorem total_insert_new (h : rows.lookup k = none) :
    total f (rows.insert k v) = f k v + total f rows := by
  rw [total, AList.entries_insert_of_notMem (AList.lookup_eq_none.mp h), List.map_cons,
    List.sum_cons]
  rfl

/-- A row counts once, however the table is ordered. -/
theorem total_erase (h : rows.lookup k = some v) :
    total f rows = f k v + total f (rows.erase k) := by
  have hk : k ∈ rows.entries.keys := AList.lookup_isSome.mp (h ▸ rfl)
  obtain ⟨w, before, after, hb, hsplit, hrest⟩ := List.exists_of_kerase hk
  have hw : w = v := by
    have hmem : (⟨k, w⟩ : Sigma fun _ : K => V) ∈ rows.entries := by simp [hsplit]
    have hl : rows.lookup k = some w := List.mem_dlookup rows.nodupKeys hmem
    exact Option.some.inj (hl.symm.trans h)
  subst w
  have herase : (rows.erase k : Rows K V).entries = before ++ after := hrest
  rw [total, total, hsplit, herase]
  simp only [List.map_append, List.map_cons, List.sum_append, List.sum_cons]
  omega

/-- An update changes a sum by the new row less the row it replaces. -/
theorem total_modify (h : rows.lookup k = some v) :
    total f (rows.modify k g) = total f rows - f k v + f k (g v) := by
  have herase := total_erase h (f := f)
  rw [modify_of_some h, total_insert]
  omega

theorem total_modify_of_eq (h : ∀ v, f k (g v) = f k v) : total f (rows.modify k g) =
    total f rows := by
  cases hv : rows.lookup k with
  | none => rw [modify_of_none hv]
  | some v =>
    rw [total_modify hv, h v]
    omega

theorem lookup_of_mem {e : Sigma fun _ : K => V} (h : e ∈ rows.entries) :
    rows.lookup e.1 = some e.2 :=
  List.mem_dlookup rows.nodupKeys h

theorem total_le (h : ∀ k v, rows.lookup k = some v → f k v ≤ f' k v) :
    total f rows ≤ total f' rows := by
  apply List.sum_le_sum
  intro e he
  exact h e.1 e.2 (lookup_of_mem he)

theorem total_nonneg (h : ∀ k v, rows.lookup k = some v → 0 ≤ f k v) : 0 ≤ total f rows := by
  apply List.sum_nonneg
  intro x hx
  obtain ⟨e, he, rfl⟩ := List.mem_map.mp hx
  exact h e.1 e.2 (lookup_of_mem he)

theorem total_congr (h : ∀ k v, rows.lookup k = some v → f k v = f' k v) :
    total f rows = total f' rows :=
  le_antisymm (total_le (fun k v hv => le_of_eq (h k v hv)))
    (total_le (fun k v hv => le_of_eq (h k v hv).symm))

end Rows
end YapStack
