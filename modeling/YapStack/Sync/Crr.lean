import Mathlib.Data.Finset.Insert
import Mathlib.Logic.Function.Basic
import Mathlib.Order.Defs.LinearOrder

set_option linter.unusedSectionVars false

namespace YapStack.Sync.Crr

/-- A stored value. A column without a clock entry holds a default: no change ever wrote it. -/
structure Cell (V : Type) where
  value : V
  version : Option Nat
  deriving DecidableEq

/-- A primary key on one device: its causal length, and its row while that length is odd. -/
structure Row (Column V : Type) where
  cl : Nat
  cells : Option (Column → Cell V)

structure ColumnWrite (Column V : Type) where
  column : Column
  value : V
  version : Nat
  deriving DecidableEq

/-- A row of `crsql_changes`. The sentinel writes no column. -/
structure Change (Key Column V : Type) where
  key : Key
  cl : Nat
  write : Option (ColumnWrite Column V)
  deriving DecidableEq

section Rows

variable {Key Column V : Type} [DecidableEq Column] [LinearOrder V]

def Row.absent : Row Column V := ⟨0, none⟩

def blank (defaults : Column → V) : Column → Cell V := fun c => ⟨defaults c, none⟩

/-- `zero_clocks_on_resurrect`. -/
def zeroClocks (cells : Column → Cell V) : Column → Cell V := fun c =>
  { cells c with version := (cells c).version.map (fun _ => 0) }

/-- The row is made to exist at a new causal length. -/
def resurrect (row : Row Column V) (cl : Nat) (defaults : Column → V) : Row Column V :=
  ⟨cl, some ((row.cells.map zeroClocks).getD (blank defaults))⟩

/-- `did_cid_win`: the higher version, then the greater value. -/
def didCidWin (cell : Cell V) (w : ColumnWrite Column V) : Bool :=
  match cell.version with
  | none => true
  | some v => decide (v < w.version) || (decide (v = w.version) && decide (cell.value < w.value))

def Row.put (row : Row Column V) (w : ColumnWrite Column V) : Row Column V :=
  { row with
    cells := row.cells.map (fun cells =>
      Function.update cells w.column ⟨w.value, some w.version⟩) }

def wins (row : Row Column V) (w : ColumnWrite Column V) : Bool :=
  row.cells.all (fun cells => didCidWin (cells w.column) w)

/-- `merge_insert`. -/
def mergeInsert (row : Row Column V) (c : Change Key Column V) (defaults : Column → V) :
    Row Column V :=
  if c.cl < row.cl then row
  else if c.cl % 2 = 0 then
    if c.cl = row.cl then row else ⟨c.cl, none⟩
  else
    match c.write with
    | none => if c.cl = row.cl then row else resurrect row c.cl defaults
    | some w =>
      if row.cl < c.cl then (resurrect row c.cl defaults).put w
      else if wins row w then row.put w
      else row

/-- The row that a local `INSERT` of a new key makes. -/
def Row.inserted (values : Column → V) : Row Column V := ⟨1, some (fun c => ⟨values c, some 1⟩)⟩

/-- A local `UPDATE` of one column. An equal value is no change. -/
def Cell.updated (cell : Cell V) (value : V) : Cell V :=
  if cell.value = value then cell else ⟨value, some (cell.version.getD 0 + 1)⟩

/-- The row that a local `DELETE` leaves. -/
def Row.deleted (row : Row Column V) : Row Column V := ⟨row.cl + 1, none⟩

end Rows

/-- The rows of one table on one device. -/
structure Replica (Key Column V : Type) where
  keys : Finset Key
  row : Key → Row Column V
  known : ∀ k, k ∉ keys → row k = Row.absent

namespace Replica

variable {Key Column V : Type} [DecidableEq Key] [DecidableEq Column] [LinearOrder V]

def empty : Replica Key Column V := ⟨∅, fun _ => .absent, fun _ _ => rfl⟩

def set (t : Replica Key Column V) (k : Key) (row : Row Column V) : Replica Key Column V where
  keys := insert k t.keys
  row := Function.update t.row k row
  known j hj := by
    rw [Finset.mem_insert, not_or] at hj
    rw [Function.update_of_ne hj.1]
    exact t.known j hj.2

def merge (t : Replica Key Column V) (c : Change Key Column V) (defaults : Column → V) :
    Replica Key Column V :=
  t.set c.key (mergeInsert (t.row c.key) c defaults)

/-- Delete the rows that a statement selects. -/
def deleteWhere (t : Replica Key Column V) (p : Key → Bool) (hp : ∀ k, p k = true → k ∈ t.keys) :
    Replica Key Column V where
  keys := t.keys
  row k := if p k then (t.row k).deleted else t.row k
  known k hk := by
    rw [if_neg (fun h => hk (hp k h))]
    exact t.known k hk

end Replica

section Lemmas

variable {Key Column V : Type} [DecidableEq Key] [DecidableEq Column] [LinearOrder V]
variable {row : Row Column V} {c : Change Key Column V} {defaults : Column → V}
variable {w : ColumnWrite Column V}

/-- A row exists exactly while its causal length is odd. -/
def Row.WellFormed (row : Row Column V) : Prop := row.cells.isSome = true ↔ row.cl % 2 = 1

theorem absent_wellFormed : (Row.absent : Row Column V).WellFormed := by
  simp [Row.WellFormed, Row.absent]

theorem put_cl (row : Row Column V) (w : ColumnWrite Column V) : (row.put w).cl = row.cl := rfl

theorem mergeInsert_cl (row : Row Column V) (c : Change Key Column V) (defaults : Column → V) :
    (mergeInsert row c defaults).cl = max row.cl c.cl := by
  unfold mergeInsert
  split
  · omega
  · split
    · split
      · omega
      · dsimp only
        omega
    · split
      · split
        · omega
        · simp only [resurrect]
          omega
      · split
        · simp only [put_cl, resurrect]
          omega
        · split
          · rw [put_cl]
            omega
          · omega

theorem mergeInsert_wellFormed (h : row.WellFormed) : (mergeInsert row c defaults).WellFormed := by
  unfold mergeInsert
  split
  · exact h
  · split
    · rename_i heven
      split
      · exact h
      · simp [Row.WellFormed, heven]
    · rename_i hodd
      have hodd : c.cl % 2 = 1 := by omega
      split
      · split
        · exact h
        · simp [Row.WellFormed, resurrect, hodd]
      · split
        · simp [Row.WellFormed, resurrect, Row.put, hodd]
        · split
          · simpa [Row.WellFormed, Row.put] using h
          · exact h

/-- A change that changes nothing: the row is at least as far, and the column has a clock. -/
theorem proven_of_merged (hwf : row.WellFormed) (h : mergeInsert row c defaults = row)
    (hw : c.write = some w) (hcl : c.cl = row.cl) (hodd : row.cl % 2 = 1) :
    ∃ cells, row.cells = some cells ∧ (cells w.column).version ≠ none := by
  obtain ⟨cells, hcells⟩ := Option.isSome_iff_exists.mp (hwf.mpr hodd)
  refine ⟨cells, hcells, fun hnone => ?_⟩
  have hwins : wins row w = true := by simp [wins, hcells, didCidWin, hnone]
  simp only [mergeInsert, hw, hcl, hodd, hwins, Nat.lt_irrefl, if_false, if_true,
    Nat.one_ne_zero] at h
  have hput := congrArg Row.cells h
  simp only [Row.put, hcells, Option.map_some, Option.some.injEq] at hput
  have hcell := congrFun hput w.column
  rw [Function.update_self] at hcell
  rw [← hcell] at hnone
  cases hnone

/-- The defaults matter only to a change that makes the row exist. -/
theorem mergeInsert_defaults (h : c.cl ≤ row.cl) (f g : Column → V) :
    mergeInsert row c f = mergeInsert row c g := by
  have hnot : ¬ row.cl < c.cl := by omega
  unfold mergeInsert
  split
  · rfl
  · rename_i hge
    have heq : c.cl = row.cl := by omega
    split
    · rfl
    · split
      · simp only [heq, if_true]
      · simp only [hnot, if_false]

/-- A cell with a clock holds what it held, or what the change wrote. -/
def Row.From (row row' : Row Column V) (w : Option (ColumnWrite Column V)) : Prop :=
  ∀ cells', row'.cells = some cells' → ∀ col, (cells' col).version ≠ none →
    (∃ cells, row.cells = some cells ∧ (cells col).version ≠ none ∧
      (cells' col).value = (cells col).value) ∨
    ∃ w', w = some w' ∧ w'.column = col ∧ (cells' col).value = w'.value

theorem from_refl (row : Row Column V) (w : Option (ColumnWrite Column V)) : row.From row w :=
  fun cells hcells _ hv => .inl ⟨cells, hcells, hv, rfl⟩

theorem resurrect_from (row : Row Column V) (cl : Nat) (w : Option (ColumnWrite Column V)) :
    row.From (resurrect row cl defaults) w := by
  intro cells' hcells' col hv
  simp only [resurrect, Option.some.injEq] at hcells'
  subst hcells'
  cases hcells : row.cells with
  | none =>
    simp [hcells, blank] at hv
  | some cells =>
    simp only [hcells, Option.map_some, Option.getD_some, zeroClocks] at hv ⊢
    exact .inl ⟨cells, rfl, by simpa using hv, rfl⟩

theorem put_from {row' : Row Column V} (h : row.From row' (some w)) :
    row.From (row'.put w) (some w) := by
  intro cells' hcells' col hv
  obtain ⟨cells, hcells, rfl⟩ := Option.map_eq_some_iff.mp hcells'
  by_cases hcol : col = w.column
  · subst hcol
    exact .inr ⟨w, rfl, rfl, by rw [Function.update_self]⟩
  · rw [Function.update_of_ne hcol] at hv ⊢
    exact h cells hcells col hv

theorem mergeInsert_from (row : Row Column V) (c : Change Key Column V) (defaults : Column → V) :
    row.From (mergeInsert row c defaults) c.write := by
  unfold mergeInsert
  split
  · exact from_refl row c.write
  · split
    · split
      · exact from_refl row c.write
      · intro cells' hcells'
        cases hcells'
    · split
      · split
        · exact from_refl row _
        · exact resurrect_from row c.cl _
      · rename_i w hw
        rw [hw]
        split
        · exact put_from (resurrect_from row c.cl _)
        · split
          · exact put_from (from_refl row _)
          · exact from_refl row _

end Lemmas

end YapStack.Sync.Crr
