import Mathlib.Data.Prod.Lex
import Mathlib.Order.WithBot
import YapStack.Sync.Crr

set_option linter.unusedSectionVars false

namespace YapStack.Sync.Crr

variable {Key Column V : Type} [DecidableEq Column] [LinearOrder V]

/-- How far a column is: its version, then its value. -/
def Cell.mark (cell : Cell V) : WithBot (ℕ ×ₗ V) :=
  cell.version.elim ⊥ fun v => ((toLex (v, cell.value) : ℕ ×ₗ V) : WithBot (ℕ ×ₗ V))

def ColumnWrite.mark (w : ColumnWrite Column V) : WithBot (ℕ ×ₗ V) :=
  ((toLex (w.version, w.value) : ℕ ×ₗ V) : WithBot (ℕ ×ₗ V))

/-- How far a row is: its causal length, then every column. -/
def Row.mark (row : Row Column V) : ℕ ×ₗ (Column → WithBot (ℕ ×ₗ V)) :=
  toLex (row.cl, fun col => row.cells.elim ⊥ fun cells => (cells col).mark)

/-- How far a row is at least, once it has merged the change. -/
def Change.mark (c : Change Key Column V) : ℕ ×ₗ (Column → WithBot (ℕ ×ₗ V)) :=
  toLex (c.cl, if c.cl % 2 = 0 then ⊥ else
    c.write.elim ⊥ fun w => Function.update ⊥ w.column w.mark)

/-- The rows of `crsql_changes` for a key. A row that was never deleted has a sentinel only in a
table without other columns. -/
def changesOf (columns : List Column) (key : Key) (row : Row Column V) :
    List (Change Key Column V) :=
  (if 1 < row.cl ∨ (row.cl = 1 ∧ columns.isEmpty) then [⟨key, row.cl, none⟩] else []) ++
    row.cells.elim [] fun cells => columns.filterMap fun col =>
      (cells col).version.map fun v => ⟨key, row.cl, some ⟨col, (cells col).value, v⟩⟩

/-- The row that a local `INSERT` makes of a key without a row: a deleted one gets its next causal
length, and no clock is left of its columns. -/
def Row.reinserted (row : Row Column V) (values : Column → V) : Row Column V :=
  ⟨row.cl + 1, some fun c => ⟨values c, some 1⟩⟩

/-- The row that a local `UPDATE` of one column leaves. -/
def Row.updated (row : Row Column V) (col : Column) (value : V) : Row Column V :=
  { row with cells := row.cells.map fun cells =>
      Function.update cells col ((cells col).updated value) }

variable {row : Row Column V} {c : Change Key Column V} {defaults : Column → V}
variable {w : ColumnWrite Column V} {cell : Cell V}

theorem mark_le_iff {m n : ℕ} {f g : Column → WithBot (ℕ ×ₗ V)} :
    (toLex (m, f) : ℕ ×ₗ (Column → WithBot (ℕ ×ₗ V))) ≤ toLex (n, g) ↔
      m < n ∨ m = n ∧ ∀ col, f col ≤ g col :=
  Prod.Lex.toLex_le_toLex

theorem didCidWin_iff : didCidWin cell w = true ↔ cell.mark < w.mark := by
  cases hv : cell.version with
  | none => simp [didCidWin, Cell.mark, ColumnWrite.mark, hv]
  | some v =>
    simp [didCidWin, Cell.mark, ColumnWrite.mark, hv, Prod.Lex.toLex_lt_toLex]

/-- What a change does to a row. -/
inductive Merged (defaults : Column → V) (row : Row Column V) (c : Change Key Column V) :
    Row Column V → Prop
  | kept (h : c.mark ≤ row.mark) : Merged defaults row c row
  | deleted (hcl : row.cl < c.cl) (heven : c.cl % 2 = 0) : Merged defaults row c ⟨c.cl, none⟩
  | revived (hcl : row.cl < c.cl) (hodd : c.cl % 2 = 1) (hw : c.write = none) :
      Merged defaults row c (resurrect row c.cl defaults)
  | revivedBy {w : ColumnWrite Column V} (hcl : row.cl < c.cl) (hodd : c.cl % 2 = 1)
      (hw : c.write = some w) : Merged defaults row c ((resurrect row c.cl defaults).put w)
  | put {w : ColumnWrite Column V} {cells : Column → Cell V} (hcl : row.cl = c.cl)
      (hodd : c.cl % 2 = 1) (hw : c.write = some w) (hcells : row.cells = some cells)
      (hwins : (cells w.column).mark < w.mark) : Merged defaults row c (row.put w)

theorem mergeInsert_merged (hwf : row.WellFormed) :
    Merged defaults row c (mergeInsert row c defaults) := by
  have hbot : row.cl = c.cl → (c.cl % 2 = 0 ∨ c.write = none) → c.mark ≤ row.mark := by
    intro hcl h
    refine mark_le_iff.mpr (.inr ⟨hcl.symm, fun col => ?_⟩)
    obtain h | h := h
    · simp [h]
    · simp [h]
  unfold mergeInsert
  split
  · rename_i hlt
    exact .kept (mark_le_iff.mpr (.inl hlt))
  · split
    · rename_i hge heven
      split
      · rename_i heq
        exact .kept (hbot heq.symm (.inl heven))
      · exact .deleted (by omega) heven
    · rename_i hge hodd
      have hodd : c.cl % 2 = 1 := by omega
      cases hw : c.write with
      | none =>
        dsimp only
        split
        · rename_i heq
          exact .kept (hbot heq.symm (.inr hw))
        · exact .revived (by omega) hodd hw
      | some w =>
        dsimp only
        split
        · rename_i hlt
          exact .revivedBy hlt hodd hw
        · rename_i hnot
          have hcl : row.cl = c.cl := by omega
          obtain ⟨cells, hcells⟩ := Option.isSome_iff_exists.mp (hwf.mpr (by omega))
          split
          · rename_i hwins
            rw [wins, hcells, Option.all_some, didCidWin_iff] at hwins
            exact .put hcl hodd hw hcells hwins
          · rename_i hwins
            rw [wins, hcells, Option.all_some, didCidWin_iff, not_lt] at hwins
            refine .kept (mark_le_iff.mpr (.inr ⟨hcl.symm, fun col => ?_⟩))
            have hne : ¬ c.cl % 2 = 0 := by omega
            rw [if_neg hne, hw, hcells]
            by_cases hcol : col = w.column
            · subst hcol
              simpa using hwins
            · simp [Function.update_of_ne hcol]

theorem put_mark {cells : Column → Cell V} (hcells : row.cells = some cells) :
    (row.put w).mark =
      toLex (row.cl, Function.update (fun col => (cells col).mark) w.column w.mark) := by
  rw [Row.mark, put_cl]
  congr 2
  funext col
  by_cases hcol : col = w.column
  · subst hcol
    simp [Row.put, hcells, Cell.mark, ColumnWrite.mark]
  · simp [Row.put, hcells, Function.update_of_ne hcol]

theorem resurrect_cells (row : Row Column V) (cl : Nat) (defaults : Column → V) :
    ∃ cells, (resurrect row cl defaults).cells = some cells := ⟨_, rfl⟩

theorem le_put_mark {cells : Column → Cell V} (hcells : row.cells = some cells)
    (h : (cells w.column).mark ≤ w.mark) : row.mark ≤ (row.put w).mark := by
  rw [put_mark hcells, Row.mark, hcells]
  refine mark_le_iff.mpr (.inr ⟨rfl, fun col => ?_⟩)
  by_cases hcol : col = w.column
  · subst hcol
    simpa using h
  · simp [Function.update_of_ne hcol]

/-- A merge never takes a row back. -/
theorem Merged.row_le {row' : Row Column V} (h : Merged defaults row c row') :
    row.mark ≤ row'.mark := by
  cases h with
  | kept h => exact le_refl _
  | deleted hcl heven => exact mark_le_iff.mpr (.inl hcl)
  | revived hcl hodd hw => exact mark_le_iff.mpr (.inl hcl)
  | revivedBy hcl hodd hw => exact mark_le_iff.mpr (.inl hcl)
  | put hcl hodd hw hcells hwins => exact le_put_mark hcells hwins.le

/-- A merge takes a row at least as far as the change. -/
theorem Merged.change_le {row' : Row Column V} (h : Merged defaults row c row') :
    c.mark ≤ row'.mark := by
  have hput : ∀ {r : Row Column V} {w cells}, r.cl = c.cl → c.cl % 2 = 1 → c.write = some w →
      r.cells = some cells → c.mark ≤ (r.put w).mark := by
    intro r w cells hcl hodd hw hcells
    rw [put_mark hcells]
    refine mark_le_iff.mpr (.inr ⟨hcl.symm, fun col => ?_⟩)
    have hne : ¬ c.cl % 2 = 0 := by omega
    rw [if_neg hne, hw]
    by_cases hcol : col = w.column
    · subst hcol
      simp
    · simp [Function.update_of_ne hcol]
  cases h with
  | kept h => exact h
  | deleted hcl heven =>
    refine mark_le_iff.mpr (.inr ⟨rfl, fun col => ?_⟩)
    simp [heven]
  | revived hcl hodd hw =>
    refine mark_le_iff.mpr (.inr ⟨rfl, fun col => ?_⟩)
    simp [hw]
  | revivedBy hcl hodd hw =>
    obtain ⟨cells, hcells⟩ := resurrect_cells row c.cl defaults
    exact hput rfl hodd hw hcells
  | put hcl hodd hw hcells hwins => exact hput hcl hodd hw hcells

theorem le_updated (cell : Cell V) (value : V) : cell.mark ≤ (cell.updated value).mark := by
  rw [Cell.updated]
  split
  · exact le_refl _
  · cases hv : cell.version with
    | none => simp [Cell.mark, hv]
    | some v => simp [Cell.mark, hv, Prod.Lex.toLex_le_toLex]

theorem le_reinserted (row : Row Column V) (values : Column → V) :
    row.mark ≤ (row.reinserted values).mark := mark_le_iff.mpr (.inl (Nat.lt_succ_self _))

theorem le_deleted (row : Row Column V) : row.mark ≤ row.deleted.mark :=
  mark_le_iff.mpr (.inl (Nat.lt_succ_self _))

theorem le_row_updated (row : Row Column V) (col : Column) (value : V) :
    row.mark ≤ (row.updated col value).mark := by
  refine mark_le_iff.mpr (.inr ⟨rfl, fun d => ?_⟩)
  cases hcells : row.cells with
  | none => simp
  | some cells =>
    by_cases hd : d = col
    · subst hd
      simpa [Row.updated, hcells] using le_updated (cells d) value
    · simp [Row.updated, hcells, Function.update_of_ne hd]

/-- The columns of a table, and the values that they hold before they are written. -/
structure Schema (Column V : Type) where
  columns : List Column
  complete : ∀ col, col ∈ columns
  defaults : Column → V

/-- A row as merges and local writes leave it. -/
structure Row.Settled (schema : Schema Column V) (row : Row Column V) : Prop where
  wellFormed : row.WellFormed
  unclocked : ∀ cells, row.cells = some cells → ∀ col, (cells col).version = none →
    (cells col).value = schema.defaults col
  written : row.cl = 1 → schema.columns ≠ [] →
    ∃ cells col, row.cells = some cells ∧ (cells col).version ≠ none

/-- A change as `crsql_changes` shows it. -/
def Change.Settled (schema : Schema Column V) (c : Change Key Column V) : Prop :=
  c.cl = 1 → c.write = none → schema.columns = []

variable {schema : Schema Column V}

theorem settled_absent : (Row.absent : Row Column V).Settled schema := by
  refine ⟨absent_wellFormed, fun cells h => ?_, fun h => ?_⟩
  · cases h
  · cases h

theorem settled_of_mem {key : Key} (h : c ∈ changesOf schema.columns key row) :
    c.Settled schema ∧ c.key = key := by
  rw [changesOf, List.mem_append] at h
  obtain h | h := h
  · split at h
    · rename_i hs
      rw [List.mem_singleton] at h
      subst h
      refine ⟨fun hcl _ => ?_, rfl⟩
      obtain hs | hs := hs
      · have hcl : row.cl = 1 := hcl
        omega
      · simpa using hs.2
    · cases h
  · cases hcells : row.cells with
    | none =>
      rw [hcells] at h
      cases h
    | some cells =>
      rw [hcells] at h
      obtain ⟨col, -, h⟩ := List.mem_filterMap.mp h
      obtain ⟨v, -, rfl⟩ := Option.map_eq_some_iff.mp h
      exact ⟨fun _ hw => (by cases hw), rfl⟩

theorem resurrect_unclocked (h : row.Settled schema) (cl : Nat) {cells : Column → Cell V}
    (hcells : (resurrect row cl schema.defaults).cells = some cells) {col : Column}
    (hnone : (cells col).version = none) : (cells col).value = schema.defaults col := by
  cases hrow : row.cells with
  | none =>
    simp only [resurrect, hrow, Option.map_none, Option.getD_none, Option.some.injEq] at hcells
    subst hcells
    rfl
  | some old =>
    simp only [resurrect, hrow, Option.map_some, Option.getD_some, Option.some.injEq] at hcells
    subst hcells
    simp only [zeroClocks, Option.map_eq_none_iff] at hnone ⊢
    exact h.unclocked old hrow col hnone

theorem put_unclocked {cells : Column → Cell V}
    (h : ∀ cells, row.cells = some cells → ∀ col, (cells col).version = none →
      (cells col).value = defaults col)
    (hcells : (row.put w).cells = some cells) {col : Column}
    (hnone : (cells col).version = none) : (cells col).value = defaults col := by
  obtain ⟨old, hold, rfl⟩ := Option.map_eq_some_iff.mp hcells
  by_cases hcol : col = w.column
  · subst hcol
    simp at hnone
  · rw [Function.update_of_ne hcol] at hnone ⊢
    exact h old hold col hnone

theorem put_written {old : Column → Cell V} (hold : row.cells = some old) :
    ∃ cells col, (row.put w).cells = some cells ∧ (cells col).version ≠ none :=
  ⟨_, w.column, by rw [Row.put, hold]; rfl, by simp⟩

theorem Row.Settled.merged [DecidableEq Key] (h : row.Settled schema) (hc : c.Settled schema) :
    (mergeInsert row c schema.defaults).Settled schema := by
  have hwf : (mergeInsert row c schema.defaults).WellFormed := mergeInsert_wellFormed h.wellFormed
  have hm : Merged schema.defaults row c (mergeInsert row c schema.defaults) :=
    mergeInsert_merged h.wellFormed
  generalize mergeInsert row c schema.defaults = row' at hwf hm
  cases hm with
  | kept _ => exact h
  | deleted hcl heven =>
    refine ⟨hwf, fun cells hcells => (by cases hcells), fun hone => ?_⟩
    simp only at hone
    omega
  | revived hcl hodd hw =>
    refine ⟨hwf, fun cells hcells col => resurrect_unclocked h c.cl hcells, fun hone hne => ?_⟩
    exact absurd (hc hone hw) hne
  | revivedBy hcl hodd hw =>
    obtain ⟨old, hold⟩ := resurrect_cells row c.cl schema.defaults
    exact ⟨hwf, fun cells hcells col => put_unclocked
      (fun cells hcells col => resurrect_unclocked h c.cl hcells) hcells,
      fun _ _ => put_written hold⟩
  | put hcl hodd hw hcells hwins =>
    exact ⟨hwf, fun cells hcells col => put_unclocked h.unclocked hcells,
      fun _ _ => put_written hcells⟩

theorem Row.Settled.reinserted (h : row.Settled schema) (hcells : row.cells = none)
    (values : Column → V) : (row.reinserted values).Settled schema := by
  have heven : row.cl % 2 ≠ 1 := fun hodd => by
    have := h.wellFormed.mpr hodd
    simp [hcells] at this
  refine ⟨?_, fun cells hc col hnone => ?_, fun _ hne => ?_⟩
  · simp only [Row.WellFormed, Row.reinserted, Option.isSome_some, true_iff]
    omega
  · obtain rfl := Option.some.inj hc
    cases hnone
  · obtain ⟨col, hcol⟩ := List.exists_mem_of_ne_nil _ hne
    exact ⟨_, col, rfl, by simp⟩

theorem Row.Settled.deleted (h : row.Settled schema) {cells : Column → Cell V}
    (hcells : row.cells = some cells) : row.deleted.Settled schema := by
  have hodd : row.cl % 2 = 1 := h.wellFormed.mp (by rw [hcells]; rfl)
  refine ⟨?_, fun cells hc => (by cases hc), fun hone => ?_⟩
  · simp only [Row.WellFormed, Row.deleted, Option.isSome_none, Bool.false_eq_true, false_iff]
    omega
  · have hone : row.cl + 1 = 1 := hone
    omega

theorem updated_unclocked {value : V} (hnone : (cell.updated value).version = none) :
    cell.version = none ∧ (cell.updated value).value = cell.value := by
  rw [Cell.updated] at hnone ⊢
  split at hnone
  · rename_i heq
    rw [if_pos heq]
    exact ⟨hnone, rfl⟩
  · cases hnone

theorem Row.Settled.updated (h : row.Settled schema) (col : Column) (value : V) :
    (row.updated col value).Settled schema := by
  refine ⟨?_, fun cells hc d hnone => ?_, fun hone hne => ?_⟩
  · simpa [Row.WellFormed, Row.updated] using h.wellFormed
  · obtain ⟨old, hold, rfl⟩ := Option.map_eq_some_iff.mp hc
    by_cases hd : d = col
    · subst hd
      rw [Function.update_self] at hnone ⊢
      obtain ⟨hversion, hvalue⟩ := updated_unclocked hnone
      rw [hvalue]
      exact h.unclocked old hold d hversion
    · rw [Function.update_of_ne hd] at hnone ⊢
      exact h.unclocked old hold d hnone
  · obtain ⟨old, d, hold, hv⟩ := h.written hone hne
    refine ⟨Function.update old col ((old col).updated value), d,
      by rw [Row.updated, hold]; rfl, fun hnone => hv ?_⟩
    by_cases hd : d = col
    · subst hd
      rw [Function.update_self] at hnone
      exact (updated_unclocked hnone).1
    · rwa [Function.update_of_ne hd] at hnone

/-- A row is as far as its changes. -/
theorem mark_le_of_changes (h : row.Settled schema) {key : Key} {other : Row Column V}
    (hle : ∀ c ∈ changesOf schema.columns key row, c.mark ≤ other.mark) :
    row.mark ≤ other.mark := by
  have hcl : row.cl ≤ other.cl := by
    have hmem : ∀ c ∈ changesOf schema.columns key row, c.cl ≤ other.cl := by
      intro c hc
      obtain hlt | ⟨heq, -⟩ := mark_le_iff.mp (hle c hc)
      · exact hlt.le
      · exact heq.le
    by_cases hone : 1 < row.cl
    · exact hmem ⟨key, row.cl, none⟩ (List.mem_append_left _ (by simp [hone]))
    · by_cases hzero : row.cl = 0
      · omega
      have heq : row.cl = 1 := by omega
      by_cases hne : schema.columns = []
      · exact hmem ⟨key, row.cl, none⟩ (List.mem_append_left _ (by simp [heq, hne]))
      · obtain ⟨cells, col, hcells, hv⟩ := h.written heq hne
        obtain ⟨v, hv⟩ := Option.ne_none_iff_exists'.mp hv
        refine hmem ⟨key, row.cl, some ⟨col, (cells col).value, v⟩⟩ (List.mem_append_right _ ?_)
        rw [hcells]
        exact List.mem_filterMap.mpr ⟨col, schema.complete col, by rw [hv]; rfl⟩
  obtain hlt | heq := Nat.lt_or_eq_of_le hcl
  · exact mark_le_iff.mpr (.inl hlt)
  refine mark_le_iff.mpr (.inr ⟨heq, fun col => ?_⟩)
  cases hcells : row.cells with
  | none => simp
  | some cells =>
    cases hv : (cells col).version with
    | none => simp [Cell.mark, hv]
    | some v =>
      have hodd : row.cl % 2 = 1 := h.wellFormed.mp (by rw [hcells]; rfl)
      have hmem : ⟨key, row.cl, some ⟨col, (cells col).value, v⟩⟩ ∈
          changesOf schema.columns key row := by
        refine List.mem_append_right _ ?_
        rw [hcells]
        exact List.mem_filterMap.mpr ⟨col, schema.complete col, by rw [hv]; rfl⟩
      obtain hlt | ⟨-, hcol⟩ := mark_le_iff.mp (hle _ hmem)
      · simp only at hlt
        omega
      · have hne : ¬ row.cl % 2 = 0 := by omega
        have := hcol col
        simpa [hne, Cell.mark, ColumnWrite.mark, hv] using this

theorem cell_eq_of_mark {a b : Cell V} (h : a.mark = b.mark)
    (hnone : a.version = none → b.version = none → a.value = b.value) : a = b := by
  obtain ⟨x, v⟩ := a
  obtain ⟨y, u⟩ := b
  cases v with
  | none =>
    cases u with
    | none => simpa using hnone rfl rfl
    | some u => simp [Cell.mark] at h
  | some v =>
    cases u with
    | none => simp [Cell.mark] at h
    | some u =>
      simp only [Cell.mark, Option.elim_some, WithBot.coe_inj, EmbeddingLike.apply_eq_iff_eq,
        Prod.mk.injEq] at h
      simp [h.1, h.2]

theorem eq_of_mark {a b : Row Column V} (ha : a.Settled schema) (hb : b.Settled schema)
    (h : a.mark = b.mark) : a = b := by
  obtain ⟨n, x⟩ := a
  obtain ⟨m, y⟩ := b
  simp only [Row.mark, EmbeddingLike.apply_eq_iff_eq, Prod.mk.injEq] at h
  obtain ⟨rfl, hcols⟩ := h
  have hsome : x.isSome = true ↔ y.isSome = true := by
    exact Iff.trans ha.wellFormed hb.wellFormed.symm
  cases x with
  | none =>
    cases y with
    | none => rfl
    | some g => simp at hsome
  | some f =>
    cases y with
    | none => simp at hsome
    | some g =>
      congr 2
      funext col
      refine cell_eq_of_mark (by simpa using congrFun hcols col) fun hf hg => ?_
      rw [ha.unclocked f rfl col hf, hb.unclocked g rfl col hg]

end YapStack.Sync.Crr
