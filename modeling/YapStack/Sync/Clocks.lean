import YapStack.Sync.Convergence

set_option linter.unusedSectionVars false

namespace YapStack.Sync.Crr

/-- Whose a clock row is: another site's, or this one's, with its `db_version`. -/
inductive Clock
  | foreign
  | own (version : ℕ)
  deriving DecidableEq

/-- The watermark has not passed the clock row. -/
def Clock.since (watermark : ℕ) : Clock → Bool
  | .foreign => false
  | .own version => decide (watermark < version)

/-- The clock rows of a key: that of the sentinel, and that of each column. -/
abbrev Clocks (Column : Type) := Option Column → Clock

section Clocks

variable {Key Column V : Type} [DecidableEq Column] [LinearOrder V]

/-- `zero_clocks_on_resurrect` gives the columns' clocks a new `db_version`, and
`set_winner_clock` makes the sentinel another site's. -/
def revive (version : ℕ) (f : Clocks Column) : Clocks Column
  | none => .foreign
  | some col =>
    match f (some col) with
    | .foreign => .foreign
    | .own _ => .own version

/-- The clock rows that `merge_insert` leaves. -/
def mergeClocks (version : ℕ) (row : Row Column V) (f : Clocks Column)
    (c : Change Key Column V) : Clocks Column :=
  if c.cl < row.cl then f
  else if c.cl % 2 = 0 then
    if c.cl = row.cl then f else fun _ => .foreign
  else
    match c.write with
    | none => if c.cl = row.cl then f else revive version f
    | some w =>
      if row.cl < c.cl then Function.update (revive version f) (some w.column) .foreign
      else if wins row w then Function.update f (some w.column) .foreign
      else f

/-- The clock rows that a local `INSERT` leaves: a sentinel only of a key that was there before, or
in a table without other columns. -/
def insertClocks (version : ℕ) (columns : List Column) (row : Row Column V) (f : Clocks Column) :
    Clocks Column
  | none => if row.cl = 0 ∧ columns ≠ [] then f none else .own version
  | some _ => .own version

def updateClocks (version : ℕ) (f : Clocks Column) (col : Column) : Clocks Column :=
  Function.update f (some col) (.own version)

def deleteClocks (version : ℕ) : Clocks Column
  | none => .own version
  | some _ => .foreign

/-- The change wins something of the row: only then does the merge write clock rows. -/
def Row.takes (row : Row Column V) (c : Change Key Column V) : Bool :=
  decide (row.cl < c.cl) ||
    (decide (row.cl = c.cl) && decide (c.cl % 2 = 1) && c.write.any (wins row))

def Change.clock (c : Change Key Column V) : Option Column := c.write.map (·.column)

variable {schema : Schema Column V} {row row' : Row Column V} {f f' : Clocks Column} {k : Key}
  {c c' : Change Key Column V} {w w' : ColumnWrite Column V} {S S' : Change Key Column V → Prop}

theorem mem_changesOf_none {cl : ℕ} :
    (⟨k, cl, none⟩ : Change Key Column V) ∈ changesOf schema.columns k row ↔
      cl = row.cl ∧ (1 < row.cl ∨ row.cl = 1 ∧ schema.columns = []) := by
  rw [changesOf, List.mem_append]
  constructor
  · intro h
    obtain h | h := h
    · split at h
      · rename_i hs
        cases List.mem_singleton.mp h
        exact ⟨rfl, by simpa using hs⟩
      · cases h
    · cases hcells : row.cells with
      | none =>
        rw [hcells] at h
        cases h
      | some cells =>
        rw [hcells] at h
        obtain ⟨col, -, h⟩ := List.mem_filterMap.mp h
        obtain ⟨v, -, h⟩ := Option.map_eq_some_iff.mp h
        cases h
  · intro h
    obtain ⟨rfl, h⟩ := h
    exact .inl (by rw [if_pos (by simpa using h)]; exact List.mem_singleton_self _)

theorem mem_changesOf_some {cl : ℕ} :
    (⟨k, cl, some w⟩ : Change Key Column V) ∈ changesOf schema.columns k row ↔
      cl = row.cl ∧ ∃ cells, row.cells = some cells ∧
        cells w.column = ⟨w.value, some w.version⟩ := by
  rw [changesOf, List.mem_append]
  constructor
  · intro h
    obtain h | h := h
    · split at h
      · cases List.mem_singleton.mp h
      · cases h
    · cases hcells : row.cells with
      | none =>
        rw [hcells] at h
        cases h
      | some cells =>
        rw [hcells] at h
        obtain ⟨col, -, h⟩ := List.mem_filterMap.mp h
        obtain ⟨v, hv, h⟩ := Option.map_eq_some_iff.mp h
        cases h
        exact ⟨rfl, cells, rfl, by rw [← hv]⟩
  · intro h
    obtain ⟨rfl, cells, hcells, hcell⟩ := h
    refine .inr ?_
    rw [hcells]
    refine List.mem_filterMap.mpr ⟨w.column, schema.complete w.column, ?_⟩
    rw [hcell]
    rfl

theorem cl_of_mem (h : c ∈ changesOf schema.columns k row) : c.cl = row.cl := by
  obtain rfl := (settled_of_mem h).2
  obtain ⟨key, cl, write⟩ := c
  cases write with
  | none => exact (mem_changesOf_none.mp h).1
  | some w => exact (mem_changesOf_some.mp h).1

theorem change_le_of_lt (h : c.cl < c'.cl) : c.mark ≤ c'.mark := mark_le_iff.mpr (.inl h)

theorem sentinel_le (hw : c.write = none) (h : c.cl = c'.cl) : c.mark ≤ c'.mark :=
  mark_le_iff.mpr (.inr ⟨h, fun col => by simp [hw]⟩)

theorem write_le (hcl : c.cl = c'.cl) (hw : c.write = some w) (hw' : c'.write = some w')
    (hcol : w.column = w'.column) (h : w.mark ≤ w'.mark) : c.mark ≤ c'.mark := by
  refine mark_le_iff.mpr (.inr ⟨hcl, fun col => ?_⟩)
  rw [hcl, hw, hw']
  split
  · exact le_refl _
  · by_cases heq : col = w.column
    · subst heq
      rw [Option.elim_some, Option.elim_some, Function.update_self, hcol, Function.update_self]
      exact h
    · rw [Option.elim_some, Function.update_of_ne heq]
      exact bot_le

/-- A change as far as a write is the write's column, or a later causal length. -/
theorem write_of_le (hodd : c.cl % 2 = 1) (hw : c.write = some w) (h : c.mark ≤ c'.mark) :
    c.cl < c'.cl ∨ c'.cl = c.cl ∧ ∃ w', c'.write = some w' ∧ w'.column = w.column ∧
      w.version ≤ w'.version := by
  obtain hlt | ⟨hcl, hcols⟩ := mark_le_iff.mp h
  · exact .inl hlt
  · refine .inr ⟨hcl.symm, ?_⟩
    have hne : ¬ c.cl % 2 = 0 := by omega
    have hcol := hcols w.column
    rw [← hcl, if_neg hne, if_neg hne, hw, Option.elim_some, Function.update_self] at hcol
    cases hw' : c'.write with
    | none => simp [hw', ColumnWrite.mark] at hcol
    | some w' =>
      rw [hw', Option.elim_some] at hcol
      by_cases heq : w.column = w'.column
      · refine ⟨w', rfl, heq.symm, ?_⟩
        rw [heq, Function.update_self, ColumnWrite.mark, ColumnWrite.mark, WithBot.coe_le_coe,
          Prod.Lex.toLex_le_toLex] at hcol
        obtain hlt | ⟨heq, -⟩ := hcol
        · exact hlt.le
        · exact heq.le
      · rw [Function.update_of_ne heq] at hcol
        simp [ColumnWrite.mark] at hcol

theorem mergeInsert_of_loses {defaults : Column → V} (h : row.takes c = false) :
    mergeInsert row c defaults = row := by
  simp only [Row.takes, Bool.or_eq_false_iff, decide_eq_false_iff_not, Bool.and_eq_false_iff] at h
  obtain ⟨hlt, h⟩ := h
  rw [mergeInsert]
  split
  · rfl
  · have hcl : c.cl = row.cl := by omega
    split
    · rfl
    · cases hw : c.write with
      | none => rfl
      | some w =>
        have hloses : wins row w = false := by
          rw [hw, Option.any_some] at h
          obtain (hne | hodd) | hwins := h
          · exact absurd hcl.symm hne
          · omega
          · exact hwins
        dsimp only
        rw [hloses, if_neg Bool.false_ne_true]

/-- What a write or a merge under a new `db_version` may do to a row and its clocks, `S` being the
changes that are on their way to every device. -/
structure Turned (schema : Schema Column V) (S : Change Key Column V → Prop) (k : Key)
    (watermark version : ℕ) (row : Row Column V) (f : Clocks Column) (row' : Row Column V)
    (f' : Clocks Column) : Prop where
  le : row.mark ≤ row'.mark
  settled : row'.Settled schema
  kept : ∀ c ∈ changesOf schema.columns k row, (f c.clock).since watermark = true → ∃ c',
    c'.key = k ∧ c.mark ≤ c'.mark ∧ (S c' ∨ c' ∈ changesOf schema.columns k row' ∧
      (f' c'.clock).since watermark = true)
  shown : ∀ c ∈ changesOf schema.columns k row',
    (c ∈ changesOf schema.columns k row ∧ f' c.clock = f c.clock) ∨ f' c.clock = .own version ∨
      f' c.clock = .foreign ∧ ((∃ c', c'.key = k ∧ S c' ∧ c.mark ≤ c'.mark) ∨
        ∃ w, c.write = some w ∧ w.version = 0)
  length : row'.cl = row.cl ∨ row'.cl % 2 = 0 ∨ (∃ c', c'.key = k ∧ S c' ∧ c'.cl = row'.cl) ∨
    ∀ col, ∃ v, (⟨k, row'.cl, some ⟨col, v, 1⟩⟩ : Change Key Column V) ∈
      changesOf schema.columns k row' ∧ f' (some col) = .own version

theorem Turned.refl {watermark version : ℕ} (h : row.Settled schema) :
    Turned schema S k watermark version row f row f :=
  ⟨le_refl _, h, fun c hc hf => ⟨c, (settled_of_mem hc).2, le_refl _, .inr ⟨hc, hf⟩⟩,
    fun _ hc => .inl ⟨hc, rfl⟩, .inl rfl⟩

variable {watermark version : ℕ}

theorem since_own (h : watermark < version) : (Clock.own version).since watermark = true :=
  decide_eq_true h

theorem turned_insert (h : row.Settled schema) (hcells : row.cells = none) (values : Column → V)
    (hv : watermark < version) :
    Turned schema S k watermark version row f (row.reinserted values)
      (insertClocks version schema.columns row f) := by
  refine ⟨le_reinserted row values, h.reinserted hcells values, fun c hc hf => ?_,
    fun c hc => ?_, ?_⟩
  · obtain rfl := (settled_of_mem hc).2
    obtain ⟨key, cl, write⟩ := c
    cases write with
    | some w =>
      obtain ⟨-, cells, hsome, -⟩ := mem_changesOf_some.mp hc
      rw [hcells] at hsome
      cases hsome
    | none =>
      obtain ⟨rfl, hshown⟩ := mem_changesOf_none.mp hc
      have hpos : row.cl ≠ 0 := by omega
      have hclock : insertClocks version schema.columns row f none = .own version :=
        if_neg fun hzero => hpos hzero.1
      refine ⟨⟨key, row.cl + 1, none⟩, rfl, change_le_of_lt (Nat.lt_succ_self _), .inr ⟨?_, ?_⟩⟩
      · exact mem_changesOf_none.mpr ⟨rfl, .inl (by simp only [Row.reinserted]; omega)⟩
      · rw [Change.clock, Option.map_none, hclock]
        exact since_own hv
  · obtain rfl := (settled_of_mem hc).2
    obtain ⟨key, cl, write⟩ := c
    refine .inr (.inl ?_)
    cases write with
    | some w => rfl
    | none =>
      obtain ⟨rfl, hshown⟩ := mem_changesOf_none.mp hc
      refine if_neg fun hzero => ?_
      simp only [Row.reinserted] at hshown
      obtain hlt | ⟨-, hnil⟩ := hshown
      · omega
      · exact hzero.2 hnil
  · refine .inr (.inr (.inr fun col => ⟨values col, ?_, rfl⟩))
    exact mem_changesOf_some.mpr ⟨rfl, _, rfl, rfl⟩

theorem turned_update (h : row.Settled schema) {cells : Column → Cell V}
    (hcells : row.cells = some cells) {col : Column} {value : V}
    (hne : (cells col).value ≠ value) (hv : watermark < version) :
    Turned schema S k watermark version row f (row.updated col value)
      (updateClocks version f col) := by
  have hupdated : (row.updated col value).cells =
      some (Function.update cells col ⟨value, some ((cells col).version.getD 0 + 1)⟩) := by
    rw [Row.updated, hcells, Option.map_some, Cell.updated, if_neg hne]
  have hother : ∀ d, d ≠ some col → updateClocks version f col d = f d := by
    intro d hd
    rw [updateClocks, Function.update_of_ne hd]
  have hself : updateClocks version f col (some col) = .own version := Function.update_self ..
  refine ⟨le_row_updated row col value, h.updated col value, fun c hc hf => ?_, fun c hc => ?_,
    .inl rfl⟩
  · obtain rfl := (settled_of_mem hc).2
    obtain ⟨key, cl, write⟩ := c
    cases write with
    | none =>
      obtain ⟨rfl, hshown⟩ := mem_changesOf_none.mp hc
      refine ⟨⟨key, row.cl, none⟩, rfl, le_refl _,
        .inr ⟨mem_changesOf_none.mpr ⟨rfl, hshown⟩, ?_⟩⟩
      rwa [Change.clock, Option.map_none, hother none (by simp)]
    | some w =>
      obtain ⟨rfl, old, hold, hcell⟩ := mem_changesOf_some.mp hc
      obtain rfl := Option.some.inj (hcells.symm.trans hold)
      by_cases hcol : w.column = col
      · subst hcol
        refine ⟨⟨key, row.cl, some ⟨w.column, value, w.version + 1⟩⟩, rfl,
          write_le rfl rfl rfl rfl ?_, .inr ⟨mem_changesOf_some.mpr ⟨rfl, _, hupdated, ?_⟩, ?_⟩⟩
        · rw [ColumnWrite.mark, ColumnWrite.mark, WithBot.coe_le_coe, Prod.Lex.toLex_le_toLex]
          exact .inl (Nat.lt_succ_self _)
        · rw [Function.update_self, hcell]
          rfl
        · rw [Change.clock, Option.map_some, hself]
          exact since_own hv
      · refine ⟨⟨key, row.cl, some w⟩, rfl, le_refl _, .inr ⟨mem_changesOf_some.mpr
          ⟨rfl, _, hupdated, ?_⟩, ?_⟩⟩
        · rwa [Function.update_of_ne hcol]
        · rwa [Change.clock, Option.map_some, hother (some w.column) (by simpa using hcol)]
  · obtain rfl := (settled_of_mem hc).2
    obtain ⟨key, cl, write⟩ := c
    cases write with
    | none =>
      obtain ⟨rfl, hshown⟩ := mem_changesOf_none.mp hc
      exact .inl ⟨mem_changesOf_none.mpr ⟨rfl, hshown⟩, hother none (by simp)⟩
    | some w =>
      obtain ⟨rfl, new, hnew, hcell⟩ := mem_changesOf_some.mp hc
      obtain rfl := Option.some.inj (hupdated.symm.trans hnew)
      by_cases hcol : w.column = col
      · refine .inr (.inl ?_)
        rw [Change.clock, Option.map_some, hcol, hself]
      · rw [Function.update_of_ne hcol] at hcell
        exact .inl ⟨mem_changesOf_some.mpr ⟨rfl, cells, hcells, hcell⟩,
          hother (some w.column) (by simpa using hcol)⟩

theorem turned_delete (h : row.Settled schema) {cells : Column → Cell V}
    (hcells : row.cells = some cells) (hv : watermark < version) :
    Turned schema S k watermark version row f row.deleted (deleteClocks version) := by
  have hodd : row.cl % 2 = 1 := h.wellFormed.mp (by rw [hcells]; rfl)
  refine ⟨le_deleted row, h.deleted hcells, fun c hc hf => ?_, fun c hc => ?_, .inr (.inl ?_)⟩
  · refine ⟨⟨k, row.cl + 1, none⟩, rfl, change_le_of_lt ?_, .inr ⟨?_, since_own hv⟩⟩
    · rw [cl_of_mem hc]
      exact Nat.lt_succ_self _
    · exact mem_changesOf_none.mpr ⟨rfl, .inl (by simp only [Row.deleted]; omega)⟩
  · obtain rfl := (settled_of_mem hc).2
    obtain ⟨key, cl, write⟩ := c
    cases write with
    | none => exact .inr (.inl rfl)
    | some w =>
      obtain ⟨-, cells, hsome, -⟩ := mem_changesOf_some.mp hc
      cases hsome
  · simp only [Row.deleted]
    omega

/-- A change shown by a row that is made to exist again. -/
theorem shown_revived {cl : ℕ}
    (h : (⟨k, cl, some w⟩ : Change Key Column V) ∈
      changesOf schema.columns k (resurrect row c.cl schema.defaults)) : w.version = 0 := by
  obtain ⟨-, cells, hsome, hcell⟩ := mem_changesOf_some.mp h
  obtain rfl := Option.some.inj hsome
  cases hcells : row.cells with
  | none => simp [hcells, blank] at hcell
  | some old =>
    simp only [hcells, Option.map_some, Option.getD_some, zeroClocks, Cell.mk.injEq,
      Option.map_eq_some_iff] at hcell
    obtain ⟨-, v, -, hzero⟩ := hcell
    exact hzero.symm

theorem revive_cases (version : ℕ) (f : Clocks Column) (d : Option Column) :
    revive version f d = .foreign ∨ revive version f d = .own version := by
  cases d with
  | none => exact .inl rfl
  | some col =>
    rw [revive]
    cases f (some col) with
    | foreign => exact .inl rfl
    | own v => exact .inr rfl

theorem shown_put {cl : ℕ} {cells : Column → Cell V} (hcells : row.cells = some cells)
    (h : (⟨k, cl, some w'⟩ : Change Key Column V) ∈ changesOf schema.columns k (row.put w)) :
    cl = row.cl ∧ (w' = w ∨ w'.column ≠ w.column ∧
      (⟨k, row.cl, some w'⟩ : Change Key Column V) ∈ changesOf schema.columns k row) := by
  obtain ⟨rfl, new, hnew, hcell⟩ := mem_changesOf_some.mp h
  simp only [Row.put, hcells, Option.map_some, Option.some.injEq] at hnew
  subst hnew
  refine ⟨rfl, ?_⟩
  by_cases hcol : w'.column = w.column
  · rw [hcol, Function.update_self] at hcell
    obtain ⟨column, value, version⟩ := w
    obtain ⟨column', value', version'⟩ := w'
    simp only [Cell.mk.injEq, Option.some.injEq] at hcell
    obtain ⟨rfl, rfl⟩ := hcell
    exact .inl (by rw [show column' = column from hcol])
  · rw [Function.update_of_ne hcol] at hcell
    exact .inr ⟨hcol, mem_changesOf_some.mpr ⟨rfl, cells, hcells, hcell⟩⟩

/-- What a merge of a change does to a row and its clocks. -/
theorem turned_merge [DecidableEq Key] (h : row.Settled schema) (hc : c.Settled schema)
    (hS : S c) : Turned schema S c.key watermark version row f (mergeInsert row c schema.defaults)
      (mergeClocks version row f c) := by
  have hsettled := h.merged (c := c) hc
  have hmerged : Merged schema.defaults row c (mergeInsert row c schema.defaults) :=
    mergeInsert_merged h.wellFormed
  have hle := hmerged.row_le
  have hkept : ∀ {P : Change Key Column V → Prop}, row.cl < c.cl →
      ∀ d ∈ changesOf schema.columns c.key row, (f d.clock).since watermark = true → ∃ c',
        c'.key = c.key ∧ d.mark ≤ c'.mark ∧ (S c' ∨ P c') :=
    fun hlt d hd _ => ⟨c, rfl, change_le_of_lt (cl_of_mem hd ▸ hlt), .inl hS⟩
  revert hsettled hle
  rw [mergeInsert, mergeClocks]
  split
  · exact fun _ _ => Turned.refl h
  · rename_i hge
    split
    · rename_i heven
      split
      · exact fun _ _ => Turned.refl h
      · rename_i hne
        intro hsettled hle
        refine ⟨hle, hsettled, hkept (by omega), fun d hd => ?_, .inr (.inl heven)⟩
        have hkey := (settled_of_mem hd).2
        obtain ⟨key, cl, write⟩ := d
        obtain rfl : key = c.key := hkey
        cases write with
        | some w =>
          obtain ⟨-, cells, hsome, -⟩ := mem_changesOf_some.mp hd
          cases hsome
        | none =>
          exact .inr (.inr ⟨rfl, .inl ⟨c, rfl, hS, sentinel_le rfl (cl_of_mem hd)⟩⟩)
    · rename_i hodd
      cases hw : c.write with
      | none =>
        dsimp only
        split
        · exact fun _ _ => Turned.refl h
        · intro hsettled hle
          refine ⟨hle, hsettled, hkept (by omega), fun d hd => ?_,
            .inr (.inr (.inl ⟨c, rfl, hS, rfl⟩))⟩
          have hkey := (settled_of_mem hd).2
          obtain ⟨key, cl, write⟩ := d
          obtain rfl : key = c.key := hkey
          cases write with
          | none => exact .inr (.inr ⟨rfl, .inl ⟨c, rfl, hS, sentinel_le rfl (cl_of_mem hd)⟩⟩)
          | some w =>
            obtain hforeign | hown := revive_cases version f (some w.column)
            · exact .inr (.inr ⟨hforeign, .inr ⟨w, rfl, shown_revived hd⟩⟩)
            · exact .inr (.inl hown)
      | some w =>
        have hself : ∀ {key : Key}, key = c.key →
            (⟨key, c.cl, some w⟩ : Change Key Column V).mark ≤ c.mark := by
          intro key hkey
          exact write_le rfl rfl hw rfl (le_refl _)
        dsimp only
        split
        · rename_i hlt
          have hother : ∀ d, d ≠ some w.column → Function.update (revive version f)
              (some w.column) Clock.foreign d = revive version f d :=
            fun d hd => Function.update_of_ne hd ..
          intro hsettled hle
          refine ⟨hle, hsettled, hkept hlt, fun d hd => ?_,
            .inr (.inr (.inl ⟨c, rfl, hS, rfl⟩))⟩
          have hkey := (settled_of_mem hd).2
          obtain ⟨key, cl, write⟩ := d
          obtain rfl : key = c.key := hkey
          cases write with
          | none =>
            exact .inr (.inr ⟨hother none (by simp),
              .inl ⟨c, rfl, hS, sentinel_le rfl (cl_of_mem hd)⟩⟩)
          | some w' =>
            obtain ⟨cells, hcells⟩ := resurrect_cells row c.cl schema.defaults
            obtain ⟨rfl, rfl | ⟨hcol, hold⟩⟩ := shown_put hcells hd
            · exact .inr (.inr ⟨Function.update_self .., .inl ⟨c, rfl, hS, hself rfl⟩⟩)
            · have heq := hother (some w'.column) (by simpa using hcol)
              obtain hforeign | hown := revive_cases version f (some w'.column)
              · exact .inr (.inr ⟨heq.trans hforeign, .inr ⟨w', rfl, shown_revived hold⟩⟩)
              · exact .inr (.inl (heq.trans hown))
        · rename_i hnot
          have hcl : row.cl = c.cl := by omega
          obtain ⟨cells, hcells⟩ := Option.isSome_iff_exists.mp (h.wellFormed.mpr (by omega))
          split
          · rename_i hwins
            rw [wins, hcells, Option.all_some, didCidWin_iff] at hwins
            have hother : ∀ d, d ≠ some w.column →
                Function.update f (some w.column) Clock.foreign d = f d :=
              fun d hd => Function.update_of_ne hd ..
            intro hsettled hle
            refine ⟨hle, hsettled, fun d hd hf => ?_, fun d hd => ?_, .inl rfl⟩
            · have hkey := (settled_of_mem hd).2
              obtain ⟨key, cl, write⟩ := d
              obtain rfl : key = c.key := hkey
              cases write with
              | none =>
                obtain ⟨rfl, hshown⟩ := mem_changesOf_none.mp hd
                refine ⟨⟨c.key, row.cl, none⟩, rfl, le_refl _,
                  .inr ⟨mem_changesOf_none.mpr ⟨rfl, hshown⟩, ?_⟩⟩
                rwa [Change.clock, Option.map_none, hother none (by simp)]
              | some w' =>
                obtain ⟨rfl, old, hold, hcell⟩ := mem_changesOf_some.mp hd
                obtain rfl := Option.some.inj (hcells.symm.trans hold)
                by_cases hcol : w'.column = w.column
                · refine ⟨c, rfl, write_le hcl rfl hw hcol ?_, .inl hS⟩
                  rw [← hcol, hcell] at hwins
                  exact hwins.le
                · refine ⟨⟨c.key, row.cl, some w'⟩, rfl, le_refl _, .inr ⟨?_, ?_⟩⟩
                  · refine mem_changesOf_some.mpr ⟨rfl,
                      Function.update cells w.column ⟨w.value, some w.version⟩,
                      by rw [Row.put, hcells]; rfl, ?_⟩
                    rwa [Function.update_of_ne hcol]
                  · rwa [Change.clock, Option.map_some, hother (some w'.column)
                      (by simpa using hcol)]
            · have hkey := (settled_of_mem hd).2
              obtain ⟨key, cl, write⟩ := d
              obtain rfl : key = c.key := hkey
              cases write with
              | none =>
                obtain ⟨rfl, hshown⟩ := mem_changesOf_none.mp hd
                exact .inl ⟨mem_changesOf_none.mpr ⟨rfl, hshown⟩, hother none (by simp)⟩
              | some w' =>
                obtain ⟨rfl, rfl | ⟨hcol, hold⟩⟩ := shown_put hcells hd
                · exact .inr (.inr ⟨Function.update_self ..,
                    .inl ⟨c, rfl, hS, hcl ▸ hself rfl⟩⟩)
                · exact .inl ⟨hold, hother (some w'.column) (by simpa using hcol)⟩
          · exact fun _ _ => Turned.refl h

theorem insertClocks_own {d : Option Column} {n : ℕ}
    (h : insertClocks version schema.columns row f d = .own n) : n = version ∨ f d = .own n := by
  cases d with
  | none =>
    rw [insertClocks] at h
    split at h
    · exact .inr h
    · exact .inl (Clock.own.inj h).symm
  | some col => exact .inl (Clock.own.inj h).symm

theorem updateClocks_own {col : Column} {d : Option Column} {n : ℕ}
    (h : updateClocks version f col d = .own n) : n = version ∨ f d = .own n := by
  by_cases hd : d = some col
  · rw [hd, updateClocks, Function.update_self] at h
    exact .inl (Clock.own.inj h).symm
  · rw [updateClocks, Function.update_of_ne hd] at h
    exact .inr h

theorem deleteClocks_own {d : Option Column} {n : ℕ} (h : deleteClocks version d = .own n) :
    n = version := by
  cases d with
  | none => exact (Clock.own.inj h).symm
  | some col => cases h

theorem foreign_own {g : Clocks Column} {d e : Option Column} {n : ℕ}
    (h : Function.update g e .foreign d = .own n) : g d = .own n := by
  by_cases hd : d = e
  · rw [hd, Function.update_self] at h
    cases h
  · rwa [Function.update_of_ne hd] at h

theorem mergeClocks_own {d : Option Column} {n : ℕ} (h : mergeClocks version row f c d = .own n) :
    n = version ∨ f d = .own n := by
  have hrevive : revive version f d = .own n → n = version := by
    intro hown
    obtain heq | heq := revive_cases version f d
    · rw [heq] at hown
      cases hown
    · exact (Clock.own.inj (heq.symm.trans hown)).symm
  rw [mergeClocks] at h
  split at h
  · exact .inr h
  · split at h
    · split at h
      · exact .inr h
      · cases h
    · cases hw : c.write with
      | none =>
        simp only [hw] at h
        split at h
        · exact .inr h
        · exact .inl (hrevive h)
      | some w =>
        simp only [hw] at h
        split at h
        · exact .inl (hrevive (foreign_own h))
        · split at h
          · exact .inr (foreign_own h)
          · exact .inr h

end Clocks

end YapStack.Sync.Crr
