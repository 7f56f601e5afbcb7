import YapStack.Foundation.Runs
import YapStack.Sync.Marks

set_option linter.unusedSectionVars false

namespace YapStack.Sync.Crr

/-- One table on every device, and the changes that devices have read off their tables. -/
structure Mesh (Device Key Column V : Type) where
  table : Device → Replica Key Column V
  published : List (Change Key Column V)

namespace Mesh

variable {Device Key Column V : Type}

/-- A local write, a device that reads a change of its own table, and one that merges a change. -/
inductive Event (Device Key Column V : Type)
  | insert (d : Device) (k : Key) (values : Column → V)
  | update (d : Device) (k : Key) (col : Column) (value : V)
  | delete (d : Device) (k : Key)
  | publish (d : Device) (c : Change Key Column V)
  | merge (d : Device) (c : Change Key Column V)

variable [DecidableEq Device] [DecidableEq Key] [DecidableEq Column] [LinearOrder V]

/-- The device has read or merged the change. -/
def Event.brings (d : Device) (c : Change Key Column V) : Event Device Key Column V → Bool
  | .publish d' c' => decide (d' = d ∧ c' = c)
  | .merge d' c' => decide (d' = d ∧ c' = c)
  | _ => false

def empty : Mesh Device Key Column V := ⟨fun _ => .empty, []⟩

def row (m : Mesh Device Key Column V) (d : Device) (k : Key) : Row Column V := (m.table d).row k

def write (m : Mesh Device Key Column V) (d : Device) (k : Key) (r : Row Column V) :
    Mesh Device Key Column V :=
  { m with table := Function.update m.table d ((m.table d).set k r) }

variable (schema : Schema Column V)

def step (m : Mesh Device Key Column V) :
    Event Device Key Column V → Option (Mesh Device Key Column V)
  | .insert d k values =>
    if (m.row d k).cells.isNone then some (m.write d k ((m.row d k).reinserted values)) else none
  | .update d k col value =>
    if (m.row d k).cells.isSome then some (m.write d k ((m.row d k).updated col value)) else none
  | .delete d k =>
    if (m.row d k).cells.isSome then some (m.write d k (m.row d k).deleted) else none
  | .publish d c =>
    if c ∈ changesOf schema.columns c.key (m.row d c.key) then
      some { m with published := c :: m.published }
    else none
  | .merge d c =>
    if c ∈ m.published then
      some { m with
        table := Function.update m.table d ((m.table d).merge c schema.defaults) }
    else none

variable {schema} {m m' : Mesh Device Key Column V} {e : Event Device Key Column V}

theorem row_write (d : Device) (k : Key) (r : Row Column V) (d' : Device) (k' : Key) :
    (m.write d k r).row d' k' = if d' = d ∧ k' = k then r else m.row d' k' := by
  by_cases hd : d' = d
  · subst hd
    by_cases hk : k' = k
    · subst hk
      simp [row, write, Replica.set]
    · simp [row, write, Replica.set, hk]
  · simp [row, write, hd]

/-- What a step does: it writes one row, or it only reads a change. -/
inductive Did (schema : Schema Column V) (m : Mesh Device Key Column V) :
    Event Device Key Column V → Mesh Device Key Column V → Prop
  | inserted {d : Device} {k : Key} {values : Column → V} (h : (m.row d k).cells = none) :
      Did schema m (.insert d k values) (m.write d k ((m.row d k).reinserted values))
  | updated {d : Device} {k : Key} {col : Column} {value : V} {cells : Column → Cell V}
      (h : (m.row d k).cells = some cells) :
      Did schema m (.update d k col value) (m.write d k ((m.row d k).updated col value))
  | deleted {d : Device} {k : Key} {cells : Column → Cell V}
      (h : (m.row d k).cells = some cells) :
      Did schema m (.delete d k) (m.write d k (m.row d k).deleted)
  | read {d : Device} {c : Change Key Column V}
      (h : c ∈ changesOf schema.columns c.key (m.row d c.key)) :
      Did schema m (.publish d c) { m with published := c :: m.published }
  | merged {d : Device} {c : Change Key Column V} (h : c ∈ m.published) :
      Did schema m (.merge d c)
        (m.write d c.key (mergeInsert (m.row d c.key) c schema.defaults))

theorem step_did (h : step schema m e = some m') : Did schema m e m' := by
  cases e with
  | insert d k values =>
    rw [step] at h
    split at h
    · rename_i hnone
      obtain rfl := Option.some.inj h
      exact .inserted (Option.isNone_iff_eq_none.mp hnone)
    · cases h
  | update d k col value =>
    rw [step] at h
    split at h
    · rename_i hsome
      obtain rfl := Option.some.inj h
      obtain ⟨cells, hcells⟩ := Option.isSome_iff_exists.mp hsome
      exact .updated hcells
    · cases h
  | delete d k =>
    rw [step] at h
    split at h
    · rename_i hsome
      obtain rfl := Option.some.inj h
      obtain ⟨cells, hcells⟩ := Option.isSome_iff_exists.mp hsome
      exact .deleted hcells
    · cases h
  | publish d c =>
    rw [step] at h
    split at h
    · rename_i hmem
      obtain rfl := Option.some.inj h
      exact .read hmem
    · cases h
  | merge d c =>
    rw [step] at h
    split at h
    · rename_i hmem
      obtain rfl := Option.some.inj h
      exact .merged hmem
    · cases h

/-- What holds of every device and every change in every run. -/
structure Settled (schema : Schema Column V) (m : Mesh Device Key Column V) : Prop where
  rows : ∀ d k, (m.row d k).Settled schema
  published : ∀ c ∈ m.published, c.Settled schema

theorem settled_empty : (empty : Mesh Device Key Column V).Settled schema :=
  ⟨fun _ _ => settled_absent, fun c hc => (by cases hc)⟩

theorem Settled.write (h : m.Settled schema) {d : Device} {k : Key} {r : Row Column V}
    (hr : r.Settled schema) : (m.write d k r).Settled schema := by
  refine ⟨fun d' k' => ?_, h.published⟩
  rw [row_write]
  split
  · exact hr
  · exact h.rows d' k'

theorem settled_step (h : m.Settled schema) (hstep : step schema m e = some m') :
    m'.Settled schema := by
  cases step_did hstep with
  | inserted hcells => exact h.write ((h.rows _ _).reinserted hcells _)
  | updated hcells => exact h.write ((h.rows _ _).updated _ _)
  | deleted hcells => exact h.write ((h.rows _ _).deleted hcells)
  | read hmem =>
    refine ⟨h.rows, fun c' hc' => ?_⟩
    obtain rfl | hc' := List.mem_cons.mp hc'
    · exact (settled_of_mem hmem).1
    · exact h.published c' hc'
  | merged hmem => exact h.write ((h.rows _ _).merged (h.published _ hmem))

theorem le_write {d : Device} {k : Key} {r : Row Column V} (h : (m.row d k).mark ≤ r.mark)
    (d' : Device) (k' : Key) : (m.row d' k').mark ≤ ((m.write d k r).row d' k').mark := by
  rw [row_write]
  split
  · rename_i heq
    rw [heq.1, heq.2]
    exact h
  · exact le_refl _

/-- No step takes a row of a device back. -/
theorem le_step (h : m.Settled schema) (hstep : step schema m e = some m') (d : Device) (k : Key) :
    (m.row d k).mark ≤ (m'.row d k).mark := by
  cases step_did hstep with
  | inserted hcells => exact le_write (le_reinserted _ _) d k
  | updated hcells => exact le_write (le_row_updated _ _ _) d k
  | deleted hcells => exact le_write (le_deleted _) d k
  | read hmem => exact le_refl _
  | merged hmem => exact le_write (mergeInsert_merged (h.rows _ _).wellFormed).row_le d k

theorem change_le_of_mem {r : Row Column V} (h : r.Settled schema) {k : Key}
    {c : Change Key Column V} (hc : c ∈ changesOf schema.columns k r) : c.mark ≤ r.mark := by
  rw [changesOf, List.mem_append] at hc
  obtain hc | hc := hc
  · split at hc
    · rw [List.mem_singleton] at hc
      subst hc
      exact mark_le_iff.mpr (.inr ⟨rfl, fun col => by simp⟩)
    · cases hc
  · cases hcells : r.cells with
    | none =>
      rw [hcells] at hc
      cases hc
    | some cells =>
      rw [hcells] at hc
      obtain ⟨col, -, hc⟩ := List.mem_filterMap.mp hc
      obtain ⟨v, hv, rfl⟩ := Option.map_eq_some_iff.mp hc
      have hodd : r.cl % 2 = 1 := h.wellFormed.mp (by rw [hcells]; rfl)
      refine mark_le_iff.mpr (.inr ⟨rfl, fun d => ?_⟩)
      have hne : ¬ r.cl % 2 = 0 := by omega
      rw [if_neg hne, hcells]
      by_cases hd : d = col
      · subst hd
        simp [Cell.mark, ColumnWrite.mark, hv]
      · simp [Function.update_of_ne hd]

/-- A change that a device has read or merged, its row has reached. -/
theorem brought_step (h : m.Settled schema) {d : Device} {c : Change Key Column V}
    (he : e.brings d c = true) (hstep : step schema m e = some m') :
    c.mark ≤ (m'.row d c.key).mark := by
  cases step_did hstep with
  | inserted hcells => cases he
  | updated hcells => cases he
  | deleted hcells => cases he
  | read hmem =>
    obtain ⟨rfl, rfl⟩ := of_decide_eq_true he
    exact change_le_of_mem (h.rows _ _) hmem
  | merged hmem =>
    obtain ⟨rfl, rfl⟩ := of_decide_eq_true he
    rw [row_write, if_pos ⟨rfl, rfl⟩]
    exact (mergeInsert_merged (h.rows _ _).wellFormed).change_le

theorem settled_run {events : List (Event Device Key Column V)}
    (h : Runs.exec (step schema) empty events = some m) : m.Settled schema :=
  Runs.exec_invariant (fun _ _ _ hs hstep => settled_step hs hstep) settled_empty h

theorem brought_run {events : List (Event Device Key Column V)} {d : Device}
    {c : Change Key Column V} (he : ∃ e ∈ events, e.brings d c = true)
    (h : Runs.exec (step schema) empty events = some m) : c.mark ≤ (m.row d c.key).mark := by
  obtain ⟨e, hmem, he⟩ := he
  have hkeep : ∀ (s : Mesh Device Key Column V) e t, s.Settled schema →
      step schema s e = some t → t.Settled schema := fun _ _ _ hs hstep => settled_step hs hstep
  exact Runs.exec_reached (f := fun m : Mesh Device Key Column V => (m.row d c.key).mark) hkeep
    (fun _ _ _ hs hstep => le_step hs hstep d c.key)
    (fun _ _ hs hstep => brought_step hs he hstep) settled_empty hmem h

theorem le_of_brought {events : List (Event Device Key Column V)} {a b : Device} {k : Key}
    (h : Runs.exec (step schema) empty events = some m)
    (hb : ∀ c ∈ changesOf schema.columns k (m.row b k), ∃ e ∈ events, e.brings a c = true) :
    (m.row b k).mark ≤ (m.row a k).mark := by
  apply mark_le_of_changes ((settled_run h).rows b k)
  intro c hc
  have hle := brought_run (hb c hc) h
  rwa [(settled_of_mem hc).2] at hle

/-- Whatever devices wrote, in whatever order changes reached them, and however often: two of them
hold the same row as soon as each has merged or read what the other one's table shows of it. -/
theorem rows_converge {events : List (Event Device Key Column V)} {a b : Device} {k : Key}
    (h : Runs.exec (step schema) empty events = some m)
    (ha : ∀ c ∈ changesOf schema.columns k (m.row a k), ∃ e ∈ events, e.brings b c = true)
    (hb : ∀ c ∈ changesOf schema.columns k (m.row b k), ∃ e ∈ events, e.brings a c = true) :
    m.row a k = m.row b k :=
  eq_of_mark ((settled_run h).rows a k) ((settled_run h).rows b k)
    (le_antisymm (le_of_brought h ha) (le_of_brought h hb))

/-- A table of two columns of numbers. -/
def pairSchema : Schema Bool ℕ := ⟨[false, true], by decide, fun _ => 0⟩

/-- Two devices that write one column each of a row that both have. -/
def crossing : List (Event Bool Unit Bool ℕ) :=
  let first : Change Unit Bool ℕ := ⟨(), 1, some ⟨false, 1, 1⟩⟩
  let second : Change Unit Bool ℕ := ⟨(), 1, some ⟨true, 1, 1⟩⟩
  let left : Change Unit Bool ℕ := ⟨(), 1, some ⟨false, 5, 2⟩⟩
  let right : Change Unit Bool ℕ := ⟨(), 1, some ⟨true, 7, 2⟩⟩
  [.insert false () fun _ => 1, .publish false first, .publish false second, .merge true second,
    .merge true first, .update true () false 5, .update false () true 7, .publish true left,
    .publish false right, .merge false left, .merge true right]

theorem rows_converge_crossing : ∃ m, Runs.exec (step pairSchema) empty crossing = some m ∧
    m.row false () = m.row true () := by
  have hrun : ∃ m, Runs.exec (step pairSchema) empty crossing = some m ∧
      (∀ c ∈ changesOf pairSchema.columns () (m.row false ()),
        ∃ e ∈ crossing, e.brings true c = true) ∧
      ∀ c ∈ changesOf pairSchema.columns () (m.row true ()),
        ∃ e ∈ crossing, e.brings false c = true := Runs.exec_evaluates (by decide +kernel)
  obtain ⟨m, hm, ha, hb⟩ := hrun
  exact ⟨m, hm, rows_converge hm ha hb⟩

/-- The event writes the value to the column of the key. -/
def Event.writes (k : Key) (col : Column) (value : V) : Event Device Key Column V → Prop
  | .insert _ k' values => k' = k ∧ values col = value
  | .update _ k' col' value' => k' = k ∧ col' = col ∧ value' = value
  | _ => False

/-- What a row shows of its columns has the property. -/
def Shows (P : Column → V → Prop) (r : Row Column V) : Prop :=
  ∀ cells, r.cells = some cells → ∀ col, (cells col).version ≠ none → P col (cells col).value

theorem shows_from {P : Column → V → Prop} {r r' : Row Column V}
    {w : Option (ColumnWrite Column V)} (h : r.From r' w) (hr : Shows P r)
    (hw : ∀ w', w = some w' → P w'.column w'.value) : Shows P r' := by
  intro cells' hcells' col hv
  obtain ⟨cells, hcells, hold, heq⟩ | ⟨w', hw', rfl, heq⟩ := h cells' hcells' col hv
  · rw [heq]
    exact hr cells hcells col hold
  · rw [heq]
    exact hw w' hw'

/-- Every value on a device or on its way was written somewhere. -/
structure Written (P : Key → Column → V → Prop) (m : Mesh Device Key Column V) : Prop where
  rows : ∀ d k, Shows (P k) (m.row d k)
  published : ∀ c ∈ m.published, ∀ w, c.write = some w → P c.key w.column w.value

theorem Written.write {P : Key → Column → V → Prop} (h : m.Written P) {d : Device} {k : Key}
    {r : Row Column V} (hr : Shows (P k) r) : (m.write d k r).Written P := by
  refine ⟨fun d' k' => ?_, h.published⟩
  rw [row_write]
  split
  · rename_i heq
    rw [heq.2]
    exact hr
  · exact h.rows d' k'

theorem shows_updated {P : Column → V → Prop} {r : Row Column V} {col : Column} {value : V}
    (hr : Shows P r) (hp : P col value) : Shows P (r.updated col value) := by
  intro cells' hcells' d hv
  obtain ⟨cells, hcells, rfl⟩ := Option.map_eq_some_iff.mp hcells'
  by_cases hd : d = col
  · subst hd
    rw [Function.update_self, Cell.updated] at hv ⊢
    split
    · rename_i heq
      rw [heq]
      exact hp
    · exact hp
  · rw [Function.update_of_ne hd] at hv ⊢
    exact hr cells hcells d hv

theorem shows_of_mem {P : Column → V → Prop} {r : Row Column V} {k : Key}
    {c : Change Key Column V} (hr : Shows P r) (hc : c ∈ changesOf schema.columns k r) :
    ∀ w, c.write = some w → P w.column w.value := by
  intro w hw
  rw [changesOf, List.mem_append] at hc
  obtain hc | hc := hc
  · split at hc
    · rw [List.mem_singleton] at hc
      subst hc
      cases hw
    · cases hc
  · cases hcells : r.cells with
    | none =>
      rw [hcells] at hc
      cases hc
    | some cells =>
      rw [hcells] at hc
      obtain ⟨col, -, hc⟩ := List.mem_filterMap.mp hc
      obtain ⟨v, hv, rfl⟩ := Option.map_eq_some_iff.mp hc
      obtain rfl := Option.some.inj hw
      exact hr cells hcells col (by rw [hv]; exact Option.some_ne_none v)

theorem written_step {P : Key → Column → V → Prop} (h : m.Written P)
    (he : ∀ k col value, e.writes k col value → P k col value)
    (hstep : step schema m e = some m') : m'.Written P := by
  cases step_did hstep with
  | inserted hcells =>
    refine h.write fun cells hc col _ => he _ _ _ ⟨rfl, ?_⟩
    obtain rfl := Option.some.inj hc
    rfl
  | updated hcells => exact h.write (shows_updated (h.rows _ _) (he _ _ _ ⟨rfl, rfl, rfl⟩))
  | deleted hcells => exact h.write fun cells hc => (by cases hc)
  | read hmem =>
    refine ⟨h.rows, fun c hc => ?_⟩
    obtain rfl | hc := List.mem_cons.mp hc
    · exact shows_of_mem (h.rows _ _) hmem
    · exact h.published c hc
  | merged hmem =>
    exact h.write (shows_from (mergeInsert_from _ _ _) (h.rows _ _) (h.published _ hmem))

/-- A column that has a clock holds a value that some device wrote to that column of that key. -/
theorem values_are_written {events : List (Event Device Key Column V)} {d : Device} {k : Key}
    {cells : Column → Cell V} {col : Column}
    (h : Runs.exec (step schema) empty events = some m) (hcells : (m.row d k).cells = some cells)
    (hv : (cells col).version ≠ none) : ∃ e ∈ events, e.writes k col (cells col).value := by
  have hwritten : m.Written fun k col value => ∃ e ∈ events, Event.writes k col value e := by
    refine Runs.exec_invariant_along
      (I := fun m => m.Written fun k col value => ∃ e ∈ events, Event.writes k col value e)
      (g := fun _ e _ => True ∧ e ∈ events) ?_ ?_
      ((Runs.along_true _ _).and_events fun _ he => he) h
    · exact fun s e t hs hg hstep => written_step hs (fun k col value hw => ⟨e, hg.2, hw⟩) hstep
    · exact ⟨fun _ _ cells hc => (by cases hc), fun c hc => (by cases hc)⟩
  exact hwritten.rows d k cells hcells col hv

theorem values_are_written_crossing : ∃ m, Runs.exec (step pairSchema) empty crossing = some m ∧
    ∃ cells, (m.row false ()).cells = some cells ∧
      ∃ e ∈ crossing, e.writes () false (cells false).value := by
  have hrun : ∃ m, Runs.exec (step pairSchema) empty crossing = some m ∧
      (m.row false ()).cells.any (fun cells => (cells false).version.isSome) = true :=
    Runs.exec_evaluates (by decide +kernel)
  obtain ⟨m, hm, hp⟩ := hrun
  obtain ⟨cells, hcells, hv⟩ := (Option.any_eq_true _ _).mp hp
  exact ⟨m, hm, cells, hcells, values_are_written hm hcells (Option.ne_none_iff_isSome.mpr hv)⟩

end Mesh

section Fold

variable {Key Column V : Type} [DecidableEq Key] [DecidableEq Column] [LinearOrder V]
variable {row : Row Column V} {c : Change Key Column V} {defaults : Column → V}

/-- A row as the changes merged into it leave it. -/
structure Row.Won (seen : List (Change Key Column V)) (row : Row Column V) : Prop where
  wellFormed : row.WellFormed
  above : ∀ c ∈ seen, c.mark ≤ row.mark
  last : row.cl = 0 ∨ ∃ c ∈ seen, c.cl = row.cl
  source : ∀ cells, row.cells = some cells → ∀ col v, (cells col).version = some v → 0 < v →
    ∃ c ∈ seen, c.cl = row.cl ∧ c.write = some ⟨col, (cells col).value, v⟩

theorem won_absent : (Row.absent : Row Column V).Won ([] : List (Change Key Column V)) :=
  ⟨absent_wellFormed, fun c hc => (by cases hc), .inl rfl, fun cells hc => (by cases hc)⟩

theorem resurrect_source {cl : Nat} {cells : Column → Cell V}
    (hcells : (resurrect row cl defaults).cells = some cells) {col : Column} {v : Nat}
    (hv : (cells col).version = some v) : v = 0 := by
  cases hrow : row.cells with
  | none =>
    simp only [resurrect, hrow, Option.map_none, Option.getD_none, Option.some.injEq] at hcells
    subst hcells
    cases hv
  | some old =>
    simp only [resurrect, hrow, Option.map_some, Option.getD_some, Option.some.injEq] at hcells
    subst hcells
    obtain ⟨n, -, rfl⟩ := Option.map_eq_some_iff.mp hv
    rfl

theorem put_source {w : ColumnWrite Column V} {cells old : Column → Cell V}
    (hold : row.cells = some old) (hcells : (row.put w).cells = some cells) {col : Column}
    {v : Nat} (hv : (cells col).version = some v) :
    (w = ⟨col, (cells col).value, v⟩) ∨ (old col).version = some v ∧ cells col = old col := by
  simp only [Row.put, hold, Option.map_some, Option.some.injEq] at hcells
  subst hcells
  by_cases hcol : col = w.column
  · subst hcol
    rw [Function.update_self] at hv ⊢
    obtain rfl := Option.some.inj hv
    exact .inl rfl
  · rw [Function.update_of_ne hcol] at hv ⊢
    exact .inr ⟨hv, rfl⟩

theorem Row.Won.merged {seen : List (Change Key Column V)} (h : row.Won seen) :
    (mergeInsert row c defaults).Won (c :: seen) := by
  have hwf : (mergeInsert row c defaults).WellFormed := mergeInsert_wellFormed h.wellFormed
  have hm : Merged defaults row c (mergeInsert row c defaults) := mergeInsert_merged h.wellFormed
  generalize mergeInsert row c defaults = row' at hwf hm
  have habove : ∀ d ∈ c :: seen, d.mark ≤ row'.mark := by
    intro d hd
    obtain rfl | hd := List.mem_cons.mp hd
    · exact hm.change_le
    · exact le_trans (h.above d hd) hm.row_le
  cases hm with
  | kept hle =>
    refine ⟨hwf, habove, ?_, fun cells hc col v hv hpos => ?_⟩
    · obtain hzero | ⟨d, hd, heq⟩ := h.last
      · exact .inl hzero
      · exact .inr ⟨d, List.mem_cons_of_mem c hd, heq⟩
    · obtain ⟨d, hd, heq⟩ := h.source cells hc col v hv hpos
      exact ⟨d, List.mem_cons_of_mem c hd, heq⟩
  | deleted hcl heven =>
    exact ⟨hwf, habove, .inr ⟨c, List.mem_cons_self, rfl⟩, fun cells hc => (by cases hc)⟩
  | revived hcl hodd hw =>
    refine ⟨hwf, habove, .inr ⟨c, List.mem_cons_self, rfl⟩, fun cells hc col v hv hpos => ?_⟩
    have := resurrect_source hc hv
    omega
  | revivedBy hcl hodd hw =>
    refine ⟨hwf, habove, .inr ⟨c, List.mem_cons_self, rfl⟩, fun cells hc col v hv hpos => ?_⟩
    obtain ⟨old, hold⟩ := resurrect_cells row c.cl defaults
    obtain rfl | ⟨hv, -⟩ := put_source hold hc hv
    · exact ⟨c, List.mem_cons_self, rfl, hw⟩
    · have := resurrect_source hold hv
      omega
  | put hcl hodd hw hcells hwins =>
    refine ⟨hwf, habove, .inr ⟨c, List.mem_cons_self, hcl.symm⟩, fun cells hc col v hv hpos => ?_⟩
    obtain rfl | ⟨hv, heq⟩ := put_source hcells hc hv
    · exact ⟨c, List.mem_cons_self, hcl.symm, hw⟩
    · obtain ⟨d, hd, hdcl, hdw⟩ := h.source _ hcells col v hv hpos
      exact ⟨d, List.mem_cons_of_mem c hd, hdcl, by rw [hdw, heq]⟩

theorem won_foldl {seen : List (Change Key Column V)} (cs : List (Change Key Column V))
    (h : row.Won seen) :
    (cs.foldl (fun row c => mergeInsert row c defaults) row).Won (cs.reverse ++ seen) := by
  induction cs generalizing row seen with
  | nil => exact h
  | cons c cs ih =>
    rw [List.reverse_cons, List.append_assoc]
    exact ih h.merged

/-- Merged in any order and any number of times, changes leave a row at the greatest causal length
among them, and in a column the greatest write at that length, by version and then by value. -/
theorem merges_leave_last_write (cs : List (Change Key Column V)) (defaults : Column → V) :
    let row := cs.foldl (fun row c => mergeInsert row c defaults) Row.absent
    (∀ c ∈ cs, c.cl ≤ row.cl) ∧ (row.cl = 0 ∨ ∃ c ∈ cs, c.cl = row.cl) ∧
      (row.cells.isSome = true ↔ row.cl % 2 = 1) ∧
      ∀ cells, row.cells = some cells → ∀ c ∈ cs, ∀ w, c.cl = row.cl → c.write = some w →
        0 < w.version →
        (∀ c' ∈ cs, ∀ w', c'.cl = row.cl → c'.write = some w' → w'.column = w.column →
          w'.mark ≤ w.mark) →
        cells w.column = ⟨w.value, some w.version⟩ := by
  intro row
  have h : row.Won cs.reverse := by
    have hwon : row.Won (cs.reverse ++ []) := won_foldl cs won_absent
    rwa [List.append_nil] at hwon
  have habove : ∀ c ∈ cs, c.mark ≤ row.mark := fun c hc => h.above c (List.mem_reverse.mpr hc)
  refine ⟨fun c hc => ?_, ?_, h.wellFormed, fun cells hcells c hc w hcl hw hpos hmax => ?_⟩
  · obtain hlt | ⟨heq, -⟩ := mark_le_iff.mp (habove c hc)
    · exact hlt.le
    · exact heq.le
  · obtain hzero | ⟨c, hc, heq⟩ := h.last
    · exact .inl hzero
    · exact .inr ⟨c, List.mem_reverse.mp hc, heq⟩
  · have hodd : row.cl % 2 = 1 := h.wellFormed.mp (by rw [hcells]; rfl)
    have hle : w.mark ≤ (cells w.column).mark := by
      obtain hlt | ⟨-, hcol⟩ := mark_le_iff.mp (habove c hc)
      · omega
      · have hne : ¬ c.cl % 2 = 0 := by omega
        simpa [hne, hw, hcells] using hcol w.column
    have hsome : (cells w.column).version ≠ none := fun hnone => by
      simp [Cell.mark, ColumnWrite.mark, hnone] at hle
    obtain ⟨v, hversion⟩ := Option.ne_none_iff_exists'.mp hsome
    have hcell : cells w.column = ⟨(cells w.column).value, some v⟩ := by rw [← hversion]
    have hv : w.version ≤ v := by
      simp only [Cell.mark, ColumnWrite.mark, hversion, Option.elim_some, WithBot.coe_le_coe,
        Prod.Lex.toLex_le_toLex] at hle
      obtain hlt | ⟨heq, -⟩ := hle
      · exact hlt.le
      · exact heq.le
    obtain ⟨c', hc', hcl', hw'⟩ := h.source cells hcells w.column v hversion (by omega)
    have hmark := hmax c' (List.mem_reverse.mp hc') _ hcl' hw' rfl
    have heq : (cells w.column).mark = w.mark := by
      refine le_antisymm ?_ hle
      simpa [Cell.mark, ColumnWrite.mark, hversion] using hmark
    simp only [Cell.mark, ColumnWrite.mark, hversion, Option.elim_some, WithBot.coe_inj,
      EmbeddingLike.apply_eq_iff_eq, Prod.mk.injEq] at heq
    rw [hcell, heq.1, heq.2]

end Fold

end YapStack.Sync.Crr
