import YapStack.Sync.CascadeSweeps

set_option linter.unusedSectionVars false

namespace YapStack.Sync.Cascade

open Crr
open YapStack.Cascade (Closure)

variable {V : Type} [LinearOrder V] {null : V} {db : Database V} {t : String} {k : List V}
variable {cells cells' : String → Cell V} {rule : DeleteRule} {ref : Ref}

/-- The rows that the cascade rules condemn, from the parents that are proven deleted. -/
def Condemned (null : V) (db : Database V) (n : Node V) : Prop :=
  Closure (deleteRules.map (refers null db)) (dead db) n

/-- What one pass makes of the database: the condemned rows go, references to a condemned row
become `NULL`, and nothing else is written. -/
structure Cascaded (null : V) (db db' : Database V) : Prop where
  deleted : ∀ t k cells, (db.row t k).cells = some cells → Condemned null db (t, k) →
    db'.row t k = (db.row t k).deleted
  kept : ∀ t k cells, (db.row t k).cells = some cells → ¬Condemned null db (t, k) →
    ∃ cells', db'.row t k = ⟨(db.row t k).cl, some cells'⟩ ∧
      NulledBy null db' nullRules t cells cells'
  others : ∀ t k, (db.row t k).cells = none → db'.row t k = db.row t k
  condemned : ∀ n, n ∈ dead db' ↔ Condemned null db n
  isCrr : db'.isCrr = db.isCrr

/-- No live row refers to a proven-deleted parent, and no column that is nulled with one. -/
structure Closed (null : V) (db : Database V) : Prop where
  children : ∀ rule ∈ deleteRules, ∀ k cells, (db.row rule.1 k).cells = some cells →
    ∀ ref ∈ rule.2, columnValue null rule.1 k cells ref.fk ≠ null →
      ¬Tombstoned (db.row ref.parent [columnValue null rule.1 k cells ref.fk])
  columns : ∀ rule ∈ nullRules, ∀ k cells, (db.row rule.1 k).cells = some cells →
    columnValue null rule.1 k cells rule.2.fk ≠ null →
      ¬Tombstoned (db.row rule.2.parent [columnValue null rule.1 k cells rule.2.fk])

theorem nullRules_plain : ∀ rule ∈ nullRules, rule.2.fk ∉ pkColumns rule.1 := by decide

theorem cascadeGc_eq (db : Database V) : cascadeGc null db =
    nullRules.foldl (fun acc rule => nullStep null acc rule.1 rule.2)
      (deleteRules.foldl (fun acc rule => deleteStep null acc rule.1 rule.2) (db, ⟨0, 0, 0⟩)) := by
  simp only [cascadeGc, deleteRules, nullRules, List.foldl_append, List.foldl_map]

theorem ready_deletes (hcrr : ∀ t ∈ tables, db.isCrr t = true) :
    ∀ rule ∈ deleteRules, db.ready (rule.1 :: rule.2.map Ref.parent) = true := by
  have hnamed : ∀ rule ∈ deleteRules, ∀ t ∈ rule.1 :: rule.2.map Ref.parent, t ∈ tables := by decide
  exact fun rule hrule => List.all_eq_true.mpr (fun t ht => hcrr t (hnamed rule hrule t ht))

theorem ready_nulls (hcrr : ∀ t ∈ tables, db.isCrr t = true) :
    ∀ rule ∈ nullRules, db.ready [rule.1, rule.2.parent] = true := by
  have hnamed : ∀ rule ∈ nullRules, ∀ t ∈ [rule.1, rule.2.parent], t ∈ tables := by decide
  exact fun rule hrule => List.all_eq_true.mpr (fun t ht => hcrr t (hnamed rule hrule t ht))

theorem deleteSteps_fst {rules : List DeleteRule} {acc : Database V × CascadeStats}
    (hready : ∀ rule ∈ rules, acc.1.ready (rule.1 :: rule.2.map Ref.parent) = true) :
    (rules.foldl (fun acc rule => deleteStep null acc rule.1 rule.2) acc).1 =
      runDeletes null rules acc.1 := by
  induction rules generalizing acc with
  | nil => rfl
  | cons rule rules ih =>
    have hnow := hready rule List.mem_cons_self
    simp only [List.foldl_cons, deleteStep, hnow, if_true]
    exact ih (fun r hr => hready r (List.mem_cons_of_mem _ hr))

theorem nullSteps_fst {rules : List (String × Ref)} {acc : Database V × CascadeStats}
    (hready : ∀ rule ∈ rules, acc.1.ready [rule.1, rule.2.parent] = true) :
    (rules.foldl (fun acc rule => nullStep null acc rule.1 rule.2) acc).1 =
      runNulls null rules acc.1 := by
  induction rules generalizing acc with
  | nil => rfl
  | cons rule rules ih =>
    have hnow := hready rule List.mem_cons_self
    simp only [List.foldl_cons, nullStep, hnow, if_true]
    exact ih (fun r hr => hready r (List.mem_cons_of_mem _ hr))

theorem runDeletes_isCrr (rules : List DeleteRule) (db : Database V) :
    (runDeletes null rules db).isCrr = db.isCrr := by
  induction rules generalizing db with
  | nil => rfl
  | cons rule rules ih =>
    rw [runDeletes, List.foldl_cons, ← runDeletes, ih]
    rfl

theorem runNulls_isCrr (rules : List (String × Ref)) (db : Database V) :
    (runNulls null rules db).isCrr = db.isCrr := by
  induction rules generalizing db with
  | nil => rfl
  | cons rule rules ih =>
    rw [runNulls, List.foldl_cons, ← runNulls, ih]
    rfl

theorem cascadeGc_fst (hcrr : ∀ t ∈ tables, db.isCrr t = true) :
    (cascadeGc null db).1 = runNulls null nullRules (runDeletes null deleteRules db) := by
  have hdeletes : (deleteRules.foldl (fun acc rule => deleteStep null acc rule.1 rule.2)
      (db, ⟨0, 0, 0⟩)).1 = runDeletes null deleteRules db := deleteSteps_fst (ready_deletes hcrr)
  rw [cascadeGc_eq, nullSteps_fst, hdeletes]
  rw [hdeletes]
  apply ready_nulls
  rw [runDeletes_isCrr]
  exact hcrr

theorem dead_runNulls (rules : List (String × Ref)) (db : Database V) :
    dead (runNulls null rules db) = dead db := by
  ext n
  simp only [dead, Set.mem_ofPred_eq, Tombstoned, runNulls_cl]

theorem NulledBy.congr {cur : Database V} (h : NulledBy null db nullRules t cells cells')
    (hdead : dead cur = dead db) : NulledBy null cur nullRules t cells cells' := by
  refine ⟨fun col hcol => h.nulled col ?_, fun col hcol => h.kept col ?_⟩
  · simpa only [Nulled, hdead] using hcol
  · simpa only [Nulled, hdead] using hcol

theorem cascadeGc_cascaded (hcrr : ∀ t ∈ tables, db.isCrr t = true) :
    Cascaded null db (cascadeGc null db).1 := by
  rw [cascadeGc_fst hcrr]
  obtain ⟨hfollows, hdead⟩ := runDeletes_pass null deleteRules_keyed (Follows.refl db)
  rw [YapStack.Cascade.pass_eq_closure refers_ordered] at hdead
  obtain ⟨mid, hmid⟩ : ∃ mid, mid = runDeletes null deleteRules db := ⟨_, rfl⟩
  rw [← hmid] at hfollows hdead ⊢
  have hcondemned : ∀ n, n ∈ dead mid ↔ Condemned null db n := by
    intro n
    rw [hdead]
    exact Iff.rfl
  refine ⟨fun t k cells hcells hgone => ?_, fun t k cells hcells hstays => ?_,
    fun t k hnone => ?_, fun n => ?_, ?_⟩
  · obtain hsame | ⟨_, hrow⟩ := hfollows t k
    · have htomb := (hcondemned (t, k)).mpr hgone
      rw [dead, Set.mem_ofPred_eq, hsame] at htomb
      exact absurd htomb (not_tombstoned_of_live hcells)
    · rw [runNulls_none (by rw [hrow]; rfl), hrow]
  · have hsame : mid.row t k = db.row t k :=
      hfollows.of_not_dead (fun htomb => hstays ((hcondemned (t, k)).mp htomb))
    obtain ⟨cells', hcells', hnulled⟩ :=
      runNulls_cells nullRules_keyed nullRules_plain (hsame ▸ hcells)
    refine ⟨cells', ?_, hnulled.congr (dead_runNulls nullRules mid)⟩
    rw [← hcells', ← hsame, ← runNulls_cl]
  · obtain hsame | ⟨⟨cells, hcells⟩, _⟩ := hfollows t k
    · rw [runNulls_none (hsame ▸ hnone), hsame]
    · rw [hnone] at hcells
      cases hcells
  · rw [dead_runNulls, hcondemned]
  · rw [runNulls_isCrr, hmid, runDeletes_isCrr]

/-- A column keeps its value or is nulled. -/
theorem NulledBy.column (h : NulledBy null db nullRules t cells cells') (k : List V) (col : String) :
    columnValue null t k cells' col = columnValue null t k cells col ∨
      columnValue null t k cells' col = null := by
  simp only [columnValue]
  split
  · exact Or.inl rfl
  · by_cases hcol : Nulled null db nullRules t cells col
    · rw [h.nulled col hcol, updated_value]
      exact Or.inr rfl
    · rw [h.kept col hcol]
      exact Or.inl rfl

namespace Cascaded

variable {db' : Database V}

/-- A row that is live after the pass was live before it. -/
theorem live (h : Cascaded null db db') (hlive : (db'.row t k).cells = some cells') :
    ¬Condemned null db (t, k) ∧ ∃ cells, (db.row t k).cells = some cells ∧
      NulledBy null db' nullRules t cells cells' := by
  cases hcells : (db.row t k).cells with
  | none =>
    rw [h.others t k hcells, hcells] at hlive
    cases hlive
  | some cells =>
    by_cases hgone : Condemned null db (t, k)
    · rw [h.deleted t k cells hcells hgone] at hlive
      cases hlive
    · obtain ⟨cells'', hrow, hnulled⟩ := h.kept t k cells hcells hgone
      rw [hrow, Option.some.injEq] at hlive
      exact ⟨hgone, cells, rfl, hlive ▸ hnulled⟩

theorem closed (h : Cascaded null db db') : Closed null db' := by
  refine ⟨fun rule hrule k cells' hlive ref href hnull htomb => ?_,
    fun rule hrule k cells' hlive hnull htomb => ?_⟩
  · obtain ⟨hstays, cells, hcells, hnulled⟩ := h.live hlive
    have hvalue := (hnulled.column k ref.fk).resolve_right hnull
    rw [hvalue] at hnull htomb
    have hparent := (h.condemned (ref.parent, [columnValue null rule.1 k cells ref.fk])).mp htomb
    apply hstays
    exact .refers (List.mem_map_of_mem hrule) ⟨rfl, ref, href, cells, hcells, hnull, rfl⟩ hparent
  · obtain ⟨_, cells, _, hnulled⟩ := h.live hlive
    have hread : ∀ c, columnValue null rule.1 k c rule.2.fk = (c rule.2.fk).value := by
      intro c
      rw [columnValue, List.idxOf?_eq_none_iff.mpr (nullRules_plain rule hrule)]
    rw [hread] at hnull htomb
    by_cases hcol : Nulled null db' nullRules rule.1 cells rule.2.fk
    · rw [hnulled.nulled _ hcol, updated_value] at hnull
      exact hnull rfl
    · rw [hnulled.kept _ hcol] at hnull htomb
      exact hcol ⟨rule, hrule, rfl, rfl, hnull, htomb⟩

/-- A row goes only if it refers to a parent that is proven deleted after the pass: never for a
parent that is absent or live. -/
theorem reason (h : Cascaded null db db') (hcells : (db.row t k).cells = some cells)
    (htomb : Tombstoned (db'.row t k)) :
    ∃ rule ∈ deleteRules, rule.1 = t ∧ ∃ ref ∈ rule.2, columnValue null t k cells ref.fk ≠ null ∧
      Tombstoned (db'.row ref.parent [columnValue null t k cells ref.fk]) := by
  have hgone : Condemned null db (t, k) := (h.condemned (t, k)).mp htomb
  cases hgone with
  | base hdead => exact absurd hdead (not_tombstoned_of_live hcells)
  | refers hr hrefers hp =>
    obtain ⟨rule, hrule, rfl⟩ := List.mem_map.mp hr
    obtain ⟨htable, ref, href, cells', hcells', hnull, rfl⟩ := hrefers
    rw [hcells, Option.some.injEq] at hcells'
    subst hcells'
    exact ⟨rule, hrule, htable.symm, ref, href, hnull, (h.condemned _).mpr hp⟩

end Cascaded

theorem replica_eq {a b : CrrTable V} (hkeys : a.keys = b.keys) (hrow : a.row = b.row) : a = b := by
  cases a
  cases b
  cases hkeys
  cases hrow
  rfl

theorem database_eq {a b : Database V} (hcrr : a.isCrr = b.isCrr) (htable : a.table = b.table) :
    a = b := by
  cases a
  cases b
  cases hcrr
  cases htable
  rfl

section Idle

variable {child : String} {refs : List Ref}

theorem delete_idle (h : ∀ k, db.selects null child refs k = false) :
    db.delete null child refs = db := by
  apply database_eq
  · rfl
  · rw [Database.delete, Function.update_eq_self_iff]
    apply replica_eq
    · rfl
    · funext k
      simp [Replica.deleteWhere, h]

theorem nullOut_idle (h : ∀ k, db.selects null child [ref] k = false) :
    db.nullOut null child ref = db := by
  apply database_eq
  · rfl
  · rw [Database.nullOut, Function.update_eq_self_iff]
    apply replica_eq
    · rfl
    · funext k
      simp [Database.nullWhere, h]

theorem selected_idle (h : ∀ k, db.selects null child refs k = false) :
    db.selected null child refs = ∅ := by
  simp [Database.selected, h]

theorem selects_false (hkeyed : ∀ ref ∈ refs, ref.Keyed)
    (h : ∀ k cells, (db.row child k).cells = some cells → ∀ ref ∈ refs,
      columnValue null child k cells ref.fk ≠ null →
        ¬Tombstoned (db.row ref.parent [columnValue null child k cells ref.fk])) (k : List V) :
    db.selects null child refs k = false := by
  rw [Bool.eq_false_iff]
  intro hsel
  obtain ⟨p, hp, _, ref, href, cells, hcells, hnull, rfl⟩ := (selects_iff hkeyed).mp hsel
  exact h k cells hcells ref href hnull hp

/-- A pass over a closed database does nothing. -/
theorem cascadeGc_idle (hcrr : ∀ t ∈ tables, db.isCrr t = true) (h : Closed null db) :
    cascadeGc null db = (db, ⟨0, 0, 0⟩) := by
  have hdeletes : ∀ rules ⊆ deleteRules,
      rules.foldl (fun acc rule => deleteStep null acc rule.1 rule.2) (db, ⟨0, 0, 0⟩) =
        (db, ⟨0, 0, 0⟩) := by
    intro rules hsub
    induction rules with
    | nil => rfl
    | cons rule rules ih =>
      have hrule := hsub List.mem_cons_self
      have hnone := selects_false (deleteRules_keyed rule hrule) (h.children rule hrule)
      simp only [List.foldl_cons, deleteStep, ready_deletes hcrr rule hrule, if_true,
        delete_idle hnone, selected_idle hnone, Finset.card_empty]
      exact ih (fun r hr => hsub (List.mem_cons_of_mem _ hr))
  have hnulls : ∀ rules ⊆ nullRules,
      rules.foldl (fun acc rule => nullStep null acc rule.1 rule.2) (db, ⟨0, 0, 0⟩) =
        (db, ⟨0, 0, 0⟩) := by
    intro rules hsub
    induction rules with
    | nil => rfl
    | cons rule rules ih =>
      have hrule := hsub List.mem_cons_self
      have hkeyed : ∀ ref ∈ [rule.2], ref.Keyed := by simpa using nullRules_keyed rule hrule
      have hnone := selects_false hkeyed (by simpa using h.columns rule hrule)
      simp only [List.foldl_cons, nullStep, ready_nulls hcrr rule hrule, if_true,
        nullOut_idle hnone, selected_idle hnone, Finset.card_empty]
      exact ih (fun r hr => hsub (List.mem_cons_of_mem _ hr))
  rw [cascadeGc_eq, hdeletes _ (List.Subset.refl _), hnulls _ (List.Subset.refl _)]

end Idle

/-- One pass deletes exactly the rows that the rules condemn and nulls exactly the references to
them, leaves no reference to a proven-deleted parent behind, and deletes nothing for a parent that
is absent or live; a second pass does nothing. -/
theorem cascadeGc_reaches_closure (hcrr : ∀ t ∈ tables, db.isCrr t = true) :
    Cascaded null db (cascadeGc null db).1 ∧ Closed null (cascadeGc null db).1 ∧
      (∀ t k cells, (db.row t k).cells = some cells →
        Tombstoned ((cascadeGc null db).1.row t k) →
          ∃ rule ∈ deleteRules, rule.1 = t ∧ ∃ ref ∈ rule.2,
            columnValue null t k cells ref.fk ≠ null ∧ Tombstoned
              ((cascadeGc null db).1.row ref.parent [columnValue null t k cells ref.fk])) ∧
      cascadeGc null (cascadeGc null db).1 = ((cascadeGc null db).1, ⟨0, 0, 0⟩) := by
  have hpass : Cascaded null db (cascadeGc null db).1 := cascadeGc_cascaded hcrr
  refine ⟨hpass, hpass.closed, fun t k cells hcells htomb => hpass.reason hcells htomb, ?_⟩
  apply cascadeGc_idle _ hpass.closed
  rw [hpass.isCrr]
  exact hcrr

def Database.put (db : Database V) (t : String) (k : List V) (row : Row String V)
    (hrow : row.WellFormed) (hk : k.length = (pkColumns t).length) : Database V where
  isCrr := db.isCrr
  table := Function.update db.table t ((db.table t).set k row)
  wellFormed u j := by
    by_cases hu : u = t
    · subst hu
      rw [Function.update_self]
      simp only [Replica.set]
      by_cases hj : j = k
      · subst hj
        rwa [Function.update_self]
      · rw [Function.update_of_ne hj]
        exact db.wellFormed u j
    · rw [Function.update_of_ne hu]
      exact db.wellFormed u j
  keyed u j hj := by
    by_cases hu : u = t
    · subst hu
      rw [Function.update_self, Replica.set, Finset.mem_insert] at hj
      obtain rfl | hj := hj
      · exact hk
      · exact db.keyed u j hj
    · rw [Function.update_of_ne hu] at hj
      exact db.keyed u j hj

def Database.empty : Database V where
  isCrr _ := true
  table _ := .empty
  wellFormed _ _ := absent_wellFormed
  keyed _ _ hk := by cases hk

/-- A live row with one column set. -/
def liveRow (col : String) (v : Nat) : Row String Nat :=
  ⟨1, some (fun c => if c = col then ⟨v, some 1⟩ else ⟨0, none⟩)⟩

/-- A deleted session with a note and a version of it, and a deleted folder with a session. -/
def chain : Database Nat :=
  (((((Database.empty : Database Nat).put
    "sessions" [1] ⟨2, none⟩ (by simp [Row.WellFormed]) rfl).put
    "notes" [2] (liveRow "session_id" 1) (by simp [Row.WellFormed, liveRow]) rfl).put
    "note_versions" [3] (liveRow "note_id" 2) (by simp [Row.WellFormed, liveRow]) rfl).put
    "folders" [4] ⟨2, none⟩ (by simp [Row.WellFormed]) rfl).put
    "sessions" [5] (liveRow "folder_id" 4) (by simp [Row.WellFormed, liveRow]) rfl

theorem cascadeGc_reaches_closure_chain :
    Cascaded 0 chain (cascadeGc 0 chain).1 ∧ Closed 0 (cascadeGc 0 chain).1 ∧
      cascadeGc 0 (cascadeGc 0 chain).1 = ((cascadeGc 0 chain).1, ⟨0, 0, 0⟩) := by
  obtain ⟨hpass, hclosed, _, hagain⟩ :=
    cascadeGc_reaches_closure (fun _ _ => rfl : ∀ t ∈ tables, chain.isCrr t = true)
  exact ⟨hpass, hclosed, hagain⟩

example : (cascadeGc 0 chain).2 = ⟨2, 1, 0⟩ := by decide +kernel

end YapStack.Sync.Cascade
