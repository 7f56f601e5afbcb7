import YapStack.Sync.Cascade

set_option linter.unusedSectionVars false

namespace YapStack.Sync.Cascade

open Crr
open YapStack.Cascade (Closure Ordered pass sweep)

abbrev DeleteRule := String × List Ref

/-- The relationships whose child rows go with a parent, in the order of the pass. -/
def deleteRules : List DeleteRule :=
  cascadeDelete.map (fun (child, fk, parent, ppk, _) => (child, [⟨fk, parent, ppk⟩])) ++
    cascadeJunction.map (fun (child, (fka, pa), (fkb, pb)) =>
      (child, [⟨fka, pa, "id"⟩, ⟨fkb, pb, "id"⟩]))

def nullRules : List (String × Ref) :=
  setNull.map (fun (table, fk, parent, ppk) => (table, ⟨fk, parent, ppk⟩))

variable {V : Type} [LinearOrder V] (null : V)

/-- A row of a table. -/
abbrev Node (V : Type) := String × List V

def dead (db : Database V) : Set (Node V) := {n | Tombstoned (db.row n.1 n.2)}

/-- A live row and the row that a reference of the rule names. -/
def refers (db : Database V) (rule : DeleteRule) (n p : Node V) : Prop :=
  n.1 = rule.1 ∧ ∃ ref ∈ rule.2, ∃ cells, (db.row n.1 n.2).cells = some cells ∧
    columnValue null n.1 n.2 cells ref.fk ≠ null ∧
    p = (ref.parent, [columnValue null n.1 n.2 cells ref.fk])

/-- The reference reads the whole key of its parent. -/
def Ref.Keyed (ref : Ref) : Prop := pkColumns ref.parent = [ref.ppk]

instance (ref : Ref) : Decidable ref.Keyed := inferInstanceAs (Decidable (_ = _))

theorem deleteRules_keyed : ∀ rule ∈ deleteRules, ∀ ref ∈ rule.2, ref.Keyed := by decide

theorem nullRules_keyed : ∀ rule ∈ nullRules, rule.2.Keyed := by decide

/-- No rule deletes rows of a table that it or an earlier rule refers to. -/
theorem deleteRules_apart :
    (deleteRules.Pairwise fun r q => ∀ ref ∈ r.2, ref.parent ≠ q.1) ∧
      ∀ r ∈ deleteRules, ∀ ref ∈ r.2, ref.parent ≠ r.1 := by decide

variable {null} {db cur : Database V} {child t : String} {refs : List Ref} {ref : Ref}
variable {k : List V} {n : Node V} {v : V}

theorem refers_ordered : Ordered (deleteRules.map (refers null db)) := by
  have hapart : ∀ r q : DeleteRule, (∀ ref ∈ r.2, ref.parent ≠ q.1) →
      ∀ n p m, refers null db r n p → ¬refers null db q p m := by
    rintro r q hne n p m ⟨_, ref, href, _, _, _, rfl⟩ ⟨hq, _⟩
    exact hne ref href hq
  refine ⟨List.pairwise_map.mpr (deleteRules_apart.1.imp (fun h => hapart _ _ h)), ?_⟩
  intro r hr
  obtain ⟨rule, hrule, rfl⟩ := List.mem_map.mp hr
  exact hapart rule rule (deleteRules_apart.2 rule hrule)

theorem mem_provenDeletedPks (hkeyed : ref.Keyed) :
    v ∈ db.provenDeletedPks null ref.parent ref.ppk ↔ Tombstoned (db.row ref.parent [v]) := by
  have hread : ∀ x, columnValue null ref.parent [x] (blank fun _ => null) ref.ppk = x := by
    intro x
    simp [columnValue, show pkColumns ref.parent = [ref.ppk] from hkeyed]
  simp only [Database.provenDeletedPks, Finset.mem_image, Finset.mem_filter]
  constructor
  · rintro ⟨k, ⟨hk, htomb⟩, rfl⟩
    have hlen := db.keyed ref.parent k hk
    rw [show pkColumns ref.parent = [ref.ppk] from hkeyed] at hlen
    obtain ⟨x, rfl⟩ := List.length_eq_one_iff.mp hlen
    rwa [hread x]
  · intro htomb
    refine ⟨[v], ⟨?_, htomb⟩, hread v⟩
    by_contra hk
    rw [Database.row, (db.table ref.parent).known _ hk] at htomb
    exact absurd htomb.1 (Nat.lt_irrefl 0)

theorem selects_iff (hkeyed : ∀ ref ∈ refs, ref.Keyed) :
    db.selects null child refs k = true ↔
      ∃ p ∈ dead db, refers null db (child, refs) (child, k) p := by
  constructor
  · intro h
    obtain ⟨cells, hcells, hany⟩ := Database.live_of_selects h
    obtain ⟨ref, href, hrefers⟩ := List.any_eq_true.mp hany
    simp only [Database.refersProven, Bool.and_eq_true, decide_eq_true_eq] at hrefers
    obtain ⟨hnull, hmem⟩ := hrefers
    exact ⟨_, (mem_provenDeletedPks (hkeyed ref href)).mp hmem, rfl, ref, href, cells, hcells, hnull,
      rfl⟩
  · rintro ⟨p, hp, _, ref, href, cells, hcells, hnull, rfl⟩
    simp only [Database.selects, hcells]
    refine List.any_eq_true.mpr ⟨ref, href, ?_⟩
    simp only [Database.refersProven, Bool.and_eq_true, decide_eq_true_eq]
    exact ⟨hnull, (mem_provenDeletedPks (hkeyed ref href)).mpr hp⟩

theorem row_delete : (db.delete null child refs).row t k =
    if t = child ∧ db.selects null child refs k = true then (db.row t k).deleted
    else db.row t k := by
  simp only [Database.row, Database.delete]
  by_cases ht : t = child
  · subst ht
    simp only [Function.update_self, Replica.deleteWhere, true_and]
  · simp only [Function.update_of_ne ht, ht, false_and, if_false]

theorem tombstoned_deleted {cells : String → Cell V} (h : (db.row t k).cells = some cells) :
    Tombstoned (db.row t k).deleted := by
  have hodd := Database.odd_of_cells h
  simp only [Tombstoned, Row.deleted]
  omega

theorem not_tombstoned_of_live {cells : String → Cell V} (h : (db.row t k).cells = some cells) :
    ¬Tombstoned (db.row t k) := by
  have hodd := Database.odd_of_cells h
  simp only [Tombstoned]
  omega

/-- A `DELETE` is one sweep of its rule. -/
theorem dead_delete (hkeyed : ∀ ref ∈ refs, ref.Keyed) :
    dead (db.delete null child refs) = sweep (refers null db (child, refs)) (dead db) := by
  ext ⟨t, k⟩
  rw [YapStack.Cascade.mem_sweep]
  simp only [dead, Set.mem_ofPred_eq, row_delete]
  by_cases hsel : t = child ∧ db.selects null child refs k = true
  · obtain ⟨rfl, hsel⟩ := hsel
    obtain ⟨cells, hcells, _⟩ := Database.live_of_selects hsel
    simp only [hsel, and_self, if_true]
    exact iff_of_true (tombstoned_deleted hcells) (Or.inr ((selects_iff hkeyed).mp hsel))
  · rw [if_neg hsel]
    refine ⟨Or.inl, fun h => h.elim (fun h => h) ?_⟩
    rintro ⟨p, hp, hrefers⟩
    obtain rfl : t = child := hrefers.1
    exact absurd ⟨rfl, (selects_iff hkeyed).mpr ⟨p, hp, hrefers⟩⟩ hsel

/-- Since `db`, some live rows were deleted and nothing else was written. -/
def Follows (db cur : Database V) : Prop :=
  ∀ t k, cur.row t k = db.row t k ∨
    (∃ cells, (db.row t k).cells = some cells) ∧ cur.row t k = (db.row t k).deleted

theorem Follows.refl (db : Database V) : Follows db db := fun _ _ => Or.inl rfl

theorem Follows.live {cells : String → Cell V} (h : Follows db cur)
    (hcells : (cur.row t k).cells = some cells) : cur.row t k = db.row t k := by
  obtain heq | ⟨_, heq⟩ := h t k
  · exact heq
  · rw [heq] at hcells
    cases hcells

theorem Follows.delete (h : Follows db cur) (child : String) (refs : List Ref) :
    Follows db (cur.delete null child refs) := by
  intro t k
  rw [row_delete]
  split
  · rename_i hsel
    obtain ⟨rfl, hsel⟩ := hsel
    obtain ⟨cells, hcells, _⟩ := Database.live_of_selects hsel
    have heq := h.live hcells
    rw [heq] at hcells ⊢
    exact Or.inr ⟨⟨cells, hcells⟩, rfl⟩
  · exact h t k

theorem Follows.of_not_dead (h : Follows db cur) (hn : n ∉ dead cur) :
    cur.row n.1 n.2 = db.row n.1 n.2 := by
  obtain heq | ⟨⟨cells, hcells⟩, heq⟩ := h n.1 n.2
  · exact heq
  · apply absurd _ hn
    rw [dead, Set.mem_ofPred_eq, heq]
    exact tombstoned_deleted hcells

/-- References are read from rows that no earlier rule has written. -/
theorem Follows.sweep (h : Follows db cur) (rule : DeleteRule) :
    Cascade.sweep (refers null cur rule) (dead cur) =
      Cascade.sweep (refers null db rule) (dead cur) := by
  ext n
  rw [YapStack.Cascade.mem_sweep, YapStack.Cascade.mem_sweep]
  by_cases hn : n ∈ dead cur
  · exact iff_of_true (Or.inl hn) (Or.inl hn)
  · simp only [hn, false_or, refers, h.of_not_dead hn]

variable (null) in
def runDeletes (rules : List DeleteRule) (db : Database V) : Database V :=
  rules.foldl (fun db rule => db.delete null rule.1 rule.2) db

variable (null) in
theorem runDeletes_pass {rules : List DeleteRule}
    (hkeyed : ∀ rule ∈ rules, ∀ ref ∈ rule.2, ref.Keyed) (h : Follows db cur) :
    Follows db (runDeletes null rules cur) ∧
      dead (runDeletes null rules cur) = pass (rules.map (refers null db)) (dead cur) := by
  induction rules generalizing cur with
  | nil => exact ⟨h, rfl⟩
  | cons rule rules ih =>
    have hdelete : dead (cur.delete null rule.1 rule.2) = _ :=
      dead_delete (hkeyed rule List.mem_cons_self)
    have hnext : Follows db (cur.delete null rule.1 rule.2) := h.delete rule.1 rule.2
    obtain ⟨hfollows, hdead⟩ := ih (fun r hr => hkeyed r (List.mem_cons_of_mem _ hr)) hnext
    refine ⟨hfollows, ?_⟩
    simp only [runDeletes, List.foldl_cons] at hdead ⊢
    rw [hdead, hdelete, h.sweep]
    rfl

theorem row_nullOut : (db.nullOut null child ref).row t k =
    if t = child ∧ db.selects null child [ref] k = true then
      { db.row t k with
        cells := (db.row t k).cells.map (fun cells =>
          Function.update cells ref.fk ((cells ref.fk).updated null)) }
    else db.row t k := by
  simp only [Database.row, Database.nullOut]
  by_cases ht : t = child
  · subst ht
    simp only [Function.update_self, Database.nullWhere, true_and]
  · simp only [Function.update_of_ne ht, ht, false_and, if_false]

theorem nullOut_cl : ((db.nullOut null child ref).row t k).cl = (db.row t k).cl := by
  rw [row_nullOut]
  split <;> rfl

theorem dead_nullOut : dead (db.nullOut null child ref) = dead db := by
  ext n
  simp only [dead, Set.mem_ofPred_eq, Tombstoned, nullOut_cl]

theorem updated_value (cell : Cell V) (v : V) : (cell.updated v).value = v := by
  simp only [Cell.updated]
  split
  · assumption
  · rfl

/-- A rule nulls this column of a row: the row that it refers to is dead. -/
def Nulled (null : V) (db : Database V) (rules : List (String × Ref)) (t : String)
    (cells : String → Cell V) (col : String) : Prop :=
  ∃ rule ∈ rules, rule.1 = t ∧ rule.2.fk = col ∧ (cells col).value ≠ null ∧
    (rule.2.parent, [(cells col).value]) ∈ dead db

/-- The columns of a row after the rules have run. -/
structure NulledBy (null : V) (db : Database V) (rules : List (String × Ref)) (t : String)
    (cells cells' : String → Cell V) : Prop where
  nulled : ∀ col, Nulled null db rules t cells col → cells' col = (cells col).updated null
  kept : ∀ col, ¬Nulled null db rules t cells col → cells' col = cells col

theorem nulled_cons {rule : String × Ref} {rules : List (String × Ref)} {cells : String → Cell V}
    {col : String} : Nulled null db (rule :: rules) t cells col ↔
      Nulled null db [rule] t cells col ∨ Nulled null db rules t cells col := by
  simp only [Nulled, List.mem_cons, List.not_mem_nil, or_false, or_and_right, exists_or,
    exists_eq_left]

theorem selects_single {cells : String → Cell V} (hkeyed : ref.Keyed) (hfk : ref.fk ∉ pkColumns t)
    (hcells : (db.row t k).cells = some cells) :
    db.selects null t [ref] k = true ↔ Nulled null db [(t, ref)] t cells ref.fk := by
  have hread : columnValue null t k cells ref.fk = (cells ref.fk).value := by
    rw [columnValue, List.idxOf?_eq_none_iff.mpr hfk]
  have hall : ∀ r ∈ [ref], r.Keyed := by simpa using hkeyed
  rw [selects_iff hall]
  constructor
  · rintro ⟨p, hp, _, r, hr, cells', hcells', hnull, rfl⟩
    rw [List.mem_singleton] at hr
    subst hr
    rw [hcells, Option.some.injEq] at hcells'
    subst hcells'
    rw [hread] at hp hnull
    exact ⟨_, List.mem_singleton_self _, rfl, rfl, hnull, hp⟩
  · rintro ⟨rule, hrule, _, _, hnull, hp⟩
    rw [List.mem_singleton] at hrule
    subst hrule
    refine ⟨_, hp, rfl, ref, List.mem_singleton_self _, cells, hcells, ?_, ?_⟩
    · rwa [hread]
    · rw [hread]

theorem nullOut_cells {cells : String → Cell V} (hkeyed : ref.Keyed)
    (hfk : ref.fk ∉ pkColumns child) (hcells : (db.row t k).cells = some cells) :
    ∃ cells', ((db.nullOut null child ref).row t k).cells = some cells' ∧
      NulledBy null db [(child, ref)] t cells cells' := by
  rw [row_nullOut]
  split
  · rename_i hsel
    obtain ⟨rfl, hsel⟩ := hsel
    have hnulled := (selects_single hkeyed hfk hcells).mp hsel
    refine ⟨Function.update cells ref.fk ((cells ref.fk).updated null), by rw [hcells]; rfl,
      fun col hcol => ?_, fun col hcol => ?_⟩
    · obtain ⟨rule, hrule, _, hname, _⟩ := hcol
      rw [List.mem_singleton.mp hrule] at hname
      obtain rfl : ref.fk = col := hname
      exact Function.update_self _ _ _
    · rw [Function.update_of_ne]
      rintro rfl
      exact hcol hnulled
  · rename_i hsel
    refine ⟨cells, hcells, fun col hcol => ?_, fun col hcol => rfl⟩
    obtain ⟨rule, hrule, hname, hcolumn, hnull, hdead⟩ := hcol
    rw [List.mem_singleton] at hrule
    subst hrule
    obtain rfl : child = t := hname
    obtain rfl : ref.fk = col := hcolumn
    apply absurd _ hsel
    exact ⟨rfl, (selects_single hkeyed hfk hcells).mpr
      ⟨_, List.mem_singleton_self _, rfl, rfl, hnull, hdead⟩⟩

theorem nullOut_none (hnone : (db.row t k).cells = none) :
    (db.nullOut null child ref).row t k = db.row t k := by
  rw [row_nullOut]
  split
  · rw [hnone, Option.map_none, ← hnone]
  · rfl

variable (null) in
def runNulls (rules : List (String × Ref)) (db : Database V) : Database V :=
  rules.foldl (fun db rule => db.nullOut null rule.1 rule.2) db

theorem runNulls_cl {rules : List (String × Ref)} :
    ((runNulls null rules db).row t k).cl = (db.row t k).cl := by
  induction rules generalizing db with
  | nil => rfl
  | cons rule rules ih => rw [runNulls, List.foldl_cons, ← runNulls, ih, nullOut_cl]

theorem runNulls_none {rules : List (String × Ref)} (hnone : (db.row t k).cells = none) :
    (runNulls null rules db).row t k = db.row t k := by
  induction rules generalizing db with
  | nil => rfl
  | cons rule rules ih =>
    have hsame : (db.nullOut null rule.1 rule.2).row t k = db.row t k := nullOut_none hnone
    rw [runNulls, List.foldl_cons, ← runNulls, ih (by rw [hsame, hnone]), hsame]

theorem runNulls_cells {rules : List (String × Ref)} {cells : String → Cell V}
    (hkeyed : ∀ rule ∈ rules, rule.2.Keyed) (hfk : ∀ rule ∈ rules, rule.2.fk ∉ pkColumns rule.1)
    (hcells : (db.row t k).cells = some cells) :
    ∃ cells', ((runNulls null rules db).row t k).cells = some cells' ∧
      NulledBy null db rules t cells cells' := by
  induction rules generalizing db cells with
  | nil => exact ⟨cells, hcells, by simp [Nulled], fun _ _ => rfl⟩
  | cons rule rules ih =>
    obtain ⟨mid, hmid, hfirst⟩ := nullOut_cells (hkeyed rule List.mem_cons_self)
      (hfk rule List.mem_cons_self) hcells
    obtain ⟨cells', hcells', hlater⟩ := ih (fun r hr => hkeyed r (List.mem_cons_of_mem _ hr))
      (fun r hr => hfk r (List.mem_cons_of_mem _ hr)) hmid
    refine ⟨cells', hcells', fun col hcol => ?_, fun col hcol => ?_⟩
    · by_cases hnow : Nulled null db [rule] t cells col
      · have hmidcol := hfirst.nulled col hnow
        have hnot : ¬Nulled null (db.nullOut null rule.1 rule.2) rules t mid col := by
          rintro ⟨_, _, _, _, hvalue, _⟩
          rw [hmidcol, updated_value] at hvalue
          exact hvalue rfl
        rw [hlater.kept col hnot, hmidcol]
      · have hmidcol := hfirst.kept col hnow
        have hrest := (nulled_cons.mp hcol).resolve_left hnow
        rw [hlater.nulled col (by simpa only [Nulled, dead_nullOut, hmidcol] using hrest), hmidcol]
    · rw [nulled_cons, not_or] at hcol
      have hmidcol := hfirst.kept col hcol.1
      rw [hlater.kept col (by simpa only [Nulled, dead_nullOut, hmidcol] using hcol.2), hmidcol]

end YapStack.Sync.Cascade
