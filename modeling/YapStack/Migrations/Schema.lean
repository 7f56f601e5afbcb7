import Mathlib.Data.Int.Notation
import Mathlib.Data.List.Basic
import Mathlib.Logic.Function.Basic

namespace YapStack.Migrations

abbrev Name := String

/-- A schema object that a migration creates, probed by name. -/
inductive SchemaObject
  | table (t : Name)
  | column (t c : Name)
  | index (i : Name)
  | trigger (g : Name)
  | virtualTable (t : Name)
  deriving DecidableEq

/-- `owners`: the tables that an `ON DELETE CASCADE` foreign key of the row leads to. -/
structure Row where
  cells : List String
  owners : List Name
  deriving DecidableEq

/-- `textKey`: the primary key is there and has only TEXT columns. -/
structure Table where
  columns : List Name
  textKey : Bool
  rows : List Row
  deriving DecidableEq

/-- No foreign key can take a row of the table along. -/
def Table.Free (T : Table) : Prop := ∀ r ∈ T.rows, r.owners = []

/-- `declared`: made by a `CREATE INDEX`, not by a constraint. -/
structure Index where
  table : Name
  unique : Bool
  declared : Bool
  deriving DecidableEq

/-- `clocks t`: the clock table of `t` exists. `slots t`: the columns that the three crsql triggers
of `t` pass, if they are there. `triggers` are those of the app. -/
structure Schema where
  tables : Name → Option Table
  indexes : List (Name × Index)
  triggers : List (Name × Name)
  clocks : Name → Bool
  slots : Name → Option (List Name)

inductive Failure
  | refused
  | alreadyThere
  | failed
  deriving DecidableEq

/-- The names of the objects that cr-sqlite keeps for `t`. -/
def internals (t : Name) : List Name :=
  ["__crsql_clock", "__crsql_pks", "__crsql_itrig", "__crsql_utrig", "__crsql_dtrig"].map (t ++ ·)

namespace Schema

variable (S : Schema)

def present : SchemaObject → Bool
  | .table t | .virtualTable t => (S.tables t).isSome
  | .column t c => (S.tables t).any (fun T => T.columns.contains c)
  | .index i => (S.indexes.lookup i).isSome
  | .trigger g => (S.triggers.lookup g).isSome

def isCrr (t : Name) : Bool := S.clocks t

def crrTriggersAreStale (t : Name) : Bool :=
  S.clocks t &&
    match S.slots t, S.tables t with
    | none, _ => true
    | some _, none => false
    | some cs, some T => cs != T.columns

/-- What cr-sqlite asks of a table: a primary key, and no other UNIQUE index. -/
def isTableCompatible (t : Name) : Bool :=
  (S.tables t).any (fun T => T.textKey) &&
    S.indexes.all (fun p => p.2.table != t || !p.2.unique)

def putTable (t : Name) (T : Table) : Schema :=
  { S with tables := Function.update S.tables t (some T) }

/-- With `foreign_keys` on, the rows that refer to a row of the table go with it. -/
def dropTable (fk : Bool) (t : Name) : Schema :=
  { S with
    tables := fun u => if u = t then none else (S.tables u).map (fun T =>
      if fk then { T with rows := T.rows.filter (fun r => !r.owners.contains t) } else T)
    indexes := S.indexes.filter (fun p => p.2.table != t)
    triggers := S.triggers.filter (fun p => p.2 != t)
    slots := Function.update S.slots t none }

def renameTable (t u : Name) : Schema :=
  { S with
    tables := Function.update (Function.update S.tables t none) u (S.tables t)
    indexes := S.indexes.map (fun p => if p.2.table = t then (p.1, { p.2 with table := u }) else p)
    triggers := S.triggers.map (fun p => if p.2 = t then (p.1, u) else p) }

def createTable (guarded : Bool) (t : Name) (columns : List Name) (textKey unique : Bool) :
    Except Failure Schema :=
  match S.tables t with
  | some _ => if guarded then .ok S else .error .alreadyThere
  | none => .ok
    { S with
      tables := Function.update S.tables t (some ⟨columns, textKey, []⟩)
      indexes := if unique then
          S.indexes ++ [("sqlite_autoindex_" ++ t ++ "_1", ⟨t, true, false⟩)] else S.indexes }

def createIndex (guarded unique : Bool) (i t : Name) : Except Failure Schema :=
  match S.indexes.lookup i with
  | some _ => if guarded then .ok S else .error .alreadyThere
  | none =>
    if (S.tables t).isSome then
      .ok { S with indexes := S.indexes ++ [(i, ⟨t, unique, true⟩)] }
    else .error .failed

def dropIndex (guarded : Bool) (i : Name) : Except Failure Schema :=
  match S.indexes.lookup i with
  | some ix =>
    if ix.declared then .ok { S with indexes := S.indexes.filter (fun p => p.1 != i) }
    else .error .failed
  | none => if guarded then .ok S else .error .failed

def createTrigger (g t : Name) : Except Failure Schema :=
  match S.triggers.lookup g with
  | some _ => .error .alreadyThere
  | none => .ok { S with triggers := S.triggers ++ [(g, t)] }

end Schema

/-- What one `ALTER TABLE` does. -/
inductive Change
  | add (c : Name)
  | drop (c : Name)
  | rename (c d : Name)
  | renameTo (u : Name)
  deriving DecidableEq

def Schema.alterTable (S : Schema) (t : Name) (change : Change) : Except Failure Schema :=
  match S.tables t with
  | none => .error .failed
  | some T =>
    match change with
    | .add c =>
      if c ∈ T.columns then .error .alreadyThere
      else .ok (S.putTable t { T with columns := T.columns ++ [c] })
    | .drop c =>
      if c ∈ T.columns then .ok (S.putTable t { T with columns := T.columns.filter (· != c) })
      else .error .failed
    | .rename c d =>
      if c ∉ T.columns then .error .failed
      else if d ∈ T.columns then .error .alreadyThere
      else .ok (S.putTable t { T with columns := T.columns.map (fun x => if x = c then d else x) })
    | .renameTo u =>
      if (S.tables u).isSome then .error .alreadyThere else .ok (S.renameTable t u)

/-- The table, its clocks and its triggers are as before. Only rows that a foreign key ties to
another table may be gone. -/
structure Kept (S S' : Schema) (t : Name) : Prop where
  table : ∀ T, S.tables t = some T → ∃ T', S'.tables t = some T' ∧ T'.columns = T.columns ∧
    T'.textKey = T.textKey ∧ (T.Free → T' = T)
  absent : S.tables t = none → S'.tables t = none
  clocks : S'.clocks t = S.clocks t
  slots : S'.slots t = S.slots t

/-- Any other statement: the objects it names, those that it creates and removes, and its effect. It
changes no table that it does not name, and none of cr-sqlite's own objects. -/
structure Other where
  names : List Name
  creates : List SchemaObject
  removes : SchemaObject → Bool
  run : Bool → Schema → Except Failure Schema
  clocks_kept : ∀ fk S S', run fk S = .ok S' → ∀ t, (∀ w ∈ names, w ∉ internals t) →
    S'.clocks t = S.clocks t
  kept : ∀ fk S S', run fk S = .ok S' → ∀ t, t ∉ names → (∀ w ∈ names, w ∉ internals t) →
    Kept S S' t
  created : ∀ fk S S', run fk S = .ok S' → ∀ o ∈ creates, S'.present o = true
  present_kept : ∀ fk S S', run fk S = .ok S' → ∀ o, S.present o = true → removes o = false →
    S'.present o = true

inductive Statement
  | createTable (guarded : Bool) (t : Name) (columns : List Name) (textKey unique : Bool)
  | createIndex (guarded unique : Bool) (i t : Name)
  | dropIndex (guarded : Bool) (i : Name)
  | alterTable (t : Name) (change : Change)
  | other (o : Other)

namespace Statement

def exec (fk : Bool) (S : Schema) : Statement → Except Failure Schema
  | createTable guarded t columns textKey unique => S.createTable guarded t columns textKey unique
  | createIndex guarded unique i t => S.createIndex guarded unique i t
  | dropIndex guarded i => S.dropIndex guarded i
  | alterTable t change => S.alterTable t change
  | other o => o.run fk S

/-- The objects that stand in the text of the statement. -/
def names : Statement → List Name
  | createTable _ t columns _ _ => t :: columns
  | createIndex _ _ i t => [i, t]
  | dropIndex _ i => [i]
  | alterTable t (.add c) => [t, c]
  | alterTable t (.drop c) => [t, c]
  | alterTable t (.rename c d) => [t, c, d]
  | alterTable t (.renameTo u) => [t, u]
  | other o => o.names

def creates : Statement → List SchemaObject
  | createTable _ t _ _ _ => [.table t]
  | createIndex _ _ i _ => [.index i]
  | dropIndex _ _ => []
  | alterTable t (.add c) => [.column t c]
  | alterTable _ (.drop _) => []
  | alterTable t (.rename _ d) => [.column t d]
  | alterTable _ (.renameTo u) => [.table u]
  | other o => o.creates

def removes : Statement → SchemaObject → Bool
  | dropIndex _ i, o => o = .index i
  | alterTable t (.drop c), o => o = .column t c
  | alterTable t (.rename c _), o => o = .column t c
  | alterTable t (.renameTo _), .table u => u = t
  | alterTable t (.renameTo _), .virtualTable u => u = t
  | alterTable t (.renameTo _), .column u _ => u = t
  | other o, x => o.removes x
  | _, _ => false

/-- The tables that the statement creates or alters. -/
def touched : Statement → List Name
  | createTable _ t _ _ _ => [t]
  | alterTable _ (.renameTo u) => [u]
  | alterTable t _ => [t]
  | _ => []

def isIndex : Statement → Bool
  | createIndex .. | dropIndex .. => true
  | _ => false

end Statement

/-- A statement as text: the words in it, among them the objects that it names. -/
structure Text where
  words : List Name
  means : Statement
  named : ∀ n ∈ means.names, n ∈ words

inductive Kind
  | plain
  | syncIndex
  | createSyncTable (t : Name)
  deriving DecidableEq

structure Migration where
  version : ℤ
  sql : List Text
  kind : Kind
  schemaEffects : List SchemaObject

section Laws

variable {S S' S'' : Schema} {t : Name} {fk : Bool} {st : Statement}

theorem Kept.refl (S : Schema) (t : Name) : Kept S S t where
  table := fun T hT => ⟨T, hT, rfl, rfl, fun _ => rfl⟩
  absent := id
  clocks := rfl
  slots := rfl

theorem Kept.trans (h : Kept S S' t) (h' : Kept S' S'' t) : Kept S S'' t where
  table := by
    intro T hT
    obtain ⟨T', hT', hcols, hkey, hfree⟩ := h.table T hT
    obtain ⟨T'', hT'', hcols', hkey', hfree'⟩ := h'.table T' hT'
    refine ⟨T'', hT'', hcols'.trans hcols, hkey'.trans hkey, fun hf => ?_⟩
    obtain rfl := hfree hf
    exact hfree' hf
  absent := h'.absent ∘ h.absent
  clocks := h'.clocks.trans h.clocks
  slots := h'.slots.trans h.slots

/-- A schema that differs only in its indexes and in the app's triggers keeps every table. -/
theorem Kept.of_eq (htables : S'.tables t = S.tables t) (hclocks : S'.clocks = S.clocks)
    (hslots : S'.slots = S.slots) : Kept S S' t where
  table := fun T hT => ⟨T, htables.trans hT, rfl, rfl, fun _ => rfl⟩
  absent := htables.trans
  clocks := by rw [hclocks]
  slots := by rw [hslots]

theorem createTable_kept {guarded key unique : Bool} {u : Name} {columns : List Name}
    (h : S.createTable guarded u columns key unique = .ok S') (hne : t ≠ u) : Kept S S' t := by
  unfold Schema.createTable at h
  cases hu : S.tables u with
  | some T =>
    cases guarded with
    | true =>
      simp only [hu, if_true, Except.ok.injEq] at h
      exact h ▸ Kept.refl S t
    | false => simp [hu] at h
  | none =>
    simp only [hu, Except.ok.injEq] at h
    subst h
    exact Kept.of_eq (Function.update_of_ne hne _ _) rfl rfl

theorem createTable_clocks {guarded key unique : Bool} {columns : List Name}
    (h : S.createTable guarded t columns key unique = .ok S') :
    S'.clocks = S.clocks ∧ S'.slots = S.slots := by
  unfold Schema.createTable at h
  cases hu : S.tables t with
  | some T =>
    cases guarded with
    | true =>
      simp only [hu, if_true, Except.ok.injEq] at h
      exact h ▸ ⟨rfl, rfl⟩
    | false => simp [hu] at h
  | none =>
    simp only [hu, Except.ok.injEq] at h
    exact h ▸ ⟨rfl, rfl⟩

/-- `IF NOT EXISTS` on the table itself: a table that is there stays, rows and all. -/
theorem createTable_self {key unique : Bool} {columns : List Name} {T : Table}
    (h : S.createTable true t columns key unique = .ok S') (hT : S.tables t = some T) :
    S' = S := by
  unfold Schema.createTable at h
  simp only [hT, if_true, Except.ok.injEq] at h
  exact h.symm

theorem createIndex_eq {guarded unique : Bool} {i u : Name}
    (h : S.createIndex guarded unique i u = .ok S') :
    S' = S ∧ (S.indexes.lookup i).isSome ∨
      S' = { S with indexes := S.indexes ++ [(i, ⟨u, unique, true⟩)] } := by
  unfold Schema.createIndex at h
  cases hi : S.indexes.lookup i with
  | some ix =>
    cases guarded with
    | true =>
      simp only [hi, if_true, Except.ok.injEq] at h
      exact Or.inl ⟨h.symm, rfl⟩
    | false => simp [hi] at h
  | none =>
    simp only [hi] at h
    split at h
    · exact Or.inr (Except.ok.inj h).symm
    · cases h

theorem dropIndex_eq {guarded : Bool} {i : Name} (h : S.dropIndex guarded i = .ok S') :
    S' = S ∨ S' = { S with indexes := S.indexes.filter (fun p => p.1 != i) } := by
  unfold Schema.dropIndex at h
  cases hi : S.indexes.lookup i with
  | some ix =>
    simp only [hi] at h
    split at h
    · exact Or.inr (Except.ok.inj h).symm
    · cases h
  | none =>
    cases guarded with
    | true =>
      simp only [hi, if_true, Except.ok.injEq] at h
      exact Or.inl h.symm
    | false => simp [hi] at h

theorem alterTable_eq {change : Change} {u : Name} (h : S.alterTable u change = .ok S') :
    (∃ T T', S.tables u = some T ∧ S' = S.putTable u T' ∧ T'.rows = T.rows ∧
        ∀ v, change ≠ .renameTo v) ∨
      ∃ v, change = .renameTo v ∧ S.tables v = none ∧ S' = S.renameTable u v := by
  unfold Schema.alterTable at h
  cases hu : S.tables u with
  | none => simp [hu] at h
  | some T =>
    cases change with
    | add c =>
      simp only [hu] at h
      split at h
      · cases h
      · exact Or.inl ⟨T, _, rfl, (Except.ok.inj h).symm, rfl, (fun _ h => by cases h)⟩
    | drop c =>
      simp only [hu] at h
      split at h
      · exact Or.inl ⟨T, _, rfl, (Except.ok.inj h).symm, rfl, (fun _ h => by cases h)⟩
      · cases h
    | rename c d =>
      simp only [hu] at h
      split at h
      · cases h
      · split at h
        · cases h
        · exact Or.inl ⟨T, _, rfl, (Except.ok.inj h).symm, rfl, (fun _ h => by cases h)⟩
    | renameTo v =>
      simp only [hu] at h
      split at h
      · cases h
      · rename_i hv
        exact Or.inr ⟨v, rfl, by simpa using hv, (Except.ok.inj h).symm⟩

theorem alterTable_clocks {change : Change} {u : Name} (h : S.alterTable u change = .ok S') :
    S'.clocks = S.clocks ∧ S'.slots = S.slots := by
  obtain ⟨_, _, _, rfl, _, _⟩ | ⟨_, _, _, rfl⟩ := alterTable_eq h
  · exact ⟨rfl, rfl⟩
  · exact ⟨rfl, rfl⟩

namespace Statement

theorem isIndex_kept (h : st.exec fk S = .ok S') (hst : st.isIndex = true) (t : Name) :
    Kept S S' t := by
  cases st with
  | createIndex guarded unique i u =>
    obtain ⟨rfl, _⟩ | rfl := createIndex_eq h
    · exact Kept.refl S' t
    · exact Kept.of_eq rfl rfl rfl
  | dropIndex guarded i =>
    obtain rfl | rfl := dropIndex_eq h
    · exact Kept.refl S' t
    · exact Kept.of_eq rfl rfl rfl
  | createTable guarded u columns key unique => cases hst
  | alterTable u change => cases hst
  | other o => cases hst

/-- A statement keeps every table that it does not name. -/
theorem kept (h : st.exec fk S = .ok S') (ht : t ∉ st.names)
    (hint : ∀ w ∈ st.names, w ∉ internals t) : Kept S S' t := by
  cases st with
  | createTable guarded u columns key unique =>
    exact createTable_kept h (by rintro rfl; exact ht List.mem_cons_self)
  | createIndex guarded unique i u => exact isIndex_kept h rfl t
  | dropIndex guarded i => exact isIndex_kept h rfl t
  | alterTable u change =>
    obtain ⟨hclocks, hslots⟩ := alterTable_clocks h
    have hu : t ≠ u := by
      rintro rfl
      cases change <;> exact ht List.mem_cons_self
    obtain ⟨T, T', _, rfl, _, _⟩ | ⟨v, rfl, _, rfl⟩ := alterTable_eq h
    · exact Kept.of_eq (Function.update_of_ne hu _ _) hclocks hslots
    · have hv : t ≠ v := by
        rintro rfl
        exact ht (by simp [names])
      refine Kept.of_eq ?_ hclocks hslots
      change Function.update (Function.update S.tables u none) v (S.tables u) t = S.tables t
      rw [Function.update_of_ne hv, Function.update_of_ne hu]
  | other o => exact o.kept fk S S' h t ht hint

theorem clocks_kept (h : st.exec fk S = .ok S') (hint : ∀ w ∈ st.names, w ∉ internals t) :
    S'.clocks t = S.clocks t := by
  cases st with
  | createTable guarded u columns key unique => rw [(createTable_clocks h).1]
  | createIndex guarded unique i u => exact (isIndex_kept h rfl t).clocks
  | dropIndex guarded i => exact (isIndex_kept h rfl t).clocks
  | alterTable u change => rw [(alterTable_clocks h).1]
  | other o => exact o.clocks_kept fk S S' h t hint

end Statement

theorem present_index {i : Name} :
    S.present (.index i) = true ↔ ∃ p ∈ S.indexes, i = p.1 := by
  simp [Schema.present, List.lookup_isSome_iff]

theorem present_putTable {T T' : Table} {o : SchemaObject} (hT : S.tables t = some T)
    (ho : S.present o = true)
    (hcols : ∀ c ∈ T.columns, o = .column t c → c ∈ T'.columns) :
    (S.putTable t T').present o = true := by
  have hsome : ∀ u, (S.tables u).isSome = true → ((S.putTable t T').tables u).isSome = true := by
    intro u hu
    by_cases hut : u = t
    · simp [Schema.putTable, hut]
    · simpa [Schema.putTable, hut] using hu
  cases o with
  | table u => exact hsome u ho
  | virtualTable u => exact hsome u ho
  | column u c =>
    by_cases hut : u = t
    · subst hut
      have hc : c ∈ T.columns := by simpa [Schema.present, hT] using ho
      simpa [Schema.present, Schema.putTable] using hcols c hc rfl
    · simpa [Schema.present, Schema.putTable, hut] using ho
  | index i => exact ho
  | trigger g => exact ho

theorem createTable_present_kept {guarded key unique : Bool} {columns : List Name}
    {o : SchemaObject} (h : S.createTable guarded t columns key unique = .ok S')
    (ho : S.present o = true) : S'.present o = true := by
  unfold Schema.createTable at h
  cases hu : S.tables t with
  | some T =>
    cases guarded with
    | true =>
      simp only [hu, if_true, Except.ok.injEq] at h
      exact h ▸ ho
    | false => simp [hu] at h
  | none =>
    simp only [hu, Except.ok.injEq] at h
    subst h
    have hsome : ∀ u, (S.tables u).isSome = true →
        ((Function.update S.tables t (some (⟨columns, key, []⟩ : Table))) u).isSome = true := by
      intro u hu'
      by_cases hut : u = t
      · simp [hut]
      · simpa [hut] using hu'
    cases o with
    | table u => exact hsome u ho
    | virtualTable u => exact hsome u ho
    | column u c =>
      have hut : u ≠ t := by
        rintro rfl
        simp [Schema.present, hu] at ho
      simpa [Schema.present, hut] using ho
    | index i =>
      obtain ⟨p, hp, hpi⟩ := present_index.mp ho
      refine present_index.mpr ⟨p, ?_, hpi⟩
      cases unique with
      | true => exact List.mem_append_left _ hp
      | false => exact hp
    | trigger g => exact ho

theorem renameTable_present {u : Name} {o : SchemaObject} (hu : S.tables u = none)
    (ho : S.present o = true)
    (hkeep : (Statement.alterTable t (.renameTo u)).removes o = false) :
    (S.renameTable t u).present o = true := by
  have htables : ∀ v, v ≠ t → (S.tables v).isSome = true →
      (S.renameTable t u).tables v = S.tables v := by
    intro v hv hsome
    have hvu : v ≠ u := by
      rintro rfl
      simp [hu] at hsome
    change Function.update (Function.update S.tables t none) u (S.tables t) v = S.tables v
    rw [Function.update_of_ne hvu, Function.update_of_ne hv]
  cases o with
  | table v =>
    have hv : v ≠ t := by simpa [Statement.removes] using hkeep
    simpa only [Schema.present, htables v hv ho] using ho
  | virtualTable v =>
    have hv : v ≠ t := by simpa [Statement.removes] using hkeep
    simpa only [Schema.present, htables v hv ho] using ho
  | column v c =>
    have hv : v ≠ t := by simpa [Statement.removes] using hkeep
    have hsome : (S.tables v).isSome = true := by
      cases hT : S.tables v with
      | none => simp [Schema.present, hT] at ho
      | some T => rfl
    simpa only [Schema.present, htables v hv hsome] using ho
  | index i =>
    obtain ⟨p, hp, hpi⟩ := present_index.mp ho
    refine present_index.mpr ⟨_, List.mem_map_of_mem hp, ?_⟩
    split
    · exact hpi
    · exact hpi
  | trigger g =>
    simp only [Schema.present, List.lookup_isSome_iff] at ho ⊢
    obtain ⟨p, hp, hpg⟩ := ho
    refine ⟨_, List.mem_map_of_mem hp, ?_⟩
    split
    · exact hpg
    · exact hpg

theorem alterTable_present_kept {change : Change} {o : SchemaObject}
    (h : S.alterTable t change = .ok S') (ho : S.present o = true)
    (hkeep : (Statement.alterTable t change).removes o = false) : S'.present o = true := by
  unfold Schema.alterTable at h
  cases hT : S.tables t with
  | none => simp [hT] at h
  | some T =>
    cases change with
    | add c =>
      simp only [hT] at h
      split at h
      · cases h
      · simp only [Except.ok.injEq] at h
        subst h
        exact present_putTable hT ho (fun d hd _ => List.mem_append_left _ hd)
    | drop c =>
      simp only [hT] at h
      split at h
      · simp only [Except.ok.injEq] at h
        subst h
        refine present_putTable hT ho (fun d hd hod => ?_)
        subst hod
        have hne : d ≠ c := by simpa [Statement.removes] using hkeep
        exact List.mem_filter.mpr ⟨hd, by simpa using hne⟩
      · cases h
    | rename c d =>
      simp only [hT] at h
      split at h
      · cases h
      · split at h
        · cases h
        · simp only [Except.ok.injEq] at h
          subst h
          refine present_putTable hT ho (fun x hx hox => ?_)
          subst hox
          have hne : x ≠ c := by simpa [Statement.removes] using hkeep
          exact List.mem_map.mpr ⟨x, hx, by simp [hne]⟩
    | renameTo u =>
      simp only [hT] at h
      split at h
      · cases h
      · rename_i hu
        simp only [Except.ok.injEq] at h
        subst h
        exact renameTable_present (by simpa using hu) ho hkeep

namespace Statement

theorem present_kept {o : SchemaObject} (h : st.exec fk S = .ok S') (ho : S.present o = true)
    (hkeep : st.removes o = false) : S'.present o = true := by
  cases st with
  | createTable guarded u columns key unique => exact createTable_present_kept h ho
  | createIndex guarded unique i u =>
    obtain ⟨rfl, _⟩ | rfl := createIndex_eq h
    · exact ho
    · cases o with
      | index j =>
        obtain ⟨p, hp, hpj⟩ := present_index.mp ho
        exact present_index.mpr ⟨p, List.mem_append_left _ hp, hpj⟩
      | table v => exact ho
      | virtualTable v => exact ho
      | column v c => exact ho
      | trigger g => exact ho
  | dropIndex guarded i =>
    obtain rfl | rfl := dropIndex_eq h
    · exact ho
    · cases o with
      | index j =>
        have hne : j ≠ i := by simpa [removes] using hkeep
        obtain ⟨p, hp, rfl⟩ := present_index.mp ho
        exact present_index.mpr ⟨p, List.mem_filter.mpr ⟨hp, by simpa using hne⟩, rfl⟩
      | table v => exact ho
      | virtualTable v => exact ho
      | column v c => exact ho
      | trigger g => exact ho
  | alterTable u change => exact alterTable_present_kept h ho hkeep
  | other x => exact x.present_kept fk S S' h o ho hkeep

theorem created (h : st.exec fk S = .ok S') : ∀ o ∈ st.creates, S'.present o = true := by
  cases st with
  | createTable guarded u columns key unique =>
    simp only [creates, List.mem_singleton, forall_eq]
    simp only [exec, Schema.createTable] at h
    cases hu : S.tables u with
    | some T =>
      cases guarded with
      | true =>
        simp only [hu, if_true, Except.ok.injEq] at h
        simp [Schema.present, ← h, hu]
      | false => simp [hu] at h
    | none =>
      simp only [hu, Except.ok.injEq] at h
      simp [Schema.present, ← h]
  | createIndex guarded unique i u =>
    simp only [creates, List.mem_singleton, forall_eq]
    obtain ⟨rfl, hi⟩ | rfl := createIndex_eq h
    · exact hi
    · exact present_index.mpr ⟨_, List.mem_append_right _ List.mem_cons_self, rfl⟩
  | dropIndex guarded i => exact fun o ho => (List.not_mem_nil ho).elim
  | alterTable u change =>
    simp only [exec, Schema.alterTable] at h
    cases hT : S.tables u with
    | none => simp [hT] at h
    | some T =>
      cases change with
      | add c =>
        simp only [hT] at h
        split at h
        · cases h
        · simp only [creates, List.mem_singleton, forall_eq]
          simp [Schema.present, ← Except.ok.inj h, Schema.putTable]
      | drop c => exact fun o ho => (List.not_mem_nil ho).elim
      | rename c d =>
        simp only [hT] at h
        split at h
        · cases h
        · rename_i hc
          split at h
          · cases h
          · simp only [creates, List.mem_singleton, forall_eq]
            have hc' : c ∈ T.columns := by simpa using hc
            have hd : d ∈ T.columns.map (fun x => if x = c then d else x) :=
              List.mem_map.mpr ⟨c, hc', by simp⟩
            simpa [Schema.present, ← Except.ok.inj h, Schema.putTable] using hd
      | renameTo v =>
        simp only [hT] at h
        split at h
        · cases h
        · simp only [creates, List.mem_singleton, forall_eq]
          simp [Schema.present, ← Except.ok.inj h, Schema.renameTable, hT]
  | other o => exact o.created fk S S' h

end Statement

/-- The objects that are there after the statements, of `acc` and of those that they create. -/
def objectsAfter (acc : List SchemaObject) : List Statement → List SchemaObject
  | [] => acc
  | st :: sts => objectsAfter (acc.filter (fun o => !st.removes o) ++ st.creates) sts

theorem present_step {acc : List SchemaObject} (h : st.exec fk S = .ok S')
    (hacc : ∀ o ∈ acc, S.present o = true) :
    ∀ o ∈ acc.filter (fun o => !st.removes o) ++ st.creates, S'.present o = true := by
  intro o ho
  obtain ho | ho := List.mem_append.mp ho
  · obtain ⟨hmem, hkeep⟩ := List.mem_filter.mp ho
    exact Statement.present_kept h (hacc o hmem) (by simpa using hkeep)
  · exact Statement.created h o ho

end Laws

end YapStack.Migrations
