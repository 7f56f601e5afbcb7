import YapStack.Migrations.Conversion

set_option linter.unusedSectionVars false

namespace YapStack.Migrations

open Faulty Faulty.Prog

variable {F : Fate → Prop} {α : Type} {c₀ c : Conn} {t u : Name} {S S' S'' : Schema}
  {later : List Name} {m : Migration} {crr fk : Bool} {st : Statement}

def Migration.creates (m : Migration) : List SchemaObject := objectsAfter [] (m.sql.map Text.means)

/-- Everything that the migration creates is there. With CRRs in the database, a sync table that it
creates or alters is one of them, and its triggers match its columns. -/
structure Landed (later : List Name) (m : Migration) (S : Schema) : Prop where
  present : ∀ o ∈ m.creates, S.present o = true
  crr : S.isCrr "sessions" = true → ∀ x ∈ m.sql, ∀ t ∈ x.means.touched, t ∈ syncTables later →
    S.isCrr t = true ∧ S.crrTriggersAreStale t = false

/-- Every CRR has a table without foreign keys and triggers that match it, and only CRRs have
cr-sqlite's triggers. -/
def Healthy (later : List Name) (S : Schema) : Prop :=
  S.isCrr "sessions" = true → ∀ t ∈ syncTables later,
    (S.clocks t = true → ∃ T, S.tables t = some T ∧ T.Free ∧ S.slots t = some T.columns) ∧
    (S.clocks t = false → S.slots t = none)

theorem sessions_mem (later : List Name) : "sessions" ∈ syncTables later := by
  simp [syncTables, cutoverTables]

theorem Healthy.fresh (h : Healthy later S) (hcrr : S.isCrr "sessions" = true)
    (ht : t ∈ syncTables later) (hclock : S.clocks t = true) :
    S.crrTriggersAreStale t = false := by
  obtain ⟨T, hT, -, hslots⟩ := (h hcrr t ht).1 hclock
  simp [Schema.crrTriggersAreStale, hT, hslots]

theorem Healthy.of_kept (h : Healthy later S) (hcrr : S'.isCrr "sessions" = S.isCrr "sessions")
    (hkept : S.isCrr "sessions" = true → ∀ t ∈ syncTables later, Kept S S' t) :
    Healthy later S' := by
  intro hS' t ht
  have hS := hcrr.symm.trans hS'
  have hk := hkept hS t ht
  refine ⟨fun hclock => ?_, fun hclock => ?_⟩
  · obtain ⟨T, hT, hfree, hslots⟩ := (h hS t ht).1 (hk.clocks ▸ hclock)
    obtain ⟨T', hT', hcols, -, hsame⟩ := hk.table T hT
    obtain rfl := hsame hfree
    exact ⟨T', hT', hfree, hk.slots.trans hslots⟩
  · exact hk.slots.trans ((h hS t ht).2 (hk.clocks ▸ hclock))

/-- A table that was not there is new: the others are as before. -/
theorem createTable_healthy {key unique : Bool} {columns : List Name} (h : Healthy later S)
    (hS : S.createTable true t columns key unique = .ok S') : Healthy later S' := by
  obtain ⟨hclocks, hslots⟩ := createTable_clocks hS
  intro hcrr u hu
  have hcrr' : S.isCrr "sessions" = true := by simpa only [Schema.isCrr, hclocks] using hcrr
  rw [hclocks, hslots]
  refine ⟨fun hclock => ?_, (h hcrr' u hu).2⟩
  obtain ⟨T, hT, hfree, hs⟩ := (h hcrr' u hu).1 hclock
  refine ⟨T, ?_, hfree, hs⟩
  by_cases hut : u = t
  · subst hut
    rw [createTable_self hS hT, hT]
  · obtain ⟨T', hT', -, -, hsame⟩ := (createTable_kept hS hut).table T hT
    rw [hT', hsame hfree]

theorem Rebuilt.isCrr (h : Rebuilt S S' t) (u : Name) : S'.isCrr u = S.isCrr u := by
  simp only [Schema.isCrr, h.1.clocks]

theorem Rebuilt.healthy (h : Rebuilt S S' t) (hS : Healthy later S)
    (hclock : S.clocks t = false) : Healthy later S' := by
  intro hcrr u hu
  rw [h.isCrr] at hcrr
  rw [h.1.clocks, h.2]
  refine ⟨fun hc => ?_, (hS hcrr u hu).2⟩
  have hne : u ≠ t := by
    rintro rfl
    rw [hclock] at hc
    cases hc
  rw [h.1.others u hne]
  exact (hS hcrr u hu).1 hc

/-- The two cases of `crsql_as_crr`. -/
theorem crsqlAsCrr_eq (h : crsqlAsCrr t S = .ok S') :
    ∃ T, S.tables t = some T ∧ ((S.slots t).isSome = true ∧ S' = S ∨ S' =
      { S with
        clocks := Function.update S.clocks t true
        slots := Function.update S.slots t (some T.columns) }) := by
  unfold crsqlAsCrr at h
  cases hT : S.tables t with
  | none => simp [hT] at h
  | some T =>
    refine ⟨T, rfl, ?_⟩
    simp only [hT] at h
    split at h
    · cases h
    · split at h
      · rename_i hslots
        exact Or.inl ⟨hslots, (Except.ok.inj h).symm⟩
      · exact Or.inr (Except.ok.inj h).symm

/-- The converted table, when the database was healthy before. -/
theorem converted_eq (hS : Healthy later S) (hcrr : S.isCrr "sessions" = true)
    (ht : t ∈ syncTables later) (hclock : S.clocks t = false) (h : Rebuilt S S' t)
    (has : crsqlAsCrr t S' = .ok S'') :
    ∃ T, S'.tables t = some T ∧ T.Free ∧ S'' =
      { S' with
        clocks := Function.update S'.clocks t true
        slots := Function.update S'.slots t (some T.columns) } := by
  obtain ⟨T₀, -, hT₀⟩ := h.1.table
  obtain ⟨T, hT, ⟨hslots, -⟩ | heq⟩ := crsqlAsCrr_eq has
  · rw [h.2, (hS hcrr t ht).2 hclock] at hslots
    cases hslots
  · refine ⟨T, hT, ?_, heq⟩
    obtain rfl : T₀.stripped = T := Option.some.inj (hT₀.symm.trans hT)
    exact T₀.stripped_free

theorem converted_healthy (hS : Healthy later S) (hcrr : S.isCrr "sessions" = true)
    (ht : t ∈ syncTables later) (hclock : S.clocks t = false) (h : Rebuilt S S' t)
    (has : crsqlAsCrr t S' = .ok S'') : Healthy later S'' := by
  obtain ⟨T, hT, hfree, rfl⟩ := converted_eq hS hcrr ht hclock h has
  have hS' := h.healthy hS hclock
  have hcrr' : S'.isCrr "sessions" = true := (h.isCrr _).trans hcrr
  intro _ u hu
  by_cases hut : u = t
  · subst hut
    exact ⟨fun _ => ⟨T, hT, hfree, by simp⟩, fun hc => by simp at hc⟩
  · simpa [hut] using hS' hcrr' u hu

/-- The clocks of other tables stay, and no clock goes. -/
theorem Ensured.clocks {d d' : Db} (h : Ensured t d d') (hu : d.schema.clocks u = true) :
    d'.schema.clocks u = true := by
  cases h with
  | same => exact hu
  | rebuilt S hclock hS => exact (congrFun hS.1.clocks u).trans hu
  | converted S S' hclock hS has =>
    have hSu : S.clocks u = true := (congrFun hS.1.clocks u).trans hu
    obtain ⟨T, -, ⟨-, rfl⟩ | rfl⟩ := crsqlAsCrr_eq has
    · exact hSu
    · by_cases hut : u = t
      · simp [hut]
      · simpa [hut] using hSu

theorem Ensured.isCrr {d d' : Db} (h : Ensured t d d') (hcrr : d.schema.isCrr "sessions" = true) :
    d'.schema.isCrr "sessions" = true :=
  h.clocks hcrr

theorem Ensured.healthy {d d' : Db} (h : Ensured t d d') (hd : Healthy later d.schema)
    (hcrr : d.schema.isCrr "sessions" = true) (ht : t ∈ syncTables later) :
    Healthy later d'.schema := by
  cases h with
  | same => exact hd
  | rebuilt S hclock hS => exact hS.healthy hd hclock
  | converted S S' hclock hS has => exact converted_healthy hd hcrr ht hclock hS has

theorem Ensured.history {d d' : Db} (h : Ensured t d d') :
    d'.recorded = d.recorded ∧ d'.altered = d.altered := by
  cases h with
  | same => exact ⟨rfl, rfl⟩
  | rebuilt S hclock hS => exact ⟨rfl, rfl⟩
  | converted S S' hclock hS has => exact ⟨rfl, rfl⟩

/-- When `ensure_crr` is done the table is a CRR. -/
theorem Finished.clocks {d d' : Db} (h : Finished t d d') (hd : Healthy later d.schema)
    (hcrr : d.schema.isCrr "sessions" = true) (ht : t ∈ syncTables later) :
    d'.schema.clocks t = true := by
  cases h with
  | already hclock => exact hclock
  | converted S S' hclock hS has =>
    obtain ⟨T, -, -, rfl⟩ := converted_eq hd hcrr ht hclock hS has
    simp

/-- The wrapped `ALTER TABLE` leaves the table a CRR whose triggers match it. -/
theorem altered_healthy {change : Change} (hS : Healthy later S)
    (hcrr : S.isCrr "sessions" = true) (ht : t ∈ syncTables later)
    (h : (crsqlBeginAlter t S).alterTable t change = .ok S')
    (hcommit : crsqlCommitAlter t S' = .ok S'') :
    Healthy later S'' ∧ S''.clocks = S.clocks ∧ S''.clocks t = true ∧
      S''.crrTriggersAreStale t = false ∧ ∀ v, change ≠ .renameTo v := by
  obtain ⟨hclocks, hslots⟩ := alterTable_clocks h
  unfold crsqlCommitAlter at hcommit
  obtain ⟨T, T', hT, rfl, hrows, hnot⟩ | ⟨v, rfl, hv, rfl⟩ := alterTable_eq h
  · have hT' : ((crsqlBeginAlter t S).putTable t T').tables t = some T' := by
      simp [Schema.putTable]
    simp only [hT'] at hcommit
    split at hcommit
    · cases hcommit
    · rename_i hok
      obtain rfl := Except.ok.inj hcommit
      have hclock : S.clocks t = true := by
        simp only [Bool.or_eq_true, Bool.not_eq_true', not_or, Bool.not_eq_false] at hok
        exact hok.1
      obtain ⟨T₀, hT₀, hfree, -⟩ := (hS hcrr t ht).1 hclock
      obtain rfl : T₀ = T := Option.some.inj (hT₀.symm.trans hT)
      have hfree' : T'.Free := by
        unfold Table.Free
        rw [hrows]
        exact hfree
      refine ⟨?_, rfl, hclock, ?_, hnot⟩
      · intro _ u hu
        by_cases hut : u = t
        · subst hut
          refine ⟨fun _ => ⟨T', hT', hfree', by simp⟩, fun hc => ?_⟩
          rw [show (S.clocks u) = false from hc] at hclock
          cases hclock
        · simpa [hut, Schema.putTable, crsqlBeginAlter] using hS hcrr u hu
      · simp [Schema.crrTriggersAreStale, Schema.putTable]
  · have hgone : ((crsqlBeginAlter t S).renameTable t v).tables t = none := by
      have hne : t ≠ v := by
        rintro rfl
        simp [Schema.alterTable, show (crsqlBeginAlter t S).tables t = none from hv] at h
      exact (Function.update_of_ne hne _ _).trans (Function.update_self _ _ _)
    simp [hgone] at hcommit

section Harmless

/-- The statement makes no CRR, and keeps the sync tables of a database that has some. -/
def Harmless (later : List Name) (crr : Bool) (st : Statement) : Prop :=
  ∀ fk S S', st.exec fk S = .ok S' → (∀ t ∈ syncTables later, S'.clocks t = S.clocks t) ∧
    (crr = true → ∀ t ∈ syncTables later, Kept S S' t)

theorem harmless_of_names (hint : ∀ t ∈ syncTables later, ∀ w ∈ st.names, w ∉ internals t)
    (hnames : crr = true → ∀ t ∈ syncTables later, t ∉ st.names) : Harmless later crr st := by
  intro fk S S' h
  exact ⟨fun t ht => Statement.clocks_kept h (hint t ht),
    fun hc t ht => Statement.kept h (hnames hc t ht) (hint t ht)⟩

theorem harmless_of_isIndex (hst : st.isIndex = true) : Harmless later crr st := by
  intro fk S S' h
  have hkept := fun t => Statement.isIndex_kept h hst t
  exact ⟨fun t _ => (hkept t).clocks, fun _ t _ => hkept t⟩

end Harmless

section Plain

/-- No statement that ran outside the wrapping has changed a sync table of a database with CRRs. -/
def LogOk (later : List Name) (l : List (Schema × Schema)) : Prop :=
  ∀ p ∈ l, p.1.isCrr "sessions" = true → ∀ t ∈ syncTables later,
    (p.1.tables t).isSome = true → Kept p.1 p.2 t

theorem LogOk.cons {l : List (Schema × Schema)} (h : LogOk later l)
    (hkept : S.isCrr "sessions" = true → ∀ t ∈ syncTables later, (S.tables t).isSome = true →
      Kept S S' t) : LogOk later ((S, S') :: l) := by
  intro p hp
  obtain rfl | hp := List.mem_cons.mp hp
  · exact hkept
  · exact h p hp

/-- Inside the transaction of a plain migration: the objects of `acc` are there. -/
structure Batch (later : List Name) (c₀ : Conn) (crr : Bool) (acc : List SchemaObject)
    (c : Conn) : Prop where
  state : ∃ d l, c = { c₀ with work := some d, plain := l }
  log : LogOk later c.plain
  recorded : c.view.recorded = c₀.durable.recorded
  altered : c.view.altered = c₀.durable.altered
  isCrr : c₀.durable.schema.isCrr "sessions" = crr
  clocks : ∀ t ∈ syncTables later, c.view.schema.clocks t = c₀.durable.schema.clocks t
  kept : crr = true → ∀ t ∈ syncTables later, Kept c₀.durable.schema c.view.schema t
  present : ∀ o ∈ acc, c.view.schema.present o = true

theorem Batch.forget {acc : List SchemaObject} (h : Batch later c₀ crr acc c) :
    Batch later c₀ crr [] c :=
  { h with present := fun _ h => by cases h }

theorem executeBatch_batch {acc : List SchemaObject} {x : Text}
    (hx : Harmless later crr x.means) :
    Triple F (Batch later c₀ crr acc) (executeBatch x)
      { done := fun _ => Batch later c₀ crr
          (acc.filter (fun o => !x.means.removes o) ++ x.means.creates)
        raised := fun _ => Batch later c₀ crr []
        stopped := Batch later c₀ crr [] } := by
  refine triple_act ?_ ?_ (fun _ c hc => hc.forget) (fun _ c hc => hc.forget)
  · intro c a c' hc h
    cases hS : x.means.exec c.foreignKeys c.view.schema with
    | error e => simp [hS, Except.map] at h
    | ok S =>
      simp only [hS, Except.map, Except.ok.injEq, Prod.mk.injEq] at h
      obtain ⟨-, rfl⟩ := h
      obtain ⟨hclocks, hkept⟩ := hx _ _ _ hS
      have hview := (hc.clocks "sessions" (sessions_mem later)).trans hc.isCrr
      obtain ⟨d, l, rfl⟩ := hc.state
      exact
        { state := ⟨_, _, rfl⟩
          log := hc.log.cons (fun h t ht _ => hkept (hview.symm.trans h) t ht)
          recorded := hc.recorded
          altered := hc.altered
          isCrr := hc.isCrr
          clocks := fun t ht => (hclocks t ht).trans (hc.clocks t ht)
          kept := fun h t ht => (hc.kept h t ht).trans (hkept h t ht)
          present := present_step hS hc.present }
  · intro c e hc h
    exact hc.forget

theorem forEach_batch {sql : List Text} (hsql : ∀ x ∈ sql, Harmless later crr x.means)
    (acc : List SchemaObject) :
    Triple F (Batch later c₀ crr acc) (forEach executeBatch sql)
      { done := fun _ => Batch later c₀ crr (objectsAfter acc (sql.map Text.means))
        raised := fun _ => Batch later c₀ crr []
        stopped := Batch later c₀ crr [] } := by
  induction sql generalizing acc with
  | nil => exact triple_done () (fun _ => id)
  | cons x sql ih =>
    refine triple_bind (executeBatch_batch (hsql x List.mem_cons_self)) (fun _ => ?_)
    exact ih (fun y hy => hsql y (List.mem_cons_of_mem x hy)) _

/-- What is known once the statements and the bookkeeping row have been committed. -/
structure Committed (later : List Name) (c₀ : Conn) (v : ℤ) (objects : List SchemaObject)
    (c : Conn) : Prop where
  work : c₀.work = none ∧ c.work = none
  durable : c.durable =
    { schema := c.durable.schema
      recorded := c₀.durable.recorded ++ [⟨v, c.durable.schema⟩]
      altered := c₀.durable.altered }
  log : LogOk later c.plain
  tidy : Tidy F c₀ c
  clocks : ∀ t ∈ syncTables later, c.durable.schema.clocks t = c₀.durable.schema.clocks t
  kept : c₀.durable.schema.isCrr "sessions" = true → ∀ t ∈ syncTables later,
    Kept c₀.durable.schema c.durable.schema t
  present : ∀ o ∈ objects, c.durable.schema.present o = true

theorem Committed.isCrr {v : ℤ} {objects : List SchemaObject}
    (h : Committed (F := F) later c₀ v objects c) :
    c.durable.schema.isCrr "sessions" = c₀.durable.schema.isCrr "sessions" :=
  h.clocks "sessions" (sessions_mem later)

theorem recordMigration_eq {d d' : Db}
    (h : (if m.version ∈ d.versions then .error .alreadyThere
      else .ok { d with recorded := d.recorded ++ [⟨m.version, d.schema⟩] } :
      Except Failure Db) = .ok d') :
    d' = { d with recorded := d.recorded ++ [⟨m.version, d.schema⟩] } := by
  split at h
  · cases h
  · exact (Except.ok.inj h).symm

theorem applyPlainly_spec {sql : List Text} {acc : List SchemaObject} (hlog : LogOk later c₀.plain)
    (hacc : c₀.work = none → ∀ o ∈ acc, c₀.durable.schema.present o = true)
    (hsql : c₀.work = none → ∀ x ∈ sql,
      Harmless later (c₀.durable.schema.isCrr "sessions") x.means) :
    Triple F (· = c₀) (applyPlainly sql m)
      { done := fun _ => Committed (F := F) later c₀ m.version
          (objectsAfter acc (sql.map Text.means))
        raised := fun _ c => c.durable = c₀.durable ∧ LogOk later c.plain ∧ Tidy F c₀ c
        stopped := fun c => c.durable = c₀.durable ∧ LogOk later c.plain } := by
  set crr := c₀.durable.schema.isCrr "sessions" with hcrr
  have hstop : ∀ c, Batch later c₀ crr [] c → c.durable = c₀.durable ∧ LogOk later c.plain := by
    intro c hc
    have hl := hc.log
    obtain ⟨d, l, rfl⟩ := hc.state
    exact ⟨rfl, hl⟩
  refine triple_bind (Q := fun _ c => c₀.work = none ∧ Batch later c₀ crr acc c) ?_ (fun _ => ?_)
  · refine triple_act ?_ ?_ ?_ ?_
    · rintro c a c' rfl h
      cases hw : c.work with
      | none =>
        simp only [hw, Except.ok.injEq, Prod.mk.injEq] at h
        obtain ⟨-, rfl⟩ := h
        exact ⟨rfl, ⟨⟨_, _, rfl⟩, hlog, rfl, rfl, hcrr.symm, fun _ _ => rfl,
          fun _ t _ => Kept.refl _ t, hacc hw⟩⟩
      | some d => simp [hw] at h
    · rintro c e rfl h
      exact ⟨rfl, hlog, Tidy.refl c⟩
    · rintro hF c rfl
      exact ⟨rfl, hlog, Tidy.refl c⟩
    · rintro hF c rfl
      exact ⟨rfl, hlog⟩
  refine Triple.of_fixed (fun hnone => ?_)
  refine triple_bind (Q := caught (fun _ c => ∃ S l, c = { c₀ with
          work := some
            { schema := S
              recorded := c₀.durable.recorded ++ [⟨m.version, S⟩]
              altered := c₀.durable.altered }
          plain := l } ∧
        LogOk later l ∧ (∀ t ∈ syncTables later, S.clocks t = c₀.durable.schema.clocks t) ∧
        (crr = true → ∀ t ∈ syncTables later, Kept c₀.durable.schema S t) ∧
        ∀ o ∈ objectsAfter acc (sql.map Text.means), S.present o = true)
      (fun _ => Batch later c₀ crr [])) ?_ (fun res => ?_)
  · refine triple_attempt (triple_bind (Q := fun _ => Batch later c₀ crr
      (objectsAfter acc (sql.map Text.means))) ?_ (fun _ => ?_))
    · exact (forEach_batch (hsql hnone) acc).imp (fun _ => id) (fun _ _ => id) (fun _ _ => id) hstop
    · refine triple_update ?_ (fun c e hc _ => hc.forget) (fun c hc => hc.forget)
        (fun c hc => hstop c hc.forget)
      intro c d' hc h
      have hd' := recordMigration_eq h
      obtain ⟨d, l, rfl⟩ := hc.state
      refine ⟨d.schema, l, ?_, hc.log, hc.clocks, hc.kept, hc.present⟩
      have hrec : d.recorded = c₀.durable.recorded := hc.recorded
      have halt : d.altered = c₀.durable.altered := hc.altered
      rw [hd', ← hrec, ← halt]
      rfl
  cases res with
  | ok a =>
    refine Triple.exists_pre (fun S => Triple.exists_pre (fun l => triple_points (fun c hc => ?_)))
    obtain ⟨rfl, hl, hS, hkept, hpresent⟩ := hc
    refine triple_act ?_ ?_ ?_ ?_
    · rintro c a c' rfl h
      simp only [Except.ok.injEq, Prod.mk.injEq] at h
      obtain ⟨-, rfl⟩ := h
      exact
        { work := ⟨hnone, rfl⟩
          durable := rfl
          log := hl
          tidy := ⟨id, Or.inr rfl, Or.inl (by rw [hnone])⟩
          clocks := hS
          kept := hkept
          present := hpresent }
    · rintro c e rfl h
      cases h
    · rintro hF c rfl
      exact ⟨rfl, hl, id, Or.inr rfl, Or.inr hF⟩
    · rintro hF c rfl
      exact ⟨rfl, hl⟩
  | error e =>
    refine triple_bind (Q := fun _ c => c.durable = c₀.durable ∧ LogOk later c.plain ∧
      Tidy F c₀ c) ?_ (fun _ => triple_raise e (fun _ => id))
    refine triple_attempt (triple_act ?_ ?_ ?_ (fun _ c hc => hstop c hc))
    · intro c a c' hc h
      have hl := hc.log
      obtain ⟨d, l, rfl⟩ := hc.state
      simp only [Except.ok.injEq, Prod.mk.injEq] at h
      obtain ⟨-, rfl⟩ := h
      exact ⟨rfl, hl, id, Or.inr rfl, Or.inl (by rw [hnone])⟩
    · intro c e hc h
      obtain ⟨d, l, rfl⟩ := hc.state
      cases h
    · intro hF c hc
      have hl := hc.log
      obtain ⟨d, l, rfl⟩ := hc.state
      exact ⟨rfl, hl, id, Or.inr rfl, Or.inr hF⟩

end Plain

end YapStack.Migrations
