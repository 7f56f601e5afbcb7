import Mathlib.Data.List.Nodup
import YapStack.Migrations.Launches

set_option linter.unusedSectionVars false

namespace YapStack.Migrations

open Faulty Faulty.Prog

variable {F : Fate → Prop} {c₀ c : Conn} {t : Name} {S S' : Schema}
  {later : List Name} {m : Migration} {ms : List Migration} {d₀ d d' : Db}

section Rows

/-- The rows of every table, without what their foreign keys point to. -/
def Db.rows (d : Db) (u : Name) : Option (List (List String)) :=
  (d.schema.tables u).map (fun T => T.rows.map Row.cells)

theorem Rebuilt.rows (h : Rebuilt S S' t) (u : Name) :
    (S'.tables u).map (fun T => T.rows.map Row.cells) =
      (S.tables u).map (fun T => T.rows.map Row.cells) := by
  by_cases hut : u = t
  · subst hut
    obtain ⟨T, hT, hT'⟩ := h.1.table
    rw [hT, hT', Option.map_some, Option.map_some, T.stripped_cells]
  · rw [h.1.others u hut]

theorem Ensured.rows (h : Ensured t d d') : d'.rows = d.rows := by
  funext u
  cases h with
  | same => rfl
  | rebuilt S hclock hS => exact hS.rows u
  | converted S S' hclock hS has =>
    obtain ⟨T, -, ⟨-, rfl⟩ | rfl⟩ := crsqlAsCrr_eq has
    · exact hS.rows u
    · exact hS.rows u

theorem ensureCrr_rows : Triple F (· = c₀) (ensureCrr t)
    (Post.always (fun c => c.durable.rows = c₀.durable.rows)) :=
  ensureCrr_spec.imp (fun _ => id) (fun _ _ h => h.2.1.ensured.rows)
    (fun _ _ h => h.1.1.rows) (fun _ h => h.1.1.rows)

end Rows

section ForeignKeys

theorem migrateEach_tidy (hms : ∀ m ∈ ms, Sound later m) {l : List Migration}
    (hl : ∀ m ∈ l, m ∈ ms) (versions : List ℤ) (hsafe : Safe later ms d₀ c₀) :
    Triple F (· = c₀) (migrateEach later versions l)
      { done := fun _ => Tidy F c₀
        raised := fun _ => Tidy F c₀
        stopped := fun _ => True } := by
  induction l generalizing c₀ with
  | nil =>
    refine triple_done _ ?_
    rintro c rfl
    exact Tidy.refl c
  | cons m l ih =>
    have hl' : ∀ m' ∈ l, m' ∈ ms := fun m' h => hl m' (List.mem_cons_of_mem m h)
    unfold migrateEach
    by_cases hv : m.version ∈ versions
    · rw [if_pos hv]
      exact ih hl' hsafe
    · rw [if_neg hv]
      refine triple_bind (Q := fun _ c => Safe later ms d₀ c ∧ Tidy F c₀ c) ?_
        (fun line => triple_points (fun c₁ hc₁ => ?_))
      · have hm := hl m List.mem_cons_self
        exact (migrate_spec hsafe hm (hms m hm)).imp (fun _ => id)
          (fun _ _ h => ⟨h.1, h.2.1⟩) (fun _ _ => False.elim) (fun _ _ => trivial)
      · refine triple_bind (Q := fun _ => Tidy F c₀) ?_ (fun lines => triple_done _ (fun _ => id))
        exact (ih hl' hc₁.1).imp (fun _ => id) (fun _ _ h => hc₁.2.trans h)
          (fun _ _ h => hc₁.2.trans h) (fun _ => id)

theorem runMigrationsList_tidy (hms : ∀ m ∈ ms, Sound later m) {l : List Migration}
    (hl : ∀ m ∈ l, m ∈ ms) (hsafe : Safe later ms d₀ c₀) :
    Triple F (· = c₀) (runMigrationsList later l)
      { done := fun _ => Tidy F c₀
        raised := fun _ => Tidy F c₀
        stopped := fun _ => True } := by
  refine query_applied (fun _ _ => ?_) (Tidy.refl c₀) trivial
  refine triple_bind (Q := fun _ c => c = c₀) ?_
    (fun versions => migrateEach_tidy hms hl versions hsafe)
  refine triple_act ?_ ?_ ?_ (fun _ _ _ => trivial)
  · rintro c a c' rfl h
    simp only [Except.ok.injEq, Prod.mk.injEq] at h
    exact h.2.symm
  · intro c e hc h
    cases h
  · rintro hF c rfl
    exact Tidy.refl c

end ForeignKeys

section Calm

/-- No statement is made to fail. -/
def Calm (x : Fate) : Prop := x = .works

theorem not_calm_fails : ¬Calm .fails := (by rintro ⟨⟩)

theorem not_calm_stops : ¬Calm .stops := (by rintro ⟨⟩)

theorem calm_query {α : Type} {f : Schema → α} {P : Conn → Prop} {R : Post Conn Failure α}
    (h : ∀ c, P c → R.done (f c.view.schema) c) : Triple Calm P (query f) R := by
  refine triple_act ?_ ?_ (fun hF => absurd hF not_calm_fails)
    (fun hF => absurd hF not_calm_stops)
  · intro c a c' hc hf
    simp only [Except.ok.injEq, Prod.mk.injEq] at hf
    obtain ⟨rfl, rfl⟩ := hf
    exact h c hc
  · intro c e hc hf
    cases hf

theorem calm_update {f : Bool → Db → Except Failure Db} {P : Conn → Prop}
    {R : Post Conn Failure Unit}
    (hdone : ∀ c d, P c → f c.foreignKeys c.view = .ok d → R.done () (c.put d))
    (hthrows : ∀ c e, P c → f c.foreignKeys c.view = .error e → R.raised e c) :
    Triple Calm P (update f) R := by
  refine triple_act ?_ ?_ (fun hF => absurd hF not_calm_fails)
    (fun hF => absurd hF not_calm_stops)
  · intro c a c' hc h
    cases hf : f c.foreignKeys c.view with
    | ok d =>
      simp only [hf, Except.map, Except.ok.injEq, Prod.mk.injEq] at h
      exact h.2 ▸ hdone c d hc hf
    | error e => simp [hf, Except.map] at h
  · intro c e hc h
    cases hf : f c.foreignKeys c.view with
    | ok d => simp [hf, Except.map] at h
    | error e' =>
      simp only [hf, Except.map, Except.error.injEq] at h
      exact hthrows c e hc (h ▸ hf)

/-- An `ADD COLUMN` that an earlier launch has already committed. -/
theorem alterTable_again {change : Change} (hkeep : ∀ o, (Statement.alterTable t change).removes o =
      false) (h : (crsqlBeginAlter t S).alterTable t change = .error .alreadyThere) :
    ∀ o ∈ (Statement.alterTable t change).creates, S.present o = true ∧ o.onTable = some t := by
  unfold Schema.alterTable at h
  cases hT : (crsqlBeginAlter t S).tables t with
  | none => simp [hT] at h
  | some T =>
    have hT' : S.tables t = some T := hT
    cases change with
    | add c =>
      simp only [hT] at h
      split at h
      · rename_i hc
        simp only [Statement.creates, List.mem_singleton, forall_eq]
        exact ⟨by simpa [Schema.present, hT'] using hc, rfl⟩
      · cases h
    | drop c =>
      have hrem := hkeep (.column t c)
      simp [Statement.removes] at hrem
    | rename c d =>
      have hrem := hkeep (.column t c)
      simp [Statement.removes] at hrem
    | renameTo v =>
      have hrem := hkeep (.table t)
      simp [Statement.removes] at hrem

/-- The alter of migration `m` has been committed by an earlier launch. -/
structure Again (later : List Name) (m : Migration) (t : Name) (S : Schema) : Prop where
  plain : m.kind = .plain
  effects : m.schemaEffects ≠ []
  crr : S.isCrr "sessions" = true
  sync : t ∈ syncTables later
  clock : S.clocks t = true

theorem again_present {x : Text} (h : Again later m t S) (hs : Sound later m)
    (hS : Healthy later S) (hparse : parseSingleAlterTable m.sql = some (x, t))
    (hthrows : x.means.exec c.foreignKeys (crsqlBeginAlter t S) = .error .alreadyThere) :
    schemaEffectsPresent later (recordableEffects m) S = true := by
  obtain ⟨hsql, change, hx⟩ := parseSingleAlterTable_eq hparse
  obtain ⟨hiff, hkeep⟩ := hs.declared (by simp [h.plain]) h.effects
  have hkeep' : ∀ o, (Statement.alterTable t change).removes o = false :=
    hx ▸ hkeep x (by rw [hsql]; exact List.mem_cons_self)
  rw [hx] at hthrows
  have hall := alterTable_again hkeep' hthrows
  have heffects : recordableEffects m = m.schemaEffects := by
    simp only [recordableEffects, h.plain]
  rw [heffects]
  refine List.all_eq_true.mpr (fun o ho => ?_)
  have hcreates : o ∈ (Statement.alterTable t change).creates := by
    have hmem := (hiff o).mp ho
    simpa [Migration.creates, hsql, hx, objectsAfter] using hmem
  obtain ⟨hpresent, hon⟩ := hall o hcreates
  have hfresh := hS.fresh h.crr h.sync h.clock
  simp [hpresent, hon, Schema.isCrr, h.clock, hfresh]

theorem recordIfSchemaPresent_total : Triple F (fun _ => True) (recordIfSchemaPresent later m)
    { done := fun _ _ => True, raised := fun _ _ => False, stopped := fun _ => True } := by
  unfold recordIfSchemaPresent
  split
  · exact triple_done _ (fun _ _ => trivial)
  · refine triple_bind (Q := fun _ _ => True) ?_ (fun res => ?_)
    · exact triple_attempt (triple_query (fun _ _ => trivial) (fun _ _ => trivial)
        (fun _ _ => trivial))
    · cases res with
      | error e => exact triple_done _ (fun _ _ => trivial)
      | ok b =>
        cases b with
        | true =>
          refine triple_bind (Q := fun _ _ => True) ?_ (fun res => ?_)
          · exact triple_attempt (triple_update (fun _ _ _ _ => trivial) (fun _ _ _ _ => trivial)
              (fun _ _ => trivial) (fun _ _ => trivial))
          · cases res with
            | ok a => exact triple_done _ (fun _ _ => trivial)
            | error e => exact triple_done _ (fun _ _ => trivial)
        | false => exact triple_done _ (fun _ _ => trivial)

/-- The alter throws because its column is there. The fallback then records the migration. -/
theorem migrate_again {x : Text} (hsafe : Safe later ms d₀ c₀) (hs : Sound later m)
    (hnone : c₀.work = none) (hnew : m.version ∉ c₀.durable.versions)
    (hparse : parseSingleAlterTable m.sql = some (x, t))
    (hagain : Again later m t c₀.durable.schema) :
    Triple Calm (· = c₀) (migrate later m)
      { done := fun line _ => line ≠ .failed m.version .alreadyThere
        raised := fun _ _ => False
        stopped := fun _ => True } := by
  have hview := view_of_none hnone
  refine triple_bind (Q := fun res c => res = .error .alreadyThere → c = c₀ ∧
    x.means.exec c₀.foreignKeys (crsqlBeginAlter t c₀.durable.schema) = .error .alreadyThere)
    ?_ (fun res => ?_)
  · refine triple_attempt ?_
    unfold applyMigration
    simp only [hagain.plain]
    refine triple_bind (Q := fun b c => b = true ∧ c = c₀) ?_ (fun b => Triple.of_fixed ?_)
    · refine calm_query ?_
      rintro c rfl
      exact ⟨by rw [hview]; exact hagain.crr, rfl⟩
    · rintro rfl
      have hsync : (syncTables later).contains t = true := by simpa using hagain.sync
      simp only [if_true, applyPlainOnCrr, hparse, hsync]
      refine triple_bind (Q := fun _ c => c.view.versions = c₀.durable.versions) ?_ (fun _ => ?_)
      · refine (crsqlAlter_spec m.version x).imp (fun _ => id) ?_ ?_ ?_
        · rintro b c ⟨-, S₁, S₂, -, -, rfl⟩
          have hsame : ({ c₀ with durable := { c₀.durable with
              schema := S₂, altered := m.version :: c₀.durable.altered } } : Conn).view.versions =
              c₀.durable.versions := by
            simp [Conn.view, hnone, Db.versions]
          exact hsame
        · rintro e c ⟨hundone, hwhy⟩ he
          obtain rfl := Except.error.inj he
          obtain rfl | ⟨hF, -⟩ := hundone
          · obtain hfailed | hthrows := hwhy
            · cases hfailed
            · exact ⟨rfl, hthrows⟩
          · exact absurd hF not_calm_fails
        · exact fun _ _ => trivial
      · refine calm_update (fun c d hc _ => (by rintro ⟨⟩)) ?_
        intro c e hc h
        rw [hc, if_neg hnew] at h
        cases h
  cases res with
  | ok a => exact triple_done _ (fun _ _ => (by rintro ⟨⟩))
  | error e =>
    by_cases he : e = .alreadyThere
    · subst he
      refine triple_points (fun c hc => ?_)
      obtain ⟨rfl, hthrows⟩ := hc rfl
      have hpresent := again_present hagain hs hsafe.inv.healthy hparse hthrows
      have hne : (recordableEffects m).isEmpty = false := by
        simpa [recordableEffects, hagain.plain] using hagain.effects
      refine triple_bind (Q := fun b _ => b = true) ?_ (fun b => Triple.pre (O := fun c =>
        b = true ∧ True) (Triple.of_fixed ?_) (fun _ h => ⟨h, trivial⟩))
      · unfold recordIfSchemaPresent
        simp only [hne, Bool.false_eq_true, if_false]
        refine triple_bind (Q := fun res c' => c' = c ∧ res = .ok true) ?_ (fun res => ?_)
        · refine triple_attempt (calm_query ?_)
          rintro c' rfl
          exact ⟨rfl, by rw [hview, hpresent]⟩
        · refine triple_points (fun c' hc' => ?_)
          obtain ⟨rfl, rfl⟩ := hc'
          refine triple_bind (Q := fun res _ => res = .ok ()) ?_ (fun res => ?_)
          · refine triple_attempt (calm_update (fun _ _ _ _ => rfl) ?_)
            rintro c' e rfl h
            rw [hview, if_neg hnew] at h
            cases h
          · cases res with
            | ok a => exact triple_done _ (fun _ _ => rfl)
            | error e => exact triple_done _ (fun _ h => by cases h)
      · rintro rfl
        exact triple_done _ (fun _ _ => (by rintro ⟨⟩))
    · refine triple_bind (Q := fun _ _ => True)
        (recordIfSchemaPresent_total.pre (fun _ _ => trivial)) (fun b => ?_)
      cases b with
      | true => exact triple_done _ (fun _ _ => (by rintro ⟨⟩))
      | false =>
        refine triple_done _ (fun _ _ h => he ?_)
        simpa using h

/-- A statement of a rerun failed only because of what an interrupted launch had left. `refused`
is no statement: the migration is not a valid one. -/
def Excused (old : List ℤ) : Line → Prop
  | .applied _ => True
  | .present v e | .failed v e => e = .refused ∨ e = .alreadyThere ∧ v ∈ old

/-- Recorded, or not a valid migration, or an alter that declares no effects and was cut short. -/
def Settled (old : List ℤ) (lines : List Line) (m : Migration) (d : Db) : Prop :=
  m.version ∈ d.versions ∨ .failed m.version .refused ∈ lines ∨
    m.schemaEffects = [] ∧ m.version ∈ old ∧ .failed m.version .alreadyThere ∈ lines

/-- The state of a rerun before the migrations of `l`. -/
structure Rerun (later : List Name) (ms : List Migration) (d₀ : Db) (old versions : List ℤ)
    (l : List Migration) (c : Conn) : Prop where
  safe : Safe later ms d₀ c
  work : c.work = none
  old : ∀ v ∈ old, v ∈ c.durable.altered
  known : ∀ v ∈ versions, v ∈ c.durable.versions
  new : ∀ m ∈ l, m.version ∉ versions → m.version ∉ c.durable.versions

theorem migrate_calm (hms : ∀ m ∈ ms, Sound later m) (hnodup : (ms.map Migration.version).Nodup)
    {old versions : List ℤ} {l : List Migration} (hm : m ∈ ms) (hl : ∀ m' ∈ l, m' ∈ ms)
    (hdistinct : ∀ m' ∈ l, m'.version ≠ m.version) (hv : m.version ∉ versions)
    (hc : Rerun later ms d₀ old versions (m :: l) c₀) :
    Triple Calm (· = c₀) (migrate later m)
      { done := fun line c => Rerun later ms d₀ old versions l c ∧
          (∀ v ∈ c₀.durable.versions, v ∈ c.durable.versions) ∧
          (Excused old line → Settled old [line] m c.durable)
        raised := fun _ _ => False
        stopped := fun _ => True } := by
  have hs := hms m hm
  have hnew := hc.new m List.mem_cons_self hv
  have hnext : ∀ c vs, Safe later ms d₀ c → Tidy Calm c₀ c → Grown vs c₀.durable c.durable →
      (∀ v ∈ vs, v = m.version) → Rerun later ms d₀ old versions l c ∧
        ∀ v ∈ c₀.durable.versions, v ∈ c.durable.versions := by
    intro c vs hsafe htidy hgrown hvs
    have hup : ∀ v ∈ c₀.durable.versions, v ∈ c.durable.versions := by
      intro v hv'
      rw [hgrown.versions]
      exact List.mem_append_left _ hv'
    refine ⟨⟨hsafe, ?_, fun v hv' => hgrown.altered v (hc.old v hv'),
      fun v hv' => hup v (hc.known v hv'), ?_⟩, hup⟩
    · obtain hw | hF := htidy.work
      · rw [hc.work] at hw
        simpa using hw
      · exact absurd hF not_calm_fails
    · intro m' hm' hv' hmem
      rw [hgrown.versions] at hmem
      obtain hmem | hmem := List.mem_append.mp hmem
      · exact hc.new m' (List.mem_cons_of_mem m hm') hv' hmem
      · exact hdistinct m' hm' (hvs _ hmem)
  have hspec := migrate_spec (F := Calm) hc.safe hm hs
  have hstill : Triple Calm (· = c₀) (migrate later m)
      { done := fun line _ => m.schemaEffects ≠ [] → m.version ∈ old →
          line ≠ .failed m.version .alreadyThere
        raised := fun _ _ => False
        stopped := fun _ => True } := by
    by_cases hcase : m.schemaEffects ≠ [] ∧ m.version ∈ old
    · obtain ⟨m', hm', hver, hkind, hcrr, x, t, hparse, ht, hclock⟩ :=
        hc.safe.inv.altered m.version (hc.old _ hcase.2)
      obtain rfl : m' = m := List.inj_on_of_nodup_map hnodup hm' hm hver
      exact (migrate_again hc.safe hs hc.work hnew hparse
        ⟨hkind, hcase.1, hcrr, ht, hclock⟩).imp (fun _ => id) (fun _ _ h _ _ => h)
        (fun _ _ => id) (fun _ => id)
    · exact hspec.imp (fun _ => id) (fun _ _ _ h₁ h₂ => absurd ⟨h₁, h₂⟩ hcase)
        (fun _ _ => id) (fun _ _ => trivial)
  refine (hspec.and hstill).imp (fun _ h => ⟨h, h⟩) ?_ (fun _ _ h => h.1) (fun _ _ => trivial)
  rintro line c ⟨⟨hsafe, htidy, hgrown⟩, hline⟩
  obtain hgrown | ⟨hgrown, hfailed⟩ := hgrown
  · obtain ⟨hrerun, hup⟩ := hnext c _ hsafe htidy hgrown (by simp)
    refine ⟨hrerun, hup, fun _ => Or.inl ?_⟩
    rw [hgrown.versions]
    exact List.mem_append_right _ List.mem_cons_self
  · obtain ⟨hrerun, hup⟩ := hnext c _ hsafe htidy hgrown (by simp)
    refine ⟨hrerun, hup, fun hexcused => Or.inr ?_⟩
    obtain ⟨e, rfl⟩ := hfailed hc.work not_calm_fails
    obtain rfl | ⟨rfl, hold⟩ := hexcused
    · exact Or.inl List.mem_cons_self
    · refine Or.inr ⟨?_, hold, List.mem_cons_self⟩
      by_contra heffects
      exact hline heffects hold rfl

theorem Settled.mono {old : List ℤ} {lines lines' : List Line} (h : Settled old lines m d)
    (hlines : ∀ l ∈ lines, l ∈ lines') (hversions : ∀ v ∈ d.versions, v ∈ d'.versions) :
    Settled old lines' m d' := by
  obtain h | h | ⟨h₁, h₂, h₃⟩ := h
  · exact Or.inl (hversions _ h)
  · exact Or.inr (Or.inl (hlines _ h))
  · exact Or.inr (Or.inr ⟨h₁, h₂, hlines _ h₃⟩)

theorem migrateEach_calm (hms : ∀ m ∈ ms, Sound later m)
    (hnodup : (ms.map Migration.version).Nodup) {old versions : List ℤ} {l : List Migration}
    (hl : ∀ m ∈ l, m ∈ ms) (hlnodup : (l.map Migration.version).Nodup)
    (hc : Rerun later ms d₀ old versions l c₀) :
    Triple Calm (· = c₀) (migrateEach later versions l)
      { done := fun lines c => (∀ v ∈ c₀.durable.versions, v ∈ c.durable.versions) ∧
          ((∀ line ∈ lines, Excused old line) → ∀ m ∈ l, Settled old lines m c.durable)
        raised := fun _ _ => False
        stopped := fun _ => True } := by
  induction l generalizing c₀ with
  | nil =>
    refine triple_done _ ?_
    rintro c rfl
    exact ⟨fun _ => id, fun _ => (fun _ h => by cases h)⟩
  | cons m l ih =>
    have hl' : ∀ m' ∈ l, m' ∈ ms := fun m' h => hl m' (List.mem_cons_of_mem m h)
    rw [List.map_cons, List.nodup_cons] at hlnodup
    have hdistinct : ∀ m' ∈ l, m'.version ≠ m.version := fun m' hm' h =>
      hlnodup.1 (h ▸ List.mem_map_of_mem hm')
    unfold migrateEach
    by_cases hv : m.version ∈ versions
    · rw [if_pos hv]
      have hc' : Rerun later ms d₀ old versions l c₀ :=
        ⟨hc.safe, hc.work, hc.old, hc.known,
          fun m' hm' => hc.new m' (List.mem_cons_of_mem m hm')⟩
      refine (ih hl' hlnodup.2 hc').imp (fun _ => id) ?_ (fun _ _ => id) (fun _ => id)
      rintro lines c ⟨hup, hsettled⟩
      refine ⟨hup, fun hexcused m' hm' => ?_⟩
      obtain rfl | hm' := List.mem_cons.mp hm'
      · exact Or.inl (hup _ (hc.known _ hv))
      · exact hsettled hexcused m' hm'
    · rw [if_neg hv]
      refine triple_bind (Q := fun line c => Rerun later ms d₀ old versions l c ∧
        (∀ v ∈ c₀.durable.versions, v ∈ c.durable.versions) ∧
        (Excused old line → Settled old [line] m c.durable))
        (migrate_calm hms hnodup (hl m List.mem_cons_self) hl' hdistinct hv hc) (fun line => ?_)
      refine triple_points (fun c₁ hc₁ => ?_)
      obtain ⟨hrerun, hup₁, hline⟩ := hc₁
      refine triple_bind (Q := fun lines c => (∀ v ∈ c₁.durable.versions, v ∈ c.durable.versions) ∧
        ((∀ line ∈ lines, Excused old line) → ∀ m ∈ l, Settled old lines m c.durable))
        (ih hl' hlnodup.2 hrerun) (fun lines => triple_done _ ?_)
      rintro c ⟨hup, hsettled⟩
      refine ⟨fun v hv' => hup v (hup₁ v hv'), fun hexcused m' hm' => ?_⟩
      obtain rfl | hm' := List.mem_cons.mp hm'
      · refine (hline (hexcused line List.mem_cons_self)).mono ?_ hup
        intro l' hl''
        exact List.mem_singleton.mp hl'' ▸ List.mem_cons_self
      · exact (hsettled (fun l' h => hexcused l' (List.mem_cons_of_mem line h)) m' hm').mono
          (fun l' h => List.mem_cons_of_mem line h) (fun _ => id)

theorem runMigrationsList_calm (hms : ∀ m ∈ ms, Sound later m)
    (hnodup : (ms.map Migration.version).Nodup) (hsafe : Safe later ms d₀ c₀)
    (hnone : c₀.work = none) :
    Triple Calm (· = c₀) (runMigrationsList later ms)
      { done := fun lines c => (∀ line ∈ lines, Excused c₀.durable.altered line) →
          ∀ m ∈ ms, Settled c₀.durable.altered lines m c.durable
        raised := fun _ _ => False
        stopped := fun _ => True } := by
  refine triple_bind (Q := fun _ c => c = c₀) (calm_query (fun _ => id)) (fun _ => ?_)
  refine triple_bind (Q := fun versions c => versions = c₀.durable.versions ∧ c = c₀) ?_
    (fun versions => Triple.of_fixed ?_)
  · refine triple_act ?_ ?_ (fun hF => absurd hF not_calm_fails)
      (fun hF => absurd hF not_calm_stops)
    · rintro c a c' rfl h
      simp only [Except.ok.injEq, Prod.mk.injEq] at h
      exact ⟨by rw [← h.1, view_of_none hnone], h.2.symm⟩
    · intro c e hc h
      cases h
  · rintro rfl
    have hrerun : Rerun later ms d₀ c₀.durable.altered c₀.durable.versions ms c₀ :=
      ⟨hsafe, hnone, fun _ => id, fun _ => id, fun _ _ => id⟩
    exact (migrateEach_calm hms hnodup (fun _ => id) hnodup hrerun).imp (fun _ => id)
      (fun _ _ h => h.2) (fun _ _ => id) (fun _ => id)

end Calm

section Ends

theorem dropTx_steady : Steady dropTx := by
  refine steady_bind (steady_look _) (fun b => ?_)
  cases b with
  | true => exact steady_bind (steady_attempt (steady_act _ _ _)) (fun _ => steady_done ())
  | false => exact steady_done ()

theorem transaction_steady {body : Exec Bool} (h : Steady body) : Steady (transaction body) := by
  refine steady_bind (steady_act _ _ _) (fun _ => steady_bind (steady_attempt h) (fun res => ?_))
  cases res with
  | error e => exact steady_bind dropTx_steady (fun _ => steady_raise e)
  | ok b =>
    cases b with
    | true =>
      refine steady_bind (steady_attempt (steady_act _ _ _)) (fun res => ?_)
      cases res with
      | ok a => exact steady_done true
      | error e => exact steady_bind dropTx_steady (fun _ => steady_raise e)
    | false => exact steady_bind dropTx_steady (fun _ => steady_done false)

theorem crsqlAlter_steady (v : ℤ) (x : Text) : Steady (crsqlAlter v t x) := by
  refine transaction_steady ?_
  refine steady_bind (steady_act _ _ _) (fun _ => steady_bind (steady_act _ _ _) (fun _ => ?_))
  exact steady_bind (steady_act _ _ _) (fun _ => steady_done true)

theorem rebuild_steady : Steady (rebuild t) := by
  refine steady_bind (steady_act _ _ _) (fun crr => ?_)
  cases crr with
  | true => exact steady_done false
  | false =>
    refine steady_bind (steady_act _ _ _) (fun there => ?_)
    cases there with
    | false => exact steady_raise _
    | true =>
      refine steady_bind (steady_act _ _ _) (fun triggers => ?_)
      refine steady_bind (steady_act _ _ _) (fun slots => ?_)
      refine steady_bind (steady_act _ _ _) (fun indexes => ?_)
      refine steady_bind (steady_act _ _ _) (fun res => ?_)
      cases res with
      | error e => exact steady_raise e
      | ok T =>
        refine steady_bind (steady_act _ _ _) (fun _ => ?_)
        refine steady_bind (steady_act _ _ _) (fun _ => ?_)
        refine steady_bind (steady_act _ _ _) (fun _ => ?_)
        refine steady_bind (steady_act _ _ _) (fun _ => ?_)
        refine steady_bind (steady_forEach (fun _ _ => steady_act _ _ _)) (fun _ => ?_)
        refine steady_bind (steady_act _ _ _) (fun _ => ?_)
        exact steady_bind (steady_forEach (fun _ _ => steady_act _ _ _)) (fun _ => steady_done _)

theorem transformAndCrrify_steady : Steady (transformAndCrrify t) := by
  refine steady_bind (transaction_steady rebuild_steady) (fun b => ?_)
  cases b with
  | false => exact steady_done ()
  | true =>
    refine steady_bind (transaction_steady ?_) (fun _ => steady_done ())
    exact steady_bind (steady_act _ _ _) (fun _ => steady_done true)

theorem ensureCrr_steady : Steady (ensureCrr t) := by
  refine steady_bind (steady_act _ _ _) (fun fk => steady_bind (steady_act _ _ _) (fun _ => ?_))
  refine steady_bind (steady_attempt transformAndCrrify_steady) (fun res => ?_)
  refine steady_bind (steady_attempt (steady_act _ _ _)) (fun restored => ?_)
  cases res with
  | error e => exact steady_raise e
  | ok a =>
    cases restored with
    | error e => exact steady_raise e
    | ok b => exact steady_done ()

theorem applyPlainly_steady (sql : List Text) : Steady (applyPlainly sql m) := by
  refine steady_bind (steady_act _ _ _) (fun _ => steady_bind (steady_attempt ?_) (fun res => ?_))
  · exact steady_bind (steady_forEach (fun _ _ => steady_act _ _ _)) (fun _ => steady_act _ _ _)
  · cases res with
    | ok a => exact steady_act _ _ _
    | error e =>
      exact steady_bind (steady_attempt (steady_act _ _ _)) (fun _ => steady_raise e)

theorem applyPlainOnCrr_steady : Steady (applyPlainOnCrr later m) := by
  have hguard : Steady (if mentionsSyncTable later m.sql = true then raise .refused
      else applyPlainly m.sql m) := by
    split
    · exact steady_raise _
    · exact applyPlainly_steady m.sql
  unfold applyPlainOnCrr
  cases parseSingleAlterTable m.sql with
  | none => exact hguard
  | some p =>
    obtain ⟨x, t⟩ := p
    dsimp only
    split
    · exact steady_bind (crsqlAlter_steady _ x) (fun _ => steady_act _ _ _)
    · exact hguard

theorem applyMigration_steady : Steady (applyMigration later m) := by
  unfold applyMigration
  cases m.kind with
  | plain =>
    refine steady_bind (steady_act _ _ _) (fun b => ?_)
    cases b with
    | true => exact applyPlainOnCrr_steady
    | false => exact applyPlainly_steady m.sql
  | syncIndex =>
    refine steady_bind (steady_act _ _ _) (fun b => ?_)
    cases b with
    | true => exact applyPlainly_steady m.sql
    | false => exact steady_raise _
  | createSyncTable t =>
    refine steady_bind (steady_act _ _ _) (fun b => ?_)
    cases b with
    | false => exact steady_raise _
    | true =>
      refine steady_bind (steady_act _ _ _) (fun b => ?_)
      cases b with
      | false => exact applyPlainly_steady m.sql
      | true =>
        rw [if_pos rfl]
        unfold applyCreateSyncTableOnCrr
        split
        · exact steady_raise _
        · rename_i create indexes hsql
          refine steady_bind (steady_act _ _ _) (fun _ => ?_)
          exact steady_bind ensureCrr_steady (fun _ => applyPlainly_steady indexes)

theorem recordIfSchemaPresent_steady : Steady (recordIfSchemaPresent later m) := by
  unfold recordIfSchemaPresent
  split
  · exact steady_done false
  · refine steady_bind (steady_attempt (steady_act _ _ _)) (fun res => ?_)
    cases res with
    | error e => exact steady_done false
    | ok b =>
      cases b with
      | true =>
        refine steady_bind (steady_attempt (steady_act _ _ _)) (fun res => ?_)
        cases res with
        | ok a => exact steady_done true
        | error e => exact steady_done false
      | false => exact steady_done false

theorem migrateEach_steady (versions : List ℤ) (l : List Migration) :
    Steady (migrateEach later versions l) := by
  induction l with
  | nil => exact steady_done []
  | cons m l ih =>
    unfold migrateEach
    split
    · exact ih
    · refine steady_bind ?_ (fun line => steady_bind ih (fun lines => steady_done _))
      refine steady_bind (steady_attempt applyMigration_steady) (fun res => ?_)
      cases res with
      | ok a => exact steady_done _
      | error e =>
        refine steady_bind recordIfSchemaPresent_steady (fun b => ?_)
        cases b with
        | true => exact steady_done _
        | false => exact steady_done _

theorem runMigrationsList_steady (l : List Migration) : Steady (runMigrationsList later l) := by
  refine steady_bind (steady_act _ _ _) (fun _ => ?_)
  exact steady_bind (steady_act _ _ _) (fun versions => migrateEach_steady versions l)

end Ends

end YapStack.Migrations
