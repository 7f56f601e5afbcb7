import YapStack.Migrations.Safety

set_option linter.unusedSectionVars false

namespace YapStack.Migrations

open Faulty Faulty.Prog

variable {F : Fate → Prop} {α : Type} {c₀ c : Conn} {t : Name} {S S' : Schema}
  {later : List Name} {m : Migration} {ms : List Migration} {d₀ d d' : Db}

/-- What a migration of the list is like. Its SQL names none of cr-sqlite's own objects. The effects
that it declares, if it does, are what it creates, and it removes nothing then. Where it creates a
synced table, its SQL is the one statement for that, and statements for indexes. -/
structure Sound (later : List Name) (m : Migration) : Prop where
  external : ∀ x ∈ m.sql, ∀ w ∈ x.words, ∀ t ∈ syncTables later, w ∉ internals t
  declared : (∀ t, m.kind ≠ .createSyncTable t) → m.schemaEffects ≠ [] →
    (∀ o, o ∈ m.schemaEffects ↔ o ∈ m.creates) ∧ ∀ x ∈ m.sql, ∀ o, x.means.removes o = false
  formed : ∀ t, m.kind = .createSyncTable t → ∃ x xs, m.sql = x :: xs ∧
    createsTable t x.means = true ∧ ∀ y ∈ xs, isIndexStmt (fun u => u == t) y.means = true

/-- What is known of the database between two steps. -/
structure Inv (later : List Name) (ms : List Migration) (d₀ d : Db) : Prop where
  healthy : Healthy later d.schema
  never : d.schema.isCrr "sessions" = false → ∀ t ∈ syncTables later, d.schema.clocks t = false
  recorded : ∀ e ∈ d.recorded, e ∈ d₀.recorded ∨
    ∃ m ∈ ms, m.version = e.version ∧ Landed later m e.written
  altered : ∀ v ∈ d.altered, ∃ m ∈ ms, m.version = v ∧ m.kind = .plain ∧
    d.schema.isCrr "sessions" = true ∧ ∃ x t, parseSingleAlterTable m.sql = some (x, t) ∧
      t ∈ syncTables later ∧ d.schema.clocks t = true

/-- The database and the statements that have run outside the wrapping. -/
structure Safe (later : List Name) (ms : List Migration) (d₀ : Db) (c : Conn) : Prop where
  inv : Inv later ms d₀ c.durable
  log : LogOk later c.plain

/-- The bookkeeping rows that a part of a run has added. -/
structure Grown (vs : List ℤ) (d d' : Db) : Prop where
  versions : d'.versions = d.versions ++ vs
  altered : ∀ v ∈ d.altered, v ∈ d'.altered

theorem Grown.refl (d : Db) : Grown [] d d := ⟨by simp, fun _ => id⟩

theorem Grown.of_history (hrec : d'.recorded = d.recorded) (halt : d'.altered = d.altered) :
    Grown [] d d' :=
  ⟨by simp [Db.versions, hrec], fun v hv => halt ▸ hv⟩

theorem Grown.trans {d'' : Db} {vs ws : List ℤ} (h : Grown vs d d') (h' : Grown ws d' d'') :
    Grown (vs ++ ws) d d'' :=
  ⟨by rw [h'.versions, h.versions, List.append_assoc], fun v hv => h'.altered v (h.altered v hv)⟩

theorem Inv.move (h : Inv later ms d₀ d) (hhealthy : Healthy later d'.schema)
    (hrecorded : ∀ e ∈ d'.recorded, e ∈ d.recorded ∨
      ∃ m ∈ ms, m.version = e.version ∧ Landed later m e.written)
    (haltered : d'.altered = d.altered)
    (hclocks : (∀ t ∈ syncTables later, d'.schema.clocks t = d.schema.clocks t) ∨
      d.schema.isCrr "sessions" = true ∧ ∀ t, d.schema.clocks t = true →
        d'.schema.clocks t = true) : Inv later ms d₀ d' where
  healthy := hhealthy
  never := by
    intro hcrr t ht
    obtain hsame | ⟨hd, hup⟩ := hclocks
    · rw [hsame t ht]
      exact h.never ((hsame _ (sessions_mem later)).symm.trans hcrr) t ht
    · rw [show d'.schema.isCrr "sessions" = true from hup _ hd] at hcrr
      cases hcrr
  recorded := by
    intro e he
    obtain he | he := hrecorded e he
    · exact h.recorded e he
    · exact Or.inr he
  altered := by
    intro v hv
    rw [haltered] at hv
    obtain ⟨m, hm, hv, hkind, hcrr, x, t, hparse, ht, hclock⟩ := h.altered v hv
    have hup : ∀ u ∈ syncTables later, d.schema.clocks u = true → d'.schema.clocks u = true := by
      intro u hu hc
      obtain hsame | ⟨-, hup⟩ := hclocks
      · exact (hsame u hu).trans hc
      · exact hup u hc
    exact ⟨m, hm, hv, hkind, hup _ (sessions_mem later) hcrr, x, t, hparse, ht, hup t ht hclock⟩

theorem Inv.ensured (h : Inv later ms d₀ d) (he : Ensured t d d')
    (hcrr : d.schema.isCrr "sessions" = true) (ht : t ∈ syncTables later) :
    Inv later ms d₀ d' :=
  h.move (he.healthy h.healthy hcrr ht) (fun e hmem => Or.inl (by rwa [he.history.1] at hmem))
    he.history.2 (Or.inr ⟨hcrr, fun _ hclock => he.clocks hclock⟩)

theorem Inv.committed {objects : List SchemaObject}
    (h : Inv later ms d₀ c₀.durable) (hm : m ∈ ms)
    (hc : Committed (F := F) later c₀ m.version objects c)
    (hlanded : Landed later m c.durable.schema) : Inv later ms d₀ c.durable := by
  refine h.move ?_ ?_ ?_ ?_
  · exact h.healthy.of_kept hc.isCrr hc.kept
  · intro e he
    rw [hc.durable] at he
    obtain he | he := List.mem_append.mp he
    · exact Or.inl he
    · obtain rfl := List.mem_singleton.mp he
      exact Or.inr ⟨m, hm, rfl, hlanded⟩
  · rw [hc.durable]
  · exact Or.inl hc.clocks

theorem Committed.grown {v : ℤ} {objects : List SchemaObject}
    (h : Committed (F := F) later c₀ v objects c) : Grown [v] c₀.durable c.durable := by
  refine ⟨?_, ?_⟩
  · rw [h.durable]
    simp [Db.versions]
  · rw [h.durable]
    exact fun _ => id

/-- What holds of `applyMigration` and of its parts. -/
def applied (F : Fate → Prop) (later : List Name) (ms : List Migration) (d₀ : Db) (m : Migration)
    (c₀ : Conn) : Post Conn Failure Unit where
  done _ c := Safe later ms d₀ c ∧ Tidy F c₀ c ∧ c₀.work = none ∧ c.work = none ∧
    Grown [m.version] c₀.durable c.durable
  raised _ c := Safe later ms d₀ c ∧ Tidy F c₀ c ∧ Grown [] c₀.durable c.durable
  stopped := Safe later ms d₀

theorem applyPlainly_applied {sql : List Text} (acc : List SchemaObject)
    (hsafe : Safe later ms d₀ c₀) (hm : m ∈ ms)
    (hacc : c₀.work = none → ∀ o ∈ acc, c₀.durable.schema.present o = true)
    (hsql : c₀.work = none → ∀ x ∈ sql,
      Harmless later (c₀.durable.schema.isCrr "sessions") x.means)
    (hlanded : c₀.work = none → ∀ c, Committed (F := F) later c₀ m.version
      (objectsAfter acc (sql.map Text.means)) c → Landed later m c.durable.schema) :
    Triple F (· = c₀) (applyPlainly sql m) (applied F later ms d₀ m c₀) := by
  refine (applyPlainly_spec hsafe.log hacc hsql).imp (fun _ => id) ?_ ?_ ?_
  · intro _ c hc
    have hnone := hc.work.1
    exact ⟨⟨hsafe.inv.committed hm hc (hlanded hnone c hc), hc.log⟩, hc.tidy, hnone, hc.work.2,
      hc.grown⟩
  · rintro e c ⟨hd, hlog, htidy⟩
    exact ⟨⟨hd ▸ hsafe.inv, hlog⟩, htidy, hd ▸ Grown.refl _⟩
  · rintro c ⟨hd, hlog⟩
    exact ⟨hd ▸ hsafe.inv, hlog⟩

theorem touched_names {st : Statement} (ht : t ∈ st.touched) : t ∈ st.names := by
  cases st with
  | createTable guarded u columns key unique =>
    obtain rfl := List.mem_singleton.mp ht
    exact List.mem_cons_self
  | alterTable u change =>
    cases change with
    | renameTo v =>
      obtain rfl := List.mem_singleton.mp ht
      simp [Statement.names]
    | add c =>
      obtain rfl := List.mem_singleton.mp ht
      exact List.mem_cons_self
    | drop c =>
      obtain rfl := List.mem_singleton.mp ht
      exact List.mem_cons_self
    | rename c d =>
      obtain rfl := List.mem_singleton.mp ht
      exact List.mem_cons_self
  | createIndex guarded unique i u => cases ht
  | dropIndex guarded i => cases ht
  | other o => cases ht

theorem Sound.names (h : Sound later m) {x : Text} (hx : x ∈ m.sql) :
    ∀ t ∈ syncTables later, ∀ w ∈ x.means.names, w ∉ internals t :=
  fun t ht w hw => h.external x hx w (x.named w hw) t ht

theorem not_mentioned (h : mentionsSyncTable later m.sql = false) {x : Text} (hx : x ∈ m.sql)
    (ht : t ∈ syncTables later) : t ∉ x.words := by
  intro hmem
  have hany : mentionsSyncTable later m.sql = true :=
    List.any_eq_true.mpr ⟨t, ht, List.any_eq_true.mpr ⟨x, hx, by simpa using hmem⟩⟩
  rw [h] at hany
  cases hany

/-- A database without CRRs: every statement runs as it stands. -/
theorem applyPlainly_never (hsafe : Safe later ms d₀ c₀) (hm : m ∈ ms) (hs : Sound later m)
    (hcrr : c₀.work = none → c₀.durable.schema.isCrr "sessions" = false) :
    Triple F (· = c₀) (applyPlainly m.sql m) (applied F later ms d₀ m c₀) := by
  refine applyPlainly_applied [] hsafe hm (fun _ => (fun _ h => by cases h)) ?_ ?_
  · intro hnone x hx
    rw [hcrr hnone]
    exact harmless_of_names (hs.names hx) (by rintro ⟨⟩)
  · intro hnone c hc
    refine ⟨hc.present, fun h => ?_⟩
    rw [hc.isCrr, hcrr hnone] at h
    cases h

/-- SQL that names no sync table. -/
theorem applyPlainly_unmentioned (hsafe : Safe later ms d₀ c₀) (hm : m ∈ ms)
    (hs : Sound later m) (hmention : mentionsSyncTable later m.sql = false) :
    Triple F (· = c₀) (applyPlainly m.sql m) (applied F later ms d₀ m c₀) := by
  refine applyPlainly_applied [] hsafe hm (fun _ => (fun _ h => by cases h)) ?_ ?_
  · intro _ x hx
    exact harmless_of_names (hs.names hx)
      (fun _ t ht hmem => not_mentioned hmention hx ht (x.named t hmem))
  · intro _ c hc
    refine ⟨hc.present, fun _ x hx t htouched ht => ?_⟩
    exact absurd (x.named t (touched_names htouched)) (not_mentioned hmention hx ht)

theorem parseSingleAlterTable_eq {sql : List Text} {x : Text}
    (h : parseSingleAlterTable sql = some (x, t)) :
    sql = [x] ∧ ∃ change, x.means = .alterTable t change := by
  unfold parseSingleAlterTable at h
  split at h
  · rename_i y
    split at h
    · rename_i u change hy
      simp only [Option.some.injEq, Prod.mk.injEq] at h
      obtain ⟨rfl, rfl⟩ := h
      exact ⟨rfl, change, hy⟩
    · cases h
  · cases h

/-- The wrapped alter of a sync table has landed. -/
theorem altered_landed {x : Text} {change : Change} (hS : Healthy later S)
    (hcrr : S.isCrr "sessions" = true) (ht : t ∈ syncTables later) (hsql : m.sql = [x])
    (hx : x.means = .alterTable t change) {S₁ S₂ : Schema}
    (h : (crsqlBeginAlter t S).alterTable t change = .ok S₁)
    (hcommit : crsqlCommitAlter t S₁ = .ok S₂) : Landed later m S₂ := by
  obtain ⟨-, hclocks, hclock, hfresh, hnot⟩ := altered_healthy hS hcrr ht h hcommit
  have htouched : (Statement.alterTable t change).touched = [t] := by
    cases change with
    | renameTo v => exact absurd rfl (hnot v)
    | add c => rfl
    | drop c => rfl
    | rename c d => rfl
  constructor
  · intro o ho
    simp only [Migration.creates, hsql, List.map_cons, List.map_nil, hx, objectsAfter,
      List.filter_nil, List.nil_append] at ho
    have hexec : (Statement.alterTable t change).exec true (crsqlBeginAlter t S) = .ok S₁ := h
    have hpresent := Statement.created hexec o ho
    unfold crsqlCommitAlter at hcommit
    split at hcommit
    · cases hcommit
    · split at hcommit
      · cases hcommit
      · rw [← Except.ok.inj hcommit]
        cases o <;> exact hpresent
  · intro _ y hy u hu _
    rw [hsql, List.mem_singleton] at hy
    rw [hy, hx, htouched, List.mem_singleton] at hu
    exact hu ▸ ⟨hclock, hfresh⟩

theorem applyPlainOnCrr_applied (hsafe : Safe later ms d₀ c₀) (hm : m ∈ ms)
    (hs : Sound later m) (hkind : m.kind = .plain)
    (hcrr : c₀.work = none → c₀.durable.schema.isCrr "sessions" = true) :
    Triple F (· = c₀) (applyPlainOnCrr later m) (applied F later ms d₀ m c₀) := by
  have hguard : Triple F (· = c₀) (if mentionsSyncTable later m.sql = true then raise .refused
      else applyPlainly m.sql m) (applied F later ms d₀ m c₀) := by
    cases hmention : mentionsSyncTable later m.sql with
    | true =>
      refine triple_raise _ ?_
      rintro c rfl
      exact ⟨hsafe, Tidy.refl c, Grown.refl _⟩
    | false => exact applyPlainly_unmentioned hsafe hm hs hmention
  unfold applyPlainOnCrr
  cases hparse : parseSingleAlterTable m.sql with
  | none => exact hguard
  | some p =>
    obtain ⟨x, t⟩ := p
    by_cases ht : (syncTables later).contains t = true
    · simp only [ht, if_true]
      have ht' : t ∈ syncTables later := by simpa using ht
      obtain ⟨hsql, change, hx⟩ := parseSingleAlterTable_eq hparse
      refine triple_bind (Q := fun _ c => c₀.work = none ∧ ∃ S₁ S₂,
        (crsqlBeginAlter t c₀.durable.schema).alterTable t change = .ok S₁ ∧
        crsqlCommitAlter t S₁ = .ok S₂ ∧ c = { c₀ with durable :=
          { c₀.durable with schema := S₂, altered := m.version :: c₀.durable.altered } })
        ?_ (fun _ => ?_)
      · refine (crsqlAlter_spec m.version x).imp (fun _ => id) ?_ ?_ ?_
        · rintro a c ⟨hnone, S₁, S₂, h₁, h₂, hc⟩
          rw [hx] at h₁
          exact ⟨hnone, S₁, S₂, h₁, h₂, hc⟩
        · rintro e c ⟨hc, -⟩
          exact ⟨⟨hc.durable ▸ hsafe.inv, hc.plain ▸ hsafe.log⟩, hc.tidy,
            hc.durable ▸ Grown.refl _⟩
        · rintro c ⟨hd, hp⟩
          exact ⟨hd ▸ hsafe.inv, hp ▸ hsafe.log⟩
      refine Triple.of_fixed (fun hnone => Triple.exists_pre (fun S₁ => Triple.exists_pre
        (fun S₂ => Triple.of_fixed (fun h₁ => Triple.of_fixed (fun h₂ => ?_)))))
      have hhealthy := hsafe.inv.healthy
      obtain ⟨hS₂, hclocks, hclock, -, -⟩ := altered_healthy hhealthy (hcrr hnone) ht' h₁ h₂
      have hlanded := altered_landed hhealthy (hcrr hnone) ht' hsql hx h₁ h₂
      have hmove : Inv later ms d₀ { c₀.durable with schema := S₂ } :=
        hsafe.inv.move hS₂ (fun e he => Or.inl he) rfl (Or.inl (fun u _ => by rw [hclocks]))
      have hinv : ∀ d, d.schema = S₂ → d.altered = m.version :: c₀.durable.altered →
          (∀ e ∈ d.recorded, e ∈ c₀.durable.recorded ∨ e = ⟨m.version, S₂⟩) →
          Inv later ms d₀ d := by
        intro d hschema halt hrec
        refine ⟨hschema ▸ hS₂, hschema ▸ hmove.never, ?_, ?_⟩
        · intro e he
          obtain he | rfl := hrec e he
          · exact hsafe.inv.recorded e he
          · exact Or.inr ⟨m, hm, rfl, hlanded⟩
        · intro v hv
          rw [halt] at hv
          rw [hschema]
          obtain rfl | hv := List.mem_cons.mp hv
          · refine ⟨m, hm, rfl, hkind, ?_, x, t, hparse, ht', hclock⟩
            rw [Schema.isCrr, hclocks]
            exact hcrr hnone
          · exact hmove.altered v hv
      have hmid : Safe later ms d₀ { c₀ with durable :=
          { c₀.durable with schema := S₂, altered := m.version :: c₀.durable.altered } } :=
        ⟨hinv _ rfl rfl (fun e he => Or.inl he), hsafe.log⟩
      have hmid' : Grown [] c₀.durable
          { c₀.durable with schema := S₂, altered := m.version :: c₀.durable.altered } :=
        ⟨by simp [Db.versions], fun v hv => List.mem_cons_of_mem _ hv⟩
      refine triple_update ?_ ?_ ?_ ?_
      · rintro c d rfl h
        have hd := recordMigration_eq h
        have hview : ∀ d', ({ c₀ with durable := d' } : Conn).view = d' := by
          intro d'
          simp [Conn.view, hnone]
        rw [hview] at hd
        have hput : ({ c₀ with durable := { c₀.durable with
            schema := S₂, altered := m.version :: c₀.durable.altered } } : Conn).put d =
            { c₀ with durable := d } := by
          simp [Conn.put, hnone]
        rw [hput, hd]
        refine ⟨⟨hinv _ rfl rfl ?_, hsafe.log⟩, ⟨id, Or.inr rfl, Or.inl rfl⟩, hnone, hnone, ?_⟩
        · intro e he
          obtain he | he := List.mem_append.mp he
          · exact Or.inl he
          · exact Or.inr (List.mem_singleton.mp he)
        · exact ⟨by simp [Db.versions], fun v hv => List.mem_cons_of_mem _ hv⟩
      · rintro c e rfl h
        exact ⟨hmid, ⟨id, Or.inr rfl, Or.inl rfl⟩, hmid'⟩
      · rintro c rfl
        exact ⟨hmid, ⟨id, Or.inr rfl, Or.inl rfl⟩, hmid'⟩
      · rintro c rfl
        exact hmid
    · simp only [Bool.not_eq_true] at ht
      simp only [ht, Bool.false_eq_true, if_false]
      exact hguard

section CreateSyncTable

theorem isIndexStmt_isIndex {onTable : Name → Bool} {st : Statement}
    (h : isIndexStmt onTable st = true) : st.isIndex = true := by
  unfold isIndexStmt at h
  split at h
  · rfl
  · rfl
  · cases h

theorem validateIndexStatements_isIndex {onTable : Name → Bool} {sts : List Statement}
    (h : validateIndexStatements S onTable sts = true) : ∀ st ∈ sts, st.isIndex = true := by
  simp only [validateIndexStatements, Bool.and_eq_true, List.all_eq_true] at h
  exact fun st hst => isIndexStmt_isIndex (h.1.1 st hst)

theorem isIndex_touched {st : Statement} (h : st.isIndex = true) : st.touched = [] := by
  cases st with
  | createIndex guarded unique i u => rfl
  | dropIndex guarded i => rfl
  | createTable guarded u columns key unique => cases h
  | alterTable u change => cases h
  | other o => cases h

theorem createsTable_eq {st : Statement} (h : createsTable t st = true) :
    ∃ columns key, st = .createTable true t columns key false := by
  unfold createsTable at h
  split at h
  · rename_i u columns key unique
    simp only [Bool.and_eq_true, beq_iff_eq, Bool.not_eq_true'] at h
    obtain ⟨⟨rfl, -⟩, rfl⟩ := h
    exact ⟨columns, key, rfl⟩
  · cases h

/-- The `CREATE TABLE IF NOT EXISTS` before the conversion runs on its own. -/
theorem executeBatch_create {x : Text} (hx : createsTable t x.means = true)
    (hsafe : Safe later ms d₀ c₀) :
    Triple F (· = c₀) (executeBatch x)
      { done := fun _ c => Safe later ms d₀ c ∧ Tidy F c₀ c ∧ Grown [] c₀.durable c.durable ∧
          c.work.isSome = c₀.work.isSome ∧
          (c₀.work = none → c.durable.schema.isCrr "sessions" =
            c₀.durable.schema.isCrr "sessions")
        raised := fun _ c => c = c₀
        stopped := fun c => c = c₀ } := by
  obtain ⟨columns, key, hmeans⟩ := createsTable_eq hx
  refine triple_act ?_ (fun c e hc _ => hc) (fun _ c hc => hc) (fun _ c hc => hc)
  rintro c a c' rfl h
  cases hS : x.means.exec c.foreignKeys c.view.schema with
  | error e => simp [hS, Except.map] at h
  | ok S =>
    simp only [hS, Except.map, Except.ok.injEq, Prod.mk.injEq] at h
    obtain ⟨-, rfl⟩ := h
    rw [hmeans] at hS
    have hcreate : c.view.schema.createTable true t columns key false = .ok S := hS
    obtain ⟨hclocks, hslots⟩ := createTable_clocks hcreate
    have hlog : LogOk later ((c.view.schema, S) :: c.plain) := by
      refine hsafe.log.cons (fun _ u _ hu => ?_)
      by_cases hut : u = t
      · subst hut
        obtain ⟨T, hT⟩ := Option.isSome_iff_exists.mp hu
        rw [createTable_self hcreate hT]
        exact Kept.refl _ _
      · exact createTable_kept hcreate hut
    cases hw : c.work with
    | some d =>
      simp only [Conn.put, hw]
      exact ⟨⟨hsafe.inv, hlog⟩, ⟨id, Or.inr rfl, Or.inl (by simp [hw])⟩, Grown.refl _, by simp,
        (by rintro ⟨⟩)⟩
    | none =>
      have hview : c.view = c.durable := by simp [Conn.view, hw]
      rw [hview] at hcreate hclocks
      simp only [Conn.put, hw, hview]
      refine ⟨⟨hsafe.inv.move ?_ (fun e he => Or.inl he) rfl ?_, hview ▸ hlog⟩,
        ⟨id, Or.inr rfl, Or.inl (by simp [hw])⟩, ⟨by simp [Db.versions], fun _ => id⟩, by simp [hw], ?_⟩
      · exact createTable_healthy hsafe.inv.healthy hcreate
      · exact Or.inl (fun u _ => congrFun hclocks u)
      · intro _
        simp only [Schema.isCrr, hclocks]

theorem applyCreateSyncTableOnCrr_applied (hsafe : Safe later ms d₀ c₀) (hm : m ∈ ms)
    (hvalid : validateCreateSyncTableMigration later m t S = true)
    (hcrr : c₀.work = none → c₀.durable.schema.isCrr "sessions" = true) :
    Triple F (· = c₀) (applyCreateSyncTableOnCrr m t) (applied F later ms d₀ m c₀) := by
  simp only [validateCreateSyncTableMigration, Bool.and_eq_true] at hvalid
  obtain ⟨hlater, hsql⟩ := hvalid
  have ht : t ∈ syncTables later := List.mem_append_right _ (by simpa using hlater)
  unfold applyCreateSyncTableOnCrr
  cases hmsql : m.sql with
  | nil => simp [hmsql] at hsql
  | cons x xs =>
    simp only [hmsql, Bool.and_eq_true] at hsql
    obtain ⟨hx, hxs⟩ := hsql
    have hindex : ∀ y ∈ xs, y.means.isIndex = true := fun y hy =>
      validateIndexStatements_isIndex hxs y.means (List.mem_map_of_mem hy)
    obtain ⟨columns, key, hmeans⟩ := createsTable_eq hx
    refine triple_bind (Q := fun _ c => Safe later ms d₀ c ∧ Tidy F c₀ c ∧
      Grown [] c₀.durable c.durable ∧ c.work.isSome = c₀.work.isSome ∧
      (c₀.work = none → c.durable.schema.isCrr "sessions" = c₀.durable.schema.isCrr "sessions"))
      ?_ (fun _ => triple_points (fun c₁ hc₁ => ?_))
    · refine (executeBatch_create hx hsafe).imp (fun _ => id) (fun _ _ => id) ?_ ?_
      · rintro e c rfl
        exact ⟨hsafe, Tidy.refl c, Grown.refl _⟩
      · rintro c rfl
        exact hsafe
    obtain ⟨hsafe₁, htidy₁, hgrown₁, hwork₁, hcrr₁⟩ := hc₁
    have hnone₁ : c₁.work = none → c₀.work = none := by
      intro h
      simpa [h] using hwork₁
    have hcrrdb : c₁.work = none → c₁.durable.schema.isCrr "sessions" = true := fun h =>
      (hcrr₁ (hnone₁ h)).trans (hcrr (hnone₁ h))
    have hsafe_of : ∀ c, Reached t c₁ c.durable → c.plain = c₁.plain →
        Safe later ms d₀ c ∧ Grown [] c₀.durable c.durable := by
      rintro c ⟨hd, hopen⟩ hp
      obtain ⟨hrec, halt⟩ := hd.history
      refine ⟨⟨?_, hp ▸ hsafe₁.log⟩, hgrown₁.trans (Grown.of_history hrec halt)⟩
      cases hw : c₁.work with
      | some d => exact hopen (by rw [hw]; rfl) ▸ hsafe₁.inv
      | none => exact hsafe₁.inv.ensured hd (hcrrdb hw) ht
    refine triple_bind (Q := fun _ c => c₁.work = none ∧ Finished t c₁.durable c.durable ∧
      c.plain = c₁.plain ∧ Tidy F c₁ c) ?_ (fun _ => triple_points (fun c₂ hc₂ => ?_))
    · refine ensureCrr_spec.imp (fun _ => id) (fun _ _ => id) ?_ ?_
      · rintro e c ⟨hd, hp, htidy⟩
        obtain ⟨hsafe', hgrown⟩ := hsafe_of c hd hp
        exact ⟨hsafe', htidy₁.trans htidy, hgrown⟩
      · rintro c ⟨hd, hp⟩
        exact (hsafe_of c hd hp).1
    obtain ⟨hnone, hfin, hplain, htidy₂⟩ := hc₂
    obtain ⟨hsafe₂, hgrown₂⟩ := hsafe_of c₂ (Reached.of_none hfin.ensured hnone) hplain
    have hclock := hfin.clocks hsafe₁.inv.healthy (hcrrdb hnone) ht
    have hcrr₂ : c₂.durable.schema.isCrr "sessions" = true := hfin.ensured.isCrr (hcrrdb hnone)
    refine (applyPlainly_applied [.table t] hsafe₂ hm ?_ ?_ ?_).imp (fun _ => id) ?_ ?_
      (fun _ => id)
    · intro _ o ho
      obtain rfl := List.mem_singleton.mp ho
      obtain ⟨T, hT, -⟩ := (hsafe₂.inv.healthy hcrr₂ t ht).1 hclock
      simp [Schema.present, hT]
    · exact fun _ y hy => harmless_of_isIndex (hindex y hy)
    · intro _ c hc
      have hkept := hc.kept hcrr₂ t ht
      have hcrr₃ := hc.isCrr.trans hcrr₂
      have hhealthy := hsafe₂.inv.healthy.of_kept hc.isCrr hc.kept
      refine ⟨?_, ?_⟩
      · intro o ho
        simp only [Migration.creates, hmsql, List.map_cons, objectsAfter, hmeans,
          Statement.creates, List.filter_nil, List.nil_append] at ho
        exact hc.present o ho
      · intro _ y hy u hu _
        rw [hmsql] at hy
        obtain rfl | hy := List.mem_cons.mp hy
        · rw [hmeans] at hu
          obtain rfl := List.mem_singleton.mp hu
          have hclock' : c.durable.schema.clocks u = true := hkept.clocks.trans hclock
          exact ⟨hclock', hhealthy.fresh hcrr₃ ht hclock'⟩
        · rw [isIndex_touched (hindex y hy)] at hu
          cases hu
    · rintro a c ⟨hsafe₃, htidy₃, -, hnone₃, hgrown₃⟩
      exact ⟨hsafe₃, htidy₁.trans (htidy₂.trans htidy₃), hnone₁ hnone, hnone₃,
        hgrown₂.trans hgrown₃⟩
    · rintro e c ⟨hsafe₃, htidy₃, hgrown₃⟩
      exact ⟨hsafe₃, htidy₁.trans (htidy₂.trans htidy₃), hgrown₂.trans hgrown₃⟩

end CreateSyncTable

section Migrate

/-- A query on the way sees the database that the connection shows. -/
theorem query_applied {β : Type} {f : Schema → α} {p : α → Exec β} {R : Post Conn Failure β}
    (hnext : ∀ a, a = f c₀.view.schema → Triple F (· = c₀) (p a) R)
    (hraised : R.raised .failed c₀) (hstopped : R.stopped c₀) :
    Triple F (· = c₀) ((query f).bind p) R := by
  refine triple_bind (Q := fun a c => a = f c₀.view.schema ∧ c = c₀) ?_
    (fun a => Triple.of_fixed (hnext a))
  refine triple_query ?_ ?_ ?_
  · rintro c rfl
    exact ⟨rfl, rfl⟩
  · rintro c rfl
    exact hraised
  · rintro c rfl
    exact hstopped

theorem view_of_none (h : c.work = none) : c.view = c.durable := by
  simp [Conn.view, h]

theorem applyMigration_applied (hsafe : Safe later ms d₀ c₀) (hm : m ∈ ms)
    (hs : Sound later m) :
    Triple F (· = c₀) (applyMigration later m) (applied F later ms d₀ m c₀) := by
  have hraised : (applied F later ms d₀ m c₀).raised .failed c₀ :=
    ⟨hsafe, Tidy.refl c₀, Grown.refl _⟩
  have hrefused : Triple F (· = c₀) (raise .refused) (applied F later ms d₀ m c₀) := by
    refine triple_raise _ ?_
    rintro c rfl
    exact ⟨hsafe, Tidy.refl c, Grown.refl _⟩
  have hview : ∀ b, b = c₀.view.schema.isCrr "sessions" → c₀.work = none →
      c₀.durable.schema.isCrr "sessions" = b := fun b hb hnone => by
    rw [hb, view_of_none hnone]
  unfold applyMigration
  cases hkind : m.kind with
  | plain =>
    refine query_applied (fun b hb => ?_) hraised hsafe
    cases b with
    | true => exact applyPlainOnCrr_applied hsafe hm hs hkind (hview true hb)
    | false => exact applyPlainly_never hsafe hm hs (hview false hb)
  | syncIndex =>
    refine query_applied (fun b hb => ?_) hraised hsafe
    cases b with
    | false => exact hrefused
    | true =>
      have hindex : ∀ x ∈ m.sql, x.means.isIndex = true := fun x hx =>
        validateIndexStatements_isIndex hb.symm x.means (List.mem_map_of_mem hx)
      refine applyPlainly_applied [] hsafe hm (fun _ => (fun _ h => by cases h)) ?_ ?_
      · exact fun _ x hx => harmless_of_isIndex (hindex x hx)
      · intro _ c hc
        refine ⟨hc.present, fun _ x hx t ht _ => ?_⟩
        rw [isIndex_touched (hindex x hx)] at ht
        cases ht
  | createSyncTable t =>
    refine query_applied (fun b hb => ?_) hraised hsafe
    cases b with
    | false => exact hrefused
    | true =>
      refine query_applied (fun b' hb' => ?_) hraised hsafe
      cases b' with
      | true => exact applyCreateSyncTableOnCrr_applied hsafe hm hb.symm (hview true hb')
      | false => exact applyPlainly_never hsafe hm hs (hview false hb')

theorem objectsAfter_subset {acc : List SchemaObject} {sts : List Statement} {o : SchemaObject}
    (h : o ∈ objectsAfter acc sts) : o ∈ acc ∨ ∃ st ∈ sts, o ∈ st.creates := by
  induction sts generalizing acc with
  | nil => exact Or.inl h
  | cons st sts ih =>
    obtain h | ⟨st', hst', ho⟩ := ih h
    · obtain h | h := List.mem_append.mp h
      · exact Or.inl (List.mem_filter.mp h).1
      · exact Or.inr ⟨st, List.mem_cons_self, h⟩
    · exact Or.inr ⟨st', List.mem_cons_of_mem st hst', ho⟩

theorem mem_objectsAfter {acc : List SchemaObject} {sts : List Statement} {o : SchemaObject}
    (hkeep : ∀ st ∈ sts, ∀ o, st.removes o = false)
    (h : o ∈ acc ∨ ∃ st ∈ sts, o ∈ st.creates) : o ∈ objectsAfter acc sts := by
  induction sts generalizing acc with
  | nil =>
    obtain h | ⟨st, hst, -⟩ := h
    · exact h
    · cases hst
  | cons st sts ih =>
    refine ih (fun st' hst' => hkeep st' (List.mem_cons_of_mem st hst')) ?_
    obtain h | ⟨st', hst', ho⟩ := h
    · refine Or.inl (List.mem_append_left _ (List.mem_filter.mpr ⟨h, ?_⟩))
      simp [hkeep st List.mem_cons_self]
    · obtain rfl | hst' := List.mem_cons.mp hst'
      · exact Or.inl (List.mem_append_right _ ho)
      · exact Or.inr ⟨st', hst', ho⟩

/-- A statement that removes nothing creates an object on each table that it touches. -/
theorem touched_creates {st : Statement} (hkeep : ∀ o, st.removes o = false)
    (ht : t ∈ st.touched) : ∃ o ∈ st.creates, o.onTable = some t := by
  cases st with
  | createTable guarded u columns key unique =>
    obtain rfl := List.mem_singleton.mp ht
    exact ⟨.table t, List.mem_cons_self, rfl⟩
  | alterTable u change =>
    cases change with
    | add c =>
      obtain rfl := List.mem_singleton.mp ht
      exact ⟨.column t c, List.mem_cons_self, rfl⟩
    | drop c =>
      have h := hkeep (.column u c)
      simp [Statement.removes] at h
    | rename c d =>
      have h := hkeep (.column u c)
      simp [Statement.removes] at h
    | renameTo v =>
      have h := hkeep (.table u)
      simp [Statement.removes] at h
  | createIndex guarded unique i u => cases ht
  | dropIndex guarded i => cases ht
  | other o => cases ht

theorem schemaEffectsPresent_mem {effects : List SchemaObject} {o : SchemaObject}
    (h : schemaEffectsPresent later effects S = true) (ho : o ∈ effects) :
    S.present o = true ∧ ∀ t, o.onTable = some t → S.isCrr "sessions" = true →
      t ∈ syncTables later → S.isCrr t = true ∧ S.crrTriggersAreStale t = false := by
  have hall := List.all_eq_true.mp h o ho
  simp only [Bool.and_eq_true] at hall
  refine ⟨hall.1, fun t ht hcrr hmem => ?_⟩
  have hcheck := hall.2
  simp only [ht, hcrr, Bool.not_true, Bool.false_or, Bool.or_eq_true, Bool.not_eq_true',
    Bool.and_eq_true] at hcheck
  obtain hnot | hboth := hcheck
  · rw [List.contains_eq_mem, decide_eq_false_iff_not] at hnot
    exact absurd hmem hnot
  · exact hboth

/-- What the presence check finds is enough to record the migration. -/
theorem recordable_landed (hs : Sound later m) (hne : (recordableEffects m).isEmpty = false)
    (h : schemaEffectsPresent later (recordableEffects m) S = true) : Landed later m S := by
  have hplain : (∀ t, m.kind ≠ .createSyncTable t) → Landed later m S := by
    intro hkind
    have heffects : recordableEffects m = m.schemaEffects := by
      unfold recordableEffects
      split
      · rename_i t ht
        exact absurd ht (hkind t)
      · rfl
      · rfl
    rw [heffects] at h hne
    obtain ⟨hiff, hkeep⟩ := hs.declared hkind (by simpa using hne)
    refine ⟨fun o ho => (schemaEffectsPresent_mem h ((hiff o).mpr ho)).1, ?_⟩
    intro hcrr x hx t ht hmem
    obtain ⟨o, ho, hon⟩ := touched_creates (hkeep x hx) ht
    have hcreates : o ∈ m.creates := by
      refine mem_objectsAfter ?_ (Or.inr ⟨x.means, List.mem_map_of_mem hx, ho⟩)
      intro st hst
      obtain ⟨y, hy, rfl⟩ := List.mem_map.mp hst
      exact hkeep y hy
    exact (schemaEffectsPresent_mem h ((hiff o).mpr hcreates)).2 t hon hcrr hmem
  cases hkind : m.kind with
  | plain => exact hplain (by simp [hkind])
  | syncIndex => exact hplain (by simp [hkind])
  | createSyncTable t =>
    obtain ⟨x, xs, hsql, hx, hxs⟩ := hs.formed t hkind
    obtain ⟨columns, key, hmeans⟩ := createsTable_eq hx
    have heffects : recordableEffects m =
        .table t :: m.sql.filterMap (fun x => parseIndexName x.means) := by
      simp only [recordableEffects, hkind]
    rw [heffects] at h
    constructor
    · intro o ho
      refine (schemaEffectsPresent_mem h ?_).1
      rw [Migration.creates, hsql, List.map_cons] at ho
      obtain ho | ⟨st, hst, ho⟩ := objectsAfter_subset ho
      · cases ho
      · obtain rfl | hst := List.mem_cons.mp hst
        · rw [hmeans] at ho
          exact List.mem_singleton.mp ho ▸ List.mem_cons_self
        · obtain ⟨y, hy, rfl⟩ := List.mem_map.mp hst
          refine List.mem_cons_of_mem _ (List.mem_filterMap.mpr
            ⟨y, by rw [hsql]; exact List.mem_cons_of_mem x hy, ?_⟩)
          have hform := hxs y hy
          unfold isIndexStmt at hform
          split at hform
          · rename_i i u hcreate
            rw [hcreate] at ho ⊢
            obtain rfl := List.mem_singleton.mp ho
            simp only [Bool.and_eq_true] at hform
            simp [parseIndexName, hform.1.1, hform.1.2]
          · rename_i i hdrop
            rw [hdrop] at ho
            cases ho
          · cases hform
    · intro hcrr y hy u hu hmem
      rw [hsql] at hy
      obtain rfl | hy := List.mem_cons.mp hy
      · rw [hmeans] at hu
        obtain rfl := List.mem_singleton.mp hu
        exact (schemaEffectsPresent_mem h List.mem_cons_self).2 u rfl hcrr hmem
      · rw [isIndex_touched (isIndexStmt_isIndex (hxs y hy))] at hu
        cases hu

/-- The fallback records at most the one migration, and only when it has landed. -/
theorem recordIfSchemaPresent_spec (hsafe : Safe later ms d₀ c₀) (hm : m ∈ ms)
    (hs : Sound later m) :
    Triple F (· = c₀) (recordIfSchemaPresent later m)
      { done := fun b c => Safe later ms d₀ c ∧ Tidy F c₀ c ∧
          (Grown [] c₀.durable c.durable ∧ (b = true → c₀.work.isSome = true) ∨
            b = true ∧ Grown [m.version] c₀.durable c.durable)
        raised := fun _ _ => False
        stopped := Safe later ms d₀ } := by
  have hsame : Safe later ms d₀ c₀ ∧ Tidy F c₀ c₀ ∧
      (Grown [] c₀.durable c₀.durable ∧ (false = true → c₀.work.isSome = true) ∨
        false = true ∧ Grown [m.version] c₀.durable c₀.durable) :=
    ⟨hsafe, Tidy.refl c₀, Or.inl ⟨Grown.refl _, (by rintro ⟨⟩)⟩⟩
  have hnothing : Triple F (· = c₀) (done false) ({
      done := fun b c => Safe later ms d₀ c ∧ Tidy F c₀ c ∧
          (Grown [] c₀.durable c.durable ∧ (b = true → c₀.work.isSome = true) ∨
            b = true ∧ Grown [m.version] c₀.durable c.durable)
      raised := fun _ _ => False
      stopped := Safe later ms d₀ } : Post Conn Failure Bool) := by
    refine triple_done false ?_
    rintro c rfl
    exact hsame
  unfold recordIfSchemaPresent
  cases hne : (recordableEffects m).isEmpty with
  | true => exact hnothing
  | false =>
    refine triple_bind (Q := fun res c => c = c₀ ∧ (res = .ok true →
      schemaEffectsPresent later (recordableEffects m) c₀.view.schema = true)) ?_ (fun res => ?_)
    · refine triple_attempt (triple_query ?_ ?_ ?_)
      · rintro c rfl
        exact ⟨rfl, fun h => Except.ok.inj h⟩
      · rintro c rfl
        exact ⟨rfl, (by rintro ⟨⟩)⟩
      · rintro c rfl
        exact hsafe
    cases res with
    | error e => exact hnothing.pre (fun c hc => hc.1)
    | ok b =>
      cases b with
      | true =>
        refine triple_points (fun c hc => ?_)
        rw [hc.1]
        have hlanded := recordable_landed hs hne (hc.2 rfl)
        refine triple_bind (Q := fun res c => Safe later ms d₀ c ∧ Tidy F c₀ c ∧
          (res = .ok () → c₀.work.isSome = true ∧ Grown [] c₀.durable c.durable ∨
            Grown [m.version] c₀.durable c.durable) ∧
          (res ≠ .ok () → Grown [] c₀.durable c.durable)) ?_ (fun res => ?_)
        · refine triple_attempt (triple_update ?_ ?_ ?_ ?_)
          · rintro c d rfl h
            have hd := recordMigration_eq h
            cases hw : c.work with
            | some d' =>
              simp only [Conn.put, hw]
              exact ⟨⟨hsafe.inv, hsafe.log⟩, ⟨id, Or.inr rfl, Or.inl (by simp [hw])⟩,
                fun _ => Or.inl ⟨rfl, Grown.refl _⟩, fun _ => Grown.refl _⟩
            | none =>
              rw [view_of_none hw] at hd hlanded
              simp only [Conn.put, hw, hd]
              refine ⟨⟨hsafe.inv.move hsafe.inv.healthy ?_ rfl (Or.inl (fun _ _ => rfl)), hsafe.log⟩,
                ⟨id, Or.inr rfl, Or.inl (by simp [hw])⟩, fun _ => Or.inr ?_, fun h => absurd rfl h⟩
              · intro e he
                obtain he | he := List.mem_append.mp he
                · exact Or.inl he
                · obtain rfl := List.mem_singleton.mp he
                  exact Or.inr ⟨m, hm, rfl, hlanded⟩
              · exact ⟨by simp [Db.versions], fun _ => id⟩
          · rintro c e rfl h
            exact ⟨hsafe, Tidy.refl c, (by rintro ⟨⟩), fun _ => Grown.refl _⟩
          · rintro c rfl
            exact ⟨hsafe, Tidy.refl c, (by rintro ⟨⟩), fun _ => Grown.refl _⟩
          · rintro c rfl
            exact hsafe
        cases res with
        | error e =>
          refine triple_done false ?_
          rintro c ⟨hsafe', htidy, -, hgrown⟩
          exact ⟨hsafe', htidy, Or.inl ⟨hgrown (by rintro ⟨⟩), (by rintro ⟨⟩)⟩⟩
        | ok a =>
          refine triple_done true ?_
          rintro c ⟨hsafe', htidy, hgrown, -⟩
          refine ⟨hsafe', htidy, ?_⟩
          obtain ⟨hw, hg⟩ | hg := hgrown rfl
          · exact Or.inl ⟨hg, fun _ => hw⟩
          · exact Or.inr ⟨rfl, hg⟩
      | false => exact hnothing.pre (fun c hc => hc.1)

/-- One migration of a run. A line other than `failed` means that it is recorded, unless an open
transaction was left behind. -/
theorem migrate_spec (hsafe : Safe later ms d₀ c₀) (hm : m ∈ ms) (hs : Sound later m) :
    Triple F (· = c₀) (migrate later m)
      { done := fun line c => Safe later ms d₀ c ∧ Tidy F c₀ c ∧
          (Grown [m.version] c₀.durable c.durable ∨ Grown [] c₀.durable c.durable ∧
            (c₀.work = none → ¬F .fails → ∃ e, line = .failed m.version e))
        raised := fun _ _ => False
        stopped := Safe later ms d₀ } := by
  refine triple_bind (Q := fun res c => Safe later ms d₀ c ∧ Tidy F c₀ c ∧
    (res = .ok () → Grown [m.version] c₀.durable c.durable) ∧
    (res ≠ .ok () → Grown [] c₀.durable c.durable)) ?_ (fun res => ?_)
  · refine triple_attempt ((applyMigration_applied hsafe hm hs).imp (fun _ => id) ?_ ?_
      (fun _ => id))
    · rintro a c ⟨hsafe', htidy, -, -, hgrown⟩
      exact ⟨hsafe', htidy, fun _ => hgrown, fun h => absurd rfl h⟩
    · rintro e c ⟨hsafe', htidy, hgrown⟩
      exact ⟨hsafe', htidy, (by rintro ⟨⟩), fun _ => hgrown⟩
  cases res with
  | ok a =>
    refine triple_done _ ?_
    rintro c ⟨hsafe', htidy, hgrown, -⟩
    exact ⟨hsafe', htidy, Or.inl (hgrown rfl)⟩
  | error e =>
    refine triple_points (fun c₁ hc₁ => ?_)
    obtain ⟨hsafe₁, htidy₁, -, hgrown₁⟩ := hc₁
    have hg₁ := hgrown₁ (by rintro ⟨⟩)
    refine triple_bind (Q := fun b c => Safe later ms d₀ c ∧ Tidy F c₁ c ∧
      (Grown [] c₁.durable c.durable ∧ (b = true → c₁.work.isSome = true) ∨
        b = true ∧ Grown [m.version] c₁.durable c.durable))
      (recordIfSchemaPresent_spec hsafe₁ hm hs) (fun b => ?_)
    cases b with
    | true =>
      refine triple_done _ ?_
      rintro c ⟨hsafe', htidy, hg⟩
      refine ⟨hsafe', htidy₁.trans htidy, ?_⟩
      obtain ⟨hg, hopen⟩ | ⟨-, hg⟩ := hg
      · refine Or.inr ⟨hg₁.trans hg, fun hnone hF => ?_⟩
        obtain hw | hf := htidy₁.work
        · rw [hopen rfl, hnone] at hw
          cases hw
        · exact absurd hf hF
      · exact Or.inl (hg₁.trans hg)
    | false =>
      refine triple_done _ ?_
      rintro c ⟨hsafe', htidy, hg⟩
      obtain ⟨hg, -⟩ | ⟨hb, -⟩ := hg
      · exact ⟨hsafe', htidy₁.trans htidy, Or.inr ⟨hg₁.trans hg, fun _ _ => ⟨e, rfl⟩⟩⟩
      · cases hb

theorem migrateEach_safe (hms : ∀ m ∈ ms, Sound later m) {l : List Migration}
    (hl : ∀ m ∈ l, m ∈ ms) (versions : List ℤ) :
    Triple F (Safe later ms d₀) (migrateEach later versions l)
      (Post.always (Safe later ms d₀)) := by
  induction l with
  | nil => exact triple_done _ (fun _ => id)
  | cons m l ih =>
    have ih' := ih (fun m' h => hl m' (List.mem_cons_of_mem m h))
    unfold migrateEach
    by_cases hv : m.version ∈ versions
    · rw [if_pos hv]
      exact ih'
    · rw [if_neg hv]
      refine triple_bind (Q := fun _ => Safe later ms d₀) ?_ (fun line => ?_)
      · refine triple_points (fun c hc => ?_)
        exact (migrate_spec hc (hl m List.mem_cons_self) (hms m (hl m List.mem_cons_self))).imp
          (fun _ => id) (fun _ _ h => h.1) (fun _ _ => False.elim) (fun _ => id)
      · exact triple_bind (Q := fun _ => Safe later ms d₀) ih'
          (fun lines => triple_done _ (fun _ => id))

theorem runMigrationsList_safe (hms : ∀ m ∈ ms, Sound later m) :
    Triple F (Safe later ms d₀) (runMigrationsList later ms) (Post.always (Safe later ms d₀)) := by
  refine triple_bind (Q := fun _ => Safe later ms d₀)
    (triple_query (fun _ => id) (fun _ => id) (fun _ => id)) (fun _ => ?_)
  refine triple_bind (Q := fun _ => Safe later ms d₀) ?_
    (fun versions => migrateEach_safe hms (fun _ => id) versions)
  refine triple_act ?_ ?_ (fun _ _ => id) (fun _ _ => id)
  · intro c a c' hc h
    simp only [Except.ok.injEq, Prod.mk.injEq] at h
    exact h.2 ▸ hc
  · intro c e hc h
    cases h

end Migrate

section Heal

/-- With no transaction open, a connection shows the database with CRRs that it holds. -/
def OnCrrs (c : Conn) : Prop := c.work = none → c.durable.schema.isCrr "sessions" = true

theorem crrifyPresentTables_safe {ts : List Name} (hts : ∀ t ∈ ts, t ∈ syncTables later) :
    Triple F (fun c => Safe later ms d₀ c ∧ OnCrrs c) (crrifyPresentTables ts)
      (Post.always (Safe later ms d₀)) := by
  induction ts with
  | nil => exact triple_done _ (fun _ h => h.1)
  | cons t ts ih =>
    have ih' := ih (fun u hu => hts u (List.mem_cons_of_mem t hu))
    have ht := hts t List.mem_cons_self
    refine triple_bind (Q := fun _ c => Safe later ms d₀ c ∧ OnCrrs c)
      (triple_query (fun _ => id) (fun _ h => h.1) (fun _ h => h.1)) (fun there => ?_)
    cases there with
    | false => exact ih'
    | true =>
      refine triple_bind (Q := fun _ c => Safe later ms d₀ c ∧ OnCrrs c)
        (triple_query (fun _ => id) (fun _ h => h.1) (fun _ h => h.1)) (fun crr => ?_)
      cases crr with
      | true => exact ih'
      | false =>
        refine triple_bind (Q := fun _ c => Safe later ms d₀ c ∧ OnCrrs c) ?_ (fun _ => ih')
        refine triple_points (fun c₁ hc₁ => ?_)
        obtain ⟨hsafe, hcrr⟩ := hc₁
        have hsafe_of : ∀ c, Reached t c₁ c.durable → c.plain = c₁.plain →
            Safe later ms d₀ c := by
          rintro c ⟨hd, hopen⟩ hp
          refine ⟨?_, hp ▸ hsafe.log⟩
          cases hw : c₁.work with
          | some d => exact hopen (by rw [hw]; rfl) ▸ hsafe.inv
          | none => exact hsafe.inv.ensured hd (hcrr hw) ht
        refine ensureCrr_spec.imp (fun _ => id) ?_ ?_ ?_
        · rintro a c ⟨hnone, hfin, hp, -⟩
          exact ⟨hsafe_of c (Reached.of_none hfin.ensured hnone) hp,
            fun _ => hfin.ensured.isCrr (hcrr hnone)⟩
        · rintro e c ⟨hd, hp, -⟩
          exact hsafe_of c hd hp
        · rintro c ⟨hd, hp⟩
          exact hsafe_of c hd hp

theorem ensureSyncTablesCrr_safe (hsafe : Safe later ms d₀ c₀) (hnone : c₀.work = none) :
    Triple F (· = c₀) (ensureSyncTablesCrr later) (Post.always (Safe later ms d₀)) := by
  refine query_applied (fun crrs hcrrs => ?_) hsafe hsafe
  cases hempty : crrs.isEmpty with
  | true =>
    refine triple_done _ ?_
    rintro c rfl
    exact hsafe
  | false =>
    refine (crrifyPresentTables_safe (fun _ => id)).pre ?_
    rintro c rfl
    refine ⟨hsafe, fun _ => ?_⟩
    rw [view_of_none hnone] at hcrrs
    cases hcrr : c.durable.schema.isCrr "sessions" with
    | true => rfl
    | false =>
      have hnil : crrs = [] := by
        rw [hcrrs, List.filter_eq_nil_iff]
        intro t ht
        simp [Schema.isCrr, hsafe.inv.never hcrr t ht]
      simp [hnil] at hempty

end Heal

section Runs

/-- A database that never synced, or one that cutover prepared. -/
structure Fit (later : List Name) (d : Db) : Prop where
  healthy : Healthy later d.schema
  never : d.schema.isCrr "sessions" = false → ∀ t ∈ syncTables later, d.schema.clocks t = false
  altered : d.altered = []

theorem Fit.inv (h : Fit later d) : Inv later ms d d where
  healthy := h.healthy
  never := h.never
  recorded := fun _ => Or.inl
  altered := by simp [h.altered]

theorem World.step_safe (hms : ∀ m ∈ ms, Sound later m) {w : World} (e : Event)
    (h : Inv later ms d₀ w.durable ∧ LogOk later w.plain) :
    Inv later ms d₀ (w.step later ms e).durable ∧ LogOk later (w.step later ms e).plain := by
  cases e with
  | run fk fates =>
    have hsafe : Safe later ms d₀ (w.connect fk) := ⟨h.1, h.2⟩
    have htriple : Triple (fun _ => True) (Safe later ms d₀) (runMigrationsList later ms)
        (Post.always (Safe later ms d₀)) := runMigrationsList_safe hms
    obtain ⟨hinv, hlog⟩ := htriple.always fates (fun _ _ => trivial) hsafe
    exact ⟨hinv, hlog⟩
  | heal fk fates =>
    have htriple : Triple (fun _ => True) (· = w.connect fk) (ensureSyncTablesCrr later)
        (Post.always (Safe later ms d₀)) := ensureSyncTablesCrr_safe ⟨h.1, h.2⟩ rfl
    obtain ⟨hinv, hlog⟩ := htriple.always fates (fun _ _ => trivial) rfl
    exact ⟨hinv, hlog⟩

theorem World.after_safe (hms : ∀ m ∈ ms, Sound later m) (events : List Event) {w : World}
    (h : Inv later ms d₀ w.durable ∧ LogOk later w.plain) :
    Inv later ms d₀ (w.after later ms events).durable ∧
      LogOk later (w.after later ms events).plain := by
  induction events generalizing w with
  | nil => exact h
  | cons e events ih => exact ih (World.step_safe hms e h)

end Runs

end YapStack.Migrations
