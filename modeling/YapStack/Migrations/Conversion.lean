import YapStack.Migrations.Runner

set_option linter.unusedSectionVars false

namespace YapStack.Migrations

open Faulty Faulty.Prog

variable {F : Fate → Prop} {P : Conn → Prop} {α : Type} {c₀ c : Conn} {t u : Name}
  {S S' : Schema}

section Rules

theorem triple_points {p : Exec α} {R : Post Conn Failure α}
    (h : ∀ c, P c → Triple F (· = c) p R) : Triple F P p R :=
  fun fates c hfates hc => h c hc fates c hfates rfl

theorem triple_query {f : Schema → α} {R : Post Conn Failure α}
    (hdone : ∀ c, P c → R.done (f c.view.schema) c) (hraised : ∀ c, P c → R.raised .failed c)
    (hstopped : ∀ c, P c → R.stopped c) : Triple F P (query f) R := by
  refine triple_act ?_ ?_ (fun _ => hraised) (fun _ => hstopped)
  · intro c a c' hc h
    simp only [Except.ok.injEq, Prod.mk.injEq] at h
    obtain ⟨rfl, rfl⟩ := h
    exact hdone c hc
  · intro c e hc h
    cases h

theorem triple_update {f : Bool → Db → Except Failure Db} {R : Post Conn Failure Unit}
    (hdone : ∀ c d, P c → f c.foreignKeys c.view = .ok d → R.done () (c.put d))
    (hthrows : ∀ c e, P c → f c.foreignKeys c.view = .error e → R.raised e c)
    (hraised : ∀ c, P c → R.raised .failed c)
    (hstopped : ∀ c, P c → R.stopped c) : Triple F P (update f) R := by
  refine triple_act ?_ ?_ (fun _ => hraised) (fun _ => hstopped)
  · intro c a c' hc h
    cases hf : f c.foreignKeys c.view with
    | ok d =>
      simp only [hf, Except.map, Except.ok.injEq, Prod.mk.injEq] at h
      exact h.2 ▸ hdone c d hc hf
    | error e => simp [hf, Except.map] at h
  · intro c e hc h
    cases hf : f c.foreignKeys c.view with
    | ok d => simp [hf, Except.map] at h
    | error e' =>
      simp only [hf, Except.map, Except.error.injEq] at h
      exact hthrows c e hc (h ▸ hf)

/-- Inside a transaction that was opened on `c₀`. -/
def Inside (c₀ : Conn) (Q : Db → Prop) (c : Conn) : Prop :=
  ∃ d, c = { c₀ with work := some d } ∧ Q d

theorem Inside.imp {Q Q' : Db → Prop} (h : Inside c₀ Q c) (himp : ∀ d, Q d → Q' d) :
    Inside c₀ Q' c := by
  obtain ⟨d, hc, hd⟩ := h
  exact ⟨d, hc, himp d hd⟩

/-- Every end of a body that throws or stops is inside the transaction. -/
def insidePost (c₀ : Conn) (Q : α → Db → Prop) (E : Failure → Prop) : Post Conn Failure α where
  done a := Inside c₀ (Q a)
  raised e c := Inside c₀ (fun _ => True) c ∧ (e = .failed ∨ E e)
  stopped := Inside c₀ (fun _ => True)

theorem inside_query {Q : Db → Prop} {f : Schema → α} {Q' : α → Db → Prop}
    {E : Failure → Prop} (h : ∀ d, Q d → Q' (f d.schema) d) :
    Triple F (Inside c₀ Q) (query f) (insidePost c₀ Q' E) := by
  refine triple_query ?_ ?_ ?_
  · rintro c ⟨d, rfl, hd⟩
    exact ⟨d, rfl, h d hd⟩
  · rintro c ⟨d, rfl, hd⟩
    exact ⟨⟨d, rfl, trivial⟩, Or.inl rfl⟩
  · rintro c ⟨d, rfl, hd⟩
    exact ⟨d, rfl, trivial⟩

theorem inside_update {Q : Db → Prop} {f : Bool → Db → Except Failure Db} {Q' : Unit → Db → Prop}
    {E : Failure → Prop} (h : ∀ d d', Q d → f c₀.foreignKeys d = .ok d' → Q' () d')
    (he : ∀ d e, Q d → f c₀.foreignKeys d = .error e → e = .failed ∨ E e) :
    Triple F (Inside c₀ Q) (update f) (insidePost c₀ Q' E) := by
  refine triple_update ?_ ?_ ?_ ?_
  · rintro c d' ⟨d, rfl, hd⟩ hf
    exact ⟨d', rfl, h d d' hd hf⟩
  · rintro c e ⟨d, rfl, hd⟩ hf
    exact ⟨⟨d, rfl, trivial⟩, he d e hd hf⟩
  · rintro c ⟨d, rfl, hd⟩
    exact ⟨⟨d, rfl, trivial⟩, Or.inl rfl⟩
  · rintro c ⟨d, rfl, hd⟩
    exact ⟨d, rfl, trivial⟩

theorem inside_define {Q : Db → Prop} {f : Bool → Schema → Except Failure Schema}
    {Q' : Unit → Db → Prop} {E : Failure → Prop}
    (h : ∀ d S, Q d → f c₀.foreignKeys d.schema = .ok S → Q' () { d with schema := S })
    (he : ∀ d e, Q d → f c₀.foreignKeys d.schema = .error e → e = .failed ∨ E e) :
    Triple F (Inside c₀ Q) (define f) (insidePost c₀ Q' E) := by
  refine inside_update ?_ ?_
  · intro d d' hd hf
    cases hS : f c₀.foreignKeys d.schema with
    | ok S =>
      simp only [hS, Except.map, Except.ok.injEq] at hf
      exact hf ▸ h d S hd hS
    | error e => simp [hS, Except.map] at hf
  · intro d e hd hf
    cases hS : f c₀.foreignKeys d.schema with
    | ok S => simp [hS, Except.map] at hf
    | error e' =>
      simp only [hS, Except.map, Except.error.injEq] at hf
      exact hf ▸ he d e' hd hS

theorem inside_done {Q : Db → Prop} {Q' : α → Db → Prop} {E : Failure → Prop} (a : α)
    (h : ∀ d, Q d → Q' a d) : Triple F (Inside c₀ Q) (done a) (insidePost c₀ Q' E) :=
  triple_done a (fun _ hc => hc.imp h)

theorem inside_raise {Q : Db → Prop} {Q' : α → Db → Prop} {E : Failure → Prop} {e : Failure}
    (h : e = .failed ∨ E e) : Triple F (Inside c₀ Q) (raise e) (insidePost c₀ Q' E) :=
  triple_raise e (fun _ hc => ⟨hc.imp (fun _ _ => trivial), h⟩)

/-- The transaction is gone, or its `ROLLBACK` has failed. -/
def Undone (F : Fate → Prop) (c₀ c : Conn) : Prop :=
  c = c₀ ∨ F .fails ∧ ∃ d, c = { c₀ with work := some d, unclean := true }

theorem dropTx_spec {R : Post Conn Failure Unit} (hnone : c₀.work = none)
    (hdone : ∀ c, Undone F c₀ c → R.done () c)
    (hstopped : ∀ d, R.stopped { c₀ with work := some d }) :
    Triple F (Inside c₀ (fun _ => True)) dropTx R := by
  refine triple_bind (Q := fun b c => b = true ∧ Inside c₀ (fun _ => True) c) ?_ ?_
  · refine triple_look _ ?_
    rintro c ⟨d, rfl, -⟩
    exact ⟨rfl, d, rfl, trivial⟩
  · intro b
    refine Triple.of_fixed ?_
    rintro rfl
    rw [if_pos rfl]
    refine triple_bind (Q := fun _ => Undone F c₀) ?_ ?_
    · refine triple_attempt (triple_act ?_ ?_ ?_ ?_)
      · rintro c a c' ⟨d, rfl, -⟩ h
        simp only [Except.ok.injEq, Prod.mk.injEq] at h
        exact Or.inl (h.2.symm.trans (by rw [← hnone]))
      · rintro c e ⟨d, rfl, -⟩ h
        cases h
      · rintro hF c ⟨d, rfl, -⟩
        exact Or.inr ⟨hF, d, rfl⟩
      · rintro hF c ⟨d, rfl, -⟩
        exact hstopped d
    · intro res
      exact triple_done () hdone

theorem transaction_spec {body : Exec Bool} {Q : Bool → Db → Prop} {E : Failure → Prop}
    (hbody : c₀.work = none → Triple F (Inside c₀ (· = c₀.durable)) body (insidePost c₀ Q E)) :
    Triple F (· = c₀) (transaction body)
      { done := fun b c => c₀.work = none ∧ ∃ d, Q b d ∧
          (if b then c = { c₀ with durable := d } else Undone F c₀ c)
        raised := fun e c => Undone F c₀ c ∧ (e = .failed ∨ E e)
        stopped := fun c => c.durable = c₀.durable ∧ c.plain = c₀.plain } := by
  refine triple_bind (Q := fun _ c => c₀.work = none ∧ Inside c₀ (· = c₀.durable) c) ?_ ?_
  · refine triple_act ?_ ?_ ?_ ?_
    · rintro c a c' rfl h
      cases hw : c.work with
      | none =>
        simp only [hw, Except.ok.injEq, Prod.mk.injEq] at h
        exact ⟨rfl, c.durable, h.2.symm, rfl⟩
      | some d => simp [hw] at h
    · rintro c e rfl h
      cases hw : c.work with
      | none => simp [hw] at h
      | some d =>
        simp only [hw, Except.error.injEq] at h
        exact ⟨Or.inl rfl, Or.inl h.symm⟩
    · rintro hF c rfl
      exact ⟨Or.inl rfl, Or.inl rfl⟩
    · rintro hF c rfl
      exact ⟨rfl, rfl⟩
  · intro _
    refine Triple.of_fixed (fun hnone => ?_)
    have hstop : ∀ d, ({ c₀ with work := some d } : Conn).durable = c₀.durable ∧
        ({ c₀ with work := some d } : Conn).plain = c₀.plain := fun d => ⟨rfl, rfl⟩
    refine triple_bind (Q := caught (fun b => Inside c₀ (Q b))
      (fun e c => Inside c₀ (fun _ => True) c ∧ (e = .failed ∨ E e))) ?_ ?_
    · refine triple_attempt ((hbody hnone).imp (fun _ => id) (fun _ _ => id) (fun _ _ => id) ?_)
      rintro c ⟨d, rfl, -⟩
      exact hstop d
    · intro res
      cases res with
      | ok b =>
        cases b with
        | true =>
          refine triple_bind (Q := caught (fun _ c => ∃ d, Q true d ∧ c = { c₀ with durable := d })
            (fun e c => e = .failed ∧ Inside c₀ (fun _ => True) c)) ?_ ?_
          · refine triple_attempt (triple_act ?_ ?_ ?_ ?_)
            · rintro c a c' ⟨d, rfl, hd⟩ h
              simp only [Except.ok.injEq, Prod.mk.injEq] at h
              exact ⟨d, hd, h.2.symm.trans (by rw [← hnone])⟩
            · rintro c e ⟨d, rfl, hd⟩ h
              cases h
            · rintro hF c ⟨d, rfl, hd⟩
              exact ⟨rfl, d, rfl, trivial⟩
            · rintro hF c ⟨d, rfl, hd⟩
              exact hstop d
          · intro res'
            cases res' with
            | ok a =>
              refine triple_done true ?_
              rintro c ⟨d, hd, rfl⟩
              exact ⟨hnone, d, hd, rfl⟩
            | error e =>
              refine Triple.of_fixed ?_
              rintro rfl
              refine triple_bind (Q := fun _ => Undone F c₀) ?_ ?_
              · exact dropTx_spec hnone (fun _ => id) hstop
              · exact fun _ => triple_raise _ (fun c hc => ⟨hc, Or.inl rfl⟩)
        | false =>
          refine triple_points (fun c hc => ?_)
          obtain ⟨d, rfl, hd⟩ := hc
          refine triple_bind (Q := fun _ => Undone F c₀) ?_ ?_
          · refine (dropTx_spec hnone (fun _ => id) hstop).pre ?_
            rintro c rfl
            exact ⟨d, rfl, trivial⟩
          · exact fun _ => triple_done false (fun c hc => ⟨hnone, d, hd, hc⟩)
      | error e =>
        refine triple_points (fun c hc => ?_)
        obtain ⟨hin, he⟩ := hc
        refine triple_bind (Q := fun _ => Undone F c₀) ?_ ?_
        · refine (dropTx_spec hnone (fun _ => id) hstop).pre ?_
          rintro c rfl
          exact hin
        · exact fun _ => triple_raise _ (fun c hc => ⟨hc, he⟩)

end Rules

section Rebuild

def Table.stripped (T : Table) : Table :=
  ⟨T.columns, true, T.rows.map (fun r => { r with owners := [] })⟩

theorem Table.stripped_free (T : Table) : T.stripped.Free := by
  intro r hr
  obtain ⟨r', _, rfl⟩ := List.mem_map.mp hr
  rfl

theorem Table.stripped_cells (T : Table) :
    T.stripped.rows.map Row.cells = T.rows.map Row.cells := by
  simp [Table.stripped, Function.comp_def]

/-- The new table is in the place of the old one, and has all of its rows. -/
structure Swapped (S S' : Schema) (t : Name) : Prop where
  table : ∃ T, S.tables t = some T ∧ S'.tables t = some T.stripped
  others : ∀ u, u ≠ t → S'.tables u = S.tables u
  clocks : S'.clocks = S.clocks
  slots : ∀ u, u ≠ t → S'.slots u = S.slots u

theorem rebuildName_ne (t : Name) : rebuildName t ≠ t := by
  intro h
  have hlen := congrArg String.length h
  simp only [rebuildName, String.length_append] at hlen
  have hpos : 0 < ("__crr_rebuild" : String).length := by decide
  omega

theorem deriveRebuildBody_eq {T : Table} (h : deriveRebuildBody t S = .ok T) :
    ∃ T₀, S.tables t = some T₀ ∧ T = ⟨T₀.columns, true, []⟩ := by
  unfold deriveRebuildBody at h
  cases ht : S.tables t with
  | none => simp [ht] at h
  | some T₀ =>
    simp only [ht] at h
    split at h
    · exact ⟨T₀, rfl, (Except.ok.inj h).symm⟩
    · cases h

theorem createTable_absent {key unique : Bool} {columns : List Name}
    (h : S.createTable false u columns key unique = .ok S') :
    S.tables u = none ∧ S'.tables = Function.update S.tables u (some ⟨columns, key, []⟩) ∧
      S'.clocks = S.clocks ∧ S'.slots = S.slots := by
  unfold Schema.createTable at h
  cases hu : S.tables u with
  | some T => simp [hu] at h
  | none =>
    simp only [hu, Except.ok.injEq] at h
    exact h ▸ ⟨rfl, rfl, rfl, rfl⟩

/-- The four statements of the rebuild, with `foreign_keys` off. -/
theorem swapped_of_statements {S₁ S₂ S₃ S₄ : Schema} {T : Table} (hT : S.tables t = some T)
    (h₁ : S.createTable false (rebuildName t) T.columns true false = .ok S₁)
    (h₂ : copyRows t (rebuildName t) S₁ = .ok S₂) (h₃ : dropTableStmt t false S₂ = .ok S₃)
    (h₄ : S₃.alterTable (rebuildName t) (.renameTo t) = .ok S₄) : Swapped S S₄ t := by
  have hne := rebuildName_ne t
  obtain ⟨habsent, htables₁, hclocks₁, hslots₁⟩ := createTable_absent h₁
  have hold : S₁.tables t = some T := by rw [htables₁, Function.update_of_ne hne.symm, hT]
  have hnew : S₁.tables (rebuildName t) = some ⟨T.columns, true, []⟩ := by
    rw [htables₁, Function.update_self]
  simp only [copyRows, hold, hnew, List.nil_append, Except.ok.injEq] at h₂
  have hold₂ : S₂.tables t = some T := by
    rw [← h₂]
    exact (Function.update_of_ne hne.symm _ _).trans hold
  simp only [dropTableStmt, hold₂, Option.isSome_some, if_true, Except.ok.injEq] at h₃
  have hstripped : S₃.tables (rebuildName t) = some T.stripped := by
    rw [← h₃, ← h₂]
    simp [Schema.dropTable, Schema.putTable, hne, Table.stripped]
  obtain ⟨_, _, _, _, _, hnot⟩ | ⟨v, hv, hnone, rfl⟩ := alterTable_eq h₄
  · exact absurd rfl (hnot t)
  · obtain rfl : t = v := Change.renameTo.inj hv
    constructor
    · refine ⟨T, hT, ?_⟩
      exact (Function.update_self _ _ _).trans hstripped
    · intro u hu
      have hrename : (S₃.renameTable (rebuildName t) t).tables u =
          Function.update S₃.tables (rebuildName t) none u := Function.update_of_ne hu _ _
      rw [hrename]
      by_cases hur : u = rebuildName t
      · rw [hur, Function.update_self, habsent]
      · rw [Function.update_of_ne hur, ← h₃, ← h₂]
        have hsame : ∀ o : Option Table, o.map (fun T => T) = o := fun o => by cases o <;> rfl
        simp [Schema.dropTable, Schema.putTable, hu, hur, htables₁, hsame]
    · change S₃.clocks = S.clocks
      rw [← h₃, ← h₂]
      exact hclocks₁
    · intro u hu
      change S₃.slots u = S.slots u
      rw [← h₃, ← h₂]
      exact (Function.update_of_ne hu _ _).trans (by rw [← hslots₁]; rfl)

theorem Swapped.of_eq {S'' : Schema} (h : Swapped S S' t) (htables : S''.tables = S'.tables)
    (hclocks : S''.clocks = S'.clocks) (hslots : ∀ u, u ≠ t → S''.slots u = S'.slots u) :
    Swapped S S'' t where
  table := by simpa only [htables] using h.table
  others := by simpa only [htables] using h.others
  clocks := hclocks.trans h.clocks
  slots := fun u hu => (hslots u hu).trans (h.slots u hu)

theorem createTrigger_eq {g : Name} (h : S.createTrigger g u = .ok S') :
    S' = { S with triggers := S.triggers ++ [(g, u)] } := by
  unfold Schema.createTrigger at h
  split at h
  · cases h
  · exact (Except.ok.inj h).symm

/-- The rebuild of `t` and the replay of its triggers have happened. -/
def Rebuilt (S S' : Schema) (t : Name) : Prop := Swapped S S' t ∧ S'.slots = S.slots

theorem rebuild_inside (hfk : c₀.foreignKeys = false) (t : Name) :
    Triple F (Inside c₀ (· = c₀.durable)) (rebuild t)
      (insidePost c₀ (fun b d => if b then ∃ S, c₀.durable.schema.clocks t = false ∧
          Rebuilt c₀.durable.schema S t ∧ d = { c₀.durable with schema := S }
        else d = c₀.durable ∧ c₀.durable.schema.clocks t = true) (fun _ => True)) := by
  set d₀ := c₀.durable with hd₀
  refine triple_bind (Q := fun b => Inside c₀ (fun d => d = d₀ ∧ d₀.schema.clocks t = b)) ?_ ?_
  · exact inside_query (fun d hd => ⟨hd, by rw [hd]; rfl⟩)
  intro crr
  cases crr with
  | true => exact inside_done false (fun d hd => hd)
  | false =>
    simp only [Bool.false_eq_true, if_false]
    refine triple_points (fun c hc => ?_)
    obtain ⟨_, rfl, rfl, hclock⟩ := hc
    refine Triple.pre (O := Inside c₀ (· = d₀)) ?_ (fun c hc => ⟨d₀, hc, rfl⟩)
    refine triple_bind (Q := fun _ => Inside c₀ (· = d₀)) (inside_query (fun d hd => hd)) ?_
    intro there
    cases there with
    | false =>
      simp only [Bool.false_eq_true, if_false]
      exact inside_raise (Or.inl rfl)
    | true =>
      simp only [if_true]
      refine triple_bind (Q := fun _ => Inside c₀ (· = d₀)) (inside_query (fun d hd => hd)) ?_
      intro triggers
      refine triple_bind (Q := fun slots => Inside c₀ (fun d => d = d₀ ∧ slots = d₀.schema.slots t))
        (inside_query (fun d hd => ⟨hd, by rw [hd]⟩)) ?_
      intro slots
      refine triple_points (fun c hc => ?_)
      obtain ⟨_, rfl, rfl, rfl⟩ := hc
      refine Triple.pre (O := Inside c₀ (· = d₀)) ?_ (fun c hc => ⟨d₀, hc, rfl⟩)
      refine triple_bind (Q := fun _ => Inside c₀ (· = d₀)) (inside_query (fun d hd => hd)) ?_
      intro indexes
      refine triple_bind
        (Q := fun res => Inside c₀ (fun d => d = d₀ ∧ deriveRebuildBody t d₀.schema = res))
        (inside_query (fun d hd => ⟨hd, by rw [hd]⟩)) ?_
      intro res
      refine triple_points (fun c hc => ?_)
      obtain ⟨_, rfl, rfl, hres⟩ := hc
      refine Triple.pre (O := Inside c₀ (· = d₀)) ?_ (fun c hc => ⟨d₀, hc, rfl⟩)
      cases res with
      | error e => exact inside_raise (Or.inr trivial)
      | ok T =>
        obtain ⟨T₀, hT₀, rfl⟩ := deriveRebuildBody_eq hres
        refine triple_bind (Q := fun _ => Inside c₀ (fun d => ∃ S₁, d = { d₀ with schema := S₁ } ∧
          d₀.schema.createTable false (rebuildName t) T₀.columns true false = .ok S₁)) ?_ ?_
        · refine inside_define ?_ (fun _ _ _ _ => Or.inr trivial)
          rintro d S rfl h
          exact ⟨S, rfl, h⟩
        intro _
        refine triple_bind (Q := fun _ => Inside c₀ (fun d => ∃ S₁ S₂, d = { d₀ with schema := S₂ } ∧
          d₀.schema.createTable false (rebuildName t) T₀.columns true false = .ok S₁ ∧
          copyRows t (rebuildName t) S₁ = .ok S₂)) ?_ ?_
        · refine inside_define ?_ (fun _ _ _ _ => Or.inr trivial)
          rintro d S ⟨S₁, rfl, h₁⟩ h
          exact ⟨S₁, S, rfl, h₁, h⟩
        intro _
        refine triple_bind (Q := fun _ => Inside c₀ (fun d => ∃ S₁ S₂ S₃,
          d = { d₀ with schema := S₃ } ∧
          d₀.schema.createTable false (rebuildName t) T₀.columns true false = .ok S₁ ∧
          copyRows t (rebuildName t) S₁ = .ok S₂ ∧ dropTableStmt t false S₂ = .ok S₃)) ?_ ?_
        · refine inside_define ?_ (fun _ _ _ _ => Or.inr trivial)
          rintro d S ⟨S₁, S₂, rfl, h₁, h₂⟩ h
          exact ⟨S₁, S₂, S, rfl, h₁, h₂, by rw [hfk] at h; exact h⟩
        intro _
        refine triple_bind (Q := fun _ => Inside c₀ (fun d => ∃ S,
          d = { d₀ with schema := S } ∧ Swapped d₀.schema S t)) ?_ ?_
        · refine inside_define ?_ (fun _ _ _ _ => Or.inr trivial)
          rintro d S ⟨S₁, S₂, S₃, rfl, h₁, h₂, h₃⟩ h
          exact ⟨S, rfl, swapped_of_statements hT₀ h₁ h₂ h₃ h⟩
        intro _
        refine triple_bind (Q := fun _ => Inside c₀ (fun d => ∃ S,
          d = { d₀ with schema := S } ∧ Swapped d₀.schema S t)) ?_ ?_
        · refine triple_forEach (R := insidePost c₀ (fun _ d => ∃ S,
            d = { d₀ with schema := S } ∧ Swapped d₀.schema S t) (fun _ => True)) ?_
          intro p hp
          refine inside_define ?_ (fun _ _ _ _ => Or.inr trivial)
          rintro d S' ⟨S, rfl, hS⟩ h
          exact ⟨S', rfl, hS.of_eq (by rw [createTrigger_eq h]) (by rw [createTrigger_eq h])
            (fun u _ => by rw [createTrigger_eq h])⟩
        intro _
        refine triple_bind (Q := fun _ => Inside c₀ (fun d => ∃ S,
          d = { d₀ with schema := S } ∧ Rebuilt d₀.schema S t)) ?_ ?_
        · refine inside_define ?_ (fun _ _ _ _ => Or.inr trivial)
          rintro d S' ⟨S, rfl, hS⟩ h
          obtain rfl := Except.ok.inj h
          refine ⟨_, rfl, hS.of_eq rfl rfl (fun u hu => Function.update_of_ne hu _ _), ?_⟩
          funext u
          by_cases hu : u = t
          · simp [hu]
          · simpa [hu] using hS.slots u hu
        intro _
        refine triple_bind (Q := fun _ => Inside c₀ (fun d => ∃ S,
          d = { d₀ with schema := S } ∧ Rebuilt d₀.schema S t)) ?_ ?_
        · refine triple_forEach (R := insidePost c₀ (fun _ d => ∃ S,
            d = { d₀ with schema := S } ∧ Rebuilt d₀.schema S t) (fun _ => True)) ?_
          intro p hp
          refine inside_define ?_ (fun _ _ _ _ => Or.inr trivial)
          rintro d S' ⟨S, rfl, hS⟩ h
          obtain ⟨rfl, _⟩ | rfl := createIndex_eq h
          · exact ⟨S', rfl, hS⟩
          · exact ⟨_, rfl, hS.1.of_eq rfl rfl (fun _ _ => rfl), hS.2⟩
        intro _
        refine inside_done true ?_
        rintro d ⟨S, rfl, hS⟩
        exact ⟨S, hclock, hS, rfl⟩

end Rebuild

section EnsureCrr

/-- What `ensure_crr` leaves of a database, wherever it is cut short. -/
inductive Ensured (t : Name) (d : Db) : Db → Prop
  | same : Ensured t d d
  | rebuilt (S : Schema) (hclock : d.schema.clocks t = false) (h : Rebuilt d.schema S t) :
      Ensured t d { d with schema := S }
  | converted (S S' : Schema) (hclock : d.schema.clocks t = false) (h : Rebuilt d.schema S t)
      (hcrr : crsqlAsCrr t S = .ok S') : Ensured t d { d with schema := S' }

/-- What it leaves when it is done. -/
inductive Finished (t : Name) (d : Db) : Db → Prop
  | already (hclock : d.schema.clocks t = true) : Finished t d d
  | converted (S S' : Schema) (hclock : d.schema.clocks t = false) (h : Rebuilt d.schema S t)
      (hcrr : crsqlAsCrr t S = .ok S') : Finished t d { d with schema := S' }

theorem Finished.ensured {d d' : Db} (h : Finished t d d') : Ensured t d d' := by
  cases h with
  | already hclock => exact Ensured.same
  | converted S S' hclock h hcrr => exact Ensured.converted S S' hclock h hcrr

/-- In an open transaction the conversion does not even begin. -/
def Reached (t : Name) (c₀ : Conn) (d : Db) : Prop :=
  Ensured t c₀.durable d ∧ (c₀.work.isSome = true → d = c₀.durable)

theorem Reached.refl (t : Name) (c₀ : Conn) : Reached t c₀ c₀.durable :=
  ⟨Ensured.same, fun _ => rfl⟩

theorem Reached.of_none {d : Db} (h : Ensured t c₀.durable d) (hnone : c₀.work = none) :
    Reached t c₀ d :=
  ⟨h, fun hw => by simp [hnone] at hw⟩

theorem transformAndCrrify_spec (hfk : c₀.work = none → c₀.foreignKeys = false) :
    Triple F (· = c₀) (transformAndCrrify t)
      { done := fun _ c => c₀.work = none ∧
          ∃ d, Finished t c₀.durable d ∧ Undone F { c₀ with durable := d } c
        raised := fun _ c => ∃ d, Reached t c₀ d ∧ Undone F { c₀ with durable := d } c
        stopped := fun c => Reached t c₀ c.durable ∧ c.plain = c₀.plain } := by
  refine triple_bind (Q := fun b c => c₀.work = none ∧ if b then
      ∃ S, c₀.durable.schema.clocks t = false ∧ Rebuilt c₀.durable.schema S t ∧
        c = { c₀ with durable := { c₀.durable with schema := S } }
    else c₀.durable.schema.clocks t = true ∧ Undone F c₀ c) ?_ ?_
  · refine (transaction_spec (fun hnone => rebuild_inside (hfk hnone) t)).imp (fun _ => id) ?_ ?_ ?_
    · rintro b c ⟨hnone, d, hd, hc⟩
      refine ⟨hnone, ?_⟩
      cases b with
      | true =>
        obtain ⟨S, hclock, hS, rfl⟩ := hd
        exact ⟨S, hclock, hS, hc⟩
      | false => exact ⟨hd.2, hc⟩
    · rintro e c ⟨hc, -⟩
      exact ⟨c₀.durable, Reached.refl t c₀, hc⟩
    · rintro c ⟨hdurable, hplain⟩
      exact ⟨hdurable ▸ Reached.refl t c₀, hplain⟩
  · intro b
    refine Triple.of_fixed (fun hnone => ?_)
    cases b with
    | false =>
      simp only [Bool.false_eq_true, if_false]
      exact triple_done () (fun c hc => ⟨hnone, c₀.durable, Finished.already hc.1, hc.2⟩)
    | true =>
      simp only [if_true]
      refine Triple.exists_pre (fun S => Triple.of_fixed (fun hclock =>
        Triple.of_fixed (fun hS => ?_)))
      refine triple_bind (Q := fun _ c => ∃ d, Finished t c₀.durable d ∧
        Undone F { c₀ with durable := d } c) ?_ ?_
      · refine (transaction_spec (Q := fun b d => b = true ∧ ∃ S', crsqlAsCrr t S = .ok S' ∧
          d = { c₀.durable with schema := S' }) (E := fun _ => True) (fun _ => ?_)).imp
          (fun _ => id) ?_ ?_ ?_
        · refine triple_bind (Q := fun _ => Inside _ (fun d => ∃ S', crsqlAsCrr t S = .ok S' ∧
            d = { c₀.durable with schema := S' })) ?_
            (fun _ => inside_done true (fun d hd => ⟨rfl, hd⟩))
          refine inside_define ?_ (fun _ _ _ _ => Or.inr trivial)
          rintro d S' rfl h
          exact ⟨S', h, rfl⟩
        · rintro b c ⟨-, d, ⟨rfl, S', hcrr, rfl⟩, hc⟩
          exact ⟨_, Finished.converted S S' hclock hS hcrr, Or.inl hc⟩
        · rintro e c ⟨hc, -⟩
          exact ⟨_, Reached.of_none (Ensured.rebuilt S hclock hS) hnone, hc⟩
        · rintro c ⟨hdurable, hplain⟩
          exact ⟨hdurable ▸ Reached.of_none (Ensured.rebuilt S hclock hS) hnone, hplain⟩
      · exact fun _ => triple_done () (fun c hc => ⟨hnone, hc⟩)

/-- What a part of the run leaves of the connection. After a `ROLLBACK` or a restoring `PRAGMA`
that failed, `foreign_keys` may stay off. -/
structure Tidy (F : Fate → Prop) (c₀ c : Conn) : Prop where
  unclean : c₀.unclean = true → c.unclean = true
  foreignKeys : c.unclean = true ∨ c.foreignKeys = c₀.foreignKeys
  work : c.work.isSome = c₀.work.isSome ∨ F .fails

theorem Tidy.refl (c : Conn) : Tidy F c c := ⟨id, Or.inr rfl, Or.inl rfl⟩

theorem Tidy.trans {c₁ c₂ : Conn} (h : Tidy F c₀ c₁) (h' : Tidy F c₁ c₂) : Tidy F c₀ c₂ where
  unclean := h'.unclean ∘ h.unclean
  foreignKeys := by
    obtain hc | hfk := h'.foreignKeys
    · exact Or.inl hc
    · exact h.foreignKeys.imp h'.unclean hfk.trans
  work := by
    obtain hw | hF := h'.work
    · exact h.work.imp_left hw.trans
    · exact Or.inr hF

theorem Undone.tidy (h : Undone F c₀ c) : Tidy F c₀ c := by
  obtain rfl | ⟨hF, d, rfl⟩ := h
  · exact Tidy.refl c
  · exact ⟨fun _ => rfl, Or.inl rfl, Or.inr hF⟩

theorem Undone.durable (h : Undone F c₀ c) : c.durable = c₀.durable := by
  obtain rfl | ⟨_, d, rfl⟩ := h
  · rfl
  · rfl

theorem Undone.plain (h : Undone F c₀ c) : c.plain = c₀.plain := by
  obtain rfl | ⟨_, d, rfl⟩ := h
  · rfl
  · rfl

/-- `foreign_keys` as a connection has it while the table is rebuilt. -/
def Conn.keysOff (c : Conn) : Conn :=
  match c.work with
  | some _ => c
  | none => { c with foreignKeys := false }

theorem ensureCrr_spec :
    Triple F (· = c₀) (ensureCrr t)
      { done := fun _ c => c₀.work = none ∧ Finished t c₀.durable c.durable ∧
          c.plain = c₀.plain ∧ Tidy F c₀ c
        raised := fun _ c => Reached t c₀ c.durable ∧ c.plain = c₀.plain ∧ Tidy F c₀ c
        stopped := fun c => Reached t c₀ c.durable ∧ c.plain = c₀.plain } := by
  have hsame : Reached t c₀ c₀.durable ∧ c₀.plain = c₀.plain := ⟨Reached.refl t c₀, rfl⟩
  have hkeep : Reached t c₀ c₀.durable ∧ c₀.plain = c₀.plain ∧ Tidy F c₀ c₀ :=
    ⟨Reached.refl t c₀, rfl, Tidy.refl c₀⟩
  have hoff : c₀.keysOff.durable = c₀.durable ∧ c₀.keysOff.plain = c₀.plain ∧
      c₀.keysOff.work = c₀.work ∧ c₀.keysOff.unclean = c₀.unclean := by
    unfold Conn.keysOff
    split <;> simp
  obtain ⟨hdurable, hplain, hwork, hunclean⟩ := hoff
  refine triple_bind (Q := fun fk c => c = c₀ ∧ fk = c₀.foreignKeys) ?_ (fun fk => ?_)
  · refine triple_act ?_ ?_ ?_ ?_
    · rintro c a c' rfl h
      simp only [Except.ok.injEq, Prod.mk.injEq] at h
      exact ⟨h.2.symm, h.1.symm⟩
    · rintro c e rfl h
      cases h
    · rintro hF c rfl
      exact hkeep
    · rintro hF c rfl
      exact hsame
  refine triple_points (fun c hc => ?_)
  rw [hc.1, hc.2]
  refine triple_bind (Q := fun _ c => c = c₀.keysOff) ?_ (fun _ => ?_)
  · refine triple_act ?_ ?_ ?_ ?_
    · rintro c a c' rfl h
      simp only [Except.ok.injEq, Prod.mk.injEq] at h
      exact h.2.symm
    · rintro c e rfl h
      cases h
    · rintro hF c rfl
      exact hkeep
    · rintro hF c rfl
      exact hsame
  refine triple_bind (Q := fun res c => ∃ d, Reached t c₀ d ∧
    Undone F { c₀.keysOff with durable := d } c ∧
    ∀ a, res = .ok a → c₀.work = none ∧ Finished t c₀.durable d) ?_ (fun res => ?_)
  · have hfk : c₀.keysOff.work = none → c₀.keysOff.foreignKeys = false := by
      intro hnone
      rw [hwork] at hnone
      simp only [Conn.keysOff, hnone]
    refine triple_attempt ((transformAndCrrify_spec hfk).imp (fun _ => id) ?_ ?_ ?_)
    · rintro a c ⟨hnone, d, hd, hc⟩
      rw [hdurable] at hd
      rw [hwork] at hnone
      exact ⟨d, Reached.of_none hd.ensured hnone, hc, fun _ _ => ⟨hnone, hd⟩⟩
    · rintro e c ⟨d, hd, hc⟩
      simp only [Reached, hdurable, hwork] at hd
      exact ⟨d, hd, hc, (fun _ h => by cases h)⟩
    · rintro c ⟨hd, hc⟩
      simp only [Reached, hdurable, hwork] at hd
      exact ⟨hd, hc.trans hplain⟩
  refine Triple.exists_pre (fun d => Triple.of_fixed (fun hd => triple_points ?_))
  rintro c₁ ⟨hundone, hok⟩
  have hd₁ : c₁.durable = d := hundone.durable
  have hp₁ : c₁.plain = c₀.plain := hundone.plain.trans hplain
  refine triple_bind (Q := fun _ c => c.durable = d ∧ c.plain = c₀.plain ∧ Tidy F c₀ c) ?_
    (fun restored => ?_)
  · refine triple_attempt (triple_act ?_ ?_ ?_ ?_)
    · rintro c a c' rfl h
      simp only [Except.ok.injEq, Prod.mk.injEq] at h
      obtain ⟨-, rfl⟩ := h
      obtain rfl | ⟨hF, d', rfl⟩ := hundone
      · cases hw : c₀.work with
        | none =>
          have hkw : c₀.keysOff.work = none := hwork.trans hw
          refine ⟨by simp [hkw], by simp [hkw, hplain], ?_, ?_, ?_⟩
          · simp [hkw, hunclean]
          · exact Or.inr (by simp [hkw])
          · exact Or.inl (by simp [hkw, hw])
        | some d' =>
          have hkw : c₀.keysOff.work = some d' := hwork.trans hw
          have hke : c₀.keysOff = c₀ := by simp only [Conn.keysOff, hw]
          refine ⟨by simp [hkw], by simp [hkw, hplain], ?_, ?_, ?_⟩
          · simp [hkw, hunclean]
          · exact Or.inr (by simp [hke, hw])
          · exact Or.inl (by simp [hkw, hw])
      · exact ⟨rfl, hplain, fun _ => rfl, Or.inl rfl, Or.inr hF⟩
    · rintro c e rfl h
      cases h
    · rintro hF c rfl
      exact ⟨hd₁, hp₁, fun _ => rfl, Or.inl rfl, Or.inr hF⟩
    · rintro hF c rfl
      exact ⟨hd₁.symm ▸ hd, hp₁⟩
  · cases res with
    | error e =>
      refine triple_raise _ ?_
      rintro c ⟨rfl, hp, htidy⟩
      exact ⟨hd, hp, htidy⟩
    | ok a =>
      obtain ⟨hnone, hfin⟩ := hok a rfl
      cases restored with
      | error e =>
        refine triple_raise _ ?_
        rintro c ⟨rfl, hp, htidy⟩
        exact ⟨hd, hp, htidy⟩
      | ok b =>
        refine triple_done _ ?_
        rintro c ⟨rfl, hp, htidy⟩
        exact ⟨hnone, hfin, hp, htidy⟩

end EnsureCrr

/-- The wrapped alter happens as a whole or not at all. -/
theorem crsqlAlter_spec (v : ℤ) (x : Text) :
    Triple F (· = c₀) (crsqlAlter v t x)
      { done := fun _ c => c₀.work = none ∧ ∃ S S',
          x.means.exec c₀.foreignKeys (crsqlBeginAlter t c₀.durable.schema) = .ok S ∧
          crsqlCommitAlter t S = .ok S' ∧ c = { c₀ with durable :=
            { c₀.durable with schema := S', altered := v :: c₀.durable.altered } }
        raised := fun e c => Undone F c₀ c ∧ (e = .failed ∨
          x.means.exec c₀.foreignKeys (crsqlBeginAlter t c₀.durable.schema) = .error e)
        stopped := fun c => c.durable = c₀.durable ∧ c.plain = c₀.plain } := by
  refine (transaction_spec (Q := fun b d => b = true ∧ ∃ S S',
    x.means.exec c₀.foreignKeys (crsqlBeginAlter t c₀.durable.schema) = .ok S ∧
    crsqlCommitAlter t S = .ok S' ∧
    d = { c₀.durable with schema := S', altered := v :: c₀.durable.altered })
    (E := fun e => x.means.exec c₀.foreignKeys (crsqlBeginAlter t c₀.durable.schema) = .error e)
    (fun _ => ?_)).imp (fun _ => id) ?_ (fun _ _ => id) (fun _ => id)
  · refine triple_bind (Q := fun _ => Inside c₀
      (· = { c₀.durable with schema := crsqlBeginAlter t c₀.durable.schema })) ?_ (fun _ => ?_)
    · refine inside_define ?_ ?_
      · rintro d S rfl h
        rw [← Except.ok.inj h]
      · intro d e hd h
        cases h
    refine triple_bind (Q := fun _ => Inside c₀ (fun d => ∃ S,
      x.means.exec c₀.foreignKeys (crsqlBeginAlter t c₀.durable.schema) = .ok S ∧
      d = { c₀.durable with schema := S })) ?_ (fun _ => ?_)
    · refine inside_define ?_ ?_
      · rintro d S rfl h
        exact ⟨S, h, rfl⟩
      · rintro d e rfl h
        exact Or.inr h
    refine triple_bind (Q := fun _ => Inside c₀ (fun d => ∃ S S',
      x.means.exec c₀.foreignKeys (crsqlBeginAlter t c₀.durable.schema) = .ok S ∧
      crsqlCommitAlter t S = .ok S' ∧
      d = { c₀.durable with schema := S', altered := v :: c₀.durable.altered })) ?_ (fun _ => ?_)
    · refine inside_update ?_ ?_
      · rintro d d' ⟨S, hS, rfl⟩ h
        cases hcommit : crsqlCommitAlter t S with
        | ok S' =>
          simp only [hcommit, Except.map, Except.ok.injEq] at h
          exact ⟨S, S', hS, hcommit, h.symm⟩
        | error e => simp [hcommit, Except.map] at h
      · rintro d e ⟨S, hS, rfl⟩ h
        refine Or.inl ?_
        cases hcommit : crsqlCommitAlter t S with
        | ok S' => simp [hcommit, Except.map] at h
        | error e' =>
          simp only [hcommit, Except.map, Except.error.injEq] at h
          rw [← h]
          unfold crsqlCommitAlter at hcommit
          split at hcommit
          · exact (Except.error.inj hcommit).symm
          · split at hcommit
            · exact (Except.error.inj hcommit).symm
            · cases hcommit
    exact inside_done true (fun d hd => ⟨rfl, hd⟩)
  · rintro b c ⟨hnone, d, ⟨rfl, S, S', hS, hcommit, rfl⟩, hc⟩
    exact ⟨hnone, S, S', hS, hcommit, hc⟩

end YapStack.Migrations
