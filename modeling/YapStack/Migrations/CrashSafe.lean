import YapStack.Migrations.Reruns

namespace YapStack.Migrations

open Faulty Faulty.Prog

/-- Over launches, heals and crashes at any statement: what is recorded has landed, no sync table of
a database with CRRs was changed by a statement outside the wrapping, the conversion loses no row,
`foreign_keys` is back after each migration, and a launch that nothing disturbs records the rest. -/
theorem migrations_crash_safe (later : List Name) (ms : List Migration)
    (hms : ∀ m ∈ ms, Sound later m) (hnodup : (ms.map Migration.version).Nodup) (d : Db)
    (hd : Fit later d) (events : List Event) :
    (∀ e ∈ (World.after later ms ⟨d, []⟩ events).durable.recorded, e ∈ d.recorded ∨
      ∃ m ∈ ms, m.version = e.version ∧ Landed later m e.written) ∧
    LogOk later (World.after later ms ⟨d, []⟩ events).plain ∧
    (∀ t fates c, (ensureCrr t fates c).state.durable.rows = c.durable.rows) ∧
    (∀ l, l <+: ms → ∀ fk fates,
      (runMigrationsList later l fates
        ((World.after later ms ⟨d, []⟩ events).connect fk)).outcome ≠ .stopped →
      (runMigrationsList later l fates
        ((World.after later ms ⟨d, []⟩ events).connect fk)).state.unclean = true ∨
      (runMigrationsList later l fates
        ((World.after later ms ⟨d, []⟩ events).connect fk)).state.foreignKeys = fk) ∧
    ∀ fk fates, (∀ x ∈ fates, Calm x) → ∃ lines,
      (runMigrationsList later ms fates
        ((World.after later ms ⟨d, []⟩ events).connect fk)).outcome = .done lines ∧
      ((∀ line ∈ lines, Excused (World.after later ms ⟨d, []⟩ events).durable.altered line) →
        ∀ m ∈ ms, Settled (World.after later ms ⟨d, []⟩ events).durable.altered lines m
          (runMigrationsList later ms fates
            ((World.after later ms ⟨d, []⟩ events).connect fk)).state.durable) := by
  obtain ⟨hinv, hlog⟩ := World.after_safe (w := ⟨d, []⟩) hms events ⟨hd.inv, (fun _ h => by cases h)⟩
  set w := World.after later ms ⟨d, []⟩ events
  have hsafe : ∀ fk, Safe later ms d (w.connect fk) := fun _ => ⟨hinv, hlog⟩
  refine ⟨hinv.recorded, hlog, ?_, ?_, ?_⟩
  · intro t fates c
    have htriple : Triple (fun _ => True) (· = c) (ensureCrr t)
        (Post.always (fun c' => c'.durable.rows = c.durable.rows)) := ensureCrr_rows
    exact htriple.always fates (fun _ _ => trivial) rfl
  · intro l hl fk fates hends
    have htriple : Triple (fun _ => True) (· = w.connect fk) (runMigrationsList later l)
        { done := fun _ => Tidy (fun _ => True) (w.connect fk)
          raised := fun _ => Tidy (fun _ => True) (w.connect fk)
          stopped := fun _ => True } :=
      runMigrationsList_tidy hms (fun m hm => hl.subset hm) (hsafe fk)
    obtain ⟨hpost, -⟩ := htriple fates _ (fun _ _ => trivial) rfl
    cases hout : (runMigrationsList later l fates (w.connect fk)).outcome with
    | done lines =>
      rw [hout] at hpost
      exact Tidy.foreignKeys hpost
    | raised e =>
      rw [hout] at hpost
      exact Tidy.foreignKeys hpost
    | stopped => exact absurd hout hends
  · intro fk fates hcalm
    obtain ⟨hpost, -⟩ := runMigrationsList_calm hms hnodup (hsafe fk) rfl fates _ hcalm rfl
    cases hout : (runMigrationsList later ms fates (w.connect fk)).outcome with
    | done lines =>
      rw [hout] at hpost
      exact ⟨lines, rfl, hpost⟩
    | raised e =>
      rw [hout] at hpost
      exact hpost.elim
    | stopped =>
      have hstops := (runMigrationsList_steady ms fates (w.connect fk)).2 hout
      exact absurd (hcalm _ hstops) not_calm_stops

/-- A database as cutover leaves it. -/
def cutOver : Db where
  schema :=
    { tables := Function.update (fun _ => none) "sessions" (some ⟨["id", "title"], true, []⟩)
      indexes := []
      triggers := []
      clocks := Function.update (fun _ => false) "sessions" true
      slots := Function.update (fun _ => none) "sessions" (some ["id", "title"]) }
  recorded := []
  altered := []

/-- Version 16. -/
def attribution (effects : List SchemaObject) : Migration where
  version := 16
  sql := [⟨["sessions", "recording_device_id"],
    .alterTable "sessions" (.add "recording_device_id"), by decide⟩]
  kind := .plain
  schemaEffects := effects

/-- The process ends between the wrapped alter and its bookkeeping row. -/
def cutShort : List Event := [.run true (List.replicate 8 .works ++ [.stops])]

/-- A synced table added after cutover. -/
def artifacts : Migration where
  version := 19
  sql := [⟨["artifacts", "id"], .createTable true "artifacts" ["id"] true false, by decide⟩]
  kind := .createSyncTable "artifacts"
  schemaEffects := []

/-- `DROP TRIGGER sessions__crsql_utrig` -/
def dropUpdateTrigger : Other where
  names := ["sessions__crsql_utrig"]
  creates := []
  removes := fun _ => false
  run := fun _ S => .ok { S with slots := Function.update S.slots "sessions" none }
  clocks_kept := by
    intro fk S S' h t _
    rw [← Except.ok.inj h]
  kept := by
    intro fk S S' h t _ hint
    rw [← Except.ok.inj h]
    have hne : t ≠ "sessions" := by
      rintro rfl
      exact absurd (by decide +kernel) (hint _ List.mem_cons_self)
    have hslots : Function.update S.slots "sessions" none t = S.slots t :=
      Function.update_of_ne hne _ _
    exact ⟨fun T hT => ⟨T, hT, rfl, rfl, fun _ => rfl⟩, id, rfl, hslots⟩
  created := (by simp)
  present_kept := by
    intro fk S S' h o ho _
    rw [← Except.ok.inj h]
    cases o <;> exact ho

def untriggered : Migration where
  version := 20
  sql := [⟨["sessions__crsql_utrig"], .other dropUpdateTrigger, fun _ => id⟩]
  kind := .plain
  schemaEffects := []

/-- A `CreateSyncTable` that the check refuses, and whose table is there. -/
def misdeclared : Migration where
  version := 21
  sql := [⟨["sessions", "id"], .createTable true "sessions" ["id"] true false, by decide⟩,
    ⟨["extra", "id"], .createTable true "extra" ["id"] true false, by decide⟩]
  kind := .createSyncTable "sessions"
  schemaEffects := []

/-- A launch on the database as cutover leaves it, in a build with one later sync table. -/
def launch (m : Migration) (fates : List Fate) : Result Conn Failure (List Line) :=
  runMigrationsList ["artifacts"] [m] fates (World.connect ⟨cutOver, []⟩ true)

theorem cutOver_fit : Fit [] cutOver where
  healthy := by
    intro _ t _
    by_cases ht : t = "sessions"
    · subst ht
      exact ⟨fun _ => ⟨⟨["id", "title"], true, []⟩, rfl, (fun _ h => by cases h), rfl⟩, fun h => by cases h⟩
    · have hclock : cutOver.schema.clocks t = false := by simp [cutOver, ht]
      have hslots : cutOver.schema.slots t = none := by simp [cutOver, ht]
      refine ⟨fun h => ?_, fun _ => hslots⟩
      rw [hclock] at h
      cases h
  never := (by rintro ⟨⟩)
  altered := rfl

theorem attribution_sound :
    Sound [] (attribution [.column "sessions" "recording_device_id"]) where
  external := by decide +kernel
  declared := by
    intro _ _
    refine ⟨fun o => Iff.rfl, ?_⟩
    intro x hx o
    obtain rfl := List.mem_singleton.mp hx
    rfl
  formed := (fun _ h => by cases h)

/-- The same alter with its effect declared: the next launch records it. -/
theorem migrations_crash_safe_attribution :
    16 ∈ (runMigrationsList [] [attribution [.column "sessions" "recording_device_id"]] []
      ((World.after [] [attribution [.column "sessions" "recording_device_id"]] ⟨cutOver, []⟩
        cutShort).connect true)).state.durable.versions := by
  obtain ⟨-, -, -, -, hrerun⟩ := migrations_crash_safe []
    [attribution [.column "sessions" "recording_device_id"]]
    (by simpa using attribution_sound) (by decide) cutOver cutOver_fit cutShort
  obtain ⟨lines, hlines, hsettled⟩ := hrerun true [] (fun _ h => by cases h)
  have hpresent : (runMigrationsList [] [attribution [.column "sessions" "recording_device_id"]] []
      ((World.after [] [attribution [.column "sessions" "recording_device_id"]] ⟨cutOver, []⟩
        cutShort).connect true)).outcome = .done [.present 16 .alreadyThere] := by
    decide +kernel
  obtain rfl : [Line.present 16 .alreadyThere] = lines := by
    rw [hpresent] at hlines
    exact Outcome.done.inj hlines
  have hold : (16 : ℤ) ∈ (World.after []
      [attribution [.column "sessions" "recording_device_id"]] ⟨cutOver, []⟩
      cutShort).durable.altered := by
    decide +kernel
  obtain h | h | ⟨h, -⟩ := hsettled
    (fun line hline => List.mem_singleton.mp hline ▸ Or.inr ⟨rfl, hold⟩) _ List.mem_cons_self
  · exact h
  · exact absurd (List.mem_singleton.mp h) (by rintro ⟨⟩)
  · cases h

theorem migrations_claim_fails :
    -- the alter that was cut short is never recorded
    ((World.after [] [attribution []] ⟨cutOver, []⟩ cutShort).durable.altered = [16] ∧
      (runMigrationsList [] [attribution []] []
        ((World.after [] [attribution []] ⟨cutOver, []⟩ cutShort).connect true)).outcome =
          .done [.failed 16 .alreadyThere] ∧
      (runMigrationsList [] [attribution []] []
        ((World.after [] [attribution []] ⟨cutOver, []⟩ cutShort).connect true)).state.durable.versions
          = []) ∧
    -- `PRAGMA foreign_keys` fails when it should put the setting back
    (launch artifacts (List.replicate 23 .works ++ [.fails])).state.foreignKeys = false ∧
    -- a plain migration names a trigger of cr-sqlite, not its table
    (∃ p ∈ (launch untriggered []).state.plain, p.1.isCrr "sessions" = true ∧
      p.2.slots "sessions" ≠ p.1.slots "sessions") ∧
    -- a refused migration is recorded without a table that its SQL creates
    ((launch misdeclared []).state.durable.versions = [21] ∧
      (launch misdeclared []).state.durable.schema.present (.table "extra") = false) := by
  decide +kernel

end YapStack.Migrations
