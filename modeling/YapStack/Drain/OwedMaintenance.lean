import YapStack.Drain.Cycle
import YapStack.Foundation.Runs
import YapStack.Sync.Change

namespace YapStack.Drain

section Maintenance

open YapStack.Runs

/-- The tables each relationship of the cascade names. -/
def cascadeTables : List (List String) :=
  [["segments", "sessions"], ["notes", "sessions"], ["note_versions", "notes"],
    ["chat_messages", "sessions"], ["session_audio_parts", "sessions"], ["shares", "folders"],
    ["session_folders", "sessions", "folders"], ["session_tags", "sessions", "tags"],
    ["folders", "folders"], ["sessions", "folders"]]

def uniquenessTables : List (List String) :=
  [["notes"], ["tags", "session_tags"], ["session_audio_parts"]]

def skippedPasses (passes : List (List String)) (crr : List String) : ℕ :=
  passes.countP (fun tables => !tables.all crr.contains)

/-- The passes it skipped, or nothing when it fails and rolls back. -/
def cascadeGc (crr : List String) (fails : Bool) : Option ℕ :=
  if fails then none else some (skippedPasses cascadeTables crr)

def enforceUniqueness (crr : List String) (fails : Bool) : Option ℕ :=
  if fails then none else some (skippedPasses uniquenessTables crr)

structure MaintenanceSchedule where
  pending : Bool
  skippedAt : Option (List String)
  deriving DecidableEq

namespace MaintenanceSchedule

def atStartup : MaintenanceSchedule := ⟨true, none⟩

def readinessChanged (m : MaintenanceSchedule) (crrNow : Option (List String)) : Bool :=
  m.skippedAt.any (fun prev => crrNow.any (fun now => now ≠ prev))

/-- Whether maintenance runs, and what stays pending. -/
def maintenanceReady (merged clean pending : Bool) : Bool × Bool :=
  let pending := pending || merged
  if clean && pending then (true, false) else (false, pending)

def due (m : MaintenanceSchedule) (r : DrainReport) (crrNow : Option (List String)) :
    Bool × MaintenanceSchedule :=
  let ready := maintenanceReady (decide (0 < r.applied + r.replayed) || m.readinessChanged crrNow)
    (r.pullError.isNone && r.replayFailed == 0) m.pending
  (ready.1, { m with pending := ready.2 })

def ran (m : MaintenanceSchedule) (skipped : ℕ) (crrNow : Option (List String)) :
    MaintenanceSchedule :=
  { m with skippedAt := if 0 < skipped then crrNow else none }

end MaintenanceSchedule

inductive Refresh
  | refreshed
  | rejected
  | retryable
  deriving DecidableEq

/-- What one iteration of the drain loop meets. The three reads of the CRR'd tables are the
schedule's before and after maintenance, and the one of the passes themselves. -/
structure Cycle where
  first : Attempt
  refresh : Refresh
  second : Attempt
  crrBefore : Option (List String)
  crr : List String
  crrAfter : Option (List String)
  cascadeFails : Bool
  uniquenessFails : Bool
  deriving DecidableEq

/-- How an iteration leaves its two attempts: for the next iteration, out of the loop, or with
the report the rest of the iteration reads. -/
inductive Drained
  | next
  | stop
  | report (r : DrainReport)
  deriving DecidableEq

def Cycle.retries (c : Cycle) : Bool :=
  (drainOnce c.first).any DrainReport.hasUnauthorized && c.refresh = .refreshed

def Cycle.drain (c : Cycle) : Drained :=
  match drainOnce c.first with
  | none => .next
  | some r =>
    if r.hasUnauthorized then
      match c.refresh with
      | .rejected => .stop
      | .retryable => .next
      | .refreshed =>
        match drainOnce c.second with
        | none => .next
        | some r' => if r'.hasUnauthorized then .stop else .report r'
    else .report r

/-- The remote rows an iteration writes to the database. -/
def Cycle.landed (c : Cycle) : ℕ :=
  Drain.landed c.first + if c.retries then Drain.landed c.second else 0

/-- `cascadeOwed` and `uniquenessOwed` are history: a row landed, or the step failed, since it
last ran to success. -/
structure State where
  schedule : MaintenanceSchedule
  running : Bool
  cascadeOwed : Bool
  uniquenessOwed : Bool
  deriving DecidableEq

/-- An iteration of the loop, the end of the process after `rows` more rows have landed, and
the start of a drain. -/
inductive Event
  | cycle (c : Cycle)
  | crash (rows : ℕ)
  | spawnDrain
  deriving DecidableEq

namespace State

def land (s : State) (rows : ℕ) : State :=
  { s with
    cascadeOwed := s.cascadeOwed || decide (0 < rows)
    uniquenessOwed := s.uniquenessOwed || decide (0 < rows) }

def maintain (s : State) (c : Cycle) : State :=
  let cascade := cascadeGc c.crr c.cascadeFails
  let uniqueness := enforceUniqueness c.crr c.uniquenessFails
  { s with
    schedule := s.schedule.ran (cascade.getD 0 + uniqueness.getD 0) c.crrAfter
    cascadeOwed := cascade.isNone
    uniquenessOwed := uniqueness.isNone }

def runsMaintenance (s : State) (c : Cycle) : Bool :=
  match c.drain with
  | .report r => (s.schedule.due r c.crrBefore).1
  | _ => false

def cycle (s : State) (c : Cycle) : State :=
  let s := s.land c.landed
  match c.drain with
  | .next => s
  | .stop => { s with running := false }
  | .report r =>
    let (go, schedule) := s.schedule.due r c.crrBefore
    if go then { s with schedule }.maintain c else { s with schedule }

def step (s : State) : Event → Option State
  | .cycle c => if s.running then some (s.cycle c) else none
  | .crash rows => if s.running then some { s.land rows with running := false } else none
  | .spawnDrain =>
    if s.running then none else some { s with schedule := .atStartup, running := true }

end State

end Maintenance

section OwedMaintenance

open YapStack.Runs YapStack.Sync

/-- The report of a cycle whose pull finished and whose replay failed on no stashed row. -/
def Cycle.cleanReport (c : Cycle) : Option DrainReport :=
  match c.drain with
  | .report r => if r.pullError = none ∧ r.replayFailed = 0 then some r else none
  | _ => none

theorem Cycle.cleanReport_eq_some {c : Cycle} {r : DrainReport} :
    c.cleanReport = some r ↔ c.drain = .report r ∧ r.pullError = none ∧ r.replayFailed = 0 := by
  unfold Cycle.cleanReport
  cases hd : c.drain with
  | report r' =>
    simp only [Option.ite_none_right_eq_some, Option.some.injEq, Drained.report.injEq]
    constructor
    · rintro ⟨hclean, rfl⟩
      exact ⟨rfl, hclean⟩
    · rintro ⟨rfl, hclean⟩
      exact ⟨hclean, rfl⟩
  | next => simp
  | stop => simp

namespace MaintenanceSchedule

variable {m : MaintenanceSchedule} {r : DrainReport} {crr : Option (List String)}

/-- What makes maintenance due in a clean cycle. -/
def Wants (m : MaintenanceSchedule) (r : DrainReport) (crr : Option (List String)) : Prop :=
  m.pending = true ∨ 0 < r.applied + r.replayed ∨ m.readinessChanged crr = true

instance : Decidable (m.Wants r crr) := by
  unfold Wants
  infer_instance

theorem due_true_iff : (m.due r crr).1 = true ↔
    (r.pullError = none ∧ r.replayFailed = 0) ∧ m.Wants r crr := by
  simp only [due, maintenanceReady, Wants]
  split
  · rename_i h
    simpa using h
  · rename_i h
    simpa using h

/-- A pass that was skipped for want of a table runs again once the tables change. -/
theorem due_of_newly_ready {skipped : ℕ} {seen now : List String} (hs : 0 < skipped)
    (hne : now ≠ seen) (hp : r.pullError = none) (hf : r.replayFailed = 0) :
    ((m.ran skipped (some seen)).due r (some now)).1 = true := by
  refine due_true_iff.mpr ⟨⟨hp, hf⟩, .inr (.inr ?_)⟩
  simp [ran, readinessChanged, hs, hne]

theorem due_pending_of_held (h : (m.due r crr).1 = false) (hw : m.Wants r crr) :
    (m.due r crr).2.pending = true := by
  simp only [due, maintenanceReady] at h ⊢
  split at h
  · cases h
  · rename_i hready
    rw [if_neg hready]
    simpa [Wants] using hw

end MaintenanceSchedule

namespace State

variable {s t : State} {c : Cycle}

/-- The condition: a cycle after which the loop goes on and in which rows landed finds a pass
pending or reports a row, and no step of a pass fails that a clean cycle runs. -/
def Counted (s : State) (e : Event) (_ : State) : Prop :=
  match e with
  | .cycle c =>
    (0 < c.landed → s.schedule.pending = true ∨
      match c.drain with
      | .next => False
      | .stop => True
      | .report r => 0 < r.applied + r.replayed) ∧
    ∀ r ∈ c.cleanReport, s.schedule.Wants r c.crrBefore →
      c.cascadeFails = false ∧ c.uniquenessFails = false
  | _ => True

instance (s : State) (e : Event) (t : State) : Decidable (Counted s e t) := by
  unfold Counted
  split
  · have : Decidable (match Cycle.drain ‹Cycle› with
      | .next => False
      | .stop => True
      | .report r => 0 < r.applied + r.replayed) := by
      split <;> infer_instance
    infer_instance
  · infer_instance

/-- Maintenance never runs after an unfinished pull. -/
def Held (s : State) (e : Event) (_ : State) : Prop :=
  ∀ c, e = .cycle c → s.runsMaintenance c = true → c.cleanReport.isSome = true

/-- After a clean cycle whose steps do not fail nothing is owed. -/
def Settled (_ : State) (e : Event) (t : State) : Prop :=
  match e with
  | .cycle c => c.cleanReport.isSome = true → c.cascadeFails = false →
    c.uniquenessFails = false → t.cascadeOwed = false ∧ t.uniquenessOwed = false
  | _ => True

instance (s : State) (e : Event) (t : State) : Decidable (Settled s e t) := by
  unfold Settled
  split <;> infer_instance

/-- What is owed stays pending for as long as the drain runs. -/
def Pending (s : State) : Prop :=
  s.running = true → s.cascadeOwed = true ∨ s.uniquenessOwed = true → s.schedule.pending = true

theorem step_held {e : Event} : Held s e t := by
  rintro c rfl hrun
  unfold runsMaintenance at hrun
  split at hrun
  · rename_i r hr
    rw [Cycle.cleanReport_eq_some.mpr ⟨hr, (MaintenanceSchedule.due_true_iff.mp hrun).1⟩]
    rfl
  · cases hrun

theorem owed_land {n : ℕ} : ((s.land n).cascadeOwed = true ∨ (s.land n).uniquenessOwed = true) ↔
    (s.cascadeOwed = true ∨ s.uniquenessOwed = true) ∨ 0 < n := by
  simp only [land, Bool.or_eq_true, decide_eq_true_eq]
  tauto

theorem maintain_owed (h : c.cascadeFails = false) (h' : c.uniquenessFails = false) :
    (s.maintain c).cascadeOwed = false ∧ (s.maintain c).uniquenessOwed = false := by
  simp [maintain, cascadeGc, enforceUniqueness, h, h']

/-- Where a cycle that goes on with a report leaves the state. -/
theorem cycle_of_report {r : DrainReport} (hd : c.drain = .report r) :
    s.cycle c = if (s.schedule.due r c.crrBefore).1 then
      { s.land c.landed with schedule := (s.schedule.due r c.crrBefore).2 }.maintain c
    else { s.land c.landed with schedule := (s.schedule.due r c.crrBefore).2 } := by
  unfold cycle
  rw [hd]
  rfl

/-- What is owed after a cycle's rows have landed, its schedule wants to run. -/
theorem wants_of_owed {r : DrainReport} (h : Pending s) (hrun : s.running = true)
    (hg : Counted s (.cycle c) t) (hd : c.drain = .report r)
    (howed : (s.land c.landed).cascadeOwed = true ∨ (s.land c.landed).uniquenessOwed = true) :
    s.schedule.Wants r c.crrBefore := by
  rcases owed_land.mp howed with hold | hnew
  · exact .inl (h hrun hold)
  · have hcounted := hg.1 hnew
    rw [hd] at hcounted
    exact hcounted.imp_right .inl

theorem cycle_pending (h : Pending s) (hrun : s.running = true)
    (hg : Counted s (.cycle c) t) : Pending (s.cycle c) := by
  cases hd : c.drain with
  | next =>
    intro _ howed
    simp only [cycle, hd] at howed ⊢
    rcases owed_land.mp howed with hold | hnew
    · exact h hrun hold
    · have hcounted := hg.1 hnew
      rw [hd] at hcounted
      exact hcounted.resolve_right id
  | stop =>
    intro hstopped
    simp [cycle, hd] at hstopped
  | report r =>
    rw [cycle_of_report hd]
    cases hdue : (s.schedule.due r c.crrBefore).1 with
    | true =>
      obtain ⟨hclean, hwants⟩ := MaintenanceSchedule.due_true_iff.mp hdue
      obtain ⟨hc, hu⟩ := hg.2 r (Cycle.cleanReport_eq_some.mpr ⟨hd, hclean⟩) hwants
      intro _ howed
      obtain ⟨hc', hu'⟩ := maintain_owed
        (s := { s.land c.landed with schedule := (s.schedule.due r c.crrBefore).2 }) hc hu
      simp [hc', hu'] at howed
    | false =>
      intro _ howed
      exact MaintenanceSchedule.due_pending_of_held hdue (wants_of_owed h hrun hg hd howed)

theorem cycle_settled (h : Pending s) (hrun : s.running = true)
    (hg : Counted s (.cycle c) t) : Settled s (.cycle c) (s.cycle c) := by
  intro hclean hc hu
  obtain ⟨r, hr⟩ := Option.isSome_iff_exists.mp hclean
  obtain ⟨hd, hclean⟩ := Cycle.cleanReport_eq_some.mp hr
  rw [cycle_of_report hd]
  cases hdue : (s.schedule.due r c.crrBefore).1 with
  | true => exact maintain_owed hc hu
  | false =>
    have hquiet : ¬ s.schedule.Wants r c.crrBefore := by
      intro hwants
      rw [MaintenanceSchedule.due_true_iff.mpr ⟨hclean, hwants⟩] at hdue
      cases hdue
    have hnone := mt (wants_of_owed h hrun hg hd) hquiet
    simp only [not_or, Bool.not_eq_true] at hnone
    exact hnone

theorem step_pending {e : Event} (h : Pending s) (hg : Counted s e t)
    (ht : step s e = some t) : Pending t := by
  cases e with
  | cycle c =>
    simp only [step, Option.ite_none_right_eq_some, Option.some.injEq] at ht
    obtain ⟨hrun, rfl⟩ := ht
    exact cycle_pending h hrun hg
  | crash rows =>
    simp only [step, Option.ite_none_right_eq_some, Option.some.injEq] at ht
    obtain ⟨-, rfl⟩ := ht
    exact (by rintro ⟨⟩)
  | spawnDrain =>
    simp only [step, Option.ite_none_left_eq_some, Option.some.injEq] at ht
    obtain ⟨-, rfl⟩ := ht
    exact fun _ _ => rfl

theorem step_settled {e : Event} (h : Pending s) (hg : Counted s e t)
    (ht : step s e = some t) : Settled s e t := by
  cases e with
  | cycle c =>
    simp only [step, Option.ite_none_right_eq_some, Option.some.injEq] at ht
    obtain ⟨hrun, rfl⟩ := ht
    exact cycle_settled h hrun hg
  | crash rows => trivial
  | spawnDrain => trivial

/-- Maintenance waits for a clean cycle in every run, and every clean cycle of a run that
counts its rows leaves nothing owed. -/
theorem counted_rows_are_maintained {s₀ : State} {as : List Event} (h₀ : s₀.running = false) :
    Along step Held s₀ as ∧ (Along step Counted s₀ as → Along step Settled s₀ as) := by
  have hinit : Pending s₀ := by
    intro hrun
    rw [h₀] at hrun
    cases hrun
  have hstep : ∀ s e t, Pending s → Counted s e t → step s e = some t → Pending t :=
    fun _ _ _ h hg ht => step_pending h hg ht
  have hout : ∀ s e t, Pending s → Counted s e t → step s e = some t → Settled s e t :=
    fun _ _ _ h hg ht => step_settled h hg ht
  refine ⟨?_, along_of_invariant hstep hout hinit⟩
  exact (along_true s₀ as).imp (fun _ _ _ _ => step_held)

def stopped : State := ⟨⟨false, none⟩, false, false, false⟩

def idle : Attempt := ⟨none, [], false, []⟩

/-- A drain that merges three rows before its pull ends with `e`. -/
def mergesThen (e : SyncError) : Attempt := ⟨none, [.merged 3 0, .failed e], false, []⟩

/-- A cycle whose first attempt is `a`, on a database with every table ready. -/
def cycleOf (a : Attempt) : Cycle :=
  ⟨a, .refreshed, idle, some syncTables, syncTables, some syncTables, false, false⟩

/-- A pull that fails after a merge, then a clean cycle. -/
theorem counted_rows_are_maintained_later :
    (∃ u, exec step stopped
      [.spawnDrain, .cycle (cycleOf idle), .cycle (cycleOf (mergesThen .network)),
        .cycle (cycleOf idle)] = some u ∧ u.schedule.pending = false) ∧
      Along step Settled stopped
        [.spawnDrain, .cycle (cycleOf idle), .cycle (cycleOf (mergesThen .network)),
          .cycle (cycleOf idle)] :=
  ⟨exec_evaluates (by decide +kernel),
    (counted_rows_are_maintained rfl).2 (by decide +kernel)⟩

/-- The pull merges three rows and meets a 401; the retry after the refresh pulls nothing. -/
theorem retry_drops_merged_rows :
    (∃ u, exec step stopped
      [.spawnDrain, .cycle (cycleOf idle), .cycle (cycleOf (mergesThen .unauthorized)),
        .cycle (cycleOf idle)] = some u ∧ u.cascadeOwed = true ∧ u.uniquenessOwed = true ∧
          u.schedule.pending = false) ∧
      ¬ Along step Settled stopped
        [.spawnDrain, .cycle (cycleOf idle), .cycle (cycleOf (mergesThen .unauthorized)),
          .cycle (cycleOf idle)] :=
  ⟨exec_evaluates (by decide +kernel), by decide +kernel⟩

/-- A step that fails is not run again by the next clean cycle. -/
example : ∃ u, exec step stopped
      [.spawnDrain, .cycle { cycleOf idle with cascadeFails := true }, .cycle (cycleOf idle)] =
        some u ∧ u.cascadeOwed = true :=
  exec_evaluates (by decide +kernel)

/-- Rows merged by a drain that then meets a local fault are forgotten. -/
example : ∃ u, exec step stopped
      [.spawnDrain, .cycle (cycleOf idle),
        .cycle (cycleOf ⟨none, [.merged 1 0], false, [.applies, .fault]⟩),
        .cycle (cycleOf idle)] = some u ∧ u.uniquenessOwed = true :=
  exec_evaluates (by decide +kernel)

end State

end OwedMaintenance

end YapStack.Drain
