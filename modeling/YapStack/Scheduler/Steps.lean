import YapStack.Scheduler.Queues
import YapStack.Foundation.Runs
import Mathlib.Logic.Function.Basic

set_option linter.unusedSectionVars false

namespace YapStack.Scheduler

inductive BusyKind
  | liveMic
  | liveSystem
  | dictation
  deriving DecidableEq

inductive SchedulerState
  | running
  | shuttingDown
  | terminal
  deriving DecidableEq

/-- What a receiver gets: `Cancelled`, or the outcome of the job. -/
inductive Outcome (R : Type)
  | cancelled
  | finished (result : R)
  deriving DecidableEq

/-- Where the worker stands. From `locked` to `picking` it holds the queue lock. -/
inductive WorkerPc
  | checking
  | locked
  | readBits
  | picking (producersBusy : Bool)
  | emptyHanded
  | parked
  | fetching (env : JobEnvelope)
  | transcribing (env : JobEnvelope)
  | exited
  deriving DecidableEq

/-- Where a call of `submit` stands. In `locked` and `running` it holds the queue lock. -/
inductive SubmitPc
  | absent
  | waiting (origin : JobOrigin) (source : JobSource)
  | locked (origin : JobOrigin) (source : JobSource)
  | running (origin : JobOrigin) (source : JobSource)
  | pushed
  | refused
  | accepted
  deriving DecidableEq

/-- Where `shutdown_client` stands. -/
inductive ShutdownPc
  | absent
  | swapped
  | stored
  | joining
  | joined
  | cancelled
  | clientTaken
  | returned
  deriving DecidableEq

inductive Holder
  | worker
  | submit (i : ℕ)
  deriving DecidableEq

/-- `flips` counts the calls of `set_busy` that have flipped the gate and not yet notified,
`dropped` holds the jobs whose sender went with the worker. -/
structure State (R : Type) where
  queues : SchedulerQueues
  lock : Option Holder
  permit : Bool
  shutdown : Bool
  lifecycle : SchedulerState
  busy : BusyKind → Bool
  client : Bool
  worker : WorkerPc
  aborted : Bool
  submits : ℕ → SubmitPc
  flips : ℕ
  closing : ShutdownPc
  sent : ℕ → List (Outcome R)
  dropped : List ℕ

inductive Event (R : Type)
  | worker (result : R)
  | workerCancelled
  | submit (i : ℕ) (origin : JobOrigin) (source : JobSource)
  | submitNext (i : ℕ)
  | setBusy (kind : BusyKind) (busy : Bool)
  | busyNotify
  | shutdownClient
  | shutdownNext
  | shutdownTimeout

variable {R : Type}

def anyBusy (busy : BusyKind → Bool) : Bool := busy .liveMic || busy .liveSystem || busy .dictation

def State.send (s : State R) (i : ℕ) (outcome : Outcome R) : State R :=
  { s with sent := Function.update s.sent i (s.sent i ++ [outcome]) }

def State.submitTo (s : State R) (i : ℕ) (pc : SubmitPc) : State R :=
  { s with submits := Function.update s.submits i pc }

/-- One step of `scheduler_worker`. Without a client it panics, and the sender of the job in its
hands goes with it. -/
def workerNext (s : State R) (result : R) : Option (State R) :=
  match s.worker with
  | .checking => if s.lock = none then some { s with lock := some .worker, worker := .locked } else none
  | .locked => some { s with worker := if anyBusy s.busy then .readBits else .picking false }
  | .readBits => some { s with worker := .picking (!s.shutdown) }
  | .picking producersBusy =>
    match s.queues.pickNext producersBusy with
    | some (env, queues) => some { s with queues := queues, lock := none, worker := .fetching env }
    | none => some { s with lock := none, worker := .emptyHanded }
  | .emptyHanded => some { s with worker := if s.shutdown then .exited else .parked }
  | .parked => if s.permit then some { s with permit := false, worker := .checking } else none
  | .fetching env =>
    if s.client then some { s with worker := .transcribing env }
    else some { s with worker := .exited, dropped := env.id :: s.dropped }
  | .transcribing env => some { s.send env.id (.finished result) with worker := .checking }
  | .exited => none

/-- An aborted worker ends at an `await`. -/
def workerEnd (s : State R) : Option (State R) :=
  if s.aborted then
    match s.worker with
    | .parked => some { s with worker := .exited }
    | .fetching env | .transcribing env =>
      some { s with worker := .exited, dropped := env.id :: s.dropped }
    | _ => none
  else none

def submitNext (s : State R) (i : ℕ) : Option (State R) :=
  match s.submits i with
  | .waiting origin source =>
    if s.lock = none then
      some { s.submitTo i (.locked origin source) with lock := some (.submit i) }
    else none
  | .locked origin source =>
    if s.lifecycle = .running then some (s.submitTo i (.running origin source))
    else some { s.submitTo i .refused with lock := none }
  | .running origin source =>
    some { s.submitTo i .pushed with
      queues := s.queues.push ⟨i, origin, source⟩
      lock := none }
  | .pushed => some { s.submitTo i .accepted with permit := true }
  | .absent | .refused | .accepted => none

def setBusy (s : State R) (kind : BusyKind) (busy : Bool) : State R :=
  let next := Function.update s.busy kind busy
  { s with
    busy := next
    flips := if anyBusy s.busy = anyBusy next then s.flips else s.flips + 1 }

def cancelAll (s : State R) : State R :=
  s.queues.jobs.foldl (fun s env => s.send env.id .cancelled)
    { s with queues := s.queues.drained }

def shutdownNext (s : State R) : Option (State R) :=
  match s.closing with
  | .swapped => some { s with lifecycle := .shuttingDown, closing := .stored }
  | .stored => some { s with permit := true, closing := .joining }
  | .joining => if s.worker = .exited then some { s with closing := .joined } else none
  | .joined => if s.lock = none then some { cancelAll s with closing := .cancelled } else none
  | .cancelled => some { s with client := false, closing := .clientTaken }
  | .clientTaken => some { s with lifecycle := .terminal, closing := .returned }
  | .absent | .returned => none

def step (s : State R) : Event R → Option (State R)
  | .worker result => workerNext s result
  | .workerCancelled => workerEnd s
  | .submit i origin source =>
    if s.submits i = .absent then some (s.submitTo i (.waiting origin source)) else none
  | .submitNext i => submitNext s i
  | .setBusy kind busy => some (setBusy s kind busy)
  | .busyNotify => if 0 < s.flips then some { s with flips := s.flips - 1, permit := true } else none
  | .shutdownClient =>
    if s.closing = .absent then some { s with shutdown := true, closing := .swapped } else none
  | .shutdownNext => shutdownNext s
  | .shutdownTimeout =>
    if s.closing = .joining then some { s with aborted := true, closing := .joined } else none

def start : State R where
  queues := {}
  lock := none
  permit := false
  shutdown := false
  lifecycle := .running
  busy := fun _ => false
  client := true
  worker := .checking
  aborted := false
  submits := fun _ => .absent
  flips := 0
  closing := .absent
  sent := fun _ => []
  dropped := []

/-- The steps, each with what it relies on and what it leaves. -/
inductive Next (s : State R) : Event R → State R → Prop
  | lock (result) : s.worker = .checking → s.lock = none →
      Next s (.worker result) { s with lock := some .worker, worker := .locked }
  | bits (result) : s.worker = .locked → Next s (.worker result)
      { s with worker := if anyBusy s.busy then .readBits else .picking false }
  | flag (result) : s.worker = .readBits →
      Next s (.worker result) { s with worker := .picking (!s.shutdown) }
  | pick (result) {producersBusy env queues} : s.worker = .picking producersBusy →
      s.queues.pickNext producersBusy = some (env, queues) → Next s (.worker result)
        { s with queues := queues, lock := none, worker := .fetching env }
  | nothing (result) {producersBusy} : s.worker = .picking producersBusy →
      s.queues.pickNext producersBusy = none → Next s (.worker result)
        { s with lock := none, worker := .emptyHanded }
  | exit (result) : s.worker = .emptyHanded → s.shutdown = true →
      Next s (.worker result) { s with worker := .exited }
  | park (result) : s.worker = .emptyHanded → s.shutdown = false →
      Next s (.worker result) { s with worker := .parked }
  | wake (result) : s.worker = .parked → s.permit = true →
      Next s (.worker result) { s with permit := false, worker := .checking }
  | fetch (result) {env} : s.worker = .fetching env → s.client = true →
      Next s (.worker result) { s with worker := .transcribing env }
  | crash (result) {env} : s.worker = .fetching env → s.client = false →
      Next s (.worker result) { s with worker := .exited, dropped := env.id :: s.dropped }
  | complete (result) {env} : s.worker = .transcribing env →
      Next s (.worker result) { s.send env.id (.finished result) with worker := .checking }
  | endParked : s.aborted = true → s.worker = .parked →
      Next s .workerCancelled { s with worker := .exited }
  | endWorking {env} : s.aborted = true → s.worker = .fetching env ∨ s.worker = .transcribing env →
      Next s .workerCancelled { s with worker := .exited, dropped := env.id :: s.dropped }
  | submit {i origin source} : s.submits i = .absent →
      Next s (.submit i origin source) (s.submitTo i (.waiting origin source))
  | submitLock {i origin source} : s.submits i = .waiting origin source → s.lock = none →
      Next s (.submitNext i)
        { s.submitTo i (.locked origin source) with lock := some (.submit i) }
  | submitRunning {i origin source} : s.submits i = .locked origin source →
      s.lifecycle = .running → Next s (.submitNext i) (s.submitTo i (.running origin source))
  | submitRefused {i origin source} : s.submits i = .locked origin source →
      s.lifecycle ≠ .running → Next s (.submitNext i) { s.submitTo i .refused with lock := none }
  | submitPush {i origin source} : s.submits i = .running origin source → Next s (.submitNext i)
      { s.submitTo i .pushed with
        queues := s.queues.push ⟨i, origin, source⟩
        lock := none }
  | submitNotify {i} : s.submits i = .pushed →
      Next s (.submitNext i) { s.submitTo i .accepted with permit := true }
  | setBusy {kind busy} : Next s (.setBusy kind busy) (setBusy s kind busy)
  | busyNotify : 0 < s.flips → Next s .busyNotify { s with flips := s.flips - 1, permit := true }
  | swap : s.closing = .absent →
      Next s .shutdownClient { s with shutdown := true, closing := .swapped }
  | store : s.closing = .swapped →
      Next s .shutdownNext { s with lifecycle := .shuttingDown, closing := .stored }
  | shutdownNotify : s.closing = .stored →
      Next s .shutdownNext { s with permit := true, closing := .joining }
  | join : s.closing = .joining → s.worker = .exited →
      Next s .shutdownNext { s with closing := .joined }
  | cancel : s.closing = .joined → s.lock = none →
      Next s .shutdownNext { cancelAll s with closing := .cancelled }
  | takeClient : s.closing = .cancelled →
      Next s .shutdownNext { s with client := false, closing := .clientTaken }
  | terminate : s.closing = .clientTaken →
      Next s .shutdownNext { s with lifecycle := .terminal, closing := .returned }
  | timeout : s.closing = .joining →
      Next s .shutdownTimeout { s with aborted := true, closing := .joined }

theorem workerNext_spec {s t : State R} {result : R} (h : workerNext s result = some t) :
    Next s (.worker result) t := by
  cases hw : s.worker with
  | checking =>
    simp only [workerNext, hw, Option.ite_none_right_eq_some, Option.some.injEq] at h
    obtain ⟨hlock, rfl⟩ := h
    exact .lock result hw hlock
  | locked =>
    simp only [workerNext, hw, Option.some.injEq] at h
    exact h ▸ .bits result hw
  | readBits =>
    simp only [workerNext, hw, Option.some.injEq] at h
    exact h ▸ .flag result hw
  | picking producersBusy =>
    simp only [workerNext, hw] at h
    cases hp : s.queues.pickNext producersBusy with
    | none =>
      simp only [hp, Option.some.injEq] at h
      exact h ▸ .nothing result hw hp
    | some picked =>
      simp only [hp, Option.some.injEq] at h
      exact h ▸ .pick result hw hp
  | emptyHanded =>
    simp only [workerNext, hw, Option.some.injEq] at h
    by_cases hs : s.shutdown = true
    · rw [if_pos hs] at h
      exact h ▸ .exit result hw hs
    · rw [if_neg hs] at h
      exact h ▸ .park result hw (by simpa using hs)
  | parked =>
    simp only [workerNext, hw, Option.ite_none_right_eq_some, Option.some.injEq] at h
    obtain ⟨hpermit, rfl⟩ := h
    exact .wake result hw hpermit
  | fetching env =>
    simp only [workerNext, hw] at h
    by_cases hc : s.client = true
    · rw [if_pos hc, Option.some.injEq] at h
      exact h ▸ .fetch result hw hc
    · rw [if_neg hc, Option.some.injEq] at h
      exact h ▸ .crash result hw (by simpa using hc)
  | transcribing env =>
    simp only [workerNext, hw, Option.some.injEq] at h
    exact h ▸ .complete result hw
  | exited => simp [workerNext, hw] at h

theorem submitNext_spec {s t : State R} {i : ℕ} (h : submitNext s i = some t) :
    Next s (.submitNext i) t := by
  cases hs : s.submits i with
  | waiting origin source =>
    simp only [submitNext, hs, Option.ite_none_right_eq_some, Option.some.injEq] at h
    obtain ⟨hlock, rfl⟩ := h
    exact .submitLock hs hlock
  | locked origin source =>
    simp only [submitNext, hs] at h
    by_cases hl : s.lifecycle = .running
    · rw [if_pos hl, Option.some.injEq] at h
      exact h ▸ .submitRunning hs hl
    · rw [if_neg hl, Option.some.injEq] at h
      exact h ▸ .submitRefused hs hl
  | running origin source =>
    simp only [submitNext, hs, Option.some.injEq] at h
    exact h ▸ .submitPush hs
  | pushed =>
    simp only [submitNext, hs, Option.some.injEq] at h
    exact h ▸ .submitNotify hs
  | absent | refused | accepted => simp [submitNext, hs] at h

theorem shutdownNext_spec {s t : State R} (h : shutdownNext s = some t) :
    Next s .shutdownNext t := by
  cases hc : s.closing with
  | swapped =>
    simp only [shutdownNext, hc, Option.some.injEq] at h
    exact h ▸ .store hc
  | stored =>
    simp only [shutdownNext, hc, Option.some.injEq] at h
    exact h ▸ .shutdownNotify hc
  | joining =>
    simp only [shutdownNext, hc, Option.ite_none_right_eq_some, Option.some.injEq] at h
    obtain ⟨hw, rfl⟩ := h
    exact .join hc hw
  | joined =>
    simp only [shutdownNext, hc, Option.ite_none_right_eq_some, Option.some.injEq] at h
    obtain ⟨hlock, rfl⟩ := h
    exact .cancel hc hlock
  | cancelled =>
    simp only [shutdownNext, hc, Option.some.injEq] at h
    exact h ▸ .takeClient hc
  | clientTaken =>
    simp only [shutdownNext, hc, Option.some.injEq] at h
    exact h ▸ .terminate hc
  | absent | returned => simp [shutdownNext, hc] at h

theorem step_next {s t : State R} {e : Event R} (h : step s e = some t) : Next s e t := by
  cases e with
  | worker result => exact workerNext_spec h
  | submitNext i => exact submitNext_spec h
  | shutdownNext => exact shutdownNext_spec h
  | setBusy kind busy => exact Option.some.inj h ▸ .setBusy
  | workerCancelled =>
    simp only [step, workerEnd, Option.ite_none_right_eq_some] at h
    obtain ⟨ha, h⟩ := h
    cases hw : s.worker with
    | parked =>
      simp only [hw, Option.some.injEq] at h
      exact h ▸ .endParked ha hw
    | fetching env =>
      simp only [hw, Option.some.injEq] at h
      exact h ▸ .endWorking ha (Or.inl hw)
    | transcribing env =>
      simp only [hw, Option.some.injEq] at h
      exact h ▸ .endWorking ha (Or.inr hw)
    | _ => simp [hw] at h
  | submit i origin source =>
    simp only [step, Option.ite_none_right_eq_some, Option.some.injEq] at h
    obtain ⟨ha, rfl⟩ := h
    exact .submit ha
  | busyNotify =>
    simp only [step, Option.ite_none_right_eq_some, Option.some.injEq] at h
    obtain ⟨hf, rfl⟩ := h
    exact .busyNotify hf
  | shutdownClient =>
    simp only [step, Option.ite_none_right_eq_some, Option.some.injEq] at h
    obtain ⟨hc, rfl⟩ := h
    exact .swap hc
  | shutdownTimeout =>
    simp only [step, Option.ite_none_right_eq_some, Option.some.injEq] at h
    obtain ⟨hc, rfl⟩ := h
    exact .timeout hc

end YapStack.Scheduler
