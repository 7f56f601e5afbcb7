import YapStack.Scheduler.Invariant

set_option linter.unusedSectionVars false

namespace YapStack.Scheduler

open Runs

variable {R : Type}

/-- What the picks of a run go by: whether the producers were found idle, or shutdown begun, when
the worker last looked, and the source of the last live job that it took. -/
structure Note where
  idle : Bool := false
  lastLive : Option JobSource := none
  deriving DecidableEq

def note (n : Note) (s : State R) : Event R → Note
  | .worker _ =>
    match s.worker with
    | .locked => { n with idle := !anyBusy s.busy }
    | .readBits => { n with idle := s.shutdown }
    | .picking producersBusy =>
      match s.queues.pickNext producersBusy with
      | some (env, _) => if env.origin = .live then { n with lastLive := some env.source } else n
      | none => n
    | _ => n
  | _ => n

abbrev watched : State R × Note → Event R → Option (State R × Note) := watch step note

/-- A pick takes the job that is in turn, a live one not of the source served last while both
live queues are filled, and a backfill one only when the look before it found the producers idle. -/
def TakesInTurn (p : State R × Note) (q : State R × Note) : Prop :=
  ∀ producersBusy env, p.1.worker = .picking producersBusy → q.1.worker = .fetching env →
    p.1.queues.InTurn env ∧ p.1.queues.jobs.Perm (env :: q.1.queues.jobs) ∧
    (env.origin = .live → p.1.queues.liveMic ≠ [] → p.1.queues.liveSystem ≠ [] →
      p.2.lastLive ≠ some env.source) ∧
    (env.origin = .backfill → p.2.idle = true)

/-- The note tells what the worker goes by. -/
structure Noted (p : State R × Note) : Prop where
  inv : Inv p.1
  lastLive : p.1.queues.lastLiveSource = p.2.lastLive
  idle : p.1.worker = .picking false → p.2.idle = true

theorem note_pick {s : State R} {n : Note} {result : R} {producersBusy : Bool} {env : JobEnvelope}
    {queues : SchedulerQueues} (hw : s.worker = .picking producersBusy)
    (hp : s.queues.pickNext producersBusy = some (env, queues)) :
    note n s (.worker result) =
      if env.origin = .live then { n with lastLive := some env.source } else n := by
  simp only [note, hw, hp]

/-- A step that is not one of the worker's. -/
theorem Noted.bystander {p q : State R × Note} (h : Noted p) (hinv : Inv q.1)
    (hlast : q.1.queues.lastLiveSource = p.1.queues.lastLiveSource)
    (hw : q.1.worker = p.1.worker ∨ ∀ b, q.1.worker ≠ .picking b) (hn : q.2 = p.2) :
    Noted q := by
  refine ⟨hinv, ?_, fun hpick => ?_⟩
  · rw [hlast, hn]
    exact h.lastLive
  · rw [hn]
    obtain hw | hw := hw
    · exact h.idle (hw ▸ hpick)
    · exact absurd hpick (hw false)

theorem push_lastLiveSource (q : SchedulerQueues) (env : JobEnvelope) :
    (q.push env).lastLiveSource = q.lastLiveSource := by
  cases horigin : env.origin with
  | live => cases hsource : env.source <;> simp [SchedulerQueues.push, horigin, hsource]
  | _ => simp [SchedulerQueues.push, horigin]

theorem step_noted {p q : State R × Note} {e : Event R} (h : Noted p)
    (hstep : watched p e = some q) : Noted q := by
  obtain ⟨s, n⟩ := p
  obtain ⟨t, m⟩ := q
  obtain ⟨hst, hm⟩ := (watch_eq_some note _ _ _).mp hstep
  simp only at hst hm
  have hnext := step_next hst
  have hinv : Inv t := step_inv h.inv hnext
  cases hnext with
  | bits result hw =>
    refine ⟨hinv, ?_, fun hpick => ?_⟩
    · rw [hm]
      simpa [note, hw] using h.lastLive
    · cases hb : anyBusy s.busy with
      | true => simp [hb] at hpick
      | false => simp [hm, note, hw, hb]
  | flag result hw =>
    refine ⟨hinv, ?_, fun hpick => ?_⟩
    · rw [hm]
      simpa [note, hw] using h.lastLive
    · have hs : s.shutdown = true := by simpa using hpick
      simp [hm, note, hw, hs]
  | pick result hw hp =>
    refine ⟨hinv, ?_, fun hpick => by simp at hpick⟩
    have hlast := (SchedulerQueues.pickNext_some h.inv.filed hp).1.lastLive
    rw [hm, note_pick hw hp]
    simp only [hlast]
    split
    · rfl
    · exact h.lastLive
  | nothing result hw hp =>
    exact h.bystander hinv rfl (Or.inr (by simp)) (by simp [hm, note, hw, hp])
  | lock _ hw _ | exit _ hw _ | park _ hw _ | wake _ hw _ | fetch _ hw _ | complete _ hw
  | crash _ hw _ =>
    exact h.bystander hinv rfl (Or.inr (by simp)) (by simp [hm, note, hw])
  | endParked | endWorking => exact h.bystander hinv rfl (Or.inr (by simp)) hm
  | submitPush hs => exact h.bystander hinv (push_lastLiveSource _ _) (Or.inl rfl) hm
  | cancel hc hl =>
    obtain ⟨sent, heq⟩ := cancelAll_eq s
    refine h.bystander hinv ?_ (Or.inl ?_) hm
    · simp only [heq, SchedulerQueues.drained]
    · simp only [heq]
  | submit | submitLock | submitRunning | submitRefused | submitNotify | setBusy | busyNotify
  | swap | store | shutdownNotify | join | takeClient | terminate | timeout =>
    exact h.bystander hinv rfl (Or.inl rfl) hm

theorem step_takesInTurn {p q : State R × Note} {e : Event R} (h : Noted p)
    (hstep : watched p e = some q) : TakesInTurn p q := by
  obtain ⟨s, n⟩ := p
  obtain ⟨t, m⟩ := q
  intro producersBusy env hw hfetch
  obtain ⟨hst, -⟩ := (watch_eq_some note _ _ _).mp hstep
  simp only at hst hw hfetch
  have hnext := step_next hst
  cases hnext with
  | @pick result busy job queues hw' hp =>
    obtain rfl : job = env := by simpa using hfetch
    obtain ⟨hpicked, hbusy⟩ := SchedulerQueues.pickNext_some h.inv.filed hp
    refine ⟨hpicked.inTurn, hpicked.jobs, fun horigin hmic hsystem => ?_, fun horigin => ?_⟩
    · have hturn := hpicked.inTurn
      simp only [SchedulerQueues.InTurn, horigin] at hturn
      have hlast := hturn.2.2.2 hmic hsystem
      rwa [h.lastLive] at hlast
    · refine h.idle ?_
      rw [hw', hbusy horigin]
  | bits result hw' => simp [hw] at hw'
  | lock | flag | nothing | exit | park | wake | complete | crash | endParked | endWorking =>
    simp at hfetch
  | fetch _ hw' _ => simp [hw] at hw'
  | cancel hc hl =>
    obtain ⟨sent, heq⟩ := cancelAll_eq s
    simp [heq, hw] at hfetch
  | submit | submitLock | submitRunning | submitRefused | submitPush | submitNotify | setBusy
  | busyNotify | swap | store | shutdownNotify | join | takeClient | terminate | timeout =>
    have hsame : s.worker = .fetching env := hfetch
    simp [hw] at hsame

/-- What a caller may count on at any moment. A job that was accepted waits in the queues, is in
the worker's hands or was answered, each exactly once, unless the wait for the worker timed out. -/
structure Serves (s : State R) : Prop where
  refused : ∀ i, s.submits i = .refused → places s i = 0
  accepted : ∀ i, s.submits i = .accepted → places s i = 1
  answered : ∀ i, (s.sent i).length ≤ 1
  dropped : s.dropped ≠ [] → s.aborted = true
  returned : s.closing = .returned → s.queues.jobs = []
  parked : s.worker = .parked → Due s → Signalled s

theorem serves_of_inv {s : State R} (h : Inv s) : Serves s := by
  refine ⟨fun i hi => ?_, fun i hi => ?_, fun i => ?_, h.outlived.dropped, fun hc => ?_,
    fun hw => ?_⟩
  · simpa [hi, SubmitPc.Taken] using h.counted i
  · simpa [hi, SubmitPc.Taken] using h.counted i
  · have hi := h.counted i
    have hle : (s.sent i).length ≤ places s i := by
      simp only [places]
      omega
    have hone : places s i ≤ 1 := by
      rw [hi]
      split
      · exact Nat.le_refl 1
      · exact Nat.zero_le 1
    exact Nat.le_trans hle hone
  · exact (h.closed.drained (by simp [hc, ShutdownPc.Drained])).1
  · have hwoken := h.woken
    simpa only [Woken, hw] using hwoken

theorem start_noted : Noted ((start : State R), ({} : Note)) :=
  ⟨start_inv, rfl, by simp [start]⟩

/-- In every interleaving of the calls and the worker's steps no job is lost, the worker never
sleeps through a job for which no notification is stored or about to be, and every pick is in
turn. -/
theorem scheduler_serves (events : List (Event R)) :
    (∀ u, exec step start events = some u → Serves u) ∧
    Along watched (fun p _ q => TakesInTurn p q) (start, {}) events := by
  refine ⟨fun u hu => ?_, ?_⟩
  · exact serves_of_inv (exec_invariant (fun s e t h hst => step_inv h (step_next hst))
      start_inv hu)
  · exact along_of_invariant (fun p e q h _ hstep => step_noted h hstep)
      (fun p e q h _ hstep => step_takesInTurn h hstep) start_noted (along_true _ _)

/-- A live job is transcribed while a backfill job waits for its producer, `shutdown_client` wakes
the parked worker for it, and it is transcribed too. -/
def sampleRun : List (Event ℕ) :=
  [.setBusy .dictation true, .submit 0 .backfill .mic, .submit 1 .live .system,
    .submitNext 0, .submitNext 0, .submitNext 0, .submitNext 0,
    .submitNext 1, .submitNext 1, .submitNext 1, .submitNext 1,
    .worker 0, .worker 0, .worker 0, .worker 0, .worker 0, .worker 7,
    .worker 0, .worker 0, .worker 0, .worker 0, .worker 0, .worker 0,
    .worker 0, .worker 0, .worker 0, .worker 0, .worker 0,
    .shutdownClient, .shutdownNext, .shutdownNext,
    .worker 0, .worker 0, .worker 0, .worker 0, .worker 0, .worker 0, .worker 8,
    .worker 0, .worker 0, .worker 0, .worker 0, .worker 0,
    .shutdownNext, .shutdownNext, .shutdownNext, .shutdownNext]

theorem scheduler_serves_sampleRun : ∃ u, exec step start sampleRun = some u ∧
    (u.closing = .returned ∧ u.sent 0 = [.finished 8] ∧ u.sent 1 = [.finished 7]) ∧ Serves u := by
  have hrun : ∃ u, exec step start sampleRun = some u ∧
      (u.closing = .returned ∧ u.sent 0 = [.finished 8] ∧ u.sent 1 = [.finished 7]) :=
    exec_evaluates (by decide +kernel)
  obtain ⟨u, hu, hsent⟩ := hrun
  exact ⟨u, hu, hsent, (scheduler_serves sampleRun).1 u hu⟩

/-- Between the push of `submit` and its notification the worker is parked beside a live job, and a
producer that starts after the worker looked at the bits does not keep it from a backfill job. -/
theorem parked_beside_live_job_and_backfill_while_busy :
    (∃ u : State ℕ, exec step start [.worker 0, .worker 0, .worker 0, .worker 0,
        .submit 0 .live .mic, .submitNext 0, .submitNext 0, .submitNext 0] = some u ∧
      (u.worker = .parked ∧ u.permit = false ∧ u.queues.liveMic = [⟨0, .live, .mic⟩])) ∧
    ∃ u : State ℕ, exec step start [.submit 0 .backfill .mic, .submitNext 0, .submitNext 0,
        .submitNext 0, .submitNext 0, .worker 0, .worker 0, .setBusy .liveMic true,
        .worker 0] = some u ∧
      (u.worker = .fetching ⟨0, .backfill, .mic⟩ ∧ u.busy .liveMic = true ∧
        u.shutdown = false) :=
  ⟨exec_evaluates (by decide +kernel), exec_evaluates (by decide +kernel)⟩

end YapStack.Scheduler
