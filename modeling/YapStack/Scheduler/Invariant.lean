import YapStack.Scheduler.Steps

set_option linter.unusedSectionVars false

namespace YapStack.Scheduler

variable {R : Type} {s t : State R} {e : Event R} {i : ℕ}

/-- A notification is stored, or a call that will store one is under way. -/
def Signalled (s : State R) : Prop := s.permit = true ∨ 0 < s.flips ∨ ∃ i, s.submits i = .pushed

/-- There is a job that the worker would pick. -/
def Due (s : State R) : Prop :=
  s.queues.Urgent ∨ s.queues.backfill ≠ [] ∧ anyBusy s.busy = false

/-- What keeps the worker from sleeping through a job. -/
def Woken (s : State R) : Prop :=
  match s.worker with
  | .readBits | .picking true => anyBusy s.busy = false → Signalled s
  | .emptyHanded | .parked => Due s → Signalled s
  | _ => True

theorem signalled_submitTo (h : Signalled s) (hi : s.submits i ≠ .pushed) (pc : SubmitPc) :
    Signalled (s.submitTo i pc) := by
  obtain h | h | ⟨j, hj⟩ := h
  · exact Or.inl h
  · exact Or.inr (Or.inl h)
  · have hji : j ≠ i := by
      rintro rfl
      exact hi hj
    exact Or.inr (Or.inr ⟨j, by simpa [State.submitTo, hji] using hj⟩)

/-- The worker is where it was, and what woke it still does. -/
theorem Woken.mono (h : Woken s) (hw : t.worker = s.worker)
    (hbusy : anyBusy t.busy = false → Signalled t ∨ anyBusy s.busy = false)
    (hdue : Due t → Signalled t ∨ Due s) (hs : Signalled s → Signalled t) : Woken t := by
  simp only [Woken, hw] at h ⊢
  cases hpc : s.worker with
  | readBits =>
    rw [hpc] at h
    exact fun hb => (hbusy hb).elim id (fun hb' => hs (h hb'))
  | picking producersBusy =>
    rw [hpc] at h
    cases producersBusy with
    | true => exact fun hb => (hbusy hb).elim id (fun hb' => hs (h hb'))
    | false => trivial
  | emptyHanded | parked =>
    rw [hpc] at h
    exact fun hd => (hdue hd).elim id (fun hd' => hs (h hd'))
  | _ => trivial

theorem submit_woken (h : Woken s) (hi : s.submits i ≠ .pushed) (pc : SubmitPc) :
    Woken (s.submitTo i pc) :=
  h.mono rfl Or.inr Or.inr (fun hs => signalled_submitTo hs hi pc)

theorem setBusy_woken (h : Woken s) (kind : BusyKind) (busy : Bool) :
    Woken (setBusy s kind busy) := by
  have hflip : anyBusy (setBusy s kind busy).busy = false →
      Signalled (setBusy s kind busy) ∨ anyBusy s.busy = false := by
    intro hb
    cases hold : anyBusy s.busy with
    | false => exact Or.inr rfl
    | true =>
      have hne : anyBusy s.busy ≠ anyBusy (Function.update s.busy kind busy) := by
        rw [hold]
        exact fun heq => by simp [setBusy, ← heq] at hb
      exact Or.inl (Or.inr (Or.inl (by simp [setBusy, hne])))
  have hgrow : s.flips ≤ (setBusy s kind busy).flips := by
    simp only [setBusy]
    by_cases heq : anyBusy s.busy = anyBusy (Function.update s.busy kind busy)
    · simp only [if_pos heq, Nat.le_refl]
    · rw [if_neg heq]
      exact Nat.le_succ _
  refine h.mono rfl hflip ?_ ?_
  · rintro (hu | ⟨hb, hclear⟩)
    · exact Or.inr (Or.inl hu)
    · exact (hflip hclear).imp_right (fun hold => Or.inr ⟨hb, hold⟩)
  · rintro (hp | hf | hx)
    · exact Or.inl hp
    · exact Or.inr (Or.inl (Nat.lt_of_lt_of_le hf hgrow))
    · exact Or.inr (Or.inr hx)

theorem cancelAll_eq (s : State R) : ∃ sent, cancelAll s =
    { s with queues := s.queues.drained, sent := sent } := by
  have hfold : ∀ (l : List JobEnvelope) (s : State R), ∃ sent,
      l.foldl (fun s env => s.send env.id .cancelled) s = { s with sent := sent } := by
    intro l
    induction l with
    | nil => exact fun s => ⟨s.sent, rfl⟩
    | cons env l ih =>
      intro s
      obtain ⟨sent, hsent⟩ := ih (s.send env.id .cancelled)
      exact ⟨sent, hsent⟩
  obtain ⟨sent, hsent⟩ := hfold s.queues.jobs { s with queues := s.queues.drained }
  exact ⟨sent, hsent⟩

theorem step_woken (h : Woken s) (hstep : Next s e t) : Woken t := by
  cases hstep with
  | lock _ hw _ => trivial
  | bits _ hw =>
    cases hb : anyBusy s.busy with
    | true => exact fun hclear => absurd hclear (by simp [hb])
    | false => trivial
  | flag _ hw =>
    simp only [Woken, hw] at h
    cases s.shutdown with
    | true => trivial
    | false => exact h
  | pick => trivial
  | @nothing _ producersBusy hw hp =>
    obtain ⟨hurgent, hback⟩ := SchedulerQueues.pickNext_none hp
    rintro (hu | ⟨hb, hclear⟩)
    · exact absurd hu hurgent
    · cases producersBusy with
      | true =>
        simp only [Woken, hw] at h
        exact h hclear
      | false => exact absurd (hback rfl) hb
  | exit => trivial
  | park _ hw _ =>
    simp only [Woken, hw] at h
    exact h
  | wake => trivial
  | fetch => trivial
  | complete => trivial
  | crash => trivial
  | endParked => trivial
  | endWorking => trivial
  | submit hs => exact submit_woken h (by simp [hs]) _
  | submitLock hs _ => exact submit_woken h (by simp [hs]) _
  | submitRunning hs _ => exact submit_woken h (by simp [hs]) _
  | submitRefused hs _ => exact submit_woken h (by simp [hs]) _
  | @submitPush i origin source hs =>
    have hsig : Signalled { s.submitTo i .pushed with
        queues := s.queues.push ⟨i, origin, source⟩
        lock := none } := Or.inr (Or.inr ⟨i, by simp [State.submitTo]⟩)
    exact h.mono rfl (fun _ => Or.inl hsig) (fun _ => Or.inl hsig) (fun _ => hsig)
  | submitNotify hs =>
    exact h.mono rfl (fun _ => Or.inl (Or.inl rfl)) (fun _ => Or.inl (Or.inl rfl))
      (fun _ => Or.inl rfl)
  | setBusy => exact setBusy_woken h _ _
  | busyNotify hf =>
    exact h.mono rfl (fun _ => Or.inl (Or.inl rfl)) (fun _ => Or.inl (Or.inl rfl))
      (fun _ => Or.inl rfl)
  | shutdownNotify hc =>
    exact h.mono rfl (fun _ => Or.inl (Or.inl rfl)) (fun _ => Or.inl (Or.inl rfl))
      (fun _ => Or.inl rfl)
  | swap | store | join | takeClient | terminate | timeout => exact h
  | cancel hc hlock =>
    obtain ⟨sent, heq⟩ := cancelAll_eq s
    rw [heq]
    refine h.mono rfl Or.inr ?_ id
    rintro (hu | ⟨hb, _⟩)
    · simp [SchedulerQueues.Urgent, SchedulerQueues.drained] at hu
    · simp [SchedulerQueues.drained] at hb

/-- Every job stands in the queue of its origin. -/
theorem step_filed (h : s.queues.Filed) (hstep : Next s e t) : t.queues.Filed := by
  cases hstep with
  | pick _ _ hp => exact (SchedulerQueues.pickNext_some h hp).1.filed
  | submitPush hs => exact h.push _
  | cancel hc hlock =>
    obtain ⟨sent, heq⟩ := cancelAll_eq s
    rw [heq]
    exact SchedulerQueues.filed_drained _
  | _ => exact h

/-- The job in the worker's hands. -/
def WorkerPc.hand : WorkerPc → List ℕ
  | .fetching env | .transcribing env => [env.id]
  | _ => []

/-- The places of the job `i`. -/
def places (s : State R) (i : ℕ) : ℕ :=
  (s.queues.jobs.map JobEnvelope.id).count i + s.worker.hand.count i + (s.sent i).length +
    s.dropped.count i

/-- The job of the call has been taken over by the scheduler. -/
def SubmitPc.Taken : SubmitPc → Prop
  | .pushed | .accepted => True
  | _ => False

instance (pc : SubmitPc) : Decidable pc.Taken :=
  match pc with
  | .pushed | .accepted => .isTrue trivial
  | .absent | .waiting _ _ | .locked _ _ | .running _ _ | .refused => .isFalse id

/-- Each job that was taken over is in exactly one place, and no other job is anywhere. -/
def Counted (s : State R) : Prop := ∀ i, places s i = if (s.submits i).Taken then 1 else 0

theorem count_perm {env : JobEnvelope} {jobs jobs' : List JobEnvelope}
    (h : jobs.Perm (env :: jobs')) (i : ℕ) : (jobs.map JobEnvelope.id).count i =
      (jobs'.map JobEnvelope.id).count i + if env.id = i then 1 else 0 := by
  rw [(h.map JobEnvelope.id).count_eq, List.map_cons, List.count_cons]
  simp

theorem send_length (s : State R) (k i : ℕ) (outcome : Outcome R) :
    ((s.send k outcome).sent i).length = (s.sent i).length + if k = i then 1 else 0 := by
  by_cases h : k = i
  · subst h
    simp [State.send]
  · simp [State.send, h, Ne.symm h]

theorem cancelAll_sent (s : State R) (i : ℕ) : ((cancelAll s).sent i).length =
    (s.sent i).length + (s.queues.jobs.map JobEnvelope.id).count i := by
  have hfold : ∀ (l : List JobEnvelope) (s : State R),
      ((l.foldl (fun s env => s.send env.id .cancelled) s).sent i).length =
        (s.sent i).length + (l.map JobEnvelope.id).count i := by
    intro l
    induction l with
    | nil => simp
    | cons env l ih =>
      intro s
      rw [List.foldl_cons, ih, send_length, List.map_cons, List.count_cons]
      by_cases h : env.id = i
      · simp [h]
        omega
      · simp [h]
  exact hfold _ _

theorem counted_submitTo (h : Counted s) {k : ℕ} {pc : SubmitPc}
    (hk : (s.submits k).Taken ↔ pc.Taken) : Counted (s.submitTo k pc) := by
  intro i
  have hi : places s i = _ := h i
  have hplaces : places (s.submitTo k pc) i = places s i := rfl
  rw [hplaces, hi]
  by_cases hik : i = k
  · subst hik
    simp [State.submitTo, hk]
  · simp [State.submitTo, hik]

/-- Jobs only change their places. -/
theorem Counted.moves (h : Counted s) (hplaces : ∀ i, places t i = places s i)
    (hsubmits : t.submits = s.submits) : Counted t := by
  intro i
  rw [hplaces, hsubmits]
  exact h i

/-- The worker goes on without taking or leaving a job. -/
theorem places_mono (hq : t.queues = s.queues) (hw : t.worker.hand = s.worker.hand)
    (hsent : t.sent = s.sent) (hdropped : t.dropped = s.dropped) (i : ℕ) :
    places t i = places s i := by
  rw [places, places, hq, hw, hsent, hdropped]

/-- The worker ends, and the job in its hands goes with it. -/
theorem places_leaves {k : ℕ} (hhand : s.worker.hand = [k]) (hw : t.worker.hand = [])
    (hq : t.queues = s.queues) (hsent : t.sent = s.sent) (hdropped : t.dropped = k :: s.dropped)
    (i : ℕ) : places t i = places s i := by
  rw [places, places, hhand, hw, hq, hsent, hdropped, List.count_cons, List.count_singleton,
    List.count_nil]
  omega

theorem step_counted (hfiled : s.queues.Filed) (h : Counted s) (hstep : Next s e t) :
    Counted t := by
  cases hstep with
  | lock _ hw _ | flag _ hw | exit _ hw _ | park _ hw _ | wake _ hw _ | endParked _ hw
  | nothing _ hw _ | fetch _ hw _ =>
    exact h.moves (places_mono rfl (by simp [hw, WorkerPc.hand]) rfl rfl) rfl
  | bits _ hw =>
    refine h.moves (places_mono rfl ?_ rfl rfl) rfl
    cases hb : anyBusy s.busy <;> simp [hw, WorkerPc.hand]
  | @pick _ _ env queues hw hp =>
    refine h.moves (fun i => ?_) rfl
    have hcount := count_perm (SchedulerQueues.pickNext_some hfiled hp).1.jobs i
    simp only [places, hw, WorkerPc.hand, List.count_nil, List.count_singleton, beq_iff_eq]
    omega
  | @complete result env hw =>
    refine h.moves (fun i => ?_) rfl
    have hsent := send_length s env.id i (.finished result)
    simp only [places, hw, WorkerPc.hand, List.count_nil, List.count_singleton, beq_iff_eq,
      hsent]
    simp only [State.send]
    omega
  | crash _ hw _ => exact h.moves (places_leaves (by simp [hw, WorkerPc.hand]) rfl rfl rfl rfl) rfl
  | endWorking _ hw =>
    obtain hw | hw := hw
    · exact h.moves (places_leaves (by simp [hw, WorkerPc.hand]) rfl rfl rfl rfl) rfl
    · exact h.moves (places_leaves (by simp [hw, WorkerPc.hand]) rfl rfl rfl rfl) rfl
  | submit hs => exact counted_submitTo h (by simp [hs, SubmitPc.Taken])
  | submitLock hs _ => exact counted_submitTo h (by simp [hs, SubmitPc.Taken])
  | submitRunning hs _ => exact counted_submitTo h (by simp [hs, SubmitPc.Taken])
  | submitRefused hs _ => exact counted_submitTo h (by simp [hs, SubmitPc.Taken])
  | submitNotify hs => exact counted_submitTo h (by simp [hs, SubmitPc.Taken])
  | @submitPush k origin source hs =>
    intro i
    have hi := h i
    have hcount := count_perm (SchedulerQueues.push_jobs s.queues ⟨k, origin, source⟩) i
    simp only [places, State.submitTo] at hi ⊢
    by_cases hik : i = k
    · subst hik
      simp only [hs, SubmitPc.Taken, if_false] at hi
      simp only [if_true] at hcount
      simp only [Function.update_self, SubmitPc.Taken, if_true]
      omega
    · simp only [Ne.symm hik, if_false] at hcount
      simp only [Function.update_of_ne hik]
      omega
  | cancel _ _ =>
    obtain ⟨sent, heq⟩ := cancelAll_eq s
    have hsent := cancelAll_sent s
    rw [heq] at hsent ⊢
    refine h.moves (fun i => ?_) rfl
    simp only [places, hsent i]
    simp only [SchedulerQueues.drained, SchedulerQueues.jobs, List.append_nil, List.map_nil,
      List.count_nil]
    omega
  | _ => exact h

def WorkerPc.Holds : WorkerPc → Prop
  | .locked | .readBits | .picking _ => True
  | _ => False

def SubmitPc.Holds : SubmitPc → Prop
  | .locked _ _ | .running _ _ => True
  | _ => False

/-- Whoever stands behind the queue lock holds it. -/
structure Locked (s : State R) : Prop where
  worker : s.worker.Holds → s.lock = some .worker
  submits : ∀ i, (s.submits i).Holds → s.lock = some (.submit i)

/-- The worker moves while it holds the lock, or gives it back. -/
theorem Locked.worker_moves (h : Locked s) (hw : s.worker.Holds) (hs : t.submits = s.submits)
    (hlock : t.worker.Holds → t.lock = some .worker) : Locked t := by
  refine ⟨hlock, fun i hi => ?_⟩
  rw [hs] at hi
  have hne := (h.worker hw).symm.trans (h.submits i hi)
  simp at hne

/-- The worker moves without the lock. -/
theorem Locked.worker_free (h : Locked s) (hs : t.submits = s.submits) (hl : t.lock = s.lock)
    (hw : ¬t.worker.Holds) : Locked t :=
  ⟨fun hold => absurd hold hw, fun i hi => hl.trans (h.submits i (hs ▸ hi))⟩

theorem Locked.submit_moves (h : Locked s) {k : ℕ} {pc : SubmitPc} (hs : (s.submits k).Holds)
    (hpc : t.submits = Function.update s.submits k pc) (hw : t.worker = s.worker)
    (hlock : pc.Holds → t.lock = some (.submit k)) : Locked t := by
  refine ⟨fun hold => ?_, fun i hi => ?_⟩
  · rw [hw] at hold
    have hne := (h.worker hold).symm.trans (h.submits k hs)
    simp at hne
  · by_cases hik : i = k
    · rw [hpc, hik, Function.update_self] at hi
      rw [hik]
      exact hlock hi
    · rw [hpc, Function.update_of_ne hik] at hi
      have hne := (h.submits i hi).symm.trans (h.submits k hs)
      simp [hik] at hne

theorem Locked.submit_free (h : Locked s) {k : ℕ} {pc : SubmitPc} (hpc : ¬pc.Holds)
    (hs : t.submits = Function.update s.submits k pc) (hw : t.worker = s.worker)
    (hlock : t.lock = s.lock) : Locked t := by
  refine ⟨fun hold => hlock.trans (h.worker (hw ▸ hold)), fun i hi => ?_⟩
  by_cases hik : i = k
  · rw [hs, hik, Function.update_self] at hi
    exact absurd hi hpc
  · rw [hs, Function.update_of_ne hik] at hi
    exact hlock.trans (h.submits i hi)

theorem step_locked (h : Locked s) (hstep : Next s e t) : Locked t := by
  cases hstep with
  | lock _ hw hl =>
    refine ⟨fun _ => rfl, fun i hi => ?_⟩
    have hne := h.submits i hi
    simp [hl] at hne
  | bits _ hw =>
    refine h.worker_moves (by simp [hw, WorkerPc.Holds]) rfl (fun _ => ?_)
    exact h.worker (by simp [hw, WorkerPc.Holds])
  | flag _ hw =>
    refine h.worker_moves (by simp [hw, WorkerPc.Holds]) rfl (fun _ => ?_)
    exact h.worker (by simp [hw, WorkerPc.Holds])
  | pick _ hw _ | nothing _ hw _ =>
    exact h.worker_moves (by simp [hw, WorkerPc.Holds]) rfl (fun hold => hold.elim)
  | exit | park | wake | fetch | complete | crash | endParked | endWorking =>
    exact h.worker_free rfl rfl id
  | submit hs => exact h.submit_free id rfl rfl rfl
  | @submitLock k origin source hs hl =>
    refine ⟨fun hold => ?_, fun i hi => ?_⟩
    · have hne := h.worker hold
      simp [hl] at hne
    · simp only [State.submitTo] at hi ⊢
      by_cases hik : i = k
      · rw [hik]
      · rw [Function.update_of_ne hik] at hi
        have hne := h.submits i hi
        simp [hl] at hne
  | submitRunning hs _ =>
    refine h.submit_moves (by simp [hs, SubmitPc.Holds]) rfl rfl (fun _ => ?_)
    exact h.submits _ (by simp [hs, SubmitPc.Holds])
  | submitRefused hs _ | submitPush hs =>
    exact h.submit_moves (by simp [hs, SubmitPc.Holds]) rfl rfl (fun hold => hold.elim)
  | submitNotify hs => exact h.submit_free id rfl rfl rfl
  | cancel hc hl =>
    obtain ⟨sent, heq⟩ := cancelAll_eq s
    rw [heq]
    exact ⟨h.worker, h.submits⟩
  | setBusy | busyNotify | swap | store | shutdownNotify | join | takeClient | terminate
  | timeout => exact ⟨h.worker, h.submits⟩

def ShutdownPc.Stored : ShutdownPc → Prop
  | .absent | .swapped => False
  | _ => True

def ShutdownPc.Drained : ShutdownPc → Prop
  | .cancelled | .clientTaken | .returned => True
  | _ => False

/-- How far `shutdown_client` has come. -/
structure Closed (s : State R) : Prop where
  refusing : s.closing.Stored → s.lifecycle ≠ .running
  drained : s.closing.Drained → s.queues.jobs = [] ∧
    ∀ i origin source, s.submits i ≠ .running origin source

theorem ShutdownPc.Drained.stored {pc : ShutdownPc} (h : pc.Drained) : pc.Stored := by
  cases pc <;> trivial

theorem Closed.worker_moves (h : Closed s) (hc : t.closing = s.closing)
    (hl : t.lifecycle = s.lifecycle) (hs : t.submits = s.submits)
    (hq : s.queues.jobs = [] → t.queues.jobs = []) : Closed t := by
  refine ⟨fun hst => ?_, fun hd => ?_⟩
  · rw [hl]
    exact h.refusing (hc ▸ hst)
  · obtain ⟨hjobs, hrunning⟩ := h.drained (hc ▸ hd)
    exact ⟨hq hjobs, fun i => hs ▸ hrunning i⟩

theorem Closed.submit_moves (h : Closed s) {k : ℕ} {pc : SubmitPc} (hc : t.closing = s.closing)
    (hl : t.lifecycle = s.lifecycle) (hq : t.queues = s.queues)
    (hs : t.submits = Function.update s.submits k pc)
    (hpc : ∀ origin source, pc ≠ .running origin source) : Closed t := by
  refine ⟨fun hst => ?_, fun hd => ?_⟩
  · rw [hl]
    exact h.refusing (hc ▸ hst)
  · obtain ⟨hjobs, hrunning⟩ := h.drained (hc ▸ hd)
    refine ⟨hq ▸ hjobs, fun i origin source => ?_⟩
    rw [hs]
    by_cases hik : i = k
    · rw [hik, Function.update_self]
      exact hpc origin source
    · rw [Function.update_of_ne hik]
      exact hrunning i origin source

theorem step_closed (hlocked : Locked s) (hfiled : s.queues.Filed) (h : Closed s)
    (hstep : Next s e t) : Closed t := by
  cases hstep with
  | pick _ _ hp =>
    refine h.worker_moves rfl rfl rfl (fun hjobs => ?_)
    have hperm := (SchedulerQueues.pickNext_some hfiled hp).1.jobs
    rw [hjobs] at hperm
    exact absurd hperm.length_eq (by simp)
  | lock | bits | flag | nothing | exit | park | wake | fetch | complete | crash | endParked
  | endWorking | setBusy | busyNotify => exact h.worker_moves rfl rfl rfl id
  | submit hs => exact h.submit_moves rfl rfl rfl rfl (by simp)
  | submitLock hs _ => exact h.submit_moves rfl rfl rfl rfl (by simp)
  | submitRefused hs _ => exact h.submit_moves rfl rfl rfl rfl (by simp)
  | submitNotify hs => exact h.submit_moves rfl rfl rfl rfl (by simp)
  | submitRunning hs hl =>
    refine ⟨h.refusing, fun hd => ?_⟩
    exact absurd hl (h.refusing (ShutdownPc.Drained.stored hd))
  | submitPush hs =>
    refine ⟨h.refusing, fun hd => ?_⟩
    exact absurd hs ((h.drained hd).2 _ _ _)
  | swap => exact ⟨fun hst => hst.elim, fun hd => hd.elim⟩
  | store => exact ⟨fun _ => by simp, fun hd => hd.elim⟩
  | shutdownNotify hc | join hc _ | timeout hc =>
    exact ⟨fun _ => h.refusing (by simp [hc, ShutdownPc.Stored]), fun hd => hd.elim⟩
  | cancel hc hl =>
    obtain ⟨sent, heq⟩ := cancelAll_eq s
    rw [heq]
    refine ⟨fun _ => h.refusing (by simp [hc, ShutdownPc.Stored]), fun _ => ⟨?_, ?_⟩⟩
    · simp [SchedulerQueues.drained, SchedulerQueues.jobs]
    · intro i origin source hr
      have hr' : s.submits i = .running origin source := hr
      have hne := hlocked.submits i (by simp [hr', SubmitPc.Holds])
      simp [hl] at hne
  | takeClient hc =>
    exact ⟨fun _ => h.refusing (by simp [hc, ShutdownPc.Stored]),
      fun _ => h.drained (by simp [hc, ShutdownPc.Drained])⟩
  | terminate hc =>
    exact ⟨fun _ => by simp, fun _ => h.drained (by simp [hc, ShutdownPc.Drained])⟩

def ShutdownPc.Waited : ShutdownPc → Prop
  | .joined | .cancelled | .clientTaken | .returned => True
  | _ => False

/-- A sender goes with the worker only when the wait for it timed out. -/
structure Outlived (s : State R) : Prop where
  waited : s.closing.Waited → s.worker = .exited ∨ s.aborted = true
  client : s.client = false → s.closing.Waited
  dropped : s.dropped ≠ [] → s.aborted = true

theorem Outlived.worker_moves (h : Outlived s) (hw : s.worker ≠ .exited)
    (hc : t.closing = s.closing) (ha : t.aborted = s.aborted) (hcl : t.client = s.client)
    (hd : t.dropped ≠ [] → s.dropped ≠ [] ∨ s.client = false ∨ s.aborted = true) :
    Outlived t := by
  have hwaited : s.closing.Waited → s.aborted = true :=
    fun hs => (h.waited hs).resolve_left hw
  refine ⟨fun hs => ?_, fun hs => ?_, fun hs => ?_⟩
  · rw [ha]
    exact Or.inr (hwaited (hc ▸ hs))
  · rw [hc]
    exact h.client (hcl ▸ hs)
  · rw [ha]
    obtain hs | hs | hs := hd hs
    · exact h.dropped hs
    · exact hwaited (h.client hs)
    · exact hs

theorem step_outlived (h : Outlived s) (hstep : Next s e t) : Outlived t := by
  cases hstep with
  | lock _ hw _ | bits _ hw | flag _ hw | pick _ hw _ | nothing _ hw _ | exit _ hw _
  | park _ hw _ | wake _ hw _ | fetch _ hw _ | complete _ hw | endParked _ hw =>
    exact h.worker_moves (by simp [hw]) rfl rfl rfl Or.inl
  | crash _ hw hc => exact h.worker_moves (by simp [hw]) rfl rfl rfl (fun _ => Or.inr (Or.inl hc))
  | endWorking ha hw =>
    have hne : s.worker ≠ .exited := by
      obtain hw | hw := hw <;> simp [hw]
    exact h.worker_moves hne rfl rfl rfl (fun _ => Or.inr (Or.inr ha))
  | submit | submitLock | submitRunning | submitRefused | submitPush | submitNotify | setBusy
  | busyNotify => exact ⟨h.waited, h.client, h.dropped⟩
  | swap hc | store hc | shutdownNotify hc =>
    refine ⟨fun hs => hs.elim, fun hs => ?_, h.dropped⟩
    exact absurd (h.client hs) (by simp [hc, ShutdownPc.Waited])
  | join hc hw => exact ⟨fun _ => Or.inl hw, fun _ => trivial, h.dropped⟩
  | timeout hc => exact ⟨fun _ => Or.inr rfl, fun _ => trivial, fun _ => rfl⟩
  | cancel hc _ =>
    obtain ⟨sent, heq⟩ := cancelAll_eq s
    rw [heq]
    exact ⟨fun _ => h.waited (by simp [hc, ShutdownPc.Waited]), fun _ => trivial, h.dropped⟩
  | takeClient hc | terminate hc =>
    exact ⟨fun _ => h.waited (by simp [hc, ShutdownPc.Waited]), fun _ => trivial, h.dropped⟩

/-- What every reachable state satisfies. -/
structure Inv (s : State R) : Prop where
  woken : Woken s
  filed : s.queues.Filed
  counted : Counted s
  locked : Locked s
  closed : Closed s
  outlived : Outlived s

theorem start_inv : Inv (start : State R) where
  woken := trivial
  filed := ⟨by simp [start], by simp [start],
    fun src => by cases src <;> simp [start, SchedulerQueues.live], by simp [start]⟩
  counted := fun i => by simp [places, start, SchedulerQueues.jobs, WorkerPc.hand, SubmitPc.Taken]
  locked := ⟨fun h => h.elim, fun i h => h.elim⟩
  closed := ⟨fun h => h.elim, fun h => h.elim⟩
  outlived := ⟨fun h => h.elim, fun h => by simp [start] at h, fun h => by simp [start] at h⟩

theorem step_inv (h : Inv s) (hstep : Next s e t) : Inv t where
  woken := step_woken h.woken hstep
  filed := step_filed h.filed hstep
  counted := step_counted h.filed h.counted hstep
  locked := step_locked h.locked hstep
  closed := step_closed h.locked h.filed h.closed hstep
  outlived := step_outlived h.outlived hstep

end YapStack.Scheduler
