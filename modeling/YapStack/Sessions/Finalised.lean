import YapStack.Sessions.AwaitSteps

set_option linter.unusedSectionVars false

namespace YapStack.Sessions

section Ledger

variable {Id : Type} [DecidableEq Id]

/-- Each finalisation counts no more segments than are saved when its turn comes. -/
def Stamped : ℕ → List (Job Id) → Prop
  | _, [] => True
  | n, j :: q =>
    (∀ k stage seen, j = .finalise k stage seen → seen ≤ n) ∧ Stamped (n + j.saves.length) q

theorem stamped_append {n : ℕ} {q : List (Job Id)} {j : Job Id} (h : Stamped n q)
    (hj : ∀ k stage seen, j = .finalise k stage seen → seen ≤ n + (q.flatMap Job.saves).length) :
    Stamped n (q ++ [j]) := by
  induction q generalizing n with
  | nil => exact ⟨by simpa using hj, trivial⟩
  | cons j' q ih =>
    refine ⟨h.1, ih h.2 (fun k stage seen heq => ?_)⟩
    have hseen := hj k stage seen heq
    simp only [List.flatMap_cons, List.length_append] at hseen
    omega

namespace State

/-- What was delivered is saved or queued, in order. -/
structure Ledger (s : State Id) : Prop where
  saved : s.delivered = s.segments ++ s.segmentQueue.flatMap Job.saves
  stamped : Stamped s.segments.length s.segmentQueue
  parts : ∀ x ∈ s.deliveredParts, x ∈ s.parts
  announced : ∀ k n, .partReady k n ∈ s.inFlight → (k, n) ∈ s.parts

/-- The part of the state that the ledger reads. -/
def ledger (s : State Id) :=
  (s.delivered, s.segments, s.segmentQueue, s.deliveredParts, s.parts, s.inFlight)

variable {s t : State Id}

theorem Ledger.same (h : Ledger s) (heq : t.ledger = s.ledger) : Ledger t := by
  simp only [ledger, Prod.mk.injEq] at heq
  obtain ⟨h1, h2, h3, h4, h5, h6⟩ := heq
  refine ⟨?_, ?_, ?_, ?_⟩
  · rw [h1, h2, h3]
    exact h.saved
  · rw [h2, h3]
    exact h.stamped
  · rw [h4, h5]
    exact h.parts
  · rw [h5, h6]
    exact h.announced

theorem Ledger.enqueue (h : Ledger s) {j : Job Id} (hj : j.saves = [])
    (hseen : ∀ k stage seen, j = .finalise k stage seen → seen ≤ s.delivered.length) :
    Ledger (s.enqueueSegmentWork j) := by
  refine ⟨?_, stamped_append h.stamped (fun k stage seen heq => ?_), h.parts, h.announced⟩
  · simpa [enqueueSegmentWork, hj] using h.saved
  · have hle := hseen k stage seen heq
    rw [h.saved, List.length_append] at hle
    exact hle

theorem Ledger.setLivePhase (h : Ledger s) (phase : LivePhase) : Ledger (s.setLivePhase phase) := by
  have hset : Ledger (s.setPhase phase) := h.same rfl
  rcases setLivePhase_eq s phase with ⟨heq, -⟩ | ⟨a, -, -, heq⟩
  · rw [heq]
    exact hset
  · rw [heq]
    refine hset.enqueue rfl (fun k stage seen hj => ?_)
    cases hj
    exact Nat.le_refl _

theorem Ledger.take (h : Ledger s) (m : Message Id) :
    Ledger { s with inFlight := s.inFlight.erase m } :=
  ⟨h.saved, h.stamped, h.parts, fun k n hk => h.announced k n (List.mem_of_mem_erase hk)⟩

theorem Ledger.receive (h : Ledger s) {m : Message Id}
    (hm : ∀ k n, m = .partReady k n → (k, n) ∈ s.parts) : Ledger (s.receive m) := by
  cases m with
  | status k phase =>
    rcases onStatus_eq s k phase with ⟨heq, -⟩ | ⟨heq, -⟩
    · rw [State.receive, heq]
      exact h
    · rw [State.receive, heq]
      exact h.setLivePhase phase
  | segments k texts =>
    refine ⟨?_, stamped_append h.stamped (fun _ _ _ hj => by cases hj), h.parts, h.announced⟩
    simp [State.receive, onLiveSegment, enqueueSegmentWork, Job.saves, h.saved]
  | partReady k part =>
    have hnew : Ledger { s with deliveredParts := s.deliveredParts ++ [(k, part)] } := by
      refine ⟨h.saved, h.stamped, fun x hx => ?_, h.announced⟩
      rcases List.mem_append.mp hx with hold | hnew
      · exact h.parts x hold
      · rw [List.mem_singleton.mp hnew]
        exact hm k part rfl
    exact hnew.enqueue rfl (fun _ _ _ hj => by cases hj)

/-- The head of the queue saves nothing and gives way to what saves nothing. -/
theorem Ledger.next (h : Ledger s) {j : Job Id} {q : List (Job Id)} (hq : s.segmentQueue = j :: q)
    (hj : j.saves = []) : Ledger { s with segmentQueue := q } := by
  have hsaved := h.saved
  have hstamped := h.stamped
  rw [hq] at hsaved hstamped
  rw [List.flatMap_cons, hj, List.nil_append] at hsaved
  refine ⟨hsaved, ?_, h.parts, h.announced⟩
  have htail := hstamped.2
  rwa [hj, List.length_nil, Nat.add_zero] at htail

theorem Ledger.restage (h : Ledger s) {k : Id} {stage stage' : Finalisation} {seen : ℕ}
    {q : List (Job Id)} (hq : s.segmentQueue = .finalise k stage seen :: q) :
    Ledger { s with segmentQueue := .finalise k stage' seen :: q } := by
  have hsaved := h.saved
  have hstamped := h.stamped
  rw [hq] at hsaved hstamped
  refine ⟨hsaved, ⟨fun k' _ seen' hj => ?_, hstamped.2⟩, h.parts, h.announced⟩
  cases hj
  exact hstamped.1 k stage seen rfl

theorem Ledger.insert (h : Ledger s) {k : Id} {n : ℕ} {todo : List ℕ} {q : List (Job Id)}
    (hq : s.segmentQueue = .insertSegments k (n :: todo) :: q) :
    Ledger { s with segments := s.segments ++ [(k, n)]
                    segmentQueue := .insertSegments k todo :: q } := by
  have hsaved := h.saved
  have hstamped := h.stamped
  rw [hq] at hsaved hstamped
  refine ⟨?_, ⟨fun _ _ _ hj => (by cases hj), ?_⟩, h.parts, h.announced⟩
  · simpa [Job.saves] using hsaved
  · have htail := hstamped.2
    simp only [Job.saves, List.length_map, List.length_cons, List.length_append,
      List.length_nil] at htail ⊢
    rwa [show s.segments.length + (0 + 1) + todo.length =
      s.segments.length + (todo.length + 1) by omega]

theorem Ledger.workStep (h : Ledger s) {ok : Bool} (hg : s.Guard (.work ok) t)
    (ht : s.workStep ok s.segmentQueue = some t) : Ledger t := by
  obtain ⟨j, q, hq, ⟨rfl, -, hj⟩ | ⟨k, n, todo, rfl, rfl⟩ | ⟨k, seen, rfl, rfl⟩ |
    ⟨k, seen, rfl, rfl⟩⟩ := workStep_cases ht
  · refine h.next hq ?_
    cases j with
    | insertSegments k todo =>
      cases todo with
      | nil => rfl
      | cons n todo =>
        simp only [Guard, hq] at hg
        exact hj hg
    | refreshParts k => rfl
    | finalise k stage seen => rfl
  · exact h.insert hq
  · have hset : Ledger (if ok then s.setStatus k .completed else s) := by
      split
      · exact h.same rfl
      · exact h
    have hq' : (if ok then s.setStatus k .completed else s).segmentQueue =
        .finalise k .completing seen :: q := by
      split
      · exact hq
      · exact hq
    exact hset.restage hq'
  · have hclear : Ledger s.clearSession := h.same rfl
    exact hclear.restage hq

theorem createStep_ledger {c : Creation Id} {reply : Reply} (ht : s.createStep c reply = some t) :
    t.ledger = s.ledger := by
  cases c with
  | createSession k | deleteSession k => cases reply <;> cases ht <;> rfl
  | startLive k =>
    cases reply with
    | ok =>
      obtain ⟨s', hs', rfl⟩ := Option.map_eq_some_iff.mp ht
      obtain ⟨-, rfl⟩ := startLive_eq hs'
      rfl
    | refused | throws =>
      cases ht
      rfl
  | started k | listSessions =>
    cases ht
    rfl

theorem recover_ledger (k : Id) : (s.recoverActiveSession k).ledger = s.ledger := by
  unfold recoverActiveSession
  split <;> rfl

theorem Ledger.threadStep (h : Ledger s) {thread : Thread Id} {reply : Reply}
    (ht : s.threadStep thread reply = some t) : Ledger t := by
  cases thread with
  | resumeGetSession k =>
    cases reply with
    | ok =>
      simp only [State.threadStep] at ht
      split at ht <;> cases ht
      · exact h.same rfl
      · exact h
    | refused | throws =>
      cases ht
      exact h
  | resumeStart k =>
    cases reply with
    | ok =>
      obtain ⟨s', hs', rfl⟩ := Option.map_eq_some_iff.mp ht
      obtain ⟨-, rfl⟩ := startLive_eq hs'
      exact h.same rfl
    | refused | throws =>
      cases ht
      exact h
  | gotStatus phase session =>
    cases ht
    unfold State.applyStatus
    split
    · exact (h.setLivePhase _).same (recover_ledger _)
    · exact h.setLivePhase _
  | resumeRead k | resumeMark k | resumeStarted k | recoverRead k | recovered k | getStatus
  | stopLive => cases reply <;> cases ht <;> exact h.same rfl

theorem step_ledger (h : Ledger s) {e : Event Id} (hg : s.Guard e t) (ht : s.step e = some t) :
    Ledger t := by
  have hemit : ∀ m : Message Id, (∀ k n, m ≠ .partReady k n) → Ledger (s.emit m) := by
    intro m hm
    refine ⟨h.saved, h.stamped, h.parts, fun k n hk => h.announced k n ?_⟩
    exact (List.mem_append.mp hk).resolve_right (fun heq => hm k n (List.mem_singleton.mp heq).symm)
  cases e with
  | createAndStartSession k =>
    simp only [State.step, Option.ite_none_right_eq_some, Option.some.injEq] at ht
    obtain ⟨-, rfl⟩ := ht
    exact h.same rfl
  | resumeSession k =>
    simp only [State.step, Option.ite_none_left_eq_some, Option.some.injEq] at ht
    obtain ⟨-, rfl⟩ := ht
    exact h.same rfl
  | stopActiveSession =>
    simp only [State.step, Option.ite_none_left_eq_some, Option.some.injEq] at ht
    obtain ⟨-, rfl⟩ := ht
    exact h.same rfl
  | mount =>
    cases ht
    exact h.same rfl
  | create reply =>
    obtain ⟨c, -, ht⟩ := Option.bind_eq_some_iff.mp ht
    exact h.same (createStep_ledger ht)
  | resolve thread reply =>
    simp only [State.step, Option.ite_none_right_eq_some] at ht
    obtain ⟨u, hu, rfl⟩ := Option.map_eq_some_iff.mp ht.2
    exact (h.threadStep hu).same rfl
  | work ok => exact h.workStep hg ht
  | emitRunning =>
    obtain ⟨k, -, rfl⟩ := Option.map_eq_some_iff.mp ht
    exact hemit _ (fun _ _ heq => by cases heq)
  | emitEnd failed =>
    obtain ⟨k, -, rfl⟩ := Option.map_eq_some_iff.mp ht
    exact (hemit (.status k _) (fun _ _ heq => by cases heq)).same rfl
  | emitSegments texts =>
    obtain ⟨k, -, rfl⟩ := Option.map_eq_some_iff.mp ht
    exact hemit _ (fun _ _ heq => by cases heq)
  | emitPart part =>
    obtain ⟨k, -, rfl⟩ := Option.map_eq_some_iff.mp ht
    refine ⟨h.saved, h.stamped, fun x hx => List.mem_append_left _ (h.parts x hx), fun j n hj => ?_⟩
    rcases List.mem_append.mp hj with hold | hnew
    · exact List.mem_append_left _ (h.announced j n hold)
    · cases List.mem_singleton.mp hnew
      exact List.mem_append_right _ List.mem_cons_self
  | leaveSlot =>
    simp only [State.step] at ht
    split at ht <;> cases ht
    exact h.same rfl
  | deliver m =>
    simp only [State.step, Option.ite_none_right_eq_some, Option.some.injEq] at ht
    obtain ⟨hm, rfl⟩ := ht
    exact (h.take m).receive (fun k n heq => h.announced k n (heq ▸ hm))

end State

end Ledger

section Finalised

open YapStack.Runs

variable {Id : Type} [DecidableEq Id]

namespace State

/-- A finalisation of `k` touches no other session's row, and no other session's place in the
store. It completes `k` when the segments and parts delivered before it are saved. The report
that `k` ended changes nothing while another session is active. -/
def Finalises (s : State Id) (e : Event Id) (t : State Id) : Prop :=
  match e with
  | .work _ => ∀ k stage seen q, s.segmentQueue = .finalise k stage seen :: q →
    (∀ a ∈ s.activeSessionId, a ≠ k → t.activeSessionId = s.activeSessionId ∧
      t.livePhase = s.livePhase ∧ t.liveTranscriptionActive = s.liveTranscriptionActive) ∧
    (∀ j, j ≠ k → t.rows j = s.rows j) ∧
    (stage = .completing → t.rows k = some .completed ∧
      (∀ x ∈ s.delivered.take seen, x ∈ s.segments) ∧ ∀ x ∈ s.deliveredParts, x ∈ s.parts)
  | .deliver (.status k _) => ∀ a ∈ s.activeSessionId, a ≠ k →
    t.activeSessionId = s.activeSessionId ∧ t.livePhase = s.livePhase ∧
      t.segmentQueue = s.segmentQueue ∧ t.rows = s.rows
  | _ => True

/-- No step, event or queued persistence is pending. -/
def Quiescent (s : State Id) : Prop :=
  s.creating = none ∧ s.threads = [] ∧ s.inFlight = [] ∧ s.segmentQueue = []

/-- The store shows the session that the backend runs, and the others are completed. -/
structure Settled (s : State Id) : Prop where
  active : ∀ k, s.activeSessionId = some k ↔ s.slot = .running k
  recording : ∀ k, s.rows k = some .recording → s.slot = .running k
  completed : ∀ k ∈ s.ended, s.slot ≠ .running k → s.rows k = some .completed

structure Inv (s : State Id) : Prop extends Sound s, Lifecycle s, Ledger s

variable {s t : State Id}

theorem inv_boot (completed : Id → Bool) (live : Option Id) : Inv (boot completed live) := by
  have hlive : ∀ k, (boot completed live).rows k = some .recording →
      (boot completed live).Running k := by
    intro k hk
    simp only [boot] at hk
    split at hk
    · rename_i heq
      subst heq
      rfl
    · split at hk <;> cases hk
  have hqueued : ∀ k stage, ¬(boot completed live).Queued k stage := by
    rintro k stage ⟨j, hj, -⟩
    cases hj
  refine ⟨sound_boot completed live, ⟨fun k hk => (by cases hk), fun k _ => ?_, fun k hk => ?_,
    fun k hk => ?_, fun k hk => ?_, fun k hk => ?_, fun k hk => absurd hk (hqueued k _)⟩,
    ⟨rfl, trivial, fun _ hx => (by cases hx), fun _ _ hk => (by cases hk)⟩⟩
  · exact .inr (.inr (.inr (.inr (.inl List.mem_cons_self))))
  · exact absurd hk (not_or.mpr ⟨hqueued k _, hqueued k _⟩)
  · exact absurd hk (not_or.mpr ⟨hqueued k _, hqueued k _⟩)
  · rcases hk with hk | hk | hk
    · cases hk
    · simp [boot] at hk
    · simp [boot] at hk
  · exact .inr (.inr (.inr (.inr (.inl (hlive k hk)))))

theorem step_inv (h : Inv s) {e : Event Id} (hg : s.Guard e t) (ht : s.step e = some t) : Inv t :=
  ⟨step_sound h.toSound ht, step_lifecycle h.toSound h.toLifecycle hg ht, step_ledger h.toLedger hg ht⟩

theorem Inv.settled (h : Inv s) (hq : s.Quiescent) : Settled s := by
  obtain ⟨hcreating, hthreads, hflight, hqueue⟩ := hq
  have hending : ∀ k, ¬s.Ending k := fun k hk => by simp [Ending, hflight] at hk
  have hqueued : ∀ k stage, ¬s.Queued k stage := fun k stage hk => by simp [Queued, hqueue] at hk
  have hstarted : ∀ k, ¬s.Started k := fun k hk => by simp [Started, hcreating, hthreads] at hk
  have hattaching : ∀ k, ¬s.Attaching k := fun k hk => by simp [Attaching, hthreads] at hk
  have hactive : ∀ k, s.activeSessionId = some k → s.slot = .running k := by
    intro k hk
    rcases h.shown k hk with hr | he | hp | hp
    · exact hr
    · exact absurd he (hending k)
    · exact absurd hp (hqueued k _)
    · exact absurd hp (hqueued k _)
  have hrecording : ∀ k, s.rows k = some .recording → s.slot = .running k := by
    intro k hk
    rcases h.recording k hk with hc | hc | ha | he | hr | hq
    · rw [hcreating] at hc
      cases hc
    · rw [hcreating] at hc
      cases hc
    · exact hactive k ha
    · exact absurd he (hending k)
    · exact hr
    · exact absurd hq (hqueued k _)
  refine ⟨fun k => ⟨hactive k, fun hr => ?_⟩, hrecording, fun k hk hr => ?_⟩
  · rcases h.attached k hr with hs | ha | ha
    · exact absurd hs (hstarted k)
    · exact ha
    · exact absurd ha (hattaching k)
  · have hrow := h.known k (.inl hk)
    cases hs : s.rows k with
    | none => exact absurd hs hrow
    | some status =>
      cases status with
      | recording => exact absurd (hrecording k hs) hr
      | completed => rfl

theorem work_finalises (h : Inv s) {ok : Bool} (hg : s.Guard (.work ok) t)
    (ht : s.workStep ok s.segmentQueue = some t) : s.Finalises (.work ok) t := by
  intro k stage seen q hq
  have hrow : s.rows k ≠ none :=
    h.known k (known_of_job (hq ▸ List.mem_cons_self) (finalises_finalise k stage seen))
  rw [hq] at ht
  cases stage with
  | completing =>
    have hok : ok = true := by simpa only [Guard, hq] using hg
    subst hok
    cases ht
    refine ⟨fun _ _ _ => ⟨rfl, rfl, rfl⟩, fun j hj => setStatus_of_ne hj,
      fun _ => ⟨?_, fun x hx => ?_, h.parts⟩⟩
    · obtain ⟨status, hs⟩ := Option.ne_none_iff_exists'.mp hrow
      simp [setStatus, hs]
    · have hstamped := h.stamped
      rw [hq] at hstamped
      rw [h.saved, List.take_append_of_le_length (hstamped.1 k _ seen rfl)] at hx
      exact List.mem_of_mem_take hx
  | clearing =>
    cases ht
    refine ⟨fun a ha hak => ?_, fun _ _ => rfl, fun heq => by cases heq⟩
    have hpending : s.Pending k := .inr ((queued_cons hq).mpr (.inl rfl))
    rcases h.owned k hpending with hnone | hsome
    · rw [hnone] at ha
      cases ha
    · rw [hsome] at ha
      exact absurd (Option.some.inj ha).symm hak
  | reloading =>
    cases ht
    exact ⟨fun _ _ _ => ⟨rfl, rfl, rfl⟩, fun _ _ => rfl, fun heq => by cases heq⟩

theorem step_finalises (h : Inv s) {e : Event Id} (hg : s.Guard e t) (ht : s.step e = some t) :
    s.Finalises e t := by
  cases e with
  | work ok => exact work_finalises h hg ht
  | deliver m =>
    cases m with
    | status k phase =>
      intro a ha hak
      simp only [State.step, Option.ite_none_right_eq_some, Option.some.injEq] at ht
      obtain ⟨-, rfl⟩ := ht
      rcases onStatus_eq { s with inFlight := s.inFlight.erase (.status k phase) } k phase with
        ⟨heq, -⟩ | ⟨-, hnone | hsome⟩
      · rw [State.receive, heq]
        exact ⟨rfl, rfl, rfl, rfl⟩
      · cases hnone.symm.trans ha
      · exact absurd (Option.some.inj (ha.symm.trans hsome)) hak
    | segments k texts => trivial
    | partReady k part => trivial
  | createAndStartSession | resumeSession | stopActiveSession | mount | create | resolve
  | emitRunning | emitEnd | emitSegments | emitPart | leaveSlot => trivial

instance (s : State Id) (k : Id) : Decidable (s.Ending k) :=
  decidable_of_iff (∃ m ∈ s.inFlight, m = .status k .stopped ∨ m = .status k .error) (by
    simp only [Ending, and_or_left, exists_or, exists_eq_right])

instance (s : State Id) (k : Id) : Decidable (s.Started k) :=
  decidable_of_iff (s.creating = some (.started k) ∨
      ∃ x ∈ s.threads, x = .resumeMark k ∨ x = .resumeStarted k) (by
    simp only [Started, and_or_left, exists_or, exists_eq_right])

instance (s : State Id) (k : Id) (stage : Finalisation) : Decidable (s.Queued k stage) := by
  unfold Queued
  infer_instance

instance (s : State Id) (k : Id) : Decidable (s.Running k) := by
  unfold Running
  infer_instance

instance (s : State Id) : Decidable s.NonePending := by
  unfold NonePending
  infer_instance

instance (s : State Id) (k : Id) : Decidable (s.CanShow k) := by
  unfold CanShow
  infer_instance

instance (s : State Id) : Decidable s.Attached := by
  unfold Attached
  split <;> infer_instance

instance (s : State Id) (k : Id) : Decidable (s.Heard k) := by
  unfold Heard
  infer_instance

instance (s : State Id) (e : Event Id) (t : State Id) : Decidable (s.Guard e t) := by
  unfold Guard
  split
  · split <;> infer_instance
  · infer_instance
  · infer_instance
  · infer_instance
  · infer_instance
  · infer_instance
  · split <;> infer_instance
  · infer_instance
  · infer_instance

/-- In a run whose steps keep up with the backend every finalisation is of its own session only,
and once nothing is pending the store shows what runs and the rest is completed. -/
theorem ended_sessions_are_finalised (completed : Id → Bool) (live : Option Id)
    (es : List (Event Id)) (hg : Along step Guard (boot completed live) es) :
    Along step Finalises (boot completed live) es ∧
      ∀ t, exec step (boot completed live) es = some t → t.Quiescent → t.Settled := by
  have hstep : ∀ (s : State Id) e t, Inv s → s.Guard e t → s.step e = some t → Inv t :=
    fun _ _ _ h hg ht => step_inv h hg ht
  refine ⟨along_of_invariant hstep (fun _ _ _ h hg ht => step_finalises h hg ht)
    (inv_boot completed live) hg, fun t ht hq => ?_⟩
  exact (exec_invariant_along hstep (inv_boot completed live) hg ht).settled hq

/-- The awaits of a new session, from the click to the list. -/
def creationOf (k : Id) : List (Event Id) :=
  [.createAndStartSession k, .create .ok, .create .ok, .create .ok, .create .ok]

/-- The loop of the running session ends and the window hears of it. -/
def endingOf (k : Id) (phase : LivePhase) : List (Event Id) :=
  [.emitEnd (decide (phase = .error)), .deliver (.status k phase), .leaveSlot]

def finalisationOf : List (Event Id) := [.work true, .work true, .work true]

/-- A window that loads over a running session, two reports of its end, a new session, and the
resumption of that one. -/
def reloadedRun : List (Event ℕ) :=
  [.resolve .getStatus .ok, .resolve (.gotStatus .running (some 7)) .ok,
    .resolve (.recoverRead 7) .ok, .resolve (.recovered 7) .ok, .emitSegments [1, 2],
    .deliver (.segments 7 [1, 2]), .emitPart 0, .stopActiveSession, .resolve .stopLive .ok,
    .deliver (.partReady 7 0), .emitEnd true, .deliver (.status 7 .error)] ++
    endingOf 7 .error ++ List.replicate 4 (.work true) ++ finalisationOf ++ finalisationOf ++
    creationOf 8 ++ endingOf 8 .stopped ++ finalisationOf ++
    [.resumeSession 8, .resolve (.resumeGetSession 8) .ok, .resolve (.resumeRead 8) .ok,
      .resolve (.resumeStart 8) .ok, .resolve (.resumeMark 8) .ok, .resolve (.resumeStarted 8) .ok]

theorem ended_sessions_are_finalised_reloaded :
    Along step Finalises (boot (fun _ => false) (some 7)) reloadedRun ∧
      ∃ t, exec step (boot (fun _ => false) (some 7)) reloadedRun = some t ∧ t.Settled := by
  have h := ended_sessions_are_finalised (fun _ => false) (some 7) reloadedRun
    (by decide +kernel)
  obtain ⟨t, ht, hq⟩ : ∃ t, exec step (boot (fun _ => false) (some 7)) reloadedRun = some t ∧
      (t.creating = none ∧ t.threads = [] ∧ t.inFlight = [] ∧ t.segmentQueue = []) :=
    exec_evaluates (by decide +kernel)
  exact ⟨h.1, t, ht, h.2 t ht hq⟩

/-- The loop fails before the answer of its start reaches the window. -/
theorem early_error_leaves_session_recording :
    ¬ ∀ es : List (Event ℕ), Along step Finalises (boot (fun _ => false) none) es ∧
      ∀ t, exec step (boot (fun _ => false) none) es = some t → t.Quiescent → t.Settled := by
  intro h
  obtain ⟨t, ht, hq, hactive, hslot⟩ : ∃ t, exec step (boot (fun _ => false) none)
      [.resolve .getStatus .ok, .resolve (.gotStatus .stopped none) .ok, .createAndStartSession 1,
        .create .ok, .create .ok, .emitRunning, .emitEnd true, .deliver (.status 1 .running),
        .deliver (.status 1 .error), .create .ok, .create .ok, .leaveSlot] = some t ∧
      (t.creating = none ∧ t.threads = [] ∧ t.inFlight = [] ∧ t.segmentQueue = []) ∧
      t.activeSessionId = some 1 ∧ t.slot = .idle :=
    exec_evaluates (by decide +kernel)
  have hset := ((h _).2 t ht hq).active 1
  rw [hactive, hslot] at hset
  exact absurd (hset.mp rfl) (by simp)

end State

end Finalised

end YapStack.Sessions
