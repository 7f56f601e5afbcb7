import YapStack.Sessions.Actions
import Mathlib.Data.List.Basic

set_option linter.unusedSectionVars false

namespace YapStack.Sessions

variable {Id : Type} [DecidableEq Id]

/-- The session whose row a thread has read or was told of. -/
def Thread.session : Thread Id → Option Id
  | .resumeGetSession _ | .getStatus | .stopLive => none
  | .resumeRead k | .resumeStart k | .resumeMark k | .resumeStarted k | .recoverRead k
  | .recovered k => some k
  | .gotStatus _ session => session

/-- The session and the stage of a finalisation. -/
def Job.finalises : Job Id → Option (Id × Finalisation)
  | .finalise k stage _ => some (k, stage)
  | _ => none

/-- The segments that a job has yet to insert. -/
def Job.saves : Job Id → List (Id × ℕ)
  | .insertSegments k todo => todo.map (fun n => (k, n))
  | _ => []

/-- The session whose start the backend has not accepted yet, and its row. -/
def Creation.unstarted : Creation Id → Option (Id × Option SessionStatus)
  | .createSession k => some (k, none)
  | .startLive k | .deleteSession k => some (k, some .recording)
  | .started _ | .listSessions => none

theorem Creation.unstarted_ne {c : Creation Id} {x : Id × Option SessionStatus}
    (h : c.unstarted = some x) : x.2 ≠ some .completed := by
  cases c <;> cases h <;> exact fun h => by cases h

theorem mem_erase_or {α : Type} [DecidableEq α] {x : α} {l : List α} (h : x ∈ l) (y : α) :
    x = y ∨ x ∈ l.erase y := by
  by_cases hxy : x = y
  · exact .inl hxy
  · exact .inr ((List.mem_erase_of_ne hxy).mpr h)

namespace State

/-- Something besides its creation refers to the session. -/
def Known (s : State Id) (k : Id) : Prop :=
  k ∈ s.ended ∨ s.slot.session = some k ∨ s.activeSessionId = some k ∨
    (∃ j ∈ s.segmentQueue, ∃ stage, j.finalises = some (k, stage)) ∨
    (∃ thread ∈ s.threads, thread.session = some k) ∨ s.creating = some (.started k)

/-- The rows agree with what refers to them. -/
structure Sound (s : State Id) : Prop where
  known : ∀ k, s.Known k → s.rows k ≠ none
  fresh : ∀ c ∈ s.creating, ∀ x ∈ c.unstarted, s.rows x.1 = x.2 ∧ ¬s.Known x.1

variable {s t : State Id}

/-- A step that makes no session known and changes the rows of known sessions only. -/
theorem Sound.keep (h : Sound s) (hknown : ∀ k, t.Known k → s.Known k)
    (hrows : ∀ k, s.rows k ≠ none → t.rows k ≠ none)
    (hsame : ∀ k, ¬s.Known k → t.rows k = s.rows k)
    (hcreating : ∀ c ∈ t.creating, c.unstarted = none ∨ s.creating = some c) : Sound t := by
  refine ⟨fun k hk => hrows k (h.known k (hknown k hk)), fun c hc x hx => ?_⟩
  rcases hcreating c hc with hnone | hold
  · rw [hnone] at hx
    cases hx
  · obtain ⟨hrow, hnew⟩ := h.fresh c hold x hx
    exact ⟨(hsame x.1 hnew).trans hrow, fun hk => hnew (hknown x.1 hk)⟩

/-- A step that leaves the rows and the creation alone. -/
theorem Sound.same (h : Sound s) (hrows : t.rows = s.rows) (hcreating : t.creating = s.creating)
    (hknown : ∀ k, t.Known k → s.Known k) : Sound t :=
  h.keep hknown (fun k hk => hrows ▸ hk) (fun k _ => by rw [hrows])
    (fun c hc => .inr (hcreating ▸ hc))

theorem known_spawn {thread : Thread Id} {k : Id} (h : (s.spawn thread).Known k) :
    s.Known k ∨ thread.session = some k := by
  simp only [Known, spawn, List.mem_append, List.mem_singleton] at h ⊢
  grind

theorem known_enqueue {j : Job Id} {k : Id} (h : (s.enqueueSegmentWork j).Known k) :
    s.Known k ∨ ∃ stage, j.finalises = some (k, stage) := by
  simp only [Known, enqueueSegmentWork, List.mem_append, List.mem_singleton] at h ⊢
  grind

theorem known_erase {thread : Thread Id} {k : Id}
    (h : Known { s with threads := s.threads.erase thread } k) : s.Known k := by
  rcases h with h | h | h | h | ⟨th, hth, h⟩ | h
  · exact .inl h
  · exact .inr (.inl h)
  · exact .inr (.inr (.inl h))
  · exact .inr (.inr (.inr (.inl h)))
  · exact .inr (.inr (.inr (.inr (.inl ⟨th, List.mem_of_mem_erase hth, h⟩))))
  · exact .inr (.inr (.inr (.inr (.inr h))))

theorem Sound.erase (h : Sound s) (thread : Thread Id) :
    Sound { s with threads := s.threads.erase thread } :=
  h.same rfl rfl (fun _ => known_erase)

theorem Sound.spawn (h : Sound s) {thread : Thread Id}
    (hthread : ∀ k, thread.session = some k → s.Known k) : Sound (s.spawn thread) :=
  h.same rfl rfl (fun k hk => (known_spawn hk).elim id (hthread k))

theorem setLivePhase_eq (s : State Id) (phase : LivePhase) :
    (s.setLivePhase phase = s.setPhase phase ∧ (phase = .running ∨ s.activeSessionId = none)) ∨
    ∃ a, s.activeSessionId = some a ∧ phase ≠ .running ∧
      s.setLivePhase phase =
        (s.setPhase phase).enqueueSegmentWork (.finalise a .completing s.delivered.length) := by
  unfold State.setLivePhase
  split
  · exact .inl ⟨rfl, .inl rfl⟩
  · rename_i ha
    exact .inl ⟨rfl, .inr ha⟩
  · rename_i a hphase ha
    exact .inr ⟨a, ha, fun h => hphase h, rfl⟩

theorem Sound.setLivePhase (h : Sound s) (phase : LivePhase) : Sound (s.setLivePhase phase) := by
  have hset : Sound (s.setPhase phase) := h.same rfl rfl (fun _ hk => hk)
  rcases setLivePhase_eq s phase with ⟨heq, -⟩ | ⟨a, ha, -, heq⟩
  · rw [heq]
    exact hset
  · rw [heq]
    refine hset.same rfl rfl (fun k hk => (known_enqueue hk).elim id ?_)
    rintro ⟨stage, hj⟩
    cases hj
    exact .inr (.inr (.inl ha))

theorem onStatus_eq (s : State Id) (session : Id) (phase : LivePhase) :
    (s.onStatus session phase = s ∧ ∃ a, s.activeSessionId = some a ∧ a ≠ session) ∨
    (s.onStatus session phase = s.setLivePhase phase ∧
      (s.activeSessionId = none ∨ s.activeSessionId = some session)) := by
  unfold State.onStatus
  cases ha : s.activeSessionId with
  | none => exact .inr ⟨by simp, .inl rfl⟩
  | some a =>
    by_cases hk : a = session
    · exact .inr ⟨by simp [hk], .inr (by rw [hk])⟩
    · exact .inl ⟨by simp [hk], a, rfl, hk⟩

theorem Sound.onStatus (h : Sound s) (session : Id) (phase : LivePhase) :
    Sound (s.onStatus session phase) := by
  rcases onStatus_eq s session phase with ⟨heq, -⟩ | ⟨heq, -⟩
  · rw [heq]
    exact h
  · rw [heq]
    exact h.setLivePhase phase

theorem Sound.receive (h : Sound s) (m : Message Id) : Sound (s.receive m) := by
  cases m with
  | status session phase => exact h.onStatus session phase
  | segments session texts =>
    refine h.same rfl rfl (fun k hk => (known_enqueue hk).elim id ?_)
    rintro ⟨stage, hj⟩
    cases hj
  | partReady session part =>
    refine h.same rfl rfl (fun k hk => (known_enqueue hk).elim id ?_)
    rintro ⟨stage, hj⟩
    cases hj

/-- What the job at the head of the queue can do. -/
theorem workStep_cases {ok : Bool} (ht : s.workStep ok s.segmentQueue = some t) :
    ∃ j q, s.segmentQueue = j :: q ∧
      ((t = { s with segmentQueue := q } ∧ (∀ x ∈ j.finalises, x.2 = .reloading) ∧
          (ok = true → j.saves = [])) ∨
        (∃ k n todo, j = .insertSegments k (n :: todo) ∧
          t = { s with segments := s.segments ++ [(k, n)]
                       segmentQueue := .insertSegments k todo :: q }) ∨
        (∃ k seen, j = .finalise k .completing seen ∧
          t = { if ok then s.setStatus k .completed else s with
            segmentQueue := .finalise k .clearing seen :: q }) ∨
        ∃ k seen, j = .finalise k .clearing seen ∧
          t = { s.clearSession with segmentQueue := .finalise k .reloading seen :: q }) := by
  cases hq : s.segmentQueue with
  | nil =>
    rw [hq] at ht
    cases ht
  | cons j q =>
    rw [hq] at ht
    refine ⟨j, q, rfl, ?_⟩
    cases j with
    | insertSegments k todo =>
      cases todo with
      | nil =>
        cases ht
        exact .inl ⟨rfl, by simp [Job.finalises], fun _ => rfl⟩
      | cons n todo =>
        cases ok with
        | false =>
          cases ht
          exact .inl ⟨rfl, by simp [Job.finalises], by simp⟩
        | true =>
          simp only [State.workStep, Bool.not_true, Bool.false_eq_true, ↓reduceIte] at ht
          split at ht <;> cases ht
          exact .inr (.inl ⟨k, n, todo, rfl, rfl⟩)
    | refreshParts k =>
      cases ht
      exact .inl ⟨rfl, by simp [Job.finalises], fun _ => rfl⟩
    | finalise k stage seen =>
      cases stage with
      | completing =>
        cases ht
        exact .inr (.inr (.inl ⟨k, seen, rfl, rfl⟩))
      | clearing =>
        cases ht
        exact .inr (.inr (.inr ⟨k, seen, rfl, rfl⟩))
      | reloading =>
        cases ht
        exact .inl ⟨rfl, by simp [Job.finalises], fun _ => rfl⟩

theorem setStatus_ne_none {k j : Id} {status : SessionStatus} (h : s.rows j ≠ none) :
    (s.setStatus k status).rows j ≠ none := by
  dsimp only [setStatus]
  by_cases hj : j = k
  · subst hj
    rw [Function.update_self]
    exact fun hnone => h (Option.map_eq_none_iff.mp hnone)
  · rwa [Function.update_of_ne hj]

theorem setStatus_of_ne {k j : Id} {status : SessionStatus} (h : j ≠ k) :
    (s.setStatus k status).rows j = s.rows j :=
  Function.update_of_ne h _ _

theorem Sound.setStatus (h : Sound s) {k : Id} (hk : s.Known k) (status : SessionStatus) :
    Sound (s.setStatus k status) :=
  h.keep (fun _ hj => hj) (fun _ hj => setStatus_ne_none hj)
    (fun j hj => setStatus_of_ne (fun heq => hj (heq ▸ hk))) (fun _ hc => .inr hc)

theorem known_of_job {j : Job Id} {k : Id} {stage : Finalisation} (hj : j ∈ s.segmentQueue)
    (hk : j.finalises = some (k, stage)) : s.Known k :=
  .inr (.inr (.inr (.inl ⟨j, hj, stage, hk⟩)))

/-- The head of the queue gives way to jobs of its own session. -/
theorem known_queue {j : Job Id} {q q' : List (Job Id)} (hq : s.segmentQueue = j :: q)
    (hq' : ∀ j' ∈ q', j' ∈ q ∨ ∀ x ∈ j'.finalises, ∃ stage, j.finalises = some (x.1, stage)) {k : Id}
    (h : Known { s with segmentQueue := q' } k) : s.Known k := by
  rcases h with h | h | h | ⟨j', hj', stage, hk⟩ | h | h
  · exact .inl h
  · exact .inr (.inl h)
  · exact .inr (.inr (.inl h))
  · rcases hq' j' hj' with hold | hnew
    · exact known_of_job (hq ▸ List.mem_cons_of_mem j hold) hk
    · obtain ⟨stage', hk'⟩ := hnew (k, stage) hk
      exact known_of_job (hq ▸ List.mem_cons_self) hk'
  · exact .inr (.inr (.inr (.inr (.inl h))))
  · exact .inr (.inr (.inr (.inr (.inr h))))

theorem Sound.queue (h : Sound s) {j j' : Job Id} {q : List (Job Id)} (hq : s.segmentQueue = j :: q)
    (hj : ∀ x ∈ j'.finalises, ∃ stage, j.finalises = some (x.1, stage)) :
    Sound { s with segmentQueue := j' :: q } := by
  refine h.same rfl rfl (fun _ => known_queue hq (fun j'' hj'' => ?_))
  exact (List.mem_cons.mp hj'').elim (fun heq => .inr (heq ▸ hj)) .inl

theorem Sound.clearSession (h : Sound s) : Sound s.clearSession := by
  refine h.same rfl rfl (fun k hk => ?_)
  rcases hk with hk | hk | hk | hk
  · exact .inl hk
  · exact .inr (.inl hk)
  · cases hk
  · exact .inr (.inr (.inr hk))

theorem Sound.workStep (h : Sound s) {ok : Bool} (ht : s.workStep ok s.segmentQueue = some t) :
    Sound t := by
  obtain ⟨j, q, hq, ⟨rfl, -, -⟩ | ⟨k, n, todo, rfl, rfl⟩ | ⟨k, seen, rfl, rfl⟩ |
    ⟨k, seen, rfl, rfl⟩⟩ := workStep_cases ht
  · exact h.same rfl rfl (fun _ => known_queue hq (fun j' hj' => .inl hj'))
  · exact (h.queue hq (by simp [Job.finalises])).same rfl rfl (fun _ hk => hk)
  · have hk : s.Known k := known_of_job (hq ▸ List.mem_cons_self) rfl
    cases ok with
    | false => exact h.queue hq (by simp [Job.finalises])
    | true => exact (h.setStatus hk .completed).queue hq (by simp [Job.finalises])
  · exact h.clearSession.queue hq (by simp [Job.finalises])

theorem startLive_eq {k : Id} (ht : s.startLiveTranscription k = some t) :
    s.slot = .idle ∧ t = { s with slot := .running k } := by
  simp only [startLiveTranscription, Option.ite_none_right_eq_some, Option.some.injEq] at ht
  exact ⟨ht.1, ht.2.symm⟩

theorem known_startLive {k j : Id} (h : Known { s with slot := .running k } j) :
    s.Known j ∨ j = k := by
  rcases h with h | h | h
  · exact .inl (.inl h)
  · exact .inr (Option.some.inj h).symm
  · exact .inl (.inr (.inr h))

theorem known_setActive {a : Option Id} {k : Id} (h : Known { s with activeSessionId := a } k) :
    s.Known k ∨ a = some k := by
  rcases h with h | h | h | h
  · exact .inl (.inl h)
  · exact .inl (.inr (.inl h))
  · exact .inr h
  · exact .inl (.inr (.inr (.inr h)))

theorem known_creating {c : Option (Creation Id)} {k : Id} (h : Known { s with creating := c } k) :
    s.Known k ∨ c = some (.started k) := by
  rcases h with h | h | h | h | h | h
  · exact .inl (.inl h)
  · exact .inl (.inr (.inl h))
  · exact .inl (.inr (.inr (.inl h)))
  · exact .inl (.inr (.inr (.inr (.inl h))))
  · exact .inl (.inr (.inr (.inr (.inr (.inl h)))))
  · exact .inr h

/-- The session of a resumption that the backend may accept is known already. -/
theorem Sound.startLive (h : Sound s) {k : Id} (hk : s.Known k) :
    Sound { s with slot := .running k } :=
  h.same rfl rfl (fun _ hj => (known_startLive hj).elim id (fun heq => heq ▸ hk))

theorem Sound.setActive (h : Sound s) {k : Id} (hk : s.Known k) :
    Sound { s with activeSessionId := some k } :=
  h.same rfl rfl (fun _ hj =>
    (known_setActive hj).elim id (fun heq => Option.some.inj heq ▸ hk))

theorem Sound.createStep (h : Sound s) {c : Creation Id} (hc : s.creating = some c) {reply : Reply}
    (ht : s.createStep c reply = some t) : Sound t := by
  have hend : Sound { s with creating := none } :=
    h.keep (fun k hk => (known_creating hk).resolve_right (fun h => by cases h)) (fun _ hk => hk)
      (fun _ _ => rfl) (fun _ hc => by cases hc)
  cases c with
  | createSession k =>
    obtain ⟨hrow, hnew⟩ := h.fresh _ hc (k, none) rfl
    cases reply with
    | ok =>
      cases ht
      refine ⟨fun j hj => ?_, fun c hc x hx => ?_⟩
      · have hold : s.Known j := (known_creating hj).resolve_right (fun h => by cases h)
        dsimp only
        rw [Function.update_of_ne (fun heq : j = k => hnew (heq ▸ hold))]
        exact h.known j hold
      · cases hc
        cases hx
        exact ⟨Function.update_self .., fun hj =>
          hnew ((known_creating hj).resolve_right (fun h => by cases h))⟩
    | refused | throws =>
      cases ht
      exact hend
  | startLive k =>
    obtain ⟨hrow, hnew⟩ := h.fresh _ hc (k, some .recording) rfl
    cases reply with
    | ok =>
      obtain ⟨s', hs', rfl⟩ := Option.map_eq_some_iff.mp ht
      obtain ⟨-, rfl⟩ := startLive_eq hs'
      refine ⟨fun j hj => ?_, fun c hc x hx => ?_⟩
      · rcases known_creating hj with hold | heq
        · rcases known_startLive hold with hold | rfl
          · exact h.known j hold
          · exact hrow ▸ (by simp)
        · cases heq
          exact hrow ▸ (by simp)
      · cases hc
        cases hx
    | refused =>
      cases ht
      refine ⟨fun j hj => h.known j ?_, fun c hc x hx => ?_⟩
      · exact (known_creating hj).resolve_right (fun h => by cases h)
      · cases hc
        cases hx
        exact ⟨hrow, fun hj => hnew ((known_creating hj).resolve_right (fun h => by cases h))⟩
    | throws =>
      cases ht
      exact hend
  | deleteSession k =>
    obtain ⟨-, hnew⟩ := h.fresh _ hc (k, some .recording) rfl
    cases reply with
    | ok =>
      cases ht
      refine ⟨fun j hj => ?_, fun c hc => by cases hc⟩
      have hold : s.Known j := (known_creating hj).resolve_right (fun h => by cases h)
      dsimp only
      rw [Function.update_of_ne (fun heq : j = k => hnew (heq ▸ hold))]
      exact h.known j hold
    | refused | throws =>
      cases ht
      exact hend
  | started k =>
    cases ht
    refine (h.setActive (.inr (.inr (.inr (.inr (.inr hc)))))).keep (fun j hj => ?_)
      (fun _ hk => hk) (fun _ _ => rfl) (fun c hc => .inl (by cases hc; rfl))
    exact (known_creating hj).resolve_right (fun h => by cases h)
  | listSessions =>
    cases ht
    exact hend

theorem Sound.recover (h : Sound s) {k : Id} (hk : s.Known k) : Sound (s.recoverActiveSession k) := by
  unfold recoverActiveSession
  split
  · exact h
  · exact h.spawn (fun j hj => Option.some.inj hj ▸ hk)

theorem Sound.applyStatus (h : Sound s) {phase : LivePhase} {session : Option Id}
    (hk : ∀ k, session = some k → s.Known k) : Sound (s.applyStatus phase session) := by
  unfold State.applyStatus
  split
  · rename_i k
    exact (h.setLivePhase _).recover (hk k rfl)
  · exact h.setLivePhase _

theorem Sound.threadStep (h : Sound s) {thread : Thread Id}
    (hk : ∀ k, thread.session = some k → s.Known k) {reply : Reply}
    (ht : s.threadStep thread reply = some t) : Sound t := by
  cases thread with
  | resumeGetSession k =>
    cases reply with
    | ok =>
      simp only [State.threadStep] at ht
      split at ht
      · rename_i hrow
        cases ht
        refine ⟨fun j hj => ?_, fun c hc x hx => ?_⟩
        · rcases known_spawn hj with hold | heq
          · exact h.known j hold
          · cases heq
            exact hrow ▸ (by simp)
        · obtain ⟨hx', hnew⟩ := h.fresh c hc x hx
          refine ⟨hx', fun hj => (known_spawn hj).elim hnew (fun heq => ?_)⟩
          cases heq
          exact Creation.unstarted_ne hx (hx'.symm.trans hrow)
      · cases ht
        exact h
    | refused | throws =>
      cases ht
      exact h
  | resumeRead k =>
    cases reply <;> cases ht
    · exact h.spawn hk
    · exact h
    · exact h
  | resumeStart k =>
    cases reply with
    | ok =>
      obtain ⟨s', hs', rfl⟩ := Option.map_eq_some_iff.mp ht
      obtain ⟨-, rfl⟩ := startLive_eq hs'
      refine (h.startLive (hk k rfl)).spawn (fun j hj => ?_)
      cases hj
      exact .inr (.inl rfl)
    | refused | throws =>
      cases ht
      exact h
  | resumeMark k =>
    have hmark := h.setStatus (hk k rfl) .recording
    cases reply <;> cases ht
    · exact hmark.spawn (fun j hj => hk j hj)
    · exact h.spawn (fun j hj => hk j hj)
    · exact h.spawn (fun j hj => hk j hj)
  | resumeStarted k =>
    cases ht
    exact (h.setActive (hk k rfl)).same rfl rfl (fun _ hj => hj)
  | recoverRead k =>
    cases reply <;> cases ht
    · exact h.spawn (fun j hj => hk j hj)
    · exact h
    · exact h
  | recovered k =>
    cases ht
    exact (h.setActive (hk k rfl)).same rfl rfl (fun _ hj => hj)
  | getStatus =>
    cases reply with
    | ok =>
      cases ht
      refine h.spawn (fun k hj => ?_)
      simp only [liveTranscriptionStatus, Thread.session] at hj
      split at hj
      · cases hj
      · rename_i k' hslot
        cases hj
        exact .inr (.inl hslot)
    | refused | throws =>
      cases ht
      exact h
  | gotStatus phase session =>
    cases ht
    exact h.applyStatus hk
  | stopLive =>
    cases reply <;> cases ht
    · exact h
    · exact h
    · exact h.same rfl rfl (fun _ hj => hj)

theorem Sound.emit (h : Sound s) (m : Message Id) : Sound (s.emit m) :=
  h.same rfl rfl (fun _ hk => hk)

theorem Sound.emitEnd (h : Sound s) {k : Id} (hk : s.slot.session = some k) (failed : Bool) :
    Sound (s.emitEnd k failed) := by
  refine h.same rfl rfl (fun j hj => ?_)
  rcases hj with hj | hj | hj
  · rcases List.mem_cons.mp hj with rfl | hold
    · exact .inr (.inl hk)
    · exact .inl hold
  · exact .inr (.inl (hk.trans hj))
  · exact .inr (.inr hj)

theorem Sound.leaveSlot (h : Sound s) : Sound { s with slot := .idle } := by
  refine h.same rfl rfl (fun j hj => ?_)
  rcases hj with hj | hj | hj
  · exact .inl hj
  · cases hj
  · exact .inr (.inr hj)

theorem Sound.createAndStart (h : Sound s) {k : Id} (hrow : s.rows k = none) :
    Sound { s with creating := some (.createSession k) } := by
  refine ⟨fun j hj => h.known j ?_, fun c hc x hx => ?_⟩
  · exact (known_creating hj).resolve_right (fun h => by cases h)
  · cases hc
    cases hx
    refine ⟨hrow, fun hj => h.known k ?_ hrow⟩
    exact (known_creating hj).resolve_right (fun h => by cases h)

theorem sound_boot (completed : Id → Bool) (live : Option Id) : Sound (boot completed live) := by
  refine ⟨fun k hk => ?_, fun c hc => by cases hc⟩
  rcases hk with hk | hk | hk | ⟨j, hj, -⟩ | ⟨thread, hthread, hk⟩ | hk
  · cases hk
  · cases live with
    | none => cases hk
    | some j =>
      cases hk
      simp [boot]
  · cases hk
  · cases hj
  · rw [List.mem_singleton.mp hthread] at hk
    cases hk
  · cases hk

theorem step_sound (h : Sound s) {e : Event Id} (ht : s.step e = some t) : Sound t := by
  cases e with
  | createAndStartSession k =>
    simp only [State.step, Option.ite_none_right_eq_some, Option.some.injEq] at ht
    obtain ⟨⟨-, hrow⟩, rfl⟩ := ht
    exact h.createAndStart hrow
  | resumeSession k =>
    simp only [State.step, Option.ite_none_left_eq_some, Option.some.injEq] at ht
    obtain ⟨-, rfl⟩ := ht
    exact h.spawn (fun _ hj => by cases hj)
  | stopActiveSession =>
    simp only [State.step, Option.ite_none_left_eq_some, Option.some.injEq] at ht
    obtain ⟨-, rfl⟩ := ht
    have hspawn : Sound (s.spawn .stopLive) := h.spawn (fun _ hj => by cases hj)
    exact hspawn.same rfl rfl (fun _ hj => hj)
  | mount =>
    cases ht
    exact h.spawn (fun _ hj => by cases hj)
  | create reply =>
    obtain ⟨c, hc, ht⟩ := Option.bind_eq_some_iff.mp ht
    exact h.createStep hc ht
  | resolve thread reply =>
    simp only [State.step, Option.ite_none_right_eq_some] at ht
    obtain ⟨hmem, ht⟩ := ht
    obtain ⟨u, hu, rfl⟩ := Option.map_eq_some_iff.mp ht
    refine (h.threadStep (fun k hk => ?_) hu).erase thread
    exact .inr (.inr (.inr (.inr (.inl ⟨thread, hmem, hk⟩))))
  | work ok => exact h.workStep ht
  | emitRunning =>
    obtain ⟨k, -, rfl⟩ := Option.map_eq_some_iff.mp ht
    exact h.emit _
  | emitEnd failed =>
    obtain ⟨k, hk, rfl⟩ := Option.map_eq_some_iff.mp ht
    exact h.emitEnd hk failed
  | emitSegments texts =>
    obtain ⟨k, -, rfl⟩ := Option.map_eq_some_iff.mp ht
    exact h.emit _
  | emitPart part =>
    obtain ⟨k, -, rfl⟩ := Option.map_eq_some_iff.mp ht
    exact h.same rfl rfl (fun _ hk => hk)
  | leaveSlot =>
    simp only [State.step] at ht
    split at ht <;> cases ht
    exact h.leaveSlot
  | deliver m =>
    simp only [State.step, Option.ite_none_right_eq_some, Option.some.injEq] at ht
    obtain ⟨-, rfl⟩ := ht
    exact (h.same (t := { s with inFlight := s.inFlight.erase m }) rfl rfl (fun _ hk => hk)).receive m

end State

end YapStack.Sessions
