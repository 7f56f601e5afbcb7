import YapStack.Sessions.Known

set_option linter.unusedSectionVars false

namespace YapStack.Sessions

variable {Id : Type} [DecidableEq Id]

namespace State

variable (s : State Id)

def Running (k : Id) : Prop := s.slot = .running k

/-- The report that the session ended is on its way. -/
def Ending (k : Id) : Prop :=
  .status k .stopped ∈ s.inFlight ∨ .status k .error ∈ s.inFlight

/-- The backend has accepted a start of the session that the store does not show yet. -/
def Started (k : Id) : Prop :=
  s.creating = some (.started k) ∨ .resumeMark k ∈ s.threads ∨ .resumeStarted k ∈ s.threads

/-- The store is about to learn from the backend's status that the session runs. -/
def Attaching (k : Id) : Prop :=
  .recoverRead k ∈ s.threads ∨ .recovered k ∈ s.threads ∨ .getStatus ∈ s.threads ∨
    .gotStatus .running (some k) ∈ s.threads

/-- A finalisation of the session is queued at the stage. -/
def Queued (k : Id) (stage : Finalisation) : Prop :=
  ∃ j ∈ s.segmentQueue, j.finalises = some (k, stage)

def Pending (k : Id) : Prop := s.Queued k .completing ∨ s.Queued k .clearing

/-- No finalisation has yet to clear the active session. -/
def NonePending : Prop := ∀ j ∈ s.segmentQueue, ∀ x ∈ j.finalises, x.2 = .reloading

/-- Showing the session takes no other session's place and is not undone by a finalisation. -/
def CanShow (k : Id) : Prop :=
  s.NonePending ∧ (s.activeSessionId = none ∨ s.activeSessionId = some k)

/-- If the slot runs a session the store shows it or is about to. -/
def Attached : Prop :=
  match s.slot with
  | .running k => s.activeSessionId = some k ∨ s.Started k
  | _ => True

/-- A report that `k` ended finds what it has to find. While the backend runs `k` again the store
must not show `k`. Otherwise another report of `k` is to come, or no accepted start of `k` waits to
be shown and `k` is active or has nothing left to finalise. -/
def Heard (k : Id) : Prop :=
  if s.slot = .running k then s.activeSessionId ≠ some k
  else s.Ending k ∨ (¬s.Started k ∧
    (s.activeSessionId = some k ∨ s.rows k ≠ some .recording ∨ s.Queued k .completing))

/-- The steps at which the store keeps up with the backend. -/
def Guard (e : Event Id) (_t : State Id) : Prop :=
  match e with
  | .create reply =>
    match s.creating with
    | some (.startLive _) => reply ≠ .throws
    | some (.deleteSession _) => reply = .ok
    | some (.started k) => s.CanShow k
    | _ => True
  | .resolve (.resumeStarted k) _ => s.CanShow k
  | .resolve (.recoverRead _) reply => reply = .ok ∨ s.Attached
  | .resolve (.recovered k) _ =>
    s.activeSessionId = some k ∨
      (s.activeSessionId = none ∧ s.NonePending ∧ (s.Running k ∨ s.Ending k))
  | .resolve .getStatus reply => reply = .ok ∨ s.Attached
  | .resolve (.gotStatus phase _) _ => phase ≠ .running → ∀ k ∈ s.activeSessionId, ¬s.Running k
  | .work ok =>
    match s.segmentQueue with
    | .insertSegments _ (_ :: _) :: _ | .finalise _ .completing _ :: _ => ok = true
    | _ => True
  | .deliver (.status k phase) =>
    phase ≠ .running → Heard { s with inFlight := s.inFlight.erase (.status k phase) } k
  | _ => True

/-- What the store shows, what the rows say and what the backend runs agree up to what is on
its way. -/
structure Lifecycle : Prop where
  shown : ∀ k, s.activeSessionId = some k → s.Running k ∨ s.Ending k ∨ s.Pending k
  attached : ∀ k, s.Running k → s.Started k ∨ s.activeSessionId = some k ∨ s.Attaching k
  owned : ∀ k, s.Pending k → s.activeSessionId = none ∨ s.activeSessionId = some k
  restarted : ∀ k, s.Pending k → s.Running k → s.Started k
  started : ∀ k, s.Started k → s.Running k ∨ s.Ending k
  recording : ∀ k, s.rows k = some .recording →
    s.creating = some (.startLive k) ∨ s.creating = some (.deleteSession k) ∨
      s.activeSessionId = some k ∨ s.Ending k ∨ s.Running k ∨ s.Queued k .completing
  cleared : ∀ k, s.Queued k .clearing → s.rows k = some .recording →
    s.Ending k ∨ s.Running k ∨ s.Queued k .completing

variable {s} {t : State Id}

theorem Ending.mono {k : Id} (h : s.Ending k) (hsub : s.inFlight ⊆ t.inFlight) : t.Ending k :=
  h.imp (fun h => hsub h) (fun h => hsub h)

theorem NonePending.pending (h : s.NonePending) (k : Id) : ¬s.Pending k := by
  rintro (⟨j, hj, hk⟩ | ⟨j, hj, hk⟩)
  · cases h j hj _ hk
  · cases h j hj _ hk

/-- A step that leaves what runs, the active session, the rows and the finalisations alone. -/
theorem Lifecycle.frame (h : Lifecycle s) (hrunning : ∀ k, t.Running k ↔ s.Running k)
    (hactive : t.activeSessionId = s.activeSessionId) (hrows : t.rows = s.rows)
    (hcreating : t.creating = s.creating) (hthreads : t.threads = s.threads)
    (hflight : ∀ k, s.Ending k → t.Ending k)
    (hqueued : ∀ k stage, stage ≠ .reloading → (t.Queued k stage ↔ s.Queued k stage)) :
    Lifecycle t := by
  have hpending : ∀ k, t.Pending k ↔ s.Pending k := fun k =>
    or_congr (hqueued k _ (by simp)) (hqueued k _ (by simp))
  have hstarted : ∀ k, t.Started k ↔ s.Started k := fun k => by
    rw [Started, Started, hcreating, hthreads]
  have hattaching : ∀ k, t.Attaching k ↔ s.Attaching k := fun k => by
    rw [Attaching, Attaching, hthreads]
  refine ⟨fun k hk => ?_, fun k hk => ?_, fun k hk => ?_, fun k hk hr => ?_, fun k hk => ?_,
    fun k hk => ?_, fun k hk hr => ?_⟩
  · rw [hactive] at hk
    rw [hrunning, hpending]
    exact (h.shown k hk).imp_right (Or.imp_left (hflight k))
  · rw [hactive, hstarted, hattaching]
    exact h.attached k ((hrunning k).mp hk)
  · rw [hactive]
    exact h.owned k ((hpending k).mp hk)
  · exact (hstarted k).mpr (h.restarted k ((hpending k).mp hk) ((hrunning k).mp hr))
  · rw [hrunning]
    exact (h.started k ((hstarted k).mp hk)).imp_right (hflight k)
  · rw [hrows] at hk
    rw [hcreating, hactive, hrunning, hqueued k _ (by simp)]
    exact (h.recording k hk).imp_right (Or.imp_right (Or.imp_right (Or.imp_left (hflight k))))
  · rw [hrows] at hr
    rw [hrunning, hqueued k _ (by simp)]
    exact (h.cleared k ((hqueued k _ (by simp)).mp hk) hr).imp_left (hflight k)

/-- Awaits that come back. -/
theorem Lifecycle.awaits (h : Lifecycle s)
    (ht : t = { s with creating := t.creating, threads := t.threads })
    (hstarted : ∀ k, t.Started k → s.Started k)
    (hkeep : ∀ k, s.Started k → t.Started k ∨ (s.activeSessionId = some k ∧ ¬s.Pending k))
    (hattach : ∀ k, s.Running k → s.Attaching k →
      t.Started k ∨ s.activeSessionId = some k ∨ t.Attaching k)
    (hcreating : ∀ k, s.creating = some (.startLive k) ∨ s.creating = some (.deleteSession k) →
      s.rows k = some .recording →
        t.creating = some (.startLive k) ∨ t.creating = some (.deleteSession k)) :
    Lifecycle t := by
  obtain ⟨c, threads, rfl⟩ : ∃ c threads, t = { s with creating := c, threads := threads } :=
    ⟨_, _, ht⟩
  refine ⟨h.shown, fun k hk => ?_, h.owned, fun k hk hr => ?_, fun k hk => ?_, fun k hk => ?_,
    h.cleared⟩
  · rcases h.attached k hk with hs | ha | ha
    · exact (hkeep k hs).imp_right (fun h => .inl h.1)
    · exact .inr (.inl ha)
    · exact hattach k hk ha
  · exact (hkeep k (h.restarted k hk hr)).resolve_right (fun hno => hno.2 hk)
  · exact h.started k (hstarted k hk)
  · rcases h.recording k hk with hc | hc | hrest
    · exact (hcreating k (.inl hc) hk).imp_right .inl
    · exact (hcreating k (.inr hc) hk).imp_right .inl
    · exact .inr (.inr hrest)

theorem Lifecycle.show (h : Lifecycle s) {k : Id} (hfree : s.NonePending)
    (hactive : s.activeSessionId = none ∨ s.activeSessionId = some k)
    (hk : s.Running k ∨ s.Ending k) : Lifecycle { s with activeSessionId := some k } := by
  have hsame : ∀ j, s.activeSessionId = some j → k = j := by
    intro j hj
    rcases hactive with hnone | hsome
    · rw [hnone] at hj
      cases hj
    · exact Option.some.inj (hsome.symm.trans hj)
  refine ⟨fun j hj => ?_, fun j hj => ?_, fun j hj => absurd hj (hfree.pending j),
    fun j hj => absurd hj (hfree.pending j), h.started, fun j hj => ?_, fun j hj => ?_⟩
  · cases hj
    exact hk.imp_right .inl
  · exact (h.attached j hj).imp_right (Or.imp_left (fun ha => congrArg some (hsame j ha)))
  · rcases h.recording j hj with hc | hc | ha | hrest
    · exact .inl hc
    · exact .inr (.inl hc)
    · exact .inr (.inr (.inl (congrArg some (hsame j ha))))
    · exact .inr (.inr (.inr hrest))
  · exact absurd (.inr hj) (hfree.pending j)

/-- The end of the active session is queued behind what is queued. -/
theorem Lifecycle.finalise (h : Lifecycle s) {a : Id} (ha : s.activeSessionId = some a)
    (hr : ¬s.Running a) (n : ℕ) :
    Lifecycle (s.enqueueSegmentWork (.finalise a .completing n)) := by
  have hqueued : ∀ k stage, s.Queued k stage →
      (s.enqueueSegmentWork (.finalise a .completing n)).Queued k stage := by
    rintro k stage ⟨j, hj, hk⟩
    exact ⟨j, List.mem_append_left _ hj, hk⟩
  have hback : ∀ k stage, (s.enqueueSegmentWork (.finalise a .completing n)).Queued k stage →
      s.Queued k stage ∨ (k = a ∧ stage = .completing) := by
    rintro k stage ⟨j, hj, hk⟩
    rcases List.mem_append.mp hj with hold | hnew
    · exact .inl ⟨j, hold, hk⟩
    · rw [List.mem_singleton.mp hnew] at hk
      cases hk
      exact .inr ⟨rfl, rfl⟩
  have hpending : ∀ k, (s.enqueueSegmentWork (.finalise a .completing n)).Pending k →
      s.Pending k ∨ k = a := by
    rintro k (hk | hk)
    · exact (hback k _ hk).imp .inl And.left
    · exact (hback k _ hk).imp .inr And.left
  refine ⟨fun k hk => ?_, h.attached, fun k hk => ?_, fun k hk hrun => ?_, h.started,
    fun k hk => ?_, fun k hk hrec => ?_⟩
  · exact (h.shown k hk).imp_right (Or.imp_right (Or.imp (hqueued k _) (hqueued k _)))
  · rcases hpending k hk with hold | rfl
    · exact h.owned k hold
    · exact .inr ha
  · rcases hpending k hk with hold | rfl
    · exact h.restarted k hold hrun
    · exact absurd hrun hr
  · exact (h.recording k hk).imp_right (Or.imp_right (Or.imp_right (Or.imp_right
      (Or.imp_right (hqueued k _)))))
  · rcases hback k _ hk with hold | ⟨-, hstage⟩
    · exact (h.cleared k hold hrec).imp_right (Or.imp_right (hqueued k _))
    · cases hstage

/-- A report that `k` ended leaves the way to the window. -/
theorem Lifecycle.hear (h : Lifecycle s) {k : Id} (ht : t = { s with inFlight := t.inFlight })
    (hflight : ∀ j, j ≠ k → s.Ending j → t.Ending j)
    (hk : s.Running k ∨ t.Ending k ∨ (¬s.Started k ∧ (s.activeSessionId = some k → s.Pending k) ∧
      (s.rows k = some .recording → s.Queued k .completing))) : Lifecycle t := by
  have hend : ∀ j, s.Ending j → (s.Running j ∨ t.Ending j) ∨ (j = k ∧ ¬s.Started k ∧
      (s.activeSessionId = some k → s.Pending k) ∧
      (s.rows k = some .recording → s.Queued k .completing)) := by
    intro j hj
    by_cases hjk : j = k
    · subst hjk
      rcases hk with hk | hk | hk
      · exact .inl (.inl hk)
      · exact .inl (.inr hk)
      · exact .inr ⟨rfl, hk⟩
    · exact .inl (.inr (hflight j hjk hj))
  obtain ⟨inFlight, rfl⟩ : ∃ inFlight, t = { s with inFlight := inFlight } := ⟨_, ht⟩
  refine ⟨fun j hj => ?_, h.attached, h.owned, h.restarted, fun j hj => ?_, fun j hj => ?_,
    fun j hj hrec => ?_⟩
  · rcases h.shown j hj with hrun | he | hp
    · exact .inl hrun
    · rcases hend j he with (hrun | he) | ⟨rfl, -, hp, -⟩
      · exact .inl hrun
      · exact .inr (.inl he)
      · exact .inr (.inr (hp hj))
    · exact .inr (.inr hp)
  · rcases h.started j hj with hrun | he
    · exact .inl hrun
    · rcases hend j he with hrun | ⟨rfl, hno, -⟩
      · exact hrun
      · exact absurd hj hno
  · rcases h.recording j hj with hc | hc | ha | he | hrest
    · exact .inl hc
    · exact .inr (.inl hc)
    · exact .inr (.inr (.inl ha))
    · rcases hend j he with (hrun | he) | ⟨rfl, -, -, hq⟩
      · exact .inr (.inr (.inr (.inr (.inl hrun))))
      · exact .inr (.inr (.inr (.inl he)))
      · exact .inr (.inr (.inr (.inr (.inr (hq hj)))))
    · exact .inr (.inr (.inr (.inr hrest)))
  · rcases h.cleared j hj hrec with he | hrest
    · rcases hend j he with (hrun | he) | ⟨rfl, -, -, hq⟩
      · exact .inr (.inl hrun)
      · exact .inl he
      · exact .inr (.inr (hq hrec))
    · exact .inr hrest

end State

end YapStack.Sessions
