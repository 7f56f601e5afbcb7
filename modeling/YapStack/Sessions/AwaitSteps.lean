import YapStack.Sessions.LifecycleSteps

set_option linter.unusedSectionVars false

namespace YapStack.Sessions

variable {Id : Type} [DecidableEq Id]

namespace State

variable {s t : State Id}

/-- The creation comes to an await at which it has nothing of a session in its hands. -/
theorem Lifecycle.endCreation (h : Lifecycle s) {c : Creation Id} (hc : s.creating = some c)
    {c' : Option (Creation Id)} (hc' : ∀ k, c' ≠ some (.started k))
    (hstarted : ∀ k, c = .started k → s.activeSessionId = some k ∧ ¬s.Pending k)
    (hrow : ∀ k, c = .startLive k ∨ c = .deleteSession k → s.rows k = some .recording →
      c' = some (.startLive k) ∨ c' = some (.deleteSession k)) :
    Lifecycle { s with creating := c' } := by
  refine h.awaits rfl (fun k hk => hk.imp_left (fun hk => absurd hk (hc' k))) (fun k hk => ?_)
    (fun k _ hk => .inr (.inr hk)) (fun k hk hr => ?_)
  · rcases hk with hk | hk
    · rw [hc] at hk
      exact .inr (hstarted k (Option.some.inj hk))
    · exact .inl (.inr hk)
  · rw [hc, Option.some.injEq, Option.some.injEq] at hk
    exact hrow k hk hr

/-- The row of a session that nothing refers to is inserted. -/
theorem Lifecycle.insertRow (h : Lifecycle s) (hs : Sound s) {k : Id}
    (hc : s.creating = some (.createSession k)) :
    Lifecycle { s with rows := Function.update s.rows k (some .recording)
                       creating := some (.startLive k) } := by
  obtain ⟨-, hnew⟩ := hs.fresh _ hc (k, none) rfl
  have hstart : Lifecycle { s with creating := some (.startLive k) } :=
    h.endCreation hc (fun _ heq => by cases heq) (fun _ heq => by cases heq)
      (fun j hj => by simp at hj)
  refine ⟨hstart.shown, hstart.attached, hstart.owned, hstart.restarted, hstart.started,
    fun j hj => ?_, fun j hj hrec => ?_⟩
  · by_cases hjk : j = k
    · exact .inl (by rw [hjk])
    · exact hstart.recording j ((Function.update_of_ne hjk _ _).symm.trans hj)
  · by_cases hjk : j = k
    · obtain ⟨job, hjob, hfin⟩ := hj
      exact absurd (known_of_job (s := s) hjob (hjk ▸ hfin)) hnew
    · exact hstart.cleared j hj ((Function.update_of_ne hjk _ _).symm.trans hrec)

theorem Lifecycle.deleteRow (h : Lifecycle s) {k : Id} (hc : s.creating = some (.deleteSession k)) :
    Lifecycle { s with rows := Function.update s.rows k none, creating := none } := by
  have hrow : ∀ j, Function.update s.rows k none j = some .recording →
      j ≠ k ∧ s.rows j = some .recording := by
    intro j hj
    by_cases hjk : j = k
    · rw [hjk, Function.update_self] at hj
      cases hj
    · rw [Function.update_of_ne hjk] at hj
      exact ⟨hjk, hj⟩
  have hdel : Lifecycle { s with rows := Function.update s.rows k none } := by
    refine ⟨h.shown, h.attached, h.owned, h.restarted, h.started, fun j hj => ?_, fun j hj hrec => ?_⟩
    · exact h.recording j (hrow j hj).2
    · exact h.cleared j hj (hrow j hrec).2
  refine hdel.endCreation hc (fun _ heq => by cases heq) (fun _ heq => by cases heq) (fun j hj hr => ?_)
  simp only [reduceCtorEq, Creation.deleteSession.injEq, false_or] at hj
  exact absurd hj.symm (hrow j hr).1

theorem Lifecycle.setActive (h : Lifecycle s) {k : Id} (hshow : s.CanShow k) (hk : s.Started k) :
    Lifecycle (s.setActive k) := by
  have hlive := h.show hshow.1 hshow.2 (h.started k hk)
  exact hlive.frame (fun _ => Iff.rfl) rfl rfl rfl rfl (fun _ h => h) (fun _ _ _ => Iff.rfl)

theorem Lifecycle.createStep (h : Lifecycle s) (hs : Sound s) {c : Creation Id}
    (hc : s.creating = some c) {reply : Reply} (hg : s.Guard (.create reply) t)
    (ht : s.createStep c reply = some t) : Lifecycle t := by
  simp only [Guard, hc] at hg
  cases c with
  | createSession k =>
    cases reply with
    | ok =>
      cases ht
      exact h.insertRow hs hc
    | refused | throws =>
      cases ht
      exact h.endCreation hc (fun _ heq => by cases heq) (fun _ heq => by cases heq)
        (fun j hj => by simp at hj)
  | startLive k =>
    cases reply with
    | ok =>
      obtain ⟨s', hs', rfl⟩ := Option.map_eq_some_iff.mp ht
      obtain ⟨hidle, rfl⟩ := startLive_eq hs'
      refine h.start hidle rfl (.inl rfl) (fun j hj => ?_) (fun j hj => ?_)
      · rcases hj with hj | hj
        · cases hj
          exact .inr rfl
        · exact .inl (.inr hj)
      · rw [hc] at hj
        rcases hj with hj | hj
        · cases hj
          exact .inl rfl
        · cases hj
    | refused =>
      cases ht
      refine h.endCreation hc (fun _ heq => by cases heq) (fun _ heq => by cases heq) (fun j hj _ => ?_)
      simp only [Creation.startLive.injEq, reduceCtorEq, or_false] at hj
      exact .inr (by rw [hj])
    | throws => exact absurd rfl hg
  | deleteSession k =>
    subst hg
    cases ht
    exact h.deleteRow hc
  | started k =>
    cases ht
    have hstarted : s.Started k := .inl hc
    refine (h.setActive hg hstarted).endCreation hc (fun _ heq => by cases heq) (fun j hj => ?_)
      (fun j hj => by simp at hj)
    cases hj
    exact ⟨rfl, hg.1.pending k⟩
  | listSessions =>
    cases ht
    exact h.endCreation hc (fun _ heq => by cases heq) (fun _ heq => by cases heq)
      (fun j hj => by simp at hj)

def eraseThread (s : State Id) (thread : Thread Id) : State Id :=
  { s with threads := s.threads.erase thread }

theorem started_erase {k : Id} (h : s.Started k) (thread : Thread Id) :
    (s.eraseThread thread).Started k ∨ thread = .resumeMark k ∨ thread = .resumeStarted k := by
  rcases h with h | h | h
  · exact .inl (.inl h)
  · rcases mem_erase_or h thread with heq | hmem
    · exact .inr (.inl heq.symm)
    · exact .inl (.inr (.inl hmem))
  · rcases mem_erase_or h thread with heq | hmem
    · exact .inr (.inr heq.symm)
    · exact .inl (.inr (.inr hmem))

theorem attaching_erase {k : Id} (h : s.Attaching k) (thread : Thread Id) :
    (s.eraseThread thread).Attaching k ∨ thread = .recoverRead k ∨ thread = .recovered k ∨
      thread = .getStatus ∨ thread = .gotStatus .running (some k) := by
  rcases h with h | h | h | h
  · exact (mem_erase_or h thread).symm.imp .inl (fun heq => .inl heq.symm)
  · exact (mem_erase_or h thread).symm.imp (fun h => .inr (.inl h)) (fun heq => .inr (.inl heq.symm))
  · exact (mem_erase_or h thread).symm.imp (fun h => .inr (.inr (.inl h)))
      (fun heq => .inr (.inr (.inl heq.symm)))
  · exact (mem_erase_or h thread).symm.imp (fun h => .inr (.inr (.inr h)))
      (fun heq => .inr (.inr (.inr heq.symm)))

theorem started_of_erase {k : Id} {thread : Thread Id} (h : (s.eraseThread thread).Started k) :
    s.Started k :=
  h.imp_right (Or.imp List.mem_of_mem_erase List.mem_of_mem_erase)

/-- A thread is done, and what it was about is taken over. -/
theorem Lifecycle.eraseThread (h : Lifecycle s) {thread : Thread Id}
    (hstarted : ∀ k, thread = .resumeMark k ∨ thread = .resumeStarted k →
      (s.eraseThread thread).Started k ∨ (s.activeSessionId = some k ∧ ¬s.Pending k))
    (hattach : ∀ k, s.Running k → (thread = .recoverRead k ∨ thread = .recovered k ∨
      thread = .getStatus ∨ thread = .gotStatus .running (some k)) →
      s.Started k ∨ s.activeSessionId = some k ∨ (s.eraseThread thread).Attaching k) :
    Lifecycle (s.eraseThread thread) := by
  have hkeep : ∀ k, s.Started k → (s.eraseThread thread).Started k ∨
      (s.activeSessionId = some k ∧ ¬s.Pending k) := fun k hk =>
    (started_erase hk thread).elim .inl (hstarted k)
  refine h.awaits rfl (fun k hk => started_of_erase hk) hkeep (fun k hr ha => ?_) (fun k hc _ => hc)
  rcases attaching_erase ha thread with ha' | hthread
  · exact .inr (.inr ha')
  · rcases hattach k hr hthread with hs | hrest
    · exact (hkeep k hs).imp_right (fun h => .inl h.1)
    · exact .inr hrest

/-- A thread that none of the invariants is about is done. -/
theorem Lifecycle.eraseIdle (h : Lifecycle s) {thread : Thread Id}
    (hthread : (∃ k, thread = .resumeGetSession k ∨ thread = .resumeRead k ∨
      thread = .resumeStart k) ∨ thread = .stopLive) : Lifecycle (s.eraseThread thread) := by
  refine h.eraseThread (fun k hk => ?_) (fun k _ hk => ?_)
  · rcases hthread with ⟨j, rfl | rfl | rfl⟩ | rfl <;> rcases hk with hk | hk <;> cases hk
  · rcases hthread with ⟨j, rfl | rfl | rfl⟩ | rfl <;> rcases hk with hk | hk | hk | hk <;> cases hk

/-- A thread is spawned that has no accepted start in its hands. -/
theorem Lifecycle.spawn (h : Lifecycle s) {thread : Thread Id}
    (hthread : ∀ k, thread ≠ .resumeMark k ∧ thread ≠ .resumeStarted k) :
    Lifecycle (s.spawn thread) := by
  refine h.awaits rfl (fun k hk => ?_) (fun k hk => .inl ?_)
    (fun k _ ha => .inr (.inr ?_)) (fun k hc _ => hc)
  · rcases hk with hk | hk | hk
    · exact .inl hk
    · refine .inr (.inl ((List.mem_append.mp hk).resolve_right (fun hk => ?_)))
      exact (hthread k).1 (List.mem_singleton.mp hk).symm
    · refine .inr (.inr ((List.mem_append.mp hk).resolve_right (fun hk => ?_)))
      exact (hthread k).2 (List.mem_singleton.mp hk).symm
  · exact hk.imp_right (Or.imp (List.mem_append_left _) (List.mem_append_left _))
  · exact ha.imp (List.mem_append_left _) (Or.imp (List.mem_append_left _)
      (Or.imp (List.mem_append_left _) (List.mem_append_left _)))

/-- A thread with an accepted start in its hands goes on. -/
theorem Lifecycle.spawnStarted (h : Lifecycle s) {k : Id} (hk : s.Started k) :
    Lifecycle (s.spawn (.resumeStarted k)) := by
  refine h.awaits rfl (fun j hj => ?_) (fun j hj => .inl ?_)
    (fun j _ ha => .inr (.inr ?_)) (fun j hc _ => hc)
  · rcases hj with hj | hj | hj
    · exact .inl hj
    · rcases List.mem_append.mp hj with hj | hj
      · exact .inr (.inl hj)
      · simp at hj
    · rcases List.mem_append.mp hj with hj | hj
      · exact .inr (.inr hj)
      · simp only [List.mem_singleton, Thread.resumeStarted.injEq] at hj
        exact hj ▸ hk
  · exact hj.imp_right (Or.imp (List.mem_append_left _) (List.mem_append_left _))
  · exact ha.imp (List.mem_append_left _) (Or.imp (List.mem_append_left _)
      (Or.imp (List.mem_append_left _) (List.mem_append_left _)))

theorem Lifecycle.recover (h : Lifecycle s) (k : Id) : Lifecycle (s.recoverActiveSession k) := by
  unfold recoverActiveSession
  split
  · exact h
  · exact h.spawn (fun j => by simp)

/-- The store shows the session or is about to read it. -/
theorem recover_attaching (s : State Id) (k : Id) (thread : Thread Id)
    (hthread : thread ≠ .recoverRead k) :
    (s.recoverActiveSession k).activeSessionId = some k ∨
      ((s.recoverActiveSession k).eraseThread thread).Attaching k := by
  unfold recoverActiveSession
  split
  · rename_i hactive
    exact .inl hactive
  · refine .inr (.inl ((List.mem_erase_of_ne hthread.symm).mpr ?_))
    exact List.mem_append_right _ List.mem_cons_self

theorem Attached.cases (h : s.Attached) {k : Id} (hr : s.Running k) :
    s.Started k ∨ s.activeSessionId = some k := by
  rw [Attached, show s.slot = .running k from hr] at h
  exact h.symm

/-- The status that a read finds is about the session that runs. -/
theorem status_of_running {k : Id} (hr : s.Running k) :
    s.liveTranscriptionStatus = (.running, some k) := by
  rw [liveTranscriptionStatus, show s.slot = .running k from hr]
  rfl

theorem Lifecycle.resume_done (h : Lifecycle s) {k : Id} (hshow : s.CanShow k)
    (hmem : .resumeStarted k ∈ s.threads) :
    Lifecycle ({ s.setActive k with sessionStopping := false }.eraseThread (.resumeStarted k)) := by
  have hlive := h.setActive hshow (.inr (.inr hmem))
  have hstop : Lifecycle { s.setActive k with sessionStopping := false } :=
    hlive.frame (fun _ => Iff.rfl) rfl rfl rfl rfl (fun _ h => h) (fun _ _ _ => Iff.rfl)
  refine hstop.eraseThread (fun j hj => ?_) (fun j _ hj => by simp at hj)
  rcases hj with hj | hj
  · cases hj
  · cases hj
    exact .inr ⟨rfl, hshow.1.pending k⟩

theorem Lifecycle.resume_mark (h : Lifecycle s) {k : Id} (hmem : .resumeMark k ∈ s.threads) :
    Lifecycle ((s.spawn (.resumeStarted k)).eraseThread (.resumeMark k)) := by
  refine (h.spawnStarted (.inr (.inl hmem))).eraseThread (fun j hj => ?_) (fun j _ hj => by simp at hj)
  rcases hj with hj | hj
  · cases hj
    have hnew : .resumeStarted k ∈ (s.spawn (.resumeStarted k)).threads :=
      List.mem_append_right _ List.mem_cons_self
    exact .inl (.inr (.inr ((List.mem_erase_of_ne (by simp)).mpr hnew)))
  · cases hj

theorem Lifecycle.recovered (h : Lifecycle s) {k : Id}
    (hg : s.activeSessionId = some k ∨
      (s.activeSessionId = none ∧ s.NonePending ∧ (s.Running k ∨ s.Ending k))) :
    Lifecycle { s with activeSessionId := some k } := by
  rcases hg with hactive | ⟨hnone, hfree, hk⟩
  · exact hactive ▸ h
  · exact h.show hfree (.inl hnone) hk

theorem Lifecycle.status_done (h : Lifecycle s) {phase : LivePhase} {session : Option Id}
    (hg : phase ≠ .running → ∀ k ∈ s.activeSessionId, ¬s.Running k) :
    Lifecycle ((s.applyStatus phase session).eraseThread (.gotStatus phase session)) := by
  unfold State.applyStatus
  split
  · rename_i k
    have hset : Lifecycle (s.setLivePhase .running) := h.setLivePhase (fun hne => absurd rfl hne)
    refine (hset.recover k).eraseThread (fun j hj => by simp at hj) (fun j _ hj => ?_)
    rcases hj with hj | hj | hj | hj <;> cases hj
    exact .inr (recover_attaching _ k _ (fun heq => by cases heq))
  · rename_i hno
    refine (h.setLivePhase hg).eraseThread (fun j hj => by simp at hj) (fun j _ hj => ?_)
    rcases hj with hj | hj | hj | hj <;> cases hj
    exact absurd rfl (hno j rfl)

theorem Lifecycle.threadStep (h : Lifecycle s) {thread : Thread Id} {reply : Reply}
    (hmem : thread ∈ s.threads) (hg : s.Guard (.resolve thread reply) t)
    (ht : s.threadStep thread reply = some t) : Lifecycle (t.eraseThread thread) := by
  cases thread with
  | resumeGetSession k =>
    have hidle : ∀ u : State Id, Lifecycle u → Lifecycle (u.eraseThread (.resumeGetSession k)) :=
      fun _ hu => hu.eraseIdle (.inl ⟨k, .inl rfl⟩)
    cases reply with
    | ok =>
      simp only [State.threadStep] at ht
      split at ht <;> cases ht
      · exact hidle _ (h.spawn (fun j => by simp))
      · exact hidle s h
    | refused | throws =>
      cases ht
      exact hidle s h
  | resumeRead k =>
    have hidle : ∀ u : State Id, Lifecycle u → Lifecycle (u.eraseThread (.resumeRead k)) :=
      fun _ hu => hu.eraseIdle (.inl ⟨k, .inr (.inl rfl)⟩)
    cases reply <;> cases ht
    · exact hidle _ (h.spawn (fun j => by simp))
    · exact hidle s h
    · exact hidle s h
  | resumeStart k =>
    have hidle : ∀ u : State Id, Lifecycle u → Lifecycle (u.eraseThread (.resumeStart k)) :=
      fun _ hu => hu.eraseIdle (.inl ⟨k, .inr (.inr rfl)⟩)
    cases reply with
    | ok =>
      obtain ⟨s', hs', rfl⟩ := Option.map_eq_some_iff.mp ht
      obtain ⟨hslot, rfl⟩ := startLive_eq hs'
      refine hidle _ (h.start hslot rfl ?_ (fun j hj => ?_) (fun _ _ => .inr rfl))
      · exact .inr (.inl (List.mem_append_right _ List.mem_cons_self))
      · rcases hj with hj | hj | hj
        · exact .inl (.inl hj)
        · rcases List.mem_append.mp hj with hj | hj
          · exact .inl (.inr (.inl hj))
          · simp only [List.mem_singleton, Thread.resumeMark.injEq] at hj
            exact .inr hj
        · rcases List.mem_append.mp hj with hj | hj
          · exact .inl (.inr (.inr hj))
          · simp at hj
    | refused | throws =>
      cases ht
      exact hidle s h
  | resumeMark k =>
    cases reply with
    | ok =>
      cases ht
      exact (h.mark (.inr (.inl hmem))).resume_mark hmem
    | refused | throws =>
      cases ht
      exact h.resume_mark hmem
  | resumeStarted k =>
    cases ht
    exact h.resume_done hg hmem
  | recoverRead k =>
    cases reply with
    | ok =>
      cases ht
      refine (h.spawn (fun j => by simp)).eraseThread (fun j hj => by simp at hj) (fun j _ hj => ?_)
      rcases hj with hj | hj | hj | hj <;> cases hj
      have hnew : .recovered k ∈ (s.spawn (.recovered k)).threads :=
        List.mem_append_right _ List.mem_cons_self
      exact .inr (.inr (.inr (.inl ((List.mem_erase_of_ne (by simp)).mpr hnew))))
    | refused | throws =>
      cases ht
      refine h.eraseThread (fun j hj => by simp at hj) (fun j hr _ => ?_)
      exact ((hg.resolve_left (by simp)).cases hr).imp_right .inl
  | recovered k =>
    cases ht
    refine Lifecycle.eraseThread ?_ (fun j hj => by simp at hj) (fun j _ hj => ?_)
    · exact (h.recovered hg).frame (fun _ => Iff.rfl) rfl rfl rfl rfl (fun _ h => h)
        (fun _ _ _ => Iff.rfl)
    · rcases hj with hj | hj | hj | hj <;> cases hj
      exact .inr (.inl rfl)
  | getStatus =>
    cases reply with
    | ok =>
      cases ht
      refine (h.spawn (fun j => by simp)).eraseThread (fun j hj => by simp at hj) (fun j hr _ => ?_)
      have hstatus := status_of_running (s := s) hr
      have hnew : .gotStatus .running (some j) ∈ (s.spawn (.gotStatus s.liveTranscriptionStatus.1
          s.liveTranscriptionStatus.2)).threads := by
        rw [hstatus]
        exact List.mem_append_right _ List.mem_cons_self
      exact .inr (.inr (.inr (.inr (.inr ((List.mem_erase_of_ne (by simp)).mpr hnew)))))
    | refused | throws =>
      cases ht
      refine h.eraseThread (fun j hj => by simp at hj) (fun j hr _ => ?_)
      exact ((hg.resolve_left (by simp)).cases hr).imp_right .inl
  | gotStatus phase session =>
    cases ht
    exact h.status_done hg
  | stopLive =>
    have hidle : ∀ u : State Id, Lifecycle u → Lifecycle (u.eraseThread .stopLive) :=
      fun _ hu => hu.eraseIdle (.inr rfl)
    cases reply <;> cases ht
    · exact hidle s h
    · exact hidle s h
    · exact hidle _ (h.frame (fun _ => Iff.rfl) rfl rfl rfl rfl (fun _ h => h) (fun _ _ _ => Iff.rfl))

theorem step_lifecycle (hs : Sound s) (h : Lifecycle s) {e : Event Id} (hg : s.Guard e t)
    (ht : s.step e = some t) : Lifecycle t := by
  have hflight : ∀ u : State Id, ∀ m k, u.Ending k → (u.emit m).Ending k := fun _ _ _ hk =>
    hk.mono (List.subset_append_left _ _)
  cases e with
  | createAndStartSession k =>
    simp only [State.step, Option.ite_none_right_eq_some, Option.some.injEq] at ht
    obtain ⟨⟨hnone, -⟩, rfl⟩ := ht
    refine h.awaits rfl (fun j hj => ?_) (fun j hj => .inl ?_) (fun j _ ha => .inr (.inr ha))
      (fun j hj => ?_)
    · exact hj.imp_left (fun h => by cases h)
    · exact hj.imp_left (fun h => absurd (hnone.symm.trans h) (by simp))
    · rw [hnone] at hj
      simp at hj
  | resumeSession k =>
    simp only [State.step, Option.ite_none_left_eq_some, Option.some.injEq] at ht
    obtain ⟨-, rfl⟩ := ht
    exact h.spawn (fun j => by simp)
  | stopActiveSession =>
    simp only [State.step, Option.ite_none_left_eq_some, Option.some.injEq] at ht
    obtain ⟨-, rfl⟩ := ht
    refine Lifecycle.spawn ?_ (fun j => by simp)
    exact h.frame (fun _ => Iff.rfl) rfl rfl rfl rfl (fun _ h => h) (fun _ _ _ => Iff.rfl)
  | mount =>
    cases ht
    exact h.spawn (fun j => by simp)
  | create reply =>
    obtain ⟨c, hc, ht⟩ := Option.bind_eq_some_iff.mp ht
    exact h.createStep hs hc hg ht
  | resolve thread reply =>
    simp only [State.step, Option.ite_none_right_eq_some] at ht
    obtain ⟨hmem, ht⟩ := ht
    obtain ⟨u, hu, rfl⟩ := Option.map_eq_some_iff.mp ht
    exact h.threadStep hmem hg hu
  | work ok => exact h.workStep hg ht
  | emitRunning =>
    obtain ⟨k, -, rfl⟩ := Option.map_eq_some_iff.mp ht
    exact h.frame (fun _ => Iff.rfl) rfl rfl rfl rfl (hflight s _) (fun _ _ _ => Iff.rfl)
  | emitEnd failed =>
    obtain ⟨k, hk, rfl⟩ := Option.map_eq_some_iff.mp ht
    exact h.emitEnd hk failed
  | emitSegments texts =>
    obtain ⟨k, -, rfl⟩ := Option.map_eq_some_iff.mp ht
    exact h.frame (fun _ => Iff.rfl) rfl rfl rfl rfl (hflight s _) (fun _ _ _ => Iff.rfl)
  | emitPart part =>
    obtain ⟨k, -, rfl⟩ := Option.map_eq_some_iff.mp ht
    exact h.frame (fun _ => Iff.rfl) rfl rfl rfl rfl (hflight s _) (fun _ _ _ => Iff.rfl)
  | leaveSlot =>
    simp only [State.step] at ht
    split at ht
    · rename_i k hk
      cases ht
      exact h.leaveSlot hk
    · cases ht
  | deliver m =>
    simp only [State.step, Option.ite_none_right_eq_some, Option.some.injEq] at ht
    obtain ⟨-, rfl⟩ := ht
    exact h.deliver (t := s) hg

end State

end YapStack.Sessions
