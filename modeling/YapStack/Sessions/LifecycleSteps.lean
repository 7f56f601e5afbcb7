import YapStack.Sessions.Lifecycle

set_option linter.unusedSectionVars false

namespace YapStack.Sessions

variable {Id : Type} [DecidableEq Id]

namespace State

variable {s t : State Id}

theorem finalises_finalise (k : Id) (stage : Finalisation) (seen : ℕ) :
    (Job.finalise k stage seen).finalises = some (k, stage) :=
  rfl

theorem queued_cons {j : Job Id} {q : List (Job Id)} (hq : s.segmentQueue = j :: q) {k : Id}
    {stage : Finalisation} :
    s.Queued k stage ↔ j.finalises = some (k, stage) ∨ ∃ j' ∈ q, j'.finalises = some (k, stage) := by
  simp only [Queued, hq, List.mem_cons, exists_eq_or_imp]

/-- The head of the queue is done with the sessions. -/
theorem Lifecycle.next (h : Lifecycle s) {j : Job Id} {q : List (Job Id)} (hq : s.segmentQueue = j :: q)
    (hj : ∀ x ∈ j.finalises, x.2 = .reloading) : Lifecycle { s with segmentQueue := q } := by
  refine h.frame (fun _ => Iff.rfl) rfl rfl rfl rfl (fun _ h => h) (fun k stage hstage => ?_)
  rw [queued_cons hq]
  refine ⟨.inr, fun hk => hk.resolve_left (fun heq => ?_)⟩
  exact hstage (hj (k, stage) heq)

theorem Lifecycle.insert (h : Lifecycle s) {k : Id} {n : ℕ} {todo : List ℕ} {q : List (Job Id)}
    (hq : s.segmentQueue = .insertSegments k (n :: todo) :: q) :
    Lifecycle { s with segments := s.segments ++ [(k, n)]
                       segmentQueue := .insertSegments k todo :: q } := by
  refine h.frame (fun _ => Iff.rfl) rfl rfl rfl rfl (fun _ h => h) (fun k stage hstage => ?_)
  rw [queued_cons hq, queued_cons rfl]
  rfl

theorem setStatus_recording {k j : Id} (h : (s.setStatus k .completed).rows j = some .recording) :
    j ≠ k ∧ s.rows j = some .recording := by
  by_cases hj : j = k
  · subst hj
    simp [setStatus] at h
  · exact ⟨hj, setStatus_of_ne hj ▸ h⟩

theorem Lifecycle.complete (h : Lifecycle s) {k : Id} {seen : ℕ} {q : List (Job Id)}
    (hq : s.segmentQueue = .finalise k .completing seen :: q) :
    Lifecycle { s.setStatus k .completed with
      segmentQueue := .finalise k .clearing seen :: q } := by
  obtain ⟨t, ht⟩ : ∃ t, t = { s.setStatus k .completed with
      segmentQueue := .finalise k .clearing seen :: q } := ⟨_, rfl⟩
  have hqt : t.segmentQueue = .finalise k .clearing seen :: q := by rw [ht]
  have hpending : ∀ j, t.Pending j ↔ s.Pending j := by
    intro j
    simp only [Pending, queued_cons hq, queued_cons hqt, finalises_finalise, Option.some.injEq,
      Prod.mk.injEq, reduceCtorEq, and_true, and_false, false_or]
    exact or_left_comm.trans or_assoc.symm
  have hcompleting : ∀ j, j ≠ k → s.Queued j .completing → t.Queued j .completing := by
    intro j hj hs
    rw [queued_cons hqt]
    rw [queued_cons hq] at hs
    refine .inr (hs.resolve_left (fun heq => hj ?_))
    cases heq
    rfl
  have hclearing : ∀ j, j ≠ k → t.Queued j .clearing → s.Queued j .clearing := by
    intro j hj hs
    rw [queued_cons hq]
    rw [queued_cons hqt] at hs
    refine .inr (hs.resolve_left (fun heq => hj ?_))
    cases heq
    rfl
  rw [← ht]
  have hrunning : ∀ j, t.Running j ↔ s.Running j := fun j => by rw [ht]; rfl
  have hending : ∀ j, t.Ending j ↔ s.Ending j := fun j => by rw [ht]; rfl
  have hstarted : ∀ j, t.Started j ↔ s.Started j := fun j => by rw [ht]; rfl
  have hattaching : ∀ j, t.Attaching j ↔ s.Attaching j := fun j => by rw [ht]; rfl
  have hactive : t.activeSessionId = s.activeSessionId := by rw [ht]; rfl
  have hcreating : t.creating = s.creating := by rw [ht]; rfl
  have hrows : ∀ j, t.rows j = some .recording → j ≠ k ∧ s.rows j = some .recording := by
    intro j hj
    rw [ht] at hj
    exact setStatus_recording hj
  refine ⟨?_, ?_, ?_, ?_, ?_, fun j hj => ?_, fun j hj hrec => ?_⟩
  · simpa only [hactive, hrunning, hending, hpending] using h.shown
  · simpa only [hactive, hrunning, hstarted, hattaching] using h.attached
  · simpa only [hactive, hpending] using h.owned
  · simpa only [hpending, hrunning, hstarted] using h.restarted
  · simpa only [hstarted, hrunning, hending] using h.started
  · obtain ⟨hjk, hrec⟩ := hrows j hj
    rw [hcreating, hactive, hending, hrunning]
    exact (h.recording j hrec).imp_right (Or.imp_right (Or.imp_right (Or.imp_right
      (Or.imp_right (hcompleting j hjk)))))
  · obtain ⟨hjk, hrec⟩ := hrows j hrec
    rw [hending, hrunning]
    exact (h.cleared j (hclearing j hjk hj) hrec).imp_right (Or.imp_right (hcompleting j hjk))

theorem Lifecycle.clear (h : Lifecycle s) {k : Id} {seen : ℕ} {q : List (Job Id)}
    (hq : s.segmentQueue = .finalise k .clearing seen :: q) :
    Lifecycle { s.clearSession with segmentQueue := .finalise k .reloading seen :: q } := by
  obtain ⟨t, ht⟩ : ∃ t, t = { s.clearSession with
      segmentQueue := .finalise k .reloading seen :: q } := ⟨_, rfl⟩
  have hqt : t.segmentQueue = .finalise k .reloading seen :: q := by rw [ht]
  have hk : s.Queued k .clearing := (queued_cons hq).mpr (.inl rfl)
  have hback : ∀ j stage, t.Queued j stage → stage ≠ .reloading → s.Queued j stage := by
    intro j stage hs hstage
    rw [queued_cons hqt] at hs
    rw [queued_cons hq]
    refine .inr (hs.resolve_left (fun heq => hstage ?_))
    cases heq
    rfl
  have hcompleting : ∀ j, s.Queued j .completing → t.Queued j .completing := by
    intro j hs
    rw [queued_cons hqt]
    rw [queued_cons hq] at hs
    exact .inr (hs.resolve_left (fun heq => by cases heq))
  have hpending : ∀ j, t.Pending j → s.Pending j := fun j =>
    Or.imp (fun h => hback j _ h (by simp)) (fun h => hback j _ h (by simp))
  have hmine : ∀ j, s.activeSessionId = some j → j = k := by
    intro j hj
    rcases h.owned k (.inr hk) with hnone | hsome
    · rw [hnone] at hj
      cases hj
    · exact Option.some.inj (hj.symm.trans hsome)
  rw [← ht]
  have hactive : t.activeSessionId = none := by rw [ht]; rfl
  have hrunning : ∀ j, t.Running j ↔ s.Running j := fun j => by rw [ht]; rfl
  have hending : ∀ j, t.Ending j ↔ s.Ending j := fun j => by rw [ht]; rfl
  have hstarted : ∀ j, t.Started j ↔ s.Started j := fun j => by rw [ht]; rfl
  have hattaching : ∀ j, t.Attaching j ↔ s.Attaching j := fun j => by rw [ht]; rfl
  have hcreating : t.creating = s.creating := by rw [ht]; rfl
  have hrows : t.rows = s.rows := by rw [ht]; rfl
  refine ⟨fun j hj => ?_, fun j hj => ?_, fun j _ => .inl hactive, fun j hj hrun => ?_, ?_,
    fun j hj => ?_, fun j hj hrec => ?_⟩
  · rw [hactive] at hj
    cases hj
  · rw [hrunning] at hj
    rw [hstarted, hattaching]
    rcases h.attached j hj with hs | ha | ha
    · exact .inl hs
    · have hjk := hmine j ha
      subst hjk
      exact .inl (h.restarted j (.inr hk) hj)
    · exact .inr (.inr ha)
  · exact (hstarted j).mpr (h.restarted j (hpending j hj) ((hrunning j).mp hrun))
  · simpa only [hstarted, hrunning, hending] using h.started
  · rw [hrows] at hj
    rw [hcreating, hending, hrunning]
    rcases h.recording j hj with hc | hc | ha | hrest
    · exact .inl hc
    · exact .inr (.inl hc)
    · have hjk := hmine j ha
      subst hjk
      exact .inr (.inr (.inr ((h.cleared j hk hj).imp_right (Or.imp_right (hcompleting j)))))
    · exact .inr (.inr (.inr (hrest.imp_right (Or.imp_right (hcompleting j)))))
  · rw [hrows] at hrec
    rw [hending, hrunning]
    exact (h.cleared j (hback j _ hj (by simp)) hrec).imp_right (Or.imp_right (hcompleting j))

theorem Lifecycle.workStep (h : Lifecycle s) {ok : Bool} (hg : s.Guard (.work ok) t)
    (ht : s.workStep ok s.segmentQueue = some t) : Lifecycle t := by
  obtain ⟨j, q, hq, ⟨rfl, hj, -⟩ | ⟨k, n, todo, rfl, rfl⟩ | ⟨k, seen, rfl, rfl⟩ |
    ⟨k, seen, rfl, rfl⟩⟩ := workStep_cases ht
  · exact h.next hq hj
  · exact h.insert hq
  · have hok : ok = true := by simpa only [Guard, hq] using hg
    subst hok
    exact h.complete hq
  · exact h.clear hq

/-- The backend takes a session into its idle slot. -/
theorem Lifecycle.start (h : Lifecycle s) {k : Id} (hidle : s.slot = .idle)
    (ht : t = { s with slot := .running k, creating := t.creating, threads := t.threads })
    (hk : t.Started k) (hback : ∀ j, t.Started j → s.Started j ∨ j = k)
    (hcreating : ∀ j, s.creating = some (.startLive j) ∨ s.creating = some (.deleteSession j) →
      j = k ∨ t.creating = s.creating) : Lifecycle t := by
  have hrunning : ∀ j, ¬s.Running j := fun j hj => by cases hidle.symm.trans hj
  have hrunning' : ∀ j, t.Running j ↔ k = j := fun j => by rw [ht]; simp [Running]
  have hending : ∀ j, t.Ending j ↔ s.Ending j := fun j => by rw [ht]; rfl
  have hqueued : ∀ j stage, t.Queued j stage ↔ s.Queued j stage := fun j stage => by rw [ht]; rfl
  have hactive : t.activeSessionId = s.activeSessionId := by rw [ht]
  have hrows : t.rows = s.rows := by rw [ht]
  refine ⟨fun j hj => ?_, fun j hj => ?_, fun j hj => ?_, fun j _ hj => ?_, fun j hj => ?_,
    fun j hj => ?_, fun j hj hrec => ?_⟩
  · rw [hactive] at hj
    rw [Pending, hending, hqueued, hqueued]
    exact .inr ((h.shown j hj).resolve_left (hrunning j))
  · exact .inl ((hrunning' j).mp hj ▸ hk)
  · rw [hactive]
    rw [Pending, hqueued, hqueued] at hj
    exact h.owned j hj
  · exact (hrunning' j).mp hj ▸ hk
  · rw [hrunning', hending]
    rcases hback j hj with hold | rfl
    · exact .inr ((h.started j hold).resolve_left (hrunning j))
    · exact .inl rfl
  · rw [hrows] at hj
    rw [hrunning', hending, hactive, hqueued]
    by_cases hjk : j = k
    · exact .inr (.inr (.inr (.inr (.inl hjk.symm))))
    · rcases h.recording j hj with hc | hc | ha | he | hrun | hq
      · exact .inl (((hcreating j (.inl hc)).resolve_left hjk).trans hc)
      · exact .inr (.inl (((hcreating j (.inr hc)).resolve_left hjk).trans hc))
      · exact .inr (.inr (.inl ha))
      · exact .inr (.inr (.inr (.inl he)))
      · exact absurd hrun (hrunning j)
      · exact .inr (.inr (.inr (.inr (.inr hq))))
  · rw [hrows] at hrec
    rw [hqueued] at hj
    rw [hrunning', hending, hqueued]
    rcases h.cleared j hj hrec with he | hrun | hq
    · exact .inl he
    · exact absurd hrun (hrunning j)
    · exact .inr (.inr hq)

theorem Lifecycle.emitEnd (h : Lifecycle s) {k : Id} (hk : s.slot.session = some k) (failed : Bool) :
    Lifecycle (s.emitEnd k failed) := by
  have hnew : (s.emitEnd k failed).Ending k := by
    cases failed
    · exact .inl (List.mem_append_right _ List.mem_cons_self)
    · exact .inr (List.mem_append_right _ List.mem_cons_self)
  have hend : ∀ j, s.Running j ∨ s.Ending j → (s.emitEnd k failed).Ending j := by
    rintro j (hj | hj)
    · rw [Running] at hj
      rw [hj] at hk
      cases hk
      exact hnew
    · exact Ending.mono hj (List.subset_append_left _ _)
  refine ⟨fun j hj => ?_, fun j hj => (by cases hj), h.owned, fun j _ hj => (by cases hj),
    fun j hj => ?_,
    fun j hj => ?_, fun j hj hrec => ?_⟩
  · rcases h.shown j hj with hrun | he | hp
    · exact .inr (.inl (hend j (.inl hrun)))
    · exact .inr (.inl (hend j (.inr he)))
    · exact .inr (.inr hp)
  · exact .inr (hend j (h.started j hj))
  · rcases h.recording j hj with hc | hc | ha | he | hrun | hq
    · exact .inl hc
    · exact .inr (.inl hc)
    · exact .inr (.inr (.inl ha))
    · exact .inr (.inr (.inr (.inl (hend j (.inr he)))))
    · exact .inr (.inr (.inr (.inl (hend j (.inl hrun)))))
    · exact .inr (.inr (.inr (.inr (.inr hq))))
  · rcases h.cleared j hj hrec with he | hrun | hq
    · exact .inl (hend j (.inr he))
    · exact .inl (hend j (.inl hrun))
    · exact .inr (.inr hq)

theorem Lifecycle.leaveSlot (h : Lifecycle s) {k : Id} (hk : s.slot = .closing k) :
    Lifecycle { s with slot := .idle } := by
  refine h.frame (fun j => ?_) rfl rfl rfl rfl (fun _ h => h) (fun _ _ _ => Iff.rfl)
  rw [Running, Running, hk]
  simp

/-- The row of a session that the backend has accepted goes back to `recording`. -/
theorem Lifecycle.mark (h : Lifecycle s) {k : Id} (hk : s.Started k) :
    Lifecycle (s.setStatus k .recording) := by
  refine ⟨h.shown, h.attached, h.owned, h.restarted, h.started, fun j hj => ?_, fun j hj hrec => ?_⟩
  · by_cases hjk : j = k
    · subst hjk
      exact .inr (.inr (.inr ((h.started j hk).symm.imp_right .inl)))
    · rw [setStatus_of_ne hjk] at hj
      exact h.recording j hj
  · by_cases hjk : j = k
    · subst hjk
      exact (h.started j hk).symm.imp_right .inl
    · rw [setStatus_of_ne hjk] at hrec
      exact h.cleared j hj hrec

theorem Lifecycle.setPhase (h : Lifecycle s) (phase : LivePhase) : Lifecycle (s.setPhase phase) :=
  h.frame (fun _ => Iff.rfl) rfl rfl rfl rfl (fun _ h => h) (fun _ _ _ => Iff.rfl)

theorem Lifecycle.setLivePhase (h : Lifecycle s) {phase : LivePhase}
    (hg : phase ≠ .running → ∀ k ∈ s.activeSessionId, ¬s.Running k) :
    Lifecycle (s.setLivePhase phase) := by
  rcases setLivePhase_eq s phase with ⟨heq, -⟩ | ⟨a, ha, hphase, heq⟩
  · exact heq ▸ h.setPhase phase
  · exact heq ▸ (h.setPhase phase).finalise ha (hg hphase a ha) _

/-- A job that finalises nothing is queued. -/
theorem Lifecycle.enqueue (h : Lifecycle s) {j : Job Id} (hj : j.finalises = none) :
    Lifecycle (s.enqueueSegmentWork j) := by
  refine h.frame (fun _ => Iff.rfl) rfl rfl rfl rfl (fun _ h => h) (fun k stage _ => ?_)
  simp [Queued, enqueueSegmentWork, or_and_right, exists_or, hj]

theorem ending_erase {m : Message Id} {k : Id} (h : s.Ending k) (h1 : .status k .stopped ≠ m)
    (h2 : .status k .error ≠ m) : Ending { s with inFlight := s.inFlight.erase m } k :=
  h.imp (fun h => (List.mem_erase_of_ne h1).mpr h) (fun h => (List.mem_erase_of_ne h2).mpr h)

theorem ending_erase_of_ne {k j : Id} {phase : LivePhase} (h : s.Ending j) (hj : j ≠ k) :
    Ending { s with inFlight := s.inFlight.erase (.status k phase) } j :=
  ending_erase h (fun heq => hj (by cases heq; rfl)) (fun heq => hj (by cases heq; rfl))

/-- A message that ends no session is taken off the way. -/
theorem Lifecycle.take (h : Lifecycle s) {m : Message Id} (h1 : ∀ k, .status k .stopped ≠ m)
    (h2 : ∀ k, .status k .error ≠ m) :
    Lifecycle { s with inFlight := s.inFlight.erase m } :=
  h.frame (fun _ => Iff.rfl) rfl rfl rfl rfl (fun k hk => ending_erase hk (h1 k) (h2 k))
    (fun _ _ _ => Iff.rfl)

theorem Heard.cases {k : Id} (h : s.Heard k) :
    (s.Running k ∧ s.activeSessionId ≠ some k) ∨ (¬s.Running k ∧ (s.Ending k ∨ (¬s.Started k ∧
      (s.activeSessionId = some k ∨ s.rows k ≠ some .recording ∨ s.Queued k .completing)))) := by
  unfold Heard at h
  split at h
  · rename_i hrun
    exact .inl ⟨hrun, h⟩
  · rename_i hrun
    exact .inr ⟨hrun, h⟩

theorem Lifecycle.deliver_end (h : Lifecycle s) {k : Id} {phase : LivePhase} (hphase : phase ≠ .running)
    (hg : Heard { s with inFlight := s.inFlight.erase (.status k phase) } k) :
    Lifecycle ({ s with inFlight := s.inFlight.erase (.status k phase) }.onStatus k phase) := by
  obtain ⟨u, hu⟩ : ∃ u, u = { s with inFlight := s.inFlight.erase (.status k phase) } := ⟨_, rfl⟩
  have hflight : ∀ j, j ≠ k → s.Ending j → u.Ending j := fun j hj he => by
    rw [hu]
    exact ending_erase_of_ne he hj
  -- Nothing of `k` is left for the report to finalise.
  have hquiet : s.activeSessionId ≠ some k → Lifecycle u := by
    intro hne
    refine h.hear (by rw [hu]) hflight ?_
    subst hu
    rcases hg.cases with ⟨hrun, -⟩ | ⟨-, he | ⟨hno, ha | hr | hq⟩⟩
    · exact .inl hrun
    · exact .inr (.inl he)
    · exact absurd ha hne
    · exact .inr (.inr ⟨hno, fun ha => absurd ha hne, fun hr' => absurd hr' hr⟩)
    · exact .inr (.inr ⟨hno, fun ha => absurd ha hne, fun _ => hq⟩)
  rw [← hu]
  have hactive : u.activeSessionId = s.activeSessionId := by rw [hu]
  rcases onStatus_eq u k phase with ⟨heq, a, ha, hak⟩ | ⟨heq, hnone | ha⟩
  · rw [heq]
    refine hquiet (fun hk => hak ?_)
    rw [hactive, hk] at ha
    exact (Option.some.inj ha).symm
  · rw [heq]
    refine (hquiet (fun hk => ?_)).setLivePhase (fun _ a ha => ?_)
    · rw [hactive, hk] at hnone
      cases hnone
    · rw [hnone] at ha
      cases ha
  · rw [heq]
    rcases setLivePhase_eq u phase with ⟨-, hrun | hnone⟩ | ⟨a, ha', -, heq'⟩
    · exact absurd hrun hphase
    · rw [hnone] at ha
      cases ha
    · rw [heq']
      have hka : k = a := Option.some.inj (ha.symm.trans ha')
      subst hka
      rw [hactive] at ha
      rw [← hu] at hg
      rcases hg.cases with ⟨-, hne⟩ | ⟨hrun, hrest⟩
      · exact absurd ha' hne
      · have hrun' : ¬s.Running k := by
          rw [hu] at hrun
          exact hrun
        have hfin := (h.setPhase phase).finalise ha hrun' s.delivered.length
        refine hfin.hear (k := k) ?_ (fun j hj he => ?_) ?_
        · rw [hu]
          rfl
        · exact hflight j hj he
        · have hq : (s.setPhase phase).enqueueSegmentWork
              (.finalise k .completing s.delivered.length) |>.Queued k .completing :=
            ⟨_, List.mem_append_right _ List.mem_cons_self, rfl⟩
          rcases hrest with he | ⟨hno, -⟩
          · exact .inr (.inl he)
          · refine .inr (.inr ⟨fun hs => hno ?_, fun _ => .inl hq, fun _ => hq⟩)
            rw [hu]
            exact hs

theorem Lifecycle.onStatus_running (h : Lifecycle s) (k : Id) :
    Lifecycle (s.onStatus k .running) := by
  rcases onStatus_eq s k .running with ⟨heq, -⟩ | ⟨heq, -⟩
  · rw [heq]
    exact h
  · rw [heq]
    exact h.setLivePhase (fun hne => absurd rfl hne)

theorem Lifecycle.deliver (h : Lifecycle s) {m : Message Id} (hg : s.Guard (.deliver m) t) :
    Lifecycle ({ s with inFlight := s.inFlight.erase m }.receive m) := by
  cases m with
  | status k phase =>
    by_cases hphase : phase = .running
    · subst hphase
      have htake : Lifecycle { s with inFlight := s.inFlight.erase (.status k .running) } :=
        h.take (fun _ heq => by cases heq) (fun _ heq => by cases heq)
      exact htake.onStatus_running k
    · exact h.deliver_end hphase (hg hphase)
  | segments k texts =>
    have htake : Lifecycle { s with inFlight := s.inFlight.erase (.segments k texts) } :=
      h.take (fun _ heq => by cases heq) (fun _ heq => by cases heq)
    refine Lifecycle.enqueue ?_ rfl
    exact htake.frame (fun _ => Iff.rfl) rfl rfl rfl rfl (fun _ h => h) (fun _ _ _ => Iff.rfl)
  | partReady k part =>
    have htake : Lifecycle { s with inFlight := s.inFlight.erase (.partReady k part) } :=
      h.take (fun _ heq => by cases heq) (fun _ heq => by cases heq)
    refine Lifecycle.enqueue ?_ rfl
    exact htake.frame (fun _ => Iff.rfl) rfl rfl rfl rfl (fun _ h => h) (fun _ _ _ => Iff.rfl)

end State

end YapStack.Sessions
