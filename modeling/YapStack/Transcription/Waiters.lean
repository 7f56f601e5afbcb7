import YapStack.Transcription.Routing

set_option linter.unusedSectionVars false

namespace YapStack.Transcription

open Runs

variable {T B : Type} [DecidableEq T] {s s' mid : State T B} {t u : T} {c d : Call B}
  {p q id : ℕ} {r : SidecarResponse B} {e : Event T B}

/-- A request that only its timeout can wake: the reader has ended and the map has its sender. -/
def Stranded (s : State T B) (t : T) : Prop :=
  ∃ c, s.calls t = some c ∧ (s.pipelines c.pipe).reader.isOver = true ∧ c.stage = .waiting ∧
    c.channel = .connected

/-- No write succeeds for a request that registered after the reader had cleared the map. -/
def Prompt (s : State T B) (e : Event T B) (_ : State T B) : Prop :=
  match e with
  | .write t true => ∀ c, s.calls t = some c → (s.pipelines c.pipe).reader.isOver = true →
      c.channel ≠ .connected
  | _ => True

theorem not_stranded_setStage (hnone : ∀ u, ¬Stranded s u) (hcall : s.calls t = some c)
    {stage : Stage B} (hstage : stage = .waiting → (s.pipelines c.pipe).reader.isOver = true →
      c.channel ≠ .connected) (u : T) : ¬Stranded (s.setStage t stage) u := by
  rintro ⟨d, hd, hover, hwaiting, hchannel⟩
  obtain ⟨rfl, rfl⟩ | ⟨_, hd⟩ := setStage_back hcall stage hd
  · exact hstage hwaiting hover hchannel
  · exact hnone u ⟨d, hd, hover, hwaiting, hchannel⟩

/-- Another map, with a reader that is over only when it was. -/
theorem not_stranded_setPipeline (hnone : ∀ u, ¬Stranded s u) (pipeline : Pipeline T B)
    (hreader : pipeline.reader.isOver = true → (s.pipelines p).reader.isOver = true) (u : T) :
    ¬Stranded (s.setPipeline p pipeline) u := by
  rintro ⟨d, hd, hover, hwaiting, hchannel⟩
  refine hnone u ⟨d, hd, ?_, hwaiting, hchannel⟩
  by_cases hp : d.pipe = p
  · rw [hp, setPipeline_self] at hover
    rw [hp]
    exact hreader hover
  · rwa [setPipeline_of_ne _ _ hp] at hover

theorem not_stranded_disconnect (hnone : ∀ u, ¬Stranded s u) (lost : List T) (u : T) :
    ¬Stranded (s.disconnect lost) u := by
  rintro ⟨d, hd, hover, hwaiting, hchannel⟩
  obtain ⟨c, hc, hcut⟩ := calls_of_disconnect hd
  obtain rfl := hcut.kept (hcut.connected hchannel).2
  exact hnone u ⟨d, hc, hover, hwaiting, hchannel⟩

theorem not_stranded_send (hnone : ∀ u, ¬Stranded s u) (p : ℕ) (t : T) (r : SidecarResponse B)
    (u : T) : ¬Stranded (s.send p t r) u := by
  have hidle := not_stranded_setPipeline (p := p) hnone
    { s.pipelines p with reader := .reading } (by simp [Reader.isOver])
  simp only [State.send]
  split
  · next c hcall =>
    split
    · exact not_stranded_disconnect hidle [t] u
    · rintro ⟨d, hd, hover, hwaiting, hchannel⟩
      by_cases hu : u = t
      · subst hu
        obtain rfl := Option.some.inj ((setCall_self _ _ _).symm.trans hd)
        simp at hchannel
      · exact hidle u ⟨d, (setCall_of_ne _ _ hu).symm.trans hd, hover, hwaiting, hchannel⟩
  · exact hidle u

theorem not_stranded_readLine (hnone : ∀ u, ¬Stranded s u)
    (hreading : (s.pipelines p).reader = .reading) (line : Line B) (u : T) :
    ¬Stranded (s.readLine p line) u := by
  cases line with
  | blank => exact hnone u
  | unparsable => exact hnone u
  | response r =>
    simp only [State.readLine]
    split
    · refine not_stranded_setPipeline hnone _ ?_ u
      exact id
    · split
      · exact not_stranded_setPipeline hnone _ (by simp [Reader.isOver]) u
      · refine not_stranded_setPipeline hnone _ ?_ u
        exact id

/-- The reader's clear drops every sender that waits. -/
theorem not_stranded_exit (h : Inv s) (hnone : ∀ u, ¬Stranded s u)
    (hreading : (s.pipelines p).reader = .reading) (u : T) :
    ¬Stranded ((s.clear p).setPipeline p
      { (s.clear p).pipelines p with reader := .cleared }) u := by
  rintro ⟨d, hd, hover, hwaiting, hchannel⟩
  by_cases hp : d.pipe = p
  · obtain ⟨c, hcall, hcut⟩ := calls_of_disconnect hd
    obtain ⟨_, hin⟩ := hcut.connected hchannel
    obtain rfl := hcut.kept hin
    obtain hmap | ⟨r, hsend⟩ := h.sender u d hcall hchannel (by simp [hwaiting])
    · refine hin (List.mem_map.mpr ⟨⟨d.id, u⟩, AList.mem_lookup_iff.mp ?_, rfl⟩)
      exact hp ▸ hmap
    · rw [hp, hreading] at hsend
      contradiction
  · rw [setPipeline_of_ne _ _ hp] at hover
    exact not_stranded_setPipeline (not_stranded_disconnect hnone _)
      { s.pipelines p with pending := ∅ } id u ⟨d, hd, hover, hwaiting, hchannel⟩

theorem not_stranded_step (h : Inv s) (hnone : ∀ u, ¬Stranded s u) (hprompt : Prompt s e s')
    (hstep : Next s e s') (u : T) : ¬Stranded s' u := by
  cases hstep with
  | allocate t hidle hcall =>
    rintro ⟨d, hd, hover, hwaiting, hchannel⟩
    by_cases hu : u = t
    · subst hu
      obtain rfl := Option.some.inj ((setCall_self _ _ _).symm.trans hd)
      simp at hwaiting
    · exact hnone u ⟨d, (setCall_of_ne _ _ hu).symm.trans hd, hover, hwaiting, hchannel⟩
  | insert t c hcall hstage =>
    obtain ⟨d, hd, _⟩ := calls_disconnect hcall
      ((s.pipelines c.pipe).pending.lookup c.id).toList
    exact not_stranded_setStage (s := s.register c.pipe c.id t)
      (not_stranded_setPipeline (not_stranded_disconnect hnone _) _ id) hd (by simp) u
  | written t c hcall hstage =>
    exact not_stranded_setStage hnone hcall (fun _ hover => hprompt c hcall hover) u
  | unwritten t c hcall hstage => exact not_stranded_setStage hnone hcall (by simp) u
  | cancelPending t c e hcall hstage =>
    obtain ⟨d, hd, _⟩ := calls_disconnect hcall
      ((s.pipelines c.pipe).pending.lookup c.id).toList
    exact not_stranded_setStage (s := s.cancelPending c.pipe c.id)
      (not_stranded_setPipeline (not_stranded_disconnect hnone _) _ id) hd (by simp) u
  | received t c r hcall hstage hchannel => exact not_stranded_setStage hnone hcall (by simp) u
  | closed t c hcall hstage hchannel => exact not_stranded_setStage hnone hcall (by simp) u
  | timeout t c hcall hstage hchannel => exact not_stranded_setStage hnone hcall (by simp) u
  | abandon t c hcall hstage => exact not_stranded_setStage hnone hcall (by simp) u
  | readLine p line hspawned hreader => exact not_stranded_readLine hnone hreader line u
  | send p t r hreader => exact not_stranded_send hnone p t r u
  | exit p hspawned hreader => exact not_stranded_exit h hnone hreader u
  | gone p hreader => exact not_stranded_setPipeline hnone _ (by simp [hreader, Reader.isOver]) u
  | respawn hidle halone =>
    have hclear : ¬Stranded (s.clear s.current) u := by
      refine not_stranded_setPipeline (not_stranded_disconnect hnone _) _ ?_ u
      exact id
    exact hclear
  | spawned hrespawning =>
    exact not_stranded_setPipeline hnone _ (by simp [Pipeline.spawned, Reader.isOver]) u
  | spawnFailed hrespawning => exact hnone u

/-- A write that is not prompt strands its request. -/
theorem prompt_of_not_stranded (hstep : Next s e s') (hnone : ∀ u, ¬Stranded s' u) :
    Prompt s e s' := by
  cases hstep with
  | written t c hcall hstage =>
    intro d hd hover hchannel
    obtain rfl := Option.some.inj (hcall.symm.trans hd)
    exact hnone t ⟨_, setStage_self hcall _, hover, rfl, hchannel⟩
  | _ => trivial

theorem inv_of_exec {es : List (Event T B)} (hrun : exec step .spawn es = some s) : Inv s :=
  exec_invariant (fun _ _ _ h hstep => h.step (step_next hstep)) inv_spawn hrun

theorem not_stranded_spawn (u : T) : ¬Stranded (.spawn : State T B) u := by
  rintro ⟨c, hcall, _⟩
  simp [State.spawn] at hcall

theorem along_prompt_iff (es : List (Event T B)) :
    Along step Prompt .spawn es ↔
      Along step (fun _ _ s' => ∀ t : T, ¬Stranded s' t) (.spawn : State T B) es := by
  constructor
  · intro hprompt
    exact along_of_invariant (I := fun s => Inv s ∧ ∀ t, ¬Stranded s t)
      (fun s e s' h hp hstep => ⟨h.1.step (step_next hstep),
        not_stranded_step h.1 h.2 hp (step_next hstep)⟩)
      (fun s e s' h hp hstep => not_stranded_step h.1 h.2 hp (step_next hstep))
      ⟨inv_spawn, not_stranded_spawn⟩ hprompt
  · intro hnone
    refine along_of_invariant (I := fun _ => True) ?_ ?_ trivial hnone
    · exact fun _ _ _ _ _ _ => trivial
    · exact fun s e s' _ h hstep => prompt_of_not_stranded (step_next hstep) h

theorem readLine_calls (s : State T B) (p : ℕ) (line : Line B) :
    (s.readLine p line).calls = s.calls := by
  cases line with
  | blank => rfl
  | unparsable => rfl
  | response r =>
    simp only [State.readLine]
    split
    · rfl
    · split <;> rfl

theorem readLine_current (s : State T B) (p : ℕ) (line : Line B) :
    (s.readLine p line).current = s.current := by
  cases line with
  | blank => rfl
  | unparsable => rfl
  | response r =>
    simp only [State.readLine]
    split
    · rfl
    · split <;> rfl

theorem send_calls (hcall : (s.send p u r).calls t = some d) :
    ∃ c, s.calls t = some c ∧ c.pipe = d.pipe := by
  simp only [State.send] at hcall
  split at hcall
  · next a ha =>
    split at hcall
    · obtain ⟨c, hc, hcut⟩ := calls_of_disconnect hcall
      exact ⟨c, hc, hcut.pipe.symm⟩
    · by_cases ht : t = u
      · subst ht
        obtain rfl := Option.some.inj ((setCall_self _ _ _).symm.trans hcall)
        exact ⟨a, ha, rfl⟩
      · exact ⟨d, (setCall_of_ne _ _ ht).symm.trans hcall, rfl⟩
  · exact ⟨d, hcall, rfl⟩

theorem send_current (s : State T B) (p : ℕ) (t : T) (r : SidecarResponse B) :
    (s.send p t r).current = s.current := by
  simp only [State.send]
  split
  · split <;> rfl
  · rfl

/-- Every call was there, on its pipeline, or begins on the current one. -/
theorem pipe_of_step (hstep : Next s e s') (hcall : s'.calls t = some d) :
    (∃ c, s.calls t = some c ∧ c.pipe = d.pipe) ∨ d.pipe = s.current := by
  have hstage : ∀ {v : State T B} {u : T} {a : Call B} {stage : Stage B}, v.calls u = some a →
      (v.setStage u stage).calls t = some d → ∃ c, v.calls t = some c ∧ c.pipe = d.pipe := by
    intro v u a stage ha hd
    obtain ⟨rfl, rfl⟩ | ⟨_, hd⟩ := setStage_back ha stage hd
    · exact ⟨a, ha, rfl⟩
    · exact ⟨d, hd, rfl⟩
  have hcut : ∀ {v : State T B} {lost : List T} {a : Call B}, (v.disconnect lost).calls t = some a →
      ∃ c, v.calls t = some c ∧ c.pipe = a.pipe := by
    intro v lost a ha
    obtain ⟨c, hc, hcut⟩ := calls_of_disconnect ha
    exact ⟨c, hc, hcut.pipe.symm⟩
  cases hstep with
  | allocate u hidle hnone =>
    by_cases ht : t = u
    · subst ht
      obtain rfl := Option.some.inj ((setCall_self _ _ _).symm.trans hcall)
      exact .inr rfl
    · exact .inl ⟨d, (setCall_of_ne _ _ ht).symm.trans hcall, rfl⟩
  | insert u c hc hdrawn =>
    obtain ⟨a, ha, _⟩ := calls_disconnect hc ((s.pipelines c.pipe).pending.lookup c.id).toList
    obtain ⟨b, hb, hpipe⟩ := hstage (v := s.register c.pipe c.id u) ha hcall
    obtain ⟨c', hc', hpipe'⟩ := hcut hb
    exact .inl ⟨c', hc', hpipe'.trans hpipe⟩
  | written u c hc _ | unwritten u c hc _ | abandon u c hc _ => exact .inl (hstage hc hcall)
  | received u c r hc _ _ | closed u c hc _ _ | timeout u c hc _ _ => exact .inl (hstage hc hcall)
  | cancelPending u c e hc hfailing =>
    obtain ⟨a, ha, _⟩ := calls_disconnect hc ((s.pipelines c.pipe).pending.lookup c.id).toList
    obtain ⟨b, hb, hpipe⟩ := hstage (v := s.cancelPending c.pipe c.id) ha hcall
    obtain ⟨c', hc', hpipe'⟩ := hcut hb
    exact .inl ⟨c', hc', hpipe'.trans hpipe⟩
  | readLine p line _ _ =>
    refine .inl ⟨d, ?_, rfl⟩
    rwa [readLine_calls] at hcall
  | send p u r hsend => exact .inl (send_calls hcall)
  | exit p _ _ => exact .inl (hcut hcall)
  | respawn _ _ => exact .inl (hcut (v := s) hcall)
  | gone p _ => exact .inl ⟨d, hcall, rfl⟩
  | spawned _ => exact .inl ⟨d, hcall, rfl⟩
  | spawnFailed _ => exact .inl ⟨d, hcall, rfl⟩

theorem current_le_step (hstep : Next s e s') : s.current ≤ s'.current := by
  cases hstep with
  | readLine p line _ _ => rw [readLine_current]
  | send p u r hsend => rw [send_current]
  | spawned _ => exact Nat.le_succ _
  | _ => exact Nat.le_refl _

/-- A request begun later uses a later pipeline. -/
theorem pipe_of_later {es : List (Event T B)} (hrun : exec step mid es = some s)
    (hnone : mid.calls t = none) (hcall : s.calls t = some c) : mid.current ≤ c.pipe := by
  have hlater := exec_invariant (I := fun s : State T B =>
    mid.current ≤ s.current ∧ ∀ c, s.calls t = some c → mid.current ≤ c.pipe)
    (fun s e s' h hstep => ?_) ⟨Nat.le_refl _, fun c hcall => by simp [hnone] at hcall⟩ hrun
  · exact hlater.2 c hcall
  · refine ⟨h.1.trans (current_le_step (step_next hstep)), fun d hd => ?_⟩
    obtain ⟨c, hc, hpipe⟩ | hpipe := pipe_of_step (step_next hstep) hd
    · exact hpipe ▸ h.2 c hc
    · exact hpipe ▸ h.1

/-- A request that has returned has left the map, and no other has its id. -/
theorem Inv.returned_unregistered (h : Inv s) (hfew : s.drawn.length ≤ wordSize)
    (hcall : s.calls t = some c) {result : Except TranscriptionError (SidecarResponse B)}
    (hstage : c.stage = .returned result) :
    (s.pipelines c.pipe).pending.lookup c.id = none := by
  rw [Option.eq_none_iff_forall_ne_some]
  intro u hmap
  obtain ⟨d, hd, _, hid, _, _, hreturned⟩ := h.owner _ _ u hmap
  obtain ⟨j, hj, hcid⟩ := h.ids t c hcall
  obtain ⟨k, hk, hdid⟩ := h.ids u d hd
  have hjlt := (List.getElem?_eq_some_iff.mp hj).1
  have hklt := (List.getElem?_eq_some_iff.mp hk).1
  have hmod : (j + 1) % wordSize = (k + 1) % wordSize := by rw [← hcid, ← hdid, hid]
  have hsame : j % wordSize = k % wordSize := Nat.ModEq.add_right_cancel' 1 hmod
  rw [Nat.mod_eq_of_lt (by omega), Nat.mod_eq_of_lt (by omega)] at hsame
  subst hsame
  obtain rfl := Option.some.inj (hj.symm.trans hk)
  obtain rfl := Option.some.inj (hcall.symm.trans hd)
  exact hreturned _ hstage

theorem timeout_eq_none (hcall : s.calls t = some c) (hnone : ¬Stranded s t)
    (hover : (s.pipelines c.pipe).reader.isOver = true) : step s (.timeout t) = none := by
  rw [Option.eq_none_iff_forall_ne_some]
  intro s' hstep
  cases step_next hstep with
  | timeout t d hd hstage hchannel =>
    obtain rfl := Option.some.inj (hcall.symm.trans hd)
    exact hnone ⟨c, hcall, hover, hstage, hchannel⟩

/-- Every run: where responses go, what a later sidecar is asked, what a returned call leaves,
and when the end of the reader leaves a request to its timeout. -/
theorem responses_routed (before after : List (Event T B)) (hmid : exec step .spawn before = some mid)
    (hrun : exec step mid after = some s) :
    (∀ p t r, (p, t, r) ∈ s.delivered →
      ∃ c, s.calls t = some c ∧ c.pipe = p ∧ responseId r = some c.id) ∧
    (s.delivered.map (·.2.1)).Nodup ∧
    (∀ t c r, s.calls t = some c → c.stage = .returned (.ok r) → (c.pipe, t, r) ∈ s.delivered) ∧
    (∀ p t r, mid.calls t = none → (p, t, r) ∈ s.delivered → mid.current ≤ p) ∧
    (s.drawn.length ≤ wordSize → ∀ t c result, s.calls t = some c →
      c.stage = .returned result → (s.pipelines c.pipe).pending.lookup c.id = none) ∧
    (Along step Prompt .spawn (before ++ after) →
      ∀ t c, s.calls t = some c → (s.pipelines c.pipe).reader.isOver = true →
        ¬Stranded s t ∧ step s (.timeout t) = none) ∧
    (Along step Prompt .spawn (before ++ after) ↔
      Along step (fun _ _ s' => ∀ t : T, ¬Stranded s' t) .spawn (before ++ after)) := by
  have hall := (exec_append _ _ _ _).mpr ⟨mid, hmid, hrun⟩
  have hinv := inv_of_exec hall
  refine ⟨?_, hinv.once, ?_, ?_, fun hfew t c result hcall hstage =>
    hinv.returned_unregistered hfew hcall hstage, ?_, along_prompt_iff _⟩
  · intro p t r hin
    obtain ⟨c, hcall, hpipe, hid, _⟩ := hinv.delivered p t r hin
    exact ⟨c, hcall, hpipe, hid⟩
  · exact fun t c r hcall hstage => hinv.sent t c r hcall (hinv.outcome t c r hcall hstage)
  · intro p t r hnone hin
    obtain ⟨c, hcall, rfl, _⟩ := hinv.delivered p t r hin
    exact pipe_of_later hrun hnone hcall
  · intro hprompt t c hcall hover
    have hnone := exec_invariant_along (I := fun s => Inv s ∧ ∀ t, ¬Stranded s t)
      (fun s e s' h hp hstep => ⟨h.1.step (step_next hstep),
        not_stranded_step h.1 h.2 hp (step_next hstep)⟩)
      ⟨inv_spawn, not_stranded_spawn⟩ hprompt hall
    exact ⟨hnone.2 t, timeout_eq_none hcall (hnone.2 t) hover⟩

instance [DecidableEq B] (s : State T B) (t : T) : Decidable (Stranded s t) :=
  match h : s.calls t with
  | none => .isFalse (by rintro ⟨c, hc, _⟩; simp [h] at hc)
  | some c => decidable_of_iff ((s.pipelines c.pipe).reader.isOver = true ∧ c.stage = .waiting ∧
      c.channel = .connected) (by simp [Stranded, h])

/-- A timeout, an answer, a respawn, and late lines of the first sidecar, one of them with the id
of a request to the second. -/
theorem responses_routed_respawn : ∃ mid s : State ℕ Unit,
    exec step .spawn [.allocate 0, .insert 0, .write 0 true, .timeout 0, .cancelPending 0,
      .allocate 1, .insert 1, .write 1 true, .readLine 0 (.response (.transcription 2 ())),
      .send 0, .receive 1, .respawn, .spawned true] = some mid ∧
    exec step mid [.allocate 2, .insert 2, .write 2 true,
      .readLine 0 (.response (.transcription 1 ())), .readLine 0 (.response (.error 3 ())),
      .readLine 1 (.response (.transcription 3 ())), .send 1, .exit 1, .gone 1,
      .receive 2] = some s ∧
    s.delivered = [(0, 1, .transcription 2 ()), (1, 2, .transcription 3 ())] ∧
    (s.delivered.map (·.2.1)).Nodup ∧ ¬Stranded s 2 := by
  obtain ⟨mid, hmid, hlater⟩ : ∃ mid : State ℕ Unit,
      exec step .spawn [.allocate 0, .insert 0, .write 0 true, .timeout 0, .cancelPending 0,
        .allocate 1, .insert 1, .write 1 true, .readLine 0 (.response (.transcription 2 ())),
        .send 0, .receive 1, .respawn, .spawned true] = some mid ∧
      (exec step mid [.allocate 2, .insert 2, .write 2 true,
        .readLine 0 (.response (.transcription 1 ())), .readLine 0 (.response (.error 3 ())),
        .readLine 1 (.response (.transcription 3 ())), .send 1, .exit 1, .gone 1,
        .receive 2]).any (fun s => decide (s.delivered = [(0, 1, .transcription 2 ()),
          (1, 2, .transcription 3 ())] ∧ ¬Stranded s 2)) = true :=
    exec_evaluates (by decide +kernel)
  obtain ⟨s, hrun, hdelivered, hstranded⟩ := exec_evaluates hlater
  obtain ⟨_, honce, _⟩ := responses_routed _ _ hmid hrun
  exact ⟨mid, s, hmid, hrun, hdelivered, honce, hstranded⟩

/-- A request begun after the reader has ended, over an open stdin: only the timeout is left. -/
theorem ended_reader_strands : ∃ s : State ℕ Unit,
    exec step .spawn [.exit 0, .gone 0, .allocate 0, .insert 0, .write 0 true] = some s ∧
    isRunning s false = false ∧ Stranded s 0 ∧ (step s (.receive 0)).isNone = true ∧
    (step s (.timeout 0)).isSome = true :=
  exec_evaluates (by decide +kernel)

end YapStack.Transcription
