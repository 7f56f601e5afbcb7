import YapStack.Upload.LaneSteps

set_option linter.unusedSectionVars false

namespace YapStack.Upload

open YapStack.Runs

variable {Id Path Hash Tenant : Type} [DecidableEq Id] [DecidableEq Path] [DecidableEq Hash]
variable [DecidableEq Tenant] {lanes : ℕ}

namespace State

variable {s t : State Id Path Hash Tenant lanes}

theorem partSourceExists_iff {p : Id} : s.partSourceExists p = true ↔ ∃ r ∈ s.rows, r.id = p := by
  simp [partSourceExists]

theorem partSourceExists_mono {p : Id} {f : PartRow Id Path → Bool}
    (h : partSourceExists { s with rows := s.rows.filter f } p = true) :
    s.partSourceExists p = true := by
  obtain ⟨r, hr, hp⟩ := partSourceExists_iff.mp h
  exact partSourceExists_iff.mpr ⟨r, List.mem_of_mem_filter hr, hp⟩

theorem partSourceExists_saveRow {p : Id} {r : PartRow Id Path} {f : PartRow Id Path → Bool}
    (h : partSourceExists { s with rows := s.rows.filter f ++ [r] } p = true) :
    r.id = p ∨ s.partSourceExists p = true := by
  obtain ⟨r', hr', hp⟩ := partSourceExists_iff.mp h
  rcases List.mem_append.mp hr' with hold | hnew
  · exact .inr (partSourceExists_iff.mpr ⟨r', List.mem_of_mem_filter hold, hp⟩)
  · rw [List.mem_singleton.mp hnew] at hp
    exact .inl hp

theorem exit_inv (h : Inv s) (i : Fin lanes) : Inv (s.setLane i none) := by
  have hlane : ∀ j l, (s.setLane i none).lane j = some l → s.lane j = some l := by
    intro j l hj
    by_cases hji : j = i
    · subst hji
      rw [lane_setLane] at hj
      cases hj
    · rwa [lane_setLane_of_ne hji] at hj
  refine ⟨h.toSound.setLane i none, fun j k hj hk => ?_, fun j l hj => ?_⟩
  · obtain ⟨l, hl⟩ := Option.isSome_iff_exists.mp hj
    obtain ⟨l', hl'⟩ := Option.isSome_iff_exists.mp hk
    exact h.alone j k (by rw [hlane j l hl]; rfl) (by rw [hlane k l' hl']; rfl)
  · obtain ⟨hb, hok⟩ := h.lane j l (hlane j l hj)
    exact ⟨hb, pcOk_setLane hok i none⟩

theorem spawn_inv (h : Inv s) {i : Fin lanes} {b : Tenant} (hb : s.bound = some b)
    (hfree : ∀ j, s.lane j = none) : Inv (s.setLane i (some ⟨b, .reset⟩)) := by
  have hlane : ∀ j l, (s.setLane i (some ⟨b, .reset⟩)).lane j = some l →
      j = i ∧ l = ⟨b, .reset⟩ := by
    intro j l hj
    by_cases hji : j = i
    · subst hji
      rw [lane_setLane, Option.some.injEq] at hj
      exact ⟨rfl, hj.symm⟩
    · rw [lane_setLane_of_ne hji, hfree] at hj
      cases hj
  refine ⟨h.toSound.setLane i _, fun j k hj hk => ?_, fun j l hj => ?_⟩
  · obtain ⟨l, hl⟩ := Option.isSome_iff_exists.mp hj
    obtain ⟨l', hl'⟩ := Option.isSome_iff_exists.mp hk
    rw [(hlane j l hl).1, (hlane k l' hl').1]
  · obtain ⟨-, rfl⟩ := hlane j l hj
    exact ⟨hb, trivial⟩

theorem saveRow_inv (h : Inv s) {r : PartRow Id Path} (hg : s.Guard (.saveRow r) t)
    (ht : s.step (.saveRow r) = some t) : Inv t := by
  cases ht
  refine h.env ⟨h.unique, h.done, fun p hp hrow => ?_, fun x hx => ?_⟩ rfl rfl
    (fun i l hl hok => ?_)
  · by_cases hknown : s.partSourceExists p = true
    · refine h.covered p ?_ hknown
      dsimp only at hp
      split at hp
      · exact hp
      · exact List.mem_of_mem_filter hp
    · rcases partSourceExists_saveRow hrow with rfl | hold
      · dsimp only at hp
        rw [if_neg hknown] at hp
        exact absurd rfl (of_decide_eq_true (List.mem_filter.mp hp).2)
      · exact absurd hold hknown
  · exact h.steady x (List.mem_of_mem_filter hx)
  · refine hok.mono (fun _ h => h) (fun _ h => h) (fun x hx => List.mem_of_mem_filter hx)
      (fun e he hgone => ?_) rfl rfl
    rw [Bool.eq_false_iff] at hgone ⊢
    intro hrow
    rcases partSourceExists_saveRow hrow with hid | hold
    · exact hg i l hl e he hid.symm
    · exact hgone hold

theorem deleteRow_inv (h : Inv s) {source : Source} {id : Id}
    (ht : s.step (.deleteRow source id) = some t) : Inv t := by
  cases ht
  refine h.env ⟨h.unique, h.done, fun p hp hrow => ?_, fun x hx => ?_⟩ rfl rfl
    (fun i l hl hok => ?_)
  · exact h.covered p (List.mem_of_mem_filter hp) (partSourceExists_mono hrow)
  · exact h.steady x (List.mem_of_mem_filter hx)
  · refine hok.mono (fun _ h => h) (fun _ h => h) (fun x hx => List.mem_of_mem_filter hx)
      (fun e he hgone => ?_) rfl rfl
    rw [Bool.eq_false_iff] at hgone ⊢
    exact fun hrow => hgone (partSourceExists_mono hrow)

theorem setFile_inv (h : Inv s) {path : Path} {present : Bool}
    (ht : s.step (.setFile path present) = some t) : Inv t := by
  cases ht
  refine h.env ⟨h.unique, h.done, h.covered, fun x hx => ?_⟩ rfl rfl (fun i l hl hok => ?_)
  · dsimp only at hx ⊢
    by_cases hpath : x.2 = path
    · cases present with
      | true => rw [hpath, Function.update_self]
      | false => exact absurd hpath (of_decide_eq_true (List.mem_filter.mp hx).2)
    · rw [Function.update_of_ne hpath]
      refine h.steady x ?_
      split at hx
      · exact hx
      · exact List.mem_of_mem_filter hx
  · refine hok.mono (fun _ h => h) (fun _ h => h) (fun x hx => ?_) (fun _ _ h => h) rfl rfl
    dsimp only at hx
    split at hx
    · exact hx
    · exact List.mem_of_mem_filter hx

theorem enqueueOnSave_inv (h : Inv s) {p : Id} {path : Path} {session : Id}
    (ht : s.step (.enqueueOnSave p path session) = some t) : Inv t := by
  cases ht
  have hs := h.toSound.enqueue p path session .normal
  refine h.env ⟨hs.unique, hs.done, fun p' hp hrow => ?_, hs.steady⟩ rfl rfl
    (fun i l hl hok => ?_)
  · by_cases hpp : p' = p
    · exact hpp ▸ has_enqueue_self
    · refine has_enqueue (h.covered p' ?_ hrow)
      dsimp only at hp
      split at hp
      · exact (List.mem_cons.mp hp).resolve_left hpp
      · exact hp
  · exact hok.mono (fun _ h => has_enqueue h) (fun _ h => isDone_enqueue h) (fun _ h => h)
      (fun _ _ h => h) rfl rfl

theorem reconcile_inv (h : Inv s) {b : Tenant} (hg : s.Guard (.reconcileAccountBinding b) t)
    (ht : s.step (.reconcileAccountBinding b) = some t) : Inv t := by
  simp only [step] at ht
  split at ht
  · cases ht
    exact h
  · rename_i hb
    cases ht
    obtain ⟨hlane, hheld⟩ := hg hb
    refine ⟨⟨h.unique, fun p hd => ?_, fun p hp => ?_, h.steady⟩, fun i j hi => ?_,
      fun i l hl => ?_⟩
    · obtain ⟨e, he, rfl, hs⟩ := hd
      exact ⟨b, rfl, hheld e he hs⟩
    · cases hp
    · rw [hlane i] at hi
      cases hi
    · rw [hlane i] at hl
      cases hl

theorem step_inv (h : Inv s) {e : Event Id Path Hash Tenant lanes} (hg : s.Guard e t)
    (ht : s.step e = some t) : Inv t := by
  cases e with
  | saveRow r => exact saveRow_inv h hg ht
  | deleteRow source id => exact deleteRow_inv h ht
  | setFile path present => exact setFile_inv h ht
  | enqueueOnSave p path session => exact enqueueOnSave_inv h ht
  | retryFailedUploads =>
    cases ht
    refine h.env h.toSound.retryFailed rfl rfl (fun i l hl hok => ?_)
    exact hok.mono (fun _ h => has_retryFailed.trans h) (fun _ h => isDone_retryFailed h)
      (fun _ h => h) (fun _ _ h => h) rfl rfl
  | reconcileAccountBinding b => exact reconcile_inv h hg ht
  | spawnAudioUploader i =>
    simp only [step] at ht
    split at ht
    · rename_i hb _
      cases ht
      exact spawn_inv h hb hg
    · cases ht
  | act i a =>
    obtain ⟨⟨tenant, pc⟩, hl, hstep⟩ := Option.bind_eq_some_iff.mp ht
    exact laneStep_inv h hl hstep
  | exit i =>
    simp only [step, Option.ite_none_right_eq_some, Option.some.injEq] at ht
    obtain ⟨-, rfl⟩ := ht
    exact exit_inv h i

theorem has_examine {r : PartRow Id Path} {busy : Bool} {p : Id} (hp : has s.queue p = true) :
    has (s.examine r busy).1 p = true := by
  rcases examine_eq s r busy with ⟨path, -, -, -, he⟩ | ⟨hq, -⟩
  · rw [he]
    exact has_enqueue hp
  · rw [hq]
    exact hp

/-- A lane drops an entry in one statement only, and marks the walk in another. -/
theorem laneStep_queue {i : Fin lanes} {tenant : Tenant} {pc : Pc Id Path Hash} {a : Act Id Hash}
    (ht : s.laneStep i tenant pc a = some t) :
    ((∃ e, pc = .dropping e ∧ t.queue = Upload.deleteEntry s.queue e.part) ∨
      ∀ p, has s.queue p = true → has t.queue p = true) ∧
    (t.walkDoneAt = s.walkDoneAt ∨
      (pc = .dictations [] false ∧ t.queue = s.queue ∧ t.steady = s.steady)) := by
  have hsame : ∀ p, has s.queue p = true → has s.queue p = true := fun _ hp => hp
  cases pc with
  | reset =>
    cases a <;> cases ht
    rename_i busy
    cases busy
    · exact ⟨.inr (fun _ hp => has_resetInFlight.trans hp), .inl rfl⟩
    · exact ⟨.inr hsame, .inl rfl⟩
  | retry =>
    cases a <;> cases ht
    rename_i busy
    cases busy
    · exact ⟨.inr (fun _ hp => has_retryFailed.trans hp), .inl rfl⟩
    · exact ⟨.inr hsame, .inl rfl⟩
  | walk => cases a <;> cases ht <;> exact ⟨.inr hsame, .inl rfl⟩
  | parts todo skipped =>
    cases todo with
    | nil => cases a <;> cases ht <;> exact ⟨.inr hsame, .inl rfl⟩
    | cons r todo =>
      cases a <;> cases ht
      · exact ⟨.inr (fun _ hp => has_examine hp), .inl rfl⟩
      · exact ⟨.inr hsame, .inl rfl⟩
  | dictations todo skipped =>
    cases todo with
    | nil =>
      cases a
      case finishWalk busy =>
        simp only [laneStep] at ht
        split at ht
        · cases ht
          exact ⟨.inr hsame, .inl rfl⟩
        · rename_i hdone
          cases ht
          rw [Bool.or_eq_true, not_or] at hdone
          exact ⟨.inr hsame, .inr ⟨by rw [Bool.eq_false_iff.mpr hdone.1], rfl, rfl⟩⟩
      case abandonWalk =>
        cases ht
        exact ⟨.inr hsame, .inl rfl⟩
      all_goals cases ht
    | cons r todo =>
      cases a <;> cases ht
      · exact ⟨.inr (fun _ hp => has_examine hp), .inl rfl⟩
      · exact ⟨.inr hsame, .inl rfl⟩
  | ready =>
    cases a
    case nextReady p =>
      obtain ⟨e, -, rfl⟩ := Option.map_eq_some_iff.mp ht
      exact ⟨.inr hsame, .inl rfl⟩
    all_goals cases ht
  | picked e => cases a <;> cases ht <;> exact ⟨.inr hsame, .inl rfl⟩
  | dropping e =>
    cases a <;> cases ht
    · exact ⟨.inl ⟨e, rfl, rfl⟩, .inl rfl⟩
    · exact ⟨.inr hsame, .inl rfl⟩
  | upload e =>
    cases a
    case setSealing busy =>
      cases busy <;> cases ht
      · exact ⟨.inr (fun _ hp => has_setState.trans hp), .inl rfl⟩
      · exact ⟨.inr hsame, .inl rfl⟩
    all_goals cases ht
  | sealing e =>
    cases a
    case sealBlob sha256 =>
      cases sha256 with
      | none =>
        cases ht
        exact ⟨.inr hsame, .inl rfl⟩
      | some sha256 =>
        simp only [laneStep, Option.ite_none_right_eq_some, Option.some.injEq] at ht
        obtain ⟨-, rfl⟩ := ht
        exact ⟨.inr (fun _ hp => has_setState.trans hp), .inl rfl⟩
    all_goals cases ht
  | presign e sha256 =>
    cases a
    case presignAudio reached answered =>
      cases reached <;> cases ht <;> exact ⟨.inr hsame, .inl rfl⟩
    all_goals cases ht
  | put e sha256 =>
    cases a
    case putAudio reached answered =>
      cases reached <;> cases ht <;> exact ⟨.inr hsame, .inl rfl⟩
    all_goals cases ht
  | uploaded e =>
    cases a <;> cases ht
    · exact ⟨.inr (fun _ hp => has_setState.trans hp), .inl rfl⟩
    · exact ⟨.inr hsame, .inl rfl⟩
  | failing e =>
    cases a <;> cases ht
    · exact ⟨.inr (fun _ hp => has_markFailed.trans hp), .inl rfl⟩
    · exact ⟨.inr hsame, .inl rfl⟩

/-- What every other event leaves of the queue. -/
theorem step_queue {e : Event Id Path Hash Tenant lanes} (he : ∀ i a, e ≠ .act i a)
    (ht : s.step e = some t) :
    t.walkDoneAt = s.walkDoneAt ∧ ∀ p, has s.queue p = true → has t.queue p = true := by
  cases e with
  | saveRow r | deleteRow source id | setFile path present =>
    cases ht
    exact ⟨rfl, fun _ hp => hp⟩
  | enqueueOnSave p path session =>
    cases ht
    exact ⟨rfl, fun _ hp => has_enqueue hp⟩
  | retryFailedUploads =>
    cases ht
    exact ⟨rfl, fun _ hp => has_retryFailed.trans hp⟩
  | reconcileAccountBinding b =>
    simp only [step] at ht
    split at ht <;> cases ht <;> exact ⟨rfl, fun _ hp => hp⟩
  | spawnAudioUploader i =>
    simp only [step] at ht
    split at ht <;> cases ht
    exact ⟨rfl, fun _ hp => hp⟩
  | act i a => exact absurd rfl (he i a)
  | exit i =>
    simp only [step, Option.ite_none_right_eq_some, Option.some.injEq] at ht
    obtain ⟨-, rfl⟩ := ht
    exact ⟨rfl, fun _ hp => hp⟩

theorem Inv.remembered (h : Inv t) {r : PartRow Id Path} (hr : r ∈ t.rows)
    (hc : r.id ∈ t.covered) :
    t.willUpload r.id = true ∨ ∃ b ∈ t.bound, t.holdsAudio b r.id = true := by
  obtain ⟨e, he, hp⟩ := has_iff.mp (h.covered r.id hc (partSourceExists_iff.mpr ⟨r, hr, rfl⟩))
  by_cases hs : e.state = .done
  · exact .inr (h.done r.id ⟨e, he, hp, hs⟩)
  · refine .inl (List.any_eq_true.mpr ⟨e, he, ?_⟩)
    rw [Bool.and_eq_true]
    exact ⟨decide_eq_true hp, decide_eq_true hs⟩

theorem laneStep_remembers (h : Inv s) {i : Fin lanes} {tenant : Tenant} {pc : Pc Id Path Hash}
    {a : Act Id Hash} (hl : s.lane i = some ⟨tenant, pc⟩)
    (ht : s.laneStep i tenant pc a = some t) :
    (t.walkDoneAt ≠ s.walkDoneAt → ∀ x ∈ t.steady, has t.queue x.1 = true) ∧
      ∀ e ∈ s.queue, has t.queue e.part = true ∨ s.partSourceExists e.part = false := by
  have hok := (h.lane i _ hl).2
  obtain ⟨hqueue, hmark⟩ := laneStep_queue ht
  refine ⟨fun hne x hx => ?_, fun e he => ?_⟩
  · rcases hmark with hsame | ⟨rfl, hq, hsteady⟩
    · exact absurd hsame hne
    · rw [hsteady] at hx
      rw [hq]
      rcases hok x hx with hold | ⟨r, hr, -⟩
      · exact hold
      · cases hr
  · have hhas := has_iff.mpr ⟨e, he, rfl⟩
    rcases hqueue with ⟨e', rfl, hq⟩ | hkeep
    · by_cases hpart : e.part = e'.part
      · exact .inr (hpart ▸ hok)
      · rw [hq]
        exact .inl (has_deleteEntry hpart hhas)
    · exact .inl (hkeep e.part hhas)

theorem step_remembers (h : Inv s) {e : Event Id Path Hash Tenant lanes} (hg : s.Guard e t)
    (ht : s.step e = some t) : s.Remembers e t := by
  have hinv := step_inv h hg ht
  refine ⟨fun r hr hc _ => hinv.remembered hr hc, ?_⟩
  by_cases hact : ∀ i a, e ≠ .act i a
  · obtain ⟨hmark, hkeep⟩ := step_queue hact ht
    exact ⟨fun hne => absurd hmark hne, fun e' he' => .inl (hkeep _ (has_iff.mpr ⟨e', he', rfl⟩))⟩
  · push Not at hact
    obtain ⟨i, a, rfl⟩ := hact
    obtain ⟨⟨tenant, pc⟩, hl, hstep⟩ := Option.bind_eq_some_iff.mp ht
    exact laneStep_remembers h hl hstep

instance (s : State Id Path Hash Tenant lanes) (e : Event Id Path Hash Tenant lanes)
    (t : State Id Path Hash Tenant lanes) : Decidable (s.Guard e t) := by
  unfold Guard
  split <;> infer_instance

instance (s : State Id Path Hash Tenant lanes) (e : Event Id Path Hash Tenant lanes)
    (t : State Id Path Hash Tenant lanes) : Decidable (s.Remembers e t) := by
  unfold Remembers
  infer_instance

/-- The start of a lane and its walk over `n` parts of sessions and `m` dictations. -/
def walkOf (i : Fin lanes) (n m : ℕ) : List (Event Id Path Hash Tenant lanes) :=
  [.spawnAudioUploader i, .act i (.resetInFlight false), .act i (.retryFailed false),
    .act i .readParts] ++ List.replicate n (.act i (.examine false)) ++
    [.act i .readDictations] ++ List.replicate m (.act i (.examine false)) ++
    [.act i (.finishWalk false)]

/-- One upload that goes through. -/
def uploadOf (i : Fin lanes) (p : Id) (sha256 : Hash) : List (Event Id Path Hash Tenant lanes) :=
  [.act i (.nextReady p), .act i .partSourceExists, .act i (.setSealing false),
    .act i (.sealBlob (some sha256)), .act i (.presignAudio true true),
    .act i (.putAudio true true), .act i .setDone]

end State

end YapStack.Upload
