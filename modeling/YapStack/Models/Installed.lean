import YapStack.Models.Downloads

set_option linter.unusedSectionVars false

namespace YapStack.Models.State

variable {hash : Body → String} {s s' : State} {job : Job} {x : Target}

/-- What a step does, with what it met. -/
inductive Did (hash : Body → String) (s : State) : Event → State → Prop
  | started {t : ℕ} {job : Job} (hnone : s.task t = none) (hfree : s.inFlight job.claim = false) :
      Did hash s (.start t job) { s.setTask t ⟨job, job.targets, .between⟩ with
        inFlight := Function.update s.inFlight job.claim true }
  | skipped {t : ℕ} {job : Job} {x : Target} {rest : List Target}
      (ht : s.task t = some ⟨job, x :: rest, .between⟩) :
      Did hash s (.skip t) (s.setTask t ⟨job, rest, .between⟩)
  | created {t : ℕ} {job : Job} {x : Target} {rest : List Target}
      (ht : s.task t = some ⟨job, x :: rest, .between⟩) :
      Did hash s (.create t) ({ s with disk := (s.disk.create (tempDest x.dest)).1 }.setTask t
        ⟨job, x :: rest, .writing (s.disk.create (tempDest x.dest)).2 []⟩)
  | wrote {t : ℕ} {bytes : Body} {job : Job} {rest : List Target} {i : ℕ} {received : Body}
      (ht : s.task t = some ⟨job, rest, .writing i received⟩) :
      Did hash s (.chunk t bytes) ({ s with disk := { s.disk with
        content := Function.update s.disk.content i (s.disk.content i ++ bytes) } }.setTask t
          ⟨job, rest, .writing i (received ++ bytes)⟩)
  | verified {t : ℕ} {job : Job} {x : Target} {rest : List Target} {i : ℕ} {received : Body}
      (ht : s.task t = some ⟨job, x :: rest, .writing i received⟩)
      (hpin : x.sha256.all (· == hash received) = true) :
      Did hash s (.finish t)
        ({ s with served := (x, received) :: s.served }.setTask t ⟨job, x :: rest, .whole i⟩)
  | refused {t : ℕ} {task : Task} {y : Target × Body} {p : Path} (ht : s.task t = some task) :
      Did hash s (.finish t)
        (({ s with served := y :: s.served }.removed p).ended t task.job)
  | renamed {t : ℕ} {job : Job} {x : Target} {rest : List Target} {i : ℕ}
      (ht : s.task t = some ⟨job, x :: rest, .whole i⟩)
      (htemp : (s.disk.entry (tempDest x.dest)).isSome = true) :
      Did hash s (.rename t) ({ s with disk := { s.disk with
        entry := Files.rename s.disk.entry (tempDest x.dest) x.dest } }.setTask t
          ⟨job, rest, .between⟩)
  | failed {t : ℕ} {task : Task} (ht : s.task t = some task) :
      Did hash s (.fail t) (s.ended t task.job)
  | dropped {t : ℕ} {task : Task} {p : Path} (ht : s.task t = some task) :
      Did hash s (.fail t) ((s.removed p).ended t task.job)
  | completed {t : ℕ} {task : Task} (ht : s.task t = some task) :
      Did hash s (.complete t) (s.ended t task.job)
  | deleted {p : Path} : Did hash s (.delete p) (s.removed p)
  | restarted : Did hash s .restart { s with task := fun _ => none, inFlight := fun _ => false }

theorem step_did {e : Event} (h : s.step hash e = some s') : Did hash s e s' := by
  cases e with
  | start t job =>
    rw [step] at h
    split at h
    · rename_i hfree
      obtain rfl := Option.some.inj h
      exact .started (Option.isNone_iff_eq_none.mp hfree.1) hfree.2
    · cases h
  | skip t =>
    rw [step] at h
    split at h
    · rename_i ht
      split at h
      · obtain rfl := Option.some.inj h
        exact .skipped ht
      · cases h
    · cases h
  | create t =>
    rw [step] at h
    split at h
    · rename_i ht
      split at h
      · cases h
      · obtain rfl := Option.some.inj h
        exact .created ht
    · cases h
  | chunk t bytes =>
    rw [step] at h
    split at h
    · rename_i ht
      obtain rfl := Option.some.inj h
      exact .wrote ht
    · cases h
  | finish t =>
    rw [step] at h
    split at h
    · rename_i ht
      dsimp only at h
      split at h
      · rename_i hpin
        obtain rfl := Option.some.inj h
        exact .verified ht hpin
      · obtain rfl := Option.some.inj h
        exact .refused ht
    · cases h
  | rename t =>
    rw [step] at h
    split at h
    · rename_i ht
      split at h
      · rename_i htemp
        obtain rfl := Option.some.inj h
        exact .renamed ht htemp
      · cases h
    · cases h
  | fail t =>
    rw [step] at h
    split at h
    · rename_i ht
      obtain rfl := Option.some.inj h
      exact .failed ht
    · rename_i ht
      obtain rfl := Option.some.inj h
      exact .dropped ht
    · cases h
  | complete t =>
    rw [step] at h
    split at h
    · rename_i ht
      obtain rfl := Option.some.inj h
      exact .completed ht
    · cases h
  | delete p =>
    obtain rfl := Option.some.inj h
    exact .deleted
  | restart =>
    obtain rfl := Option.some.inj h
    exact .restarted

theorem sound_step {e : Event} (h : s.Sound hash) (hstep : s.step hash e = some s') :
    s'.Sound hash := by
  cases step_did hstep with
  | started hnone hfree => exact sound_start h hnone hfree
  | skipped ht => exact sound_skip h ht
  | created ht => exact sound_create h ht
  | wrote ht => exact sound_chunk h ht _
  | verified ht hpin => exact sound_finish h ht hpin
  | refused ht => exact sound_ended (sound_removed (sound_served h _) _) ht
  | renamed ht htemp => exact sound_rename h ht htemp
  | failed ht => exact sound_ended h ht
  | dropped ht => exact sound_ended (sound_removed h _) ht
  | completed ht => exact sound_ended h ht
  | deleted => exact sound_removed h _
  | restarted => exact sound_restart h

theorem sound_run {events : List Event} (h : Runs.exec (step hash) init events = some s) :
    s.Sound hash :=
  Runs.exec_invariant (fun _ _ _ hs hstep => sound_step hs hstep) sound_init h

/-- However downloads, deletions and restarts interleave, a file at its place is the whole body of
one answer to the request for it, and has the pinned hash. -/
theorem installed_is_whole {events : List Event}
    (h : Runs.exec (step hash) init events = some s) (hx : x ∈ job.targets) {i : ℕ}
    (hi : s.disk.entry x.dest = some i) :
    (x, s.disk.content i) ∈ s.served ∧ ∀ e, x.sha256 = some e → hash (s.disk.content i) = e :=
  (sound_run h).installed job x hx i hi

/-- No handle and no temporary name leads to the file. -/
structure Frozen (s : State) (i : ℕ) (body : Body) : Prop where
  content : s.disk.content i = body
  known : i < s.disk.fresh
  names : ∀ p, s.disk.entry p = some i → isTemp p = false
  closed : ∀ t task, s.task t = some task → task.file ≠ some i

theorem frozen_of_installed (h : s.Sound hash) (hx : x ∈ job.targets) {i : ℕ}
    (hi : s.disk.entry x.dest = some i) : s.Frozen i (s.disk.content i) := by
  refine ⟨rfl, h.known _ i hi, fun p hp => ?_, fun t task ht hfile => ?_⟩
  · rw [h.single p _ i hp hi]
    exact dest_not_temp hx
  · obtain ⟨y, rest, -, hy⟩ := h.handle t task i ht hfile
    exact dest_ne_temp hx y (hy.names _ hi)

theorem closed_set {i : ℕ} {body : Body} (h : s.Frozen i body) {task : Task}
    (hfile : task.file ≠ some i) (t' : ℕ) (task' : Task)
    (ht' : (s.setTask t task).task t' = some task') : task'.file ≠ some i := by
  rw [task_set] at ht'
  split at ht'
  · obtain rfl := Option.some.inj ht'
    exact hfile
  · exact h.closed t' task' ht'

theorem frozen_ended {i : ℕ} {body : Body} (h : s.Frozen i body) (t : ℕ) (job : Job) :
    (s.ended t job).Frozen i body :=
  ⟨h.content, h.known, h.names, fun t' task' ht' => h.closed t' task' (task_ended ht').2⟩

theorem frozen_removed {i : ℕ} {body : Body} (h : s.Frozen i body) (p : Path) :
    (s.removed p).Frozen i body :=
  ⟨h.content, h.known, fun q hq => h.names q (entry_removed hq), h.closed⟩

theorem frozen_step {i : ℕ} {body : Body} {e : Event} (hs : s.Sound hash) (h : s.Frozen i body)
    (hstep : s.step hash e = some s') : s'.Frozen i body := by
  cases step_did hstep with
  | started hnone hfree =>
    exact ⟨h.content, h.known, h.names, closed_set h (Option.some_ne_none i ∘ Eq.symm)⟩
  | skipped ht =>
    exact ⟨h.content, h.known, h.names, closed_set h (Option.some_ne_none i ∘ Eq.symm)⟩
  | @created t job x rest ht =>
    obtain ⟨hself, hentry, -, hcontent, -, hgrow, hfrom⟩ :=
      create_spec s.disk (tempDest x.dest) hs.known
    have hne : i ≠ (s.disk.create (tempDest x.dest)).2 := by
      intro heq
      obtain hp | hp := hfrom
      · have hfalse := h.names _ (heq ▸ hp)
        rw [isTemp_tempDest] at hfalse
        cases hfalse
      · exact absurd h.known (by omega)
    refine ⟨(hcontent i hne).trans h.content, Nat.lt_of_lt_of_le h.known hgrow, fun q hq => ?_,
      closed_set h fun heq => hne (Option.some.inj heq).symm⟩
    by_cases heq : q = tempDest x.dest
    · subst heq
      exact absurd (Option.some.inj (hq.symm.trans hself)) hne
    · exact h.names q ((hentry q heq).symm.trans hq)
  | @wrote t bytes job rest k received ht =>
    have hne : i ≠ k := by
      rintro rfl
      exact h.closed t _ ht rfl
    refine ⟨?_, h.known, h.names, closed_set h fun heq => hne (Option.some.inj heq).symm⟩
    exact (Function.update_of_ne hne ..).trans h.content
  | @verified t job x rest k received ht hpin =>
    exact ⟨h.content, h.known, h.names, closed_set h fun heq => h.closed t _ ht heq⟩
  | @refused t task y p ht =>
    have hserved : ({ s with served := y :: s.served } : State).Frozen i body :=
      ⟨h.content, h.known, h.names, h.closed⟩
    exact frozen_ended (frozen_removed hserved p) t task.job
  | @renamed t job x rest k ht htemp =>
    obtain ⟨y, rest', hrest, hy⟩ := hs.handle t _ k ht rfl
    obtain ⟨rfl, -⟩ := List.cons.inj hrest
    obtain ⟨l, hl⟩ := Option.isSome_iff_exists.mp htemp
    obtain rfl := hy.own l hl
    have hne : i ≠ l := by
      rintro rfl
      exact h.closed t _ ht rfl
    refine ⟨h.content, h.known, fun q hq => ?_, closed_set h (Option.some_ne_none i ∘ Eq.symm)⟩
    by_cases hdest : q = x.dest
    · subst hdest
      exact absurd (Option.some.inj (hq.symm.trans (Files.rename_dst hl))) hne
    · by_cases hsrc : q = tempDest x.dest
      · subst hsrc
        exact absurd (hq.symm.trans (Files.rename_src hdest)) (Option.some_ne_none i)
      · exact h.names q ((Files.rename_of_ne hsrc hdest).symm.trans hq)
  | failed ht => exact frozen_ended h _ _
  | dropped ht => exact frozen_ended (frozen_removed h _) _ _
  | completed ht => exact frozen_ended h _ _
  | deleted => exact frozen_removed h _
  | restarted => exact ⟨h.content, h.known, h.names, fun t task ht => (by cases ht)⟩

/-- A file that was at its place once is never written again, also where it is deleted and fetched
anew while an engine has it open. -/
theorem installed_never_rewritten {before after : List Event}
    (h : Runs.exec (step hash) init before = some s)
    (h' : Runs.exec (step hash) s after = some s') (hx : x ∈ job.targets) {i : ℕ}
    (hi : s.disk.entry x.dest = some i) : s'.disk.content i = s.disk.content i := by
  have hs := sound_run h
  have hfrozen : s'.Sound hash ∧ s'.Frozen i (s.disk.content i) :=
    Runs.exec_invariant (I := fun u => u.Sound hash ∧ u.Frozen i (s.disk.content i))
      (fun _ _ _ hu hstep => ⟨sound_step hu.1 hstep, frozen_step hu.1 hu.2 hstep⟩)
      ⟨hs, frozen_of_installed hs hx hi⟩ h'
  exact hfrozen.2.content

/-- Answers of one byte, each with the hash of the file of the bundle that it counts to. -/
def samplePins (body : Body) : String :=
  ((ParakeetVariant.tdtV3Int8.files[(body.headD 0).toNat]?).map (·.sha256)).getD ""

def sampleDest : Path := ["parakeet-tdt-v3-int8", "encoder-model.int8.onnx"]

/-- A wrong answer, a download that a restart cuts off beside another one, and one that goes on to
the second file. -/
def sampleRun : List Event :=
  let int8 : Job := .parakeet .tdtV3Int8
  [.start 0 int8, .create 0, .chunk 0 [9], .start 1 (.sortformer .v2_1), .create 1, .finish 0,
    .start 0 int8, .create 0, .chunk 0 [0], .chunk 1 [7], .restart, .start 2 int8, .create 2,
    .chunk 2 [0], .chunk 2 [5], .finish 2, .rename 2, .create 2, .chunk 2 [1]]

theorem installed_is_whole_sample : ∃ s, Runs.exec (step samplePins) init sampleRun = some s ∧
    ∃ i, s.disk.entry sampleDest = some i ∧ samplePins (s.disk.content i) =
      "6139d2fa7e1b086097b277c7149725edbab89cc7c7ae64b23c741be4055aff09" := by
  have hrun : ∃ s, Runs.exec (step samplePins) init sampleRun = some s ∧
      (s.disk.entry sampleDest).isSome = true := Runs.exec_evaluates (by decide +kernel)
  obtain ⟨s, hs, hsome⟩ := hrun
  obtain ⟨i, hi⟩ := Option.isSome_iff_exists.mp hsome
  have hx : (⟨sampleDest, some "6139d2fa7e1b086097b277c7149725edbab89cc7c7ae64b23c741be4055aff09"⟩ :
      Target) ∈ (Job.parakeet .tdtV3Int8).targets := by decide +kernel
  exact ⟨s, hs, i, hi, (installed_is_whole hs hx hi).2 _ rfl⟩

/-- The bundle is deleted during the download of its second file, and fetched again. -/
def sampleRefetch : List Event :=
  [.delete sampleDest, .fail 2, .start 0 (.parakeet .tdtV3Int8), .create 0, .chunk 0 [0],
    .finish 0, .rename 0]

theorem installed_never_rewritten_sample : ∃ s s' i,
    Runs.exec (step samplePins) init sampleRun = some s ∧
      Runs.exec (step samplePins) s sampleRefetch = some s' ∧
      s.disk.entry sampleDest = some i ∧ s'.disk.content i = s.disk.content i := by
  have hrun : ∃ s, Runs.exec (step samplePins) init sampleRun = some s ∧
      (s.disk.entry sampleDest).isSome = true ∧
      (Runs.exec (step samplePins) s sampleRefetch).isSome = true :=
    Runs.exec_evaluates (by decide +kernel)
  obtain ⟨s, hs, hsome, hafter⟩ := hrun
  obtain ⟨i, hi⟩ := Option.isSome_iff_exists.mp hsome
  obtain ⟨s', hs'⟩ := Option.isSome_iff_exists.mp hafter
  have hx : (⟨sampleDest, some "6139d2fa7e1b086097b277c7149725edbab89cc7c7ae64b23c741be4055aff09"⟩ :
      Target) ∈ (Job.parakeet .tdtV3Int8).targets := by decide +kernel
  exact ⟨s, s', i, hs, hs', hi, installed_never_rewritten hs hs' hx hi⟩

end YapStack.Models.State
