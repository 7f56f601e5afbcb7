import Mathlib.Data.List.Basic
import YapStack.Foundation.Files
import YapStack.Foundation.Runs

set_option linter.unusedSectionVars false

namespace YapStack.Models

/-- A path below `models/`, by its components. -/
abbrev Path := List String

/-- One file of a model bundle, pinned by content. -/
structure ModelFile where
  name : Path
  sha256 : String
  deriving DecidableEq

inductive ParakeetVariant
  | tdtV3Int8
  | tdtV3CoreMl
  deriving DecidableEq

namespace ParakeetVariant

def dirName : ParakeetVariant → String
  | tdtV3Int8 => "parakeet-tdt-v3-int8"
  | tdtV3CoreMl => "parakeet-tdt-v3-coreml"

def files : ParakeetVariant → List ModelFile
  | tdtV3Int8 =>
    [⟨["encoder-model.int8.onnx"],
      "6139d2fa7e1b086097b277c7149725edbab89cc7c7ae64b23c741be4055aff09"⟩,
    ⟨["decoder_joint-model.int8.onnx"],
      "eea7483ee3d1a30375daedc8ed83e3960c91b098812127a0d99d1c8977667a70"⟩,
    ⟨["vocab.txt"], "d58544679ea4bc6ac563d1f545eb7d474bd6cfa467f0a6e2c1dc1c7d37e3c35d"⟩]
  | tdtV3CoreMl =>
    [⟨["Preprocessor.mlmodelc", "coremldata.bin"],
      "dbde3f2300842c1fd51ef3ff948a0bcffe65ffd2dca10707f2509f32c1d65b1d"⟩,
    ⟨["Preprocessor.mlmodelc", "model.mil"],
      "4b8518a956450fec57f06c2a21bdffc26973f7f1fa6842fb38fe917f896b6b93"⟩,
    ⟨["Preprocessor.mlmodelc", "weights", "weight.bin"],
      "129b76e3aeafa8afa3ea76d995b964b145fe83700d579f6ff42c4c38fa0968ea"⟩,
    ⟨["Encoder_v2.mlmodelc", "coremldata.bin"],
      "70628bd4fd25fb554cc0cebc31356723930c885480132bf3ecd1b5dbe71dd0a2"⟩,
    ⟨["Encoder_v2.mlmodelc", "model.mil"],
      "abc621390840dd064e6833dc098101706621e47e17119ead904f8c383211dd1d"⟩,
    ⟨["Encoder_v2.mlmodelc", "weights", "weight.bin"],
      "8d2c79e15a4545e08fe3a21fe741e42b8bf24329db81de8fdfacd92388ea5a66"⟩,
    ⟨["Decoder.mlmodelc", "coremldata.bin"],
      "18647af085d87bd8f3121c8a9b4d4564c1ede038dab63d295b4e745cf2d7fb99"⟩,
    ⟨["Decoder.mlmodelc", "model.mil"],
      "ef2a0a281695398a62fde86ac269c68f73d5b578d7ed3b31f2ba91a2d1ea1f35"⟩,
    ⟨["Decoder.mlmodelc", "weights", "weight.bin"],
      "48adf0f0d47c406c8253d4f7fef967436a39da14f5a65e66d5a4b407be355d41"⟩,
    ⟨["JointDecisionv3.mlmodelc", "coremldata.bin"],
      "f5fc08b741400f0088492c9e839418b1e18522f19cba28d361dd030c5f398342"⟩,
    ⟨["JointDecisionv3.mlmodelc", "model.mil"],
      "be60732943389a047175111a83f8839f3eb39d4803adafa828a0871b2f39818d"⟩,
    ⟨["JointDecisionv3.mlmodelc", "weights", "weight.bin"],
      "4e0e63d840032f7f07ddb1d64446051166281e5491bf22da8a945c41f6eedb3e"⟩,
    ⟨["parakeet_vocab.json"],
      "7ec60e05f1b24480736ec0eed40900f4626bce1fa9a60fd700ec7e2a59198735"⟩]

end ParakeetVariant

inductive SortformerVariant
  | v2_1
  deriving DecidableEq

def SortformerVariant.filename : SortformerVariant → String
  | v2_1 => "diar_streaming_sortformer_4spk-v2.1.onnx"

/-- A file that a download fetches, and its pin. -/
structure Target where
  dest : Path
  sha256 : Option String
  deriving DecidableEq

/-- `download_parakeet` or `download_sortformer`. -/
inductive Job
  | parakeet (variant : ParakeetVariant)
  | sortformer (variant : SortformerVariant)
  deriving DecidableEq

namespace Job

def targets : Job → List Target
  | parakeet v => v.files.map fun f => ⟨v.dirName :: f.name, some f.sha256⟩
  | sortformer v => [⟨[v.filename], none⟩]

/-- What `claim_download` claims. -/
def claim : Job → Path
  | parakeet v => [v.dirName]
  | sortformer v => [v.filename]

/-- A bundle's files that are there already are not fetched again. -/
def skipsExisting : Job → Bool
  | parakeet _ => true
  | sortformer _ => false

def all : List Job := [parakeet .tdtV3Int8, parakeet .tdtV3CoreMl, sortformer .v2_1]

theorem mem_all (j : Job) : j ∈ all := by
  cases j with
  | parakeet v =>
    cases v with
    | tdtV3Int8 => exact List.mem_cons_self
    | tdtV3CoreMl => exact List.mem_cons_of_mem _ List.mem_cons_self
  | sortformer v =>
    cases v with
    | v2_1 => exact List.mem_cons_of_mem _ (List.mem_cons_of_mem _ List.mem_cons_self)

end Job

/-- `Path::file_stem`. -/
def fileStem (name : String) : List Char :=
  match name.toList.reverse.dropWhile (· != '.') with
  | _ :: c :: rest => (c :: rest).reverse
  | _ => name.toList

def downloadExtension : List Char := ['.', 'd', 'o', 'w', 'n', 'l', 'o', 'a', 'd']

/-- `dest.with_extension("download")` -/
def tempDest (dest : Path) : Path :=
  dest.dropLast ++ [String.ofList (fileStem (dest.getLastD "") ++ downloadExtension)]

def isTemp (p : Path) : Bool :=
  p.getLast?.any fun name => downloadExtension.isSuffixOf name.toList

theorem isTemp_tempDest (dest : Path) : isTemp (tempDest dest) = true := by
  rw [isTemp, tempDest, List.getLast?_concat, Option.any_some, String.toList_ofList,
    List.isSuffixOf_iff_suffix]
  exact List.suffix_append _ _

/-- The files that downloads fetch, by their downloads. -/
def catalogue : List (Job × Target) :=
  Job.all.flatMap fun j => j.targets.map fun t => (j, t)

theorem mem_catalogue {j : Job} {t : Target} (ht : t ∈ j.targets) : (j, t) ∈ catalogue :=
  List.mem_flatMap.mpr ⟨j, j.mem_all, List.mem_map.mpr ⟨t, ht, rfl⟩⟩

theorem dest_not_temp {j : Job} {t : Target} (ht : t ∈ j.targets) : isTemp t.dest = false := by
  have hall : (catalogue.all fun x => !isTemp x.2.dest) = true := by decide +kernel
  have hdest := List.all_eq_true.mp hall (j, t) (mem_catalogue ht)
  simpa only [Bool.not_eq_true'] using hdest

theorem tempDest_job {j j' : Job} {t t' : Target} (ht : t ∈ j.targets) (ht' : t' ∈ j'.targets)
    (h : tempDest t.dest = tempDest t'.dest) : j = j' := by
  have hall : (catalogue.all fun x => catalogue.all fun y =>
      !(tempDest x.2.dest == tempDest y.2.dest) || x.1 == y.1) = true := by decide +kernel
  have hrow := List.all_eq_true.mp hall (j, t) (mem_catalogue ht)
  have hcell := List.all_eq_true.mp hrow (j', t') (mem_catalogue ht')
  simpa [h] using hcell

theorem claim_injective {j j' : Job} (h : j.claim = j'.claim) : j = j' := by
  have hall : (Job.all.all fun j => Job.all.all fun j' => !(j.claim == j'.claim) || j == j') =
      true := by decide +kernel
  have hrow := List.all_eq_true.mp hall j j.mem_all
  have hcell := List.all_eq_true.mp hrow j' j'.mem_all
  simpa [h] using hcell

abbrev Body := List UInt8

/-- The files below `models/`: what each path names, and what each file holds, also one that a
handle still has open after it lost its name. -/
structure Disk where
  entry : Path → Option ℕ
  content : ℕ → Body
  fresh : ℕ

/-- `File::create` -/
def Disk.create (d : Disk) (p : Path) : Disk × ℕ :=
  match d.entry p with
  | some i => ({ d with content := Function.update d.content i [] }, i)
  | none =>
    (⟨Files.write d.entry p d.fresh, Function.update d.content d.fresh [], d.fresh + 1⟩, d.fresh)

/-- What holds of the file that a download of the target has open. -/
structure Disk.Handle (d : Disk) (x : Target) (i : ℕ) : Prop where
  known : i < d.fresh
  names : ∀ p, d.entry p = some i → p = tempDest x.dest
  own : ∀ k, d.entry (tempDest x.dest) = some k → k = i

/-- The file is the whole body of an answer for the target, and has the pinned hash. -/
def Good (hash : Body → String) (served : List (Target × Body)) (d : Disk) (x : Target) (i : ℕ) :
    Prop :=
  (x, d.content i) ∈ served ∧ ∀ e, x.sha256 = some e → hash (d.content i) = e

/-- Where a download is with its next file: before the request, in the body of the response with the
bytes that the hasher has read, or at the rename. -/
inductive Phase
  | between
  | writing (file : ℕ) (received : Body)
  | whole (file : ℕ)
  deriving DecidableEq

structure Task where
  job : Job
  rest : List Target
  phase : Phase

def Task.file (task : Task) : Option ℕ :=
  match task.phase with
  | .between => none
  | .writing i _ => some i
  | .whole i => some i

structure State where
  disk : Disk
  task : ℕ → Option Task
  inFlight : Path → Bool
  served : List (Target × Body)

/-- What downloads, deletions and restarts do. A download fails before its request is answered, in
the body, or at the rename. -/
inductive Event
  | start (t : ℕ) (job : Job)
  | skip (t : ℕ)
  | create (t : ℕ)
  | chunk (t : ℕ) (bytes : Body)
  | finish (t : ℕ)
  | rename (t : ℕ)
  | fail (t : ℕ)
  | complete (t : ℕ)
  | delete (p : Path)
  | restart

namespace State

def init : State := ⟨⟨fun _ => none, fun _ => [], 0⟩, fun _ => none, fun _ => false, []⟩

def setTask (s : State) (t : ℕ) (task : Task) : State :=
  { s with task := Function.update s.task t (some task) }

/-- The claim of a download that returns is dropped. -/
def ended (s : State) (t : ℕ) (job : Job) : State :=
  { s with
    task := Function.update s.task t none
    inFlight := Function.update s.inFlight job.claim false }

def removed (s : State) (p : Path) : State :=
  { s with disk := { s.disk with entry := Files.remove s.disk.entry p } }

variable (hash : Body → String)

def step (s : State) : Event → Option State
  | .start t job =>
    if (s.task t).isNone ∧ s.inFlight job.claim = false then
      some { s.setTask t ⟨job, job.targets, .between⟩ with
        inFlight := Function.update s.inFlight job.claim true }
    else none
  | .skip t =>
    match s.task t with
    | some ⟨job, x :: rest, .between⟩ =>
      if job.skipsExisting ∧ (s.disk.entry x.dest).isSome then
        some (s.setTask t ⟨job, rest, .between⟩)
      else none
    | _ => none
  | .create t =>
    match s.task t with
    | some ⟨job, x :: rest, .between⟩ =>
      if job.skipsExisting ∧ (s.disk.entry x.dest).isSome then none
      else
        let (disk, i) := s.disk.create (tempDest x.dest)
        some ({ s with disk := disk }.setTask t ⟨job, x :: rest, .writing i []⟩)
    | _ => none
  | .chunk t bytes =>
    match s.task t with
    | some ⟨job, rest, .writing i received⟩ =>
      some ({ s with disk := { s.disk with
        content := Function.update s.disk.content i (s.disk.content i ++ bytes) } }.setTask t
          ⟨job, rest, .writing i (received ++ bytes)⟩)
    | _ => none
  | .finish t =>
    match s.task t with
    | some ⟨job, x :: rest, .writing i received⟩ =>
      let answered := { s with served := (x, received) :: s.served }
      if x.sha256.all (· == hash received) then
        some (answered.setTask t ⟨job, x :: rest, .whole i⟩)
      else some ((answered.removed (tempDest x.dest)).ended t job)
    | _ => none
  | .rename t =>
    match s.task t with
    | some ⟨job, x :: rest, .whole _⟩ =>
      if (s.disk.entry (tempDest x.dest)).isSome then
        some ({ s with disk := { s.disk with
          entry := Files.rename s.disk.entry (tempDest x.dest) x.dest } }.setTask t
            ⟨job, rest, .between⟩)
      else none
    | _ => none
  | .fail t =>
    match s.task t with
    | some ⟨job, _, .between⟩ => some (s.ended t job)
    | some ⟨job, x :: _, _⟩ => some ((s.removed (tempDest x.dest)).ended t job)
    | _ => none
  | .complete t =>
    match s.task t with
    | some ⟨job, [], .between⟩ => some (s.ended t job)
    | _ => none
  | .delete p => some (s.removed p)
  | .restart => some { s with task := fun _ => none, inFlight := fun _ => false }

structure Sound (s : State) : Prop where
  known : ∀ p i, s.disk.entry p = some i → i < s.disk.fresh
  single : ∀ p q i, s.disk.entry p = some i → s.disk.entry q = some i → p = q
  installed : ∀ j, ∀ x ∈ Job.targets j, ∀ i, s.disk.entry x.dest = some i →
    Good hash s.served s.disk x i
  targets : ∀ t task, s.task t = some task → ∀ x ∈ task.rest, x ∈ task.job.targets
  claimed : ∀ t task, s.task t = some task → s.inFlight task.job.claim = true
  alone : ∀ t t' task task', s.task t = some task → s.task t' = some task' →
    task.job = task'.job → t = t'
  handle : ∀ t task i, s.task t = some task → task.file = some i →
    ∃ x rest, task.rest = x :: rest ∧ s.disk.Handle x i
  received : ∀ t job rest i r, s.task t = some ⟨job, rest, .writing i r⟩ → s.disk.content i = r
  whole : ∀ t job x rest i, s.task t = some ⟨job, x :: rest, .whole i⟩ →
    Good hash s.served s.disk x i
  apart : ∀ t t' task task' i, s.task t = some task → s.task t' = some task' →
    task.file = some i → task'.file = some i → t = t'

variable {hash} {s s' : State} {t : ℕ} {job : Job} {x : Target} {rest : List Target} {p : Path}

theorem task_set (s : State) (t : ℕ) (task : Task) (t' : ℕ) :
    (s.setTask t task).task t' = if t' = t then some task else s.task t' := by
  by_cases h : t' = t
  · subst h
    simp [setTask]
  · simp [setTask, h]

theorem task_ended {t' : ℕ} {task : Task} (h : (s.ended t job).task t' = some task) :
    t' ≠ t ∧ s.task t' = some task := by
  by_cases ht : t' = t
  · subst ht
    simp [ended] at h
  · refine ⟨ht, ?_⟩
    simpa [ended, ht] using h

theorem sound_init : init.Sound hash :=
  ⟨fun p i h => (by cases h), fun p q i h => (by cases h), fun j x hx i h => (by cases h),
    fun t task h => (by cases h), fun t task h => (by cases h),
    fun t t' task task' h => (by cases h), fun t task i h => (by cases h),
    fun t job rest i r h => (by cases h), fun t job x rest i h => (by cases h),
    fun t t' task task' i h => (by cases h)⟩

theorem entry_removed {i : ℕ} {q : Path} (h : (s.removed p).disk.entry q = some i) :
    s.disk.entry q = some i := by
  by_cases hq : q = p
  · subst hq
    simp [removed, Files.remove] at h
  · simpa [removed, Files.remove, hq] using h

theorem sound_removed (h : s.Sound hash) (p : Path) : (s.removed p).Sound hash := by
  refine ⟨fun q i hq => h.known q i (entry_removed hq),
    fun q r i hq hr => h.single q r i (entry_removed hq) (entry_removed hr),
    fun j x hx i hi => h.installed j x hx i (entry_removed hi), h.targets, h.claimed, h.alone,
    fun t task i ht hi => ?_, h.received, h.whole, h.apart⟩
  obtain ⟨x, rest, hrest, hx⟩ := h.handle t task i ht hi
  exact ⟨x, rest, hrest, hx.known, fun q hq => hx.names q (entry_removed hq),
    fun k hk => hx.own k (entry_removed hk)⟩

/-- Only the download that ends has its claim. -/
theorem sound_ended (h : s.Sound hash) {task : Task} (ht : s.task t = some task) :
    (s.ended t task.job).Sound hash := by
  refine ⟨h.known, h.single, h.installed, fun t' task' ht' => h.targets t' task' (task_ended ht').2,
    fun t' task' ht' => ?_,
    fun t₁ t₂ task₁ task₂ h₁ h₂ => h.alone t₁ t₂ task₁ task₂ (task_ended h₁).2 (task_ended h₂).2,
    fun t' task' i ht' => h.handle t' task' i (task_ended ht').2,
    fun t' job rest i r ht' => h.received t' job rest i r (task_ended ht').2,
    fun t' job x rest i ht' => h.whole t' job x rest i (task_ended ht').2,
    fun t₁ t₂ task₁ task₂ i h₁ h₂ =>
      h.apart t₁ t₂ task₁ task₂ i (task_ended h₁).2 (task_ended h₂).2⟩
  obtain ⟨hne, ht'⟩ := task_ended ht'
  have hclaim : task'.job.claim ≠ task.job.claim := by
    intro heq
    exact hne (h.alone t' t task' task ht' ht (claim_injective heq))
  have hsame : (s.ended t task.job).inFlight task'.job.claim = s.inFlight task'.job.claim :=
    Function.update_of_ne hclaim ..
  rw [hsame]
  exact h.claimed t' task' ht'

theorem sound_start (h : s.Sound hash) (hnone : s.task t = none)
    (hfree : s.inFlight job.claim = false) :
    ({ s.setTask t ⟨job, job.targets, .between⟩ with
      inFlight := Function.update s.inFlight job.claim true } : State).Sound hash := by
  have hclaims : ∀ p, s.inFlight p = true → Function.update s.inFlight job.claim true p = true := by
    intro p hp
    by_cases heq : p = job.claim
    · rw [heq, Function.update_self]
    · rwa [Function.update_of_ne heq]
  have hold : ∀ {t' task'}, (s.setTask t ⟨job, job.targets, .between⟩).task t' = some task' →
      t' = t ∧ task' = ⟨job, job.targets, .between⟩ ∨ t' ≠ t ∧ s.task t' = some task' := by
    intro t' task' ht'
    rw [task_set] at ht'
    split at ht'
    · rename_i heq
      exact .inl ⟨heq, (Option.some.inj ht').symm⟩
    · rename_i hne
      exact .inr ⟨hne, ht'⟩
  have hother : ∀ {t' task'}, s.task t' = some task' → task'.job ≠ job := by
    intro t' task' ht' heq
    have hclaimed := h.claimed t' task' ht'
    rw [heq, hfree] at hclaimed
    cases hclaimed
  refine ⟨h.known, h.single, h.installed, fun t' task' ht' => ?_, fun t' task' ht' => ?_,
    fun t₁ t₂ task₁ task₂ h₁ h₂ hjob => ?_, fun t' task' i ht' hi => ?_,
    fun t' job' rest i r ht' => ?_, fun t' job' x rest i ht' => ?_,
    fun t₁ t₂ task₁ task₂ i h₁ h₂ hi₁ hi₂ => ?_⟩
  · obtain ⟨-, rfl⟩ | ⟨-, ht'⟩ := hold ht'
    · exact fun x hx => hx
    · exact h.targets t' task' ht'
  · obtain ⟨-, rfl⟩ | ⟨-, ht'⟩ := hold ht'
    · exact Function.update_self ..
    · exact hclaims _ (h.claimed t' task' ht')
  · obtain ⟨rfl, rfl⟩ | ⟨-, h₁⟩ := hold h₁
    · obtain ⟨rfl, -⟩ | ⟨-, h₂⟩ := hold h₂
      · rfl
      · exact absurd hjob.symm (hother h₂)
    · obtain ⟨-, rfl⟩ | ⟨-, h₂⟩ := hold h₂
      · exact absurd hjob (hother h₁)
      · exact h.alone t₁ t₂ task₁ task₂ h₁ h₂ hjob
  · obtain ⟨-, rfl⟩ | ⟨-, ht'⟩ := hold ht'
    · cases hi
    · exact h.handle t' task' i ht' hi
  · obtain ⟨-, heq⟩ | ⟨-, ht'⟩ := hold ht'
    · cases congrArg Task.phase heq
    · exact h.received t' job' rest i r ht'
  · obtain ⟨-, heq⟩ | ⟨-, ht'⟩ := hold ht'
    · cases congrArg Task.phase heq
    · exact h.whole t' job' x rest i ht'
  · obtain ⟨-, rfl⟩ | ⟨-, h₁⟩ := hold h₁
    · cases hi₁
    · obtain ⟨-, rfl⟩ | ⟨-, h₂⟩ := hold h₂
      · cases hi₂
      · exact h.apart t₁ t₂ task₁ task₂ i h₁ h₂ hi₁ hi₂

/-- A download that goes on with the files it had, on a disk that serves all others as before. -/
theorem sound_moved (h : s.Sound hash) {task : Task} (ht : s.task t = some task) (task' : Task)
    (hjob : task'.job = task.job) (hrest : ∀ x ∈ task'.rest, x ∈ task.rest) {disk : Disk}
    {served : List (Target × Body)} (hserved : ∀ y ∈ s.served, y ∈ served)
    (hknown : ∀ p i, disk.entry p = some i → i < disk.fresh)
    (hsingle : ∀ p q i, disk.entry p = some i → disk.entry q = some i → p = q)
    (hinstalled : ∀ j, ∀ x ∈ Job.targets j, ∀ i, disk.entry x.dest = some i →
      Good hash served disk x i)
    (hothers : ∀ t' other i, t' ≠ t → s.task t' = some other → other.file = some i →
      (∀ x rest, other.rest = x :: rest → s.disk.Handle x i → disk.Handle x i) ∧
        disk.content i = s.disk.content i ∧ task'.file ≠ some i)
    (hhandle : ∀ i, task'.file = some i → ∃ x rest, task'.rest = x :: rest ∧ disk.Handle x i)
    (hreceived : ∀ i r, task'.phase = .writing i r → disk.content i = r)
    (hwhole : ∀ x rest i, task'.rest = x :: rest → task'.phase = .whole i →
      Good hash served disk x i) :
    ({ s with disk := disk, served := served }.setTask t task').Sound hash := by
  have hold : ∀ {t' other}, ({ s with disk := disk, served := served }.setTask t task').task t' =
      some other → t' = t ∧ other = task' ∨ t' ≠ t ∧ s.task t' = some other := by
    intro t' other ht'
    rw [task_set] at ht'
    split at ht'
    · rename_i heq
      exact .inl ⟨heq, (Option.some.inj ht').symm⟩
    · rename_i hne
      exact .inr ⟨hne, ht'⟩
  refine ⟨hknown, hsingle, hinstalled, fun t' other ht' => ?_, fun t' other ht' => ?_,
    fun t₁ t₂ task₁ task₂ h₁ h₂ heq => ?_, fun t' other i ht' hi => ?_,
    fun t' job rest i r ht' => ?_, fun t' job x rest i ht' => ?_,
    fun t₁ t₂ task₁ task₂ i h₁ h₂ hi₁ hi₂ => ?_⟩
  · obtain ⟨-, rfl⟩ | ⟨-, ht'⟩ := hold ht'
    · rw [hjob]
      exact fun x hx => h.targets t task ht x (hrest x hx)
    · exact h.targets t' other ht'
  · obtain ⟨-, rfl⟩ | ⟨-, ht'⟩ := hold ht'
    · rw [hjob]
      exact h.claimed t task ht
    · exact h.claimed t' other ht'
  · obtain ⟨rfl, rfl⟩ | ⟨hne₁, hold₁⟩ := hold h₁
    · obtain ⟨rfl, -⟩ | ⟨hne, hold₂⟩ := hold h₂
      · rfl
      · exact h.alone t₁ t₂ task task₂ ht hold₂ (hjob.symm.trans heq)
    · obtain ⟨rfl, rfl⟩ | ⟨-, hold₂⟩ := hold h₂
      · exact h.alone t₁ t₂ task₁ task hold₁ ht (heq.trans hjob)
      · exact h.alone t₁ t₂ task₁ task₂ hold₁ hold₂ heq
  · obtain ⟨-, rfl⟩ | ⟨hne, ht'⟩ := hold ht'
    · exact hhandle i hi
    · obtain ⟨x, rest, hr, hx⟩ := h.handle t' other i ht' hi
      exact ⟨x, rest, hr, (hothers t' other i hne ht' hi).1 x rest hr hx⟩
  · obtain ⟨-, rfl⟩ | ⟨hne, ht'⟩ := hold ht'
    · exact hreceived i r rfl
    · exact (hothers t' _ i hne ht' rfl).2.1.trans (h.received t' job rest i r ht')
  · obtain ⟨-, rfl⟩ | ⟨hne, ht'⟩ := hold ht'
    · exact hwhole x rest i rfl rfl
    · obtain ⟨hmem, hpin⟩ := h.whole t' job x rest i ht'
      have hsame := (hothers t' _ i hne ht' rfl).2.1
      rw [← hsame] at hmem hpin
      exact ⟨hserved _ hmem, hpin⟩
  · obtain ⟨rfl, rfl⟩ | ⟨hne₁, hold₁⟩ := hold h₁
    · obtain ⟨rfl, -⟩ | ⟨hne, hold₂⟩ := hold h₂
      · rfl
      · exact absurd hi₁ (hothers t₂ task₂ i hne hold₂ hi₂).2.2
    · obtain ⟨rfl, rfl⟩ | ⟨-, hold₂⟩ := hold h₂
      · exact absurd hi₂ (hothers t₁ task₁ i hne₁ hold₁ hi₁).2.2
      · exact h.apart t₁ t₂ task₁ task₂ i hold₁ hold₂ hi₁ hi₂

theorem good_mono {served served' : List (Target × Body)} {d : Disk} {i : ℕ}
    (h : Good hash served d x i) (hs : ∀ y ∈ served, y ∈ served') : Good hash served' d x i :=
  ⟨hs _ h.1, h.2⟩

theorem sound_served (h : s.Sound hash) (y : Target × Body) :
    ({ s with served := y :: s.served } : State).Sound hash :=
  ⟨h.known, h.single,
    fun j x hx i hi => good_mono (h.installed j x hx i hi) fun _ hz => List.mem_cons_of_mem y hz,
    h.targets, h.claimed, h.alone, h.handle, h.received,
    fun t job x rest i ht =>
      good_mono (h.whole t job x rest i ht) fun _ hz => List.mem_cons_of_mem y hz,
    h.apart⟩

theorem sound_skip (h : s.Sound hash) (ht : s.task t = some ⟨job, x :: rest, .between⟩) :
    (s.setTask t ⟨job, rest, .between⟩).Sound hash := by
  apply sound_moved h ht ⟨job, rest, .between⟩ rfl (fun y hy => List.mem_cons_of_mem x hy)
    (fun y hy => hy) h.known h.single h.installed
  · exact fun t' other i _ _ _ => ⟨fun _ _ _ hx => hx, rfl, Option.some_ne_none i ∘ Eq.symm⟩
  · intro i hi
    cases hi
  · intro i r hr
    cases hr
  · intro y rest' i _ hi
    cases hi

/-- What `File::create` does to a disk. -/
theorem create_spec (d : Disk) (p : Path) (hknown : ∀ q i, d.entry q = some i → i < d.fresh) :
    (d.create p).1.entry p = some (d.create p).2 ∧
      (∀ q, q ≠ p → (d.create p).1.entry q = d.entry q) ∧
      (d.create p).1.content (d.create p).2 = [] ∧
      (∀ i, i ≠ (d.create p).2 → (d.create p).1.content i = d.content i) ∧
      (d.create p).2 < (d.create p).1.fresh ∧ d.fresh ≤ (d.create p).1.fresh ∧
      (d.entry p = some (d.create p).2 ∨ (d.create p).2 = d.fresh) := by
  rw [Disk.create]
  cases hp : d.entry p with
  | some i =>
    exact ⟨hp, fun q _ => rfl, Function.update_self .., fun k hk => Function.update_of_ne hk ..,
      hknown p i hp, Nat.le_refl _, .inl rfl⟩
  | none =>
    exact ⟨Files.write_self .., fun q hq => Files.write_of_ne hq, Function.update_self ..,
      fun k hk => Function.update_of_ne hk .., Nat.lt_succ_self _, Nat.le_succ _, .inr rfl⟩

/-- Two downloads never have one temporary file. -/
theorem temp_ne {task other : Task} {t' : ℕ} {y : Target} {rest' : List Target}
    (h : s.Sound hash) (ht : s.task t = some task) (ht' : s.task t' = some other) (hne : t' ≠ t)
    (hx : task.rest = x :: rest) (hy : other.rest = y :: rest') :
    tempDest y.dest ≠ tempDest x.dest := by
  intro heq
  have hmem : x ∈ task.job.targets := h.targets t task ht x (hx ▸ List.mem_cons_self)
  have hmem' : y ∈ other.job.targets := h.targets t' other ht' y (hy ▸ List.mem_cons_self)
  exact hne (h.alone t' t other task ht' ht (tempDest_job hmem' hmem heq))

theorem dest_ne_temp {j : Job} {y : Target} (hy : y ∈ j.targets) (x : Target) :
    y.dest ≠ tempDest x.dest := by
  intro heq
  have hfalse := dest_not_temp hy
  rw [heq, isTemp_tempDest] at hfalse
  cases hfalse

theorem sound_create (h : s.Sound hash) (ht : s.task t = some ⟨job, x :: rest, .between⟩) :
    ({ s with disk := (s.disk.create (tempDest x.dest)).1 }.setTask t
      ⟨job, x :: rest, .writing (s.disk.create (tempDest x.dest)).2 []⟩).Sound hash := by
  obtain ⟨hself, hentry, hempty, hcontent, hfresh, hgrow, hfrom⟩ :=
    create_spec s.disk (tempDest x.dest) h.known
  generalize s.disk.create (tempDest x.dest) = created at *
  obtain ⟨disk, i⟩ := created
  dsimp only at hself hentry hempty hcontent hfresh hgrow hfrom ⊢
  -- the file had no other name, and no name at all if it is new
  have honly : ∀ q, s.disk.entry q = some i → q = tempDest x.dest := by
    intro q hq
    obtain hp | rfl := hfrom
    · exact h.single q _ i hq hp
    · exact absurd (h.known q _ hq) (Nat.lt_irrefl _)
  have hnames : ∀ q k, disk.entry q = some k → q = tempDest x.dest ∧ k = i ∨
      q ≠ tempDest x.dest ∧ k ≠ i ∧ s.disk.entry q = some k := by
    intro q k hq
    by_cases heq : q = tempDest x.dest
    · rw [heq, hself] at hq
      exact .inl ⟨heq, (Option.some.inj hq).symm⟩
    · rw [hentry q heq] at hq
      refine .inr ⟨heq, ?_, hq⟩
      rintro rfl
      exact heq (honly q hq)
  apply sound_moved h ht ⟨job, x :: rest, .writing i []⟩ rfl (fun y hy => hy) (fun y hy => hy)
  · intro q k hq
    obtain ⟨-, rfl⟩ | ⟨-, -, hq⟩ := hnames q k hq
    · exact hfresh
    · exact Nat.lt_of_lt_of_le (h.known q k hq) hgrow
  · intro q r k hq hr
    obtain ⟨rfl, rfl⟩ | ⟨-, hne, hq⟩ := hnames q k hq
    · obtain ⟨rfl, -⟩ | ⟨-, hne, -⟩ := hnames r k hr
      · rfl
      · exact absurd rfl hne
    · obtain ⟨-, heq⟩ | ⟨-, -, hr⟩ := hnames r k hr
      · exact absurd heq hne
      · exact h.single q r k hq hr
  · intro j y hy k hk
    obtain ⟨heq, -⟩ | ⟨-, hne, hk⟩ := hnames y.dest k hk
    · exact absurd heq (dest_ne_temp hy x)
    · have hgood := h.installed j y hy k hk
      rw [Good, ← hcontent k hne] at hgood
      exact hgood
  · intro t' other k hne ht' hk
    obtain ⟨y, rest', hrest, hy⟩ := h.handle t' other k ht' hk
    have htemp := temp_ne h ht ht' hne rfl hrest
    have hki : k ≠ i := by
      rintro rfl
      obtain hp | rfl := hfrom
      · exact htemp (hy.names _ hp).symm
      · exact Nat.lt_irrefl _ hy.known
    refine ⟨fun z rest'' hz _ => ?_, hcontent k hki, fun heq => hki (Option.some.inj heq).symm⟩
    obtain ⟨rfl, -⟩ := List.cons.inj (hrest.symm.trans hz)
    refine ⟨Nat.lt_of_lt_of_le hy.known hgrow, fun q hq => ?_, fun l hl => ?_⟩
    · obtain ⟨-, rfl⟩ | ⟨-, -, hq⟩ := hnames q k hq
      · exact absurd rfl hki
      · exact hy.names q hq
    · obtain ⟨heq, -⟩ | ⟨-, -, hl⟩ := hnames _ l hl
      · exact absurd heq htemp
      · exact hy.own l hl
  · intro k hk
    obtain rfl := Option.some.inj hk
    refine ⟨x, rest, rfl, hfresh, fun q hq => ?_, fun l hl => ?_⟩
    · obtain ⟨heq, -⟩ | ⟨-, hne, -⟩ := hnames q i hq
      · exact heq
      · exact absurd rfl hne
    · rw [hself] at hl
      exact (Option.some.inj hl).symm
  · intro k r hr
    obtain ⟨rfl, rfl⟩ := Phase.writing.inj hr
    exact hempty
  · intro y rest' k _ hk
    cases hk

theorem sound_chunk (h : s.Sound hash) {i : ℕ} {received : Body}
    (ht : s.task t = some ⟨job, rest, .writing i received⟩) (bytes : Body) :
    ({ s with disk := { s.disk with
      content := Function.update s.disk.content i (s.disk.content i ++ bytes) } }.setTask t
        ⟨job, rest, .writing i (received ++ bytes)⟩).Sound hash := by
  obtain ⟨x, rest', hrest, hx⟩ := h.handle t _ i ht rfl
  have hother : ∀ k, k ≠ i →
      Function.update s.disk.content i (s.disk.content i ++ bytes) k = s.disk.content k :=
    fun k hk => Function.update_of_ne hk ..
  apply sound_moved h ht ⟨job, rest, .writing i (received ++ bytes)⟩ rfl (fun y hy => hy)
    (fun y hy => hy)
  · exact h.known
  · exact h.single
  · intro j y hy k hk
    have hki : k ≠ i := by
      rintro rfl
      exact dest_ne_temp hy x (hx.names _ hk)
    have hgood := h.installed j y hy k hk
    rw [Good, ← hother k hki] at hgood
    exact hgood
  · intro t' other k hne ht' hk
    have hki : k ≠ i := by
      rintro rfl
      exact hne (h.apart t' t other _ k ht' ht hk rfl)
    exact ⟨fun _ _ _ hy => ⟨hy.known, hy.names, hy.own⟩, hother k hki,
      fun heq => hki (Option.some.inj heq).symm⟩
  · intro k hk
    obtain rfl := Option.some.inj hk
    exact ⟨x, rest', hrest, hx.known, hx.names, hx.own⟩
  · intro k r hr
    obtain ⟨rfl, rfl⟩ := Phase.writing.inj hr
    dsimp only
    rw [Function.update_self, h.received t job rest i received ht]
  · intro y rest' k _ hk
    cases hk

theorem sound_finish (h : s.Sound hash) {i : ℕ} {received : Body}
    (ht : s.task t = some ⟨job, x :: rest, .writing i received⟩)
    (hpin : x.sha256.all (· == hash received) = true) :
    ({ s with served := (x, received) :: s.served }.setTask t ⟨job, x :: rest, .whole i⟩).Sound
      hash := by
  have hcontent := h.received t job _ i received ht
  apply sound_moved h ht ⟨job, x :: rest, .whole i⟩ rfl (fun y hy => hy)
    (fun y hy => List.mem_cons_of_mem _ hy) h.known h.single
  · exact fun j y hy k hk =>
      good_mono (h.installed j y hy k hk) fun z hz => List.mem_cons_of_mem _ hz
  · intro t' other k hne ht' hk
    refine ⟨fun _ _ _ hy => hy, rfl, fun heq => ?_⟩
    obtain rfl := Option.some.inj heq
    exact hne (h.apart t' t other _ i ht' ht hk rfl)
  · intro k hk
    obtain rfl := Option.some.inj hk
    exact h.handle t ⟨job, x :: rest, .writing i received⟩ i ht rfl
  · intro k r hr
    cases hr
  · intro y rest' k hy hk
    obtain ⟨rfl, -⟩ := List.cons.inj hy
    obtain rfl := Phase.whole.inj hk
    refine ⟨?_, fun e he => ?_⟩
    · rw [hcontent]
      exact List.mem_cons_self
    · rw [he] at hpin
      rw [hcontent]
      exact (beq_iff_eq.mp (by simpa using hpin)).symm

theorem target_of_dest {j j' : Job} {x y : Target} (hx : x ∈ j.targets) (hy : y ∈ j'.targets)
    (h : x.dest = y.dest) : x = y := by
  have hall : (catalogue.all fun a => catalogue.all fun b =>
      !(a.2.dest == b.2.dest) || a.2 == b.2) = true := by decide +kernel
  have hrow := List.all_eq_true.mp hall (j, x) (mem_catalogue hx)
  have hcell := List.all_eq_true.mp hrow (j', y) (mem_catalogue hy)
  simpa [h] using hcell

theorem sound_rename (h : s.Sound hash) {i : ℕ} (ht : s.task t = some ⟨job, x :: rest, .whole i⟩)
    (htemp : (s.disk.entry (tempDest x.dest)).isSome = true) :
    ({ s with disk := { s.disk with
      entry := Files.rename s.disk.entry (tempDest x.dest) x.dest } }.setTask t
        ⟨job, rest, .between⟩).Sound hash := by
  have hmem : x ∈ job.targets := h.targets t _ ht x List.mem_cons_self
  obtain ⟨z, rest', hrest, hx⟩ := h.handle t _ i ht rfl
  obtain ⟨rfl, -⟩ := List.cons.inj hrest
  obtain ⟨k, hk⟩ := Option.isSome_iff_exists.mp htemp
  obtain rfl := hx.own k hk
  have hnames : ∀ q l, Files.rename s.disk.entry (tempDest x.dest) x.dest q = some l →
      q = x.dest ∧ l = k ∨ q ≠ x.dest ∧ q ≠ tempDest x.dest ∧ s.disk.entry q = some l := by
    intro q l hq
    by_cases hdest : q = x.dest
    · rw [hdest, Files.rename_dst hk] at hq
      exact .inl ⟨hdest, (Option.some.inj hq).symm⟩
    · by_cases hsrc : q = tempDest x.dest
      · rw [hsrc, Files.rename_src (dest_ne_temp hmem x).symm] at hq
        cases hq
      · rw [Files.rename_of_ne hsrc hdest] at hq
        exact .inr ⟨hdest, hsrc, hq⟩
  apply sound_moved h ht ⟨job, rest, .between⟩ rfl (fun y hy => List.mem_cons_of_mem x hy)
    (fun y hy => hy)
  · intro q l hq
    obtain ⟨-, rfl⟩ | ⟨-, -, hq⟩ := hnames q l hq
    · exact hx.known
    · exact h.known q l hq
  · intro q r l hq hr
    obtain ⟨rfl, rfl⟩ | ⟨-, hsrc, hq⟩ := hnames q l hq
    · obtain ⟨rfl, -⟩ | ⟨-, hsrc, hr⟩ := hnames r l hr
      · rfl
      · exact absurd (hx.names r hr) hsrc
    · obtain ⟨-, rfl⟩ | ⟨-, -, hr⟩ := hnames r l hr
      · exact absurd (hx.names q hq) hsrc
      · exact h.single q r l hq hr
  · intro j y hy l hl
    obtain ⟨heq, rfl⟩ | ⟨-, -, hl⟩ := hnames y.dest l hl
    · obtain rfl := target_of_dest hmem hy heq.symm
      exact h.whole t job x rest l ht
    · exact h.installed j y hy l hl
  · intro t' other l hne ht' hl
    have hlk : l ≠ k := by
      rintro rfl
      exact hne (h.apart t' t other _ l ht' ht hl rfl)
    refine ⟨fun y rest'' hrest' hy => ⟨hy.known, fun q hq => ?_, fun m hm => ?_⟩, rfl,
      Option.some_ne_none l ∘ Eq.symm⟩
    · obtain ⟨-, rfl⟩ | ⟨-, -, hq⟩ := hnames q l hq
      · exact absurd rfl hlk
      · exact hy.names q hq
    · obtain ⟨heq, -⟩ | ⟨-, -, hm⟩ := hnames _ m hm
      · exact absurd heq.symm (dest_ne_temp hmem y)
      · exact hy.own m hm
  · intro l hl
    cases hl
  · intro l r hr
    cases hr
  · intro y rest'' l _ hl
    cases hl

theorem sound_restart (h : s.Sound hash) :
    ({ s with task := fun _ => none, inFlight := fun _ => false } : State).Sound hash :=
  ⟨h.known, h.single, h.installed, fun t task ht => (by cases ht), fun t task ht => (by cases ht),
    fun t t' task task' ht => (by cases ht), fun t task i ht => (by cases ht),
    fun t job rest i r ht => (by cases ht), fun t job x rest i ht => (by cases ht),
    fun t t' task task' i ht => (by cases ht)⟩

end State

end YapStack.Models
