import Mathlib.Data.Fintype.Basic
import Mathlib.Logic.Function.Basic
import YapStack.Foundation.Runs

set_option linter.unusedSectionVars false

namespace YapStack.Upload

section Queue

inductive UploadState
  | pending
  | sealing
  | uploading
  | done
  | failed
  deriving DecidableEq

/-- `normal` for new recordings, `backfill` for those that the walk finds. -/
inductive Priority
  | normal
  | backfill
  deriving DecidableEq

/-- The two tables whose rows are audio parts. -/
inductive Source
  | sessionAudioParts
  | dictationHistory
  deriving DecidableEq

/-- A row of one of them. A dictation is its own session. -/
structure PartRow (Id Path : Type) where
  source : Source
  id : Id
  session : Id
  file : Option Path
  deriving DecidableEq

/-- A row of `_yapstack_audio_upload_queue`. -/
structure QueueEntry (Id Path : Type) where
  part : Id
  sourcePath : Path
  session : Id
  priority : Priority
  state : UploadState
  attempts : ℕ
  deriving DecidableEq

/-- Where the lane of an uploader stands between two of its statements. -/
inductive Pc (Id Path Hash : Type)
  | reset
  | retry
  | walk
  | parts (todo : List (PartRow Id Path)) (skipped : Bool)
  | dictations (todo : List (PartRow Id Path)) (skipped : Bool)
  | ready
  | picked (e : QueueEntry Id Path)
  | dropping (e : QueueEntry Id Path)
  | upload (e : QueueEntry Id Path)
  | sealing (e : QueueEntry Id Path)
  | presign (e : QueueEntry Id Path) (sha256 : Hash)
  | put (e : QueueEntry Id Path) (sha256 : Hash)
  | uploaded (e : QueueEntry Id Path)
  | failing (e : QueueEntry Id Path)
  deriving DecidableEq

/-- The entry that is about to be dropped. -/
def Pc.drops {Id Path Hash : Type} : Pc Id Path Hash → Option (QueueEntry Id Path)
  | .dropping e => some e
  | _ => none

structure Lane (Id Path Hash Tenant : Type) where
  tenant : Tenant
  pc : Pc Id Path Hash

/-- One device and the relay. `walkDoneAt` counts the writes of the walk's marker. `steady` holds the parts that were there, with their file, when
the last walk read its tables and have been since; `covered` those that a walk of this binding
was marked complete with, or that were enqueued on save under it, and whose row has stayed. -/
structure State (Id Path Hash Tenant : Type) (lanes : ℕ) where
  bound : Option Tenant
  rows : List (PartRow Id Path)
  files : Path → Bool
  queue : List (QueueEntry Id Path)
  walkDoneAt : ℕ
  lane : Fin lanes → Option (Lane Id Path Hash Tenant)
  objectOf : Tenant → Id → Option Hash
  stored : Tenant → Hash → Bool
  steady : List (Id × Path)
  covered : List Id

/-- One statement of a lane. `busy` is a database that stays locked through every retry; a
request may reach the relay without its answer coming back. -/
inductive Act (Id Hash : Type)
  | resetInFlight (busy : Bool)
  | retryFailed (busy : Bool)
  | readParts
  | examine (busy : Bool)
  | readDictations
  | finishWalk (busy : Bool)
  | abandonWalk
  | nextReady (part : Id)
  | partSourceExists
  | deleteEntry
  | setSealing (busy : Bool)
  | sealBlob (sha256 : Option Hash)
  | presignAudio (reached answered : Bool)
  | putAudio (reached answered : Bool)
  | setDone
  | markFailed
  | giveUp
  deriving DecidableEq

inductive Event (Id Path Hash Tenant : Type) (lanes : ℕ)
  | saveRow (r : PartRow Id Path)
  | deleteRow (source : Source) (id : Id)
  | setFile (path : Path) (present : Bool)
  | enqueueOnSave (part : Id) (path : Path) (session : Id)
  | retryFailedUploads
  | reconcileAccountBinding (tenant : Tenant)
  | spawnAudioUploader (i : Fin lanes)
  | act (i : Fin lanes) (a : Act Id Hash)
  | exit (i : Fin lanes)
  deriving DecidableEq

variable {Id Path Hash Tenant : Type} [DecidableEq Id] [DecidableEq Path] [DecidableEq Hash]
variable [DecidableEq Tenant] {lanes : ℕ}

section Queue

variable (q : List (QueueEntry Id Path))

def has (p : Id) : Bool := q.any (fun e => e.part = p)

/-- `INSERT OR IGNORE` -/
def enqueue (p : Id) (path : Path) (session : Id) (priority : Priority) :
    List (QueueEntry Id Path) :=
  if has q p then q else q ++ [⟨p, path, session, priority, .pending, 0⟩]

def setState (p : Id) (state : UploadState) : List (QueueEntry Id Path) :=
  q.map (fun e => if e.part = p then { e with state := state } else e)

def markFailed (p : Id) : List (QueueEntry Id Path) :=
  q.map (fun e => if e.part = p then { e with state := .failed, attempts := e.attempts + 1 } else e)

def deleteEntry (p : Id) : List (QueueEntry Id Path) := q.filter (fun e => e.part ≠ p)

def resetInFlight : List (QueueEntry Id Path) :=
  q.map (fun e =>
    if e.state = .sealing ∨ e.state = .uploading then { e with state := .pending } else e)

def retryFailed : List (QueueEntry Id Path) :=
  q.map (fun e => if e.state = .failed then { e with state := .pending } else e)

/-- A pending entry, none of a higher priority waiting. -/
def nextReady (p : Id) : Option (QueueEntry Id Path) :=
  let pending := q.filter (fun e => e.state = .pending)
  (pending.find? (fun e => e.part = p)).filter (fun e =>
    e.priority = .normal || pending.all (fun e' => e'.priority = .backfill))

end Queue

namespace State

variable (s : State Id Path Hash Tenant lanes)

def partSourceExists (p : Id) : Bool := s.rows.any (fun r => r.id = p)

/-- The row's file is on this device. -/
def isLocal (r : PartRow Id Path) : Bool := r.file.any s.files

/-- The tenant's relay maps the part to an object it holds. -/
def holdsAudio (t : Tenant) (p : Id) : Bool := (s.objectOf t p).any (s.stored t)

/-- The rows of one table that name a file. -/
def walkSource (source : Source) : List (PartRow Id Path) :=
  s.rows.filter (fun r => r.source = source && r.file.isSome)

/-- The parts of the rows whose file is there. -/
def present (rows : List (PartRow Id Path)) : List (Id × Path) :=
  rows.filterMap (fun r => (r.file.filter s.files).map (fun path => (r.id, path)))

def setLane (i : Fin lanes) (l : Option (Lane Id Path Hash Tenant)) :
    State Id Path Hash Tenant lanes :=
  { s with lane := Function.update s.lane i l }

/-- One part of the walk: `enqueue_or_skip` where the file exists. -/
def examine (r : PartRow Id Path) (busy : Bool) : List (QueueEntry Id Path) × Bool :=
  match r.file with
  | none => (s.queue, false)
  | some path =>
    if !s.files path then (s.queue, false)
    else if busy then (s.queue, true)
    else (enqueue s.queue r.id path r.session .backfill, false)

def laneStep (i : Fin lanes) (tenant : Tenant) :
    Pc Id Path Hash → Act Id Hash → Option (State Id Path Hash Tenant lanes)
  | .reset, .resetInFlight busy =>
    some ({ s with queue := if busy then s.queue else resetInFlight s.queue }.setLane i
      (some ⟨tenant, .retry⟩))
  | .retry, .retryFailed busy =>
    some ({ s with queue := if busy then s.queue else retryFailed s.queue }.setLane i
      (some ⟨tenant, .walk⟩))
  | .walk, .readParts =>
    let rows := s.walkSource .sessionAudioParts
    some ({ s with steady := s.present rows }.setLane i (some ⟨tenant, .parts rows false⟩))
  | .parts (r :: todo) skipped, .examine busy =>
    let (queue, skip) := s.examine r busy
    some ({ s with queue := queue }.setLane i (some ⟨tenant, .parts todo (skipped || skip)⟩))
  | .parts [] skipped, .readDictations =>
    let rows := s.walkSource .dictationHistory
    some ({ s with steady := s.steady ++ s.present rows }.setLane i
      (some ⟨tenant, .dictations rows skipped⟩))
  | .dictations (r :: todo) skipped, .examine busy =>
    let (queue, skip) := s.examine r busy
    some ({ s with queue := queue }.setLane i (some ⟨tenant, .dictations todo (skipped || skip)⟩))
  | .dictations [] skipped, .finishWalk busy =>
    if skipped || busy then some (s.setLane i (some ⟨tenant, .ready⟩))
    else
      some ({ s with
        walkDoneAt := s.walkDoneAt + 1
        covered := s.covered ++ s.steady.map Prod.fst }.setLane i (some ⟨tenant, .ready⟩))
  | .walk, .abandonWalk => some (s.setLane i (some ⟨tenant, .ready⟩))
  | .parts _ _, .abandonWalk => some (s.setLane i (some ⟨tenant, .ready⟩))
  | .dictations _ _, .abandonWalk => some (s.setLane i (some ⟨tenant, .ready⟩))
  | .ready, .nextReady p =>
    (nextReady s.queue p).map (fun e => s.setLane i (some ⟨tenant, .picked e⟩))
  | .picked e, .partSourceExists =>
    some (s.setLane i (some ⟨tenant, if s.partSourceExists e.part then .upload e else .dropping e⟩))
  | .dropping e, .deleteEntry =>
    some ({ s with queue := deleteEntry s.queue e.part }.setLane i (some ⟨tenant, .ready⟩))
  | .upload e, .setSealing busy =>
    if busy then some (s.setLane i (some ⟨tenant, .failing e⟩))
    else
      some ({ s with queue := setState s.queue e.part .sealing }.setLane i
        (some ⟨tenant, .sealing e⟩))
  | .sealing e, .sealBlob none => some (s.setLane i (some ⟨tenant, .failing e⟩))
  | .sealing e, .sealBlob (some sha256) =>
    if s.files e.sourcePath then
      some ({ s with queue := setState s.queue e.part .uploading }.setLane i
        (some ⟨tenant, .presign e sha256⟩))
    else none
  | .presign e sha256, .presignAudio reached answered =>
    let t := if reached then
      { s with
        objectOf := Function.update s.objectOf tenant
          (Function.update (s.objectOf tenant) e.part (some sha256)) } else s
    let pc := if !(reached && answered) then .failing e
      else if s.stored tenant sha256 then .uploaded e
      else .put e sha256
    some (t.setLane i (some ⟨tenant, pc⟩))
  | .put e sha256, .putAudio reached answered =>
    let t := if reached then
      { s with
        stored := Function.update s.stored tenant
          (Function.update (s.stored tenant) sha256 true) } else s
    some (t.setLane i
      (some ⟨tenant, if reached && answered then .uploaded e else .failing e⟩))
  | .uploaded e, .setDone =>
    some ({ s with queue := setState s.queue e.part .done }.setLane i (some ⟨tenant, .ready⟩))
  | .failing e, .markFailed =>
    some ({ s with queue := markFailed s.queue e.part }.setLane i (some ⟨tenant, .ready⟩))
  | .picked _, .giveUp => some (s.setLane i (some ⟨tenant, .ready⟩))
  | .dropping _, .giveUp => some (s.setLane i (some ⟨tenant, .ready⟩))
  | .uploaded _, .giveUp => some (s.setLane i (some ⟨tenant, .ready⟩))
  | .failing _, .giveUp => some (s.setLane i (some ⟨tenant, .ready⟩))
  | _, _ => none

def step (s : State Id Path Hash Tenant lanes) :
    Event Id Path Hash Tenant lanes → Option (State Id Path Hash Tenant lanes)
  | .saveRow r =>
    some { s with
      rows := s.rows.filter (fun r' => ¬ (r'.source = r.source ∧ r'.id = r.id)) ++ [r]
      steady := s.steady.filter (fun p => p.1 ≠ r.id)
      covered := if s.partSourceExists r.id then s.covered else s.covered.filter (fun p => p ≠ r.id) }
  | .deleteRow source id =>
    some { s with
      rows := s.rows.filter (fun r => ¬ (r.source = source ∧ r.id = id))
      steady := s.steady.filter (fun p => p.1 ≠ id)
      covered := s.covered.filter (fun p => p ≠ id) }
  | .setFile path present =>
    some { s with
      files := Function.update s.files path present
      steady := if present then s.steady else s.steady.filter (fun p => p.2 ≠ path) }
  | .enqueueOnSave p path session =>
    some { s with
      queue := enqueue s.queue p path session .normal
      covered := if s.partSourceExists p then p :: s.covered else s.covered }
  | .retryFailedUploads => some { s with queue := retryFailed s.queue }
  | .reconcileAccountBinding t =>
    if s.bound = some t then some s else some { s with bound := some t, covered := [] }
  | .spawnAudioUploader i =>
    match s.bound, s.lane i with
    | some t, none => some (s.setLane i (some ⟨t, .reset⟩))
    | _, _ => none
  | .act i a => (s.lane i).bind (fun l => s.laneStep i l.tenant l.pc a)
  | .exit i => if (s.lane i).isSome then some (s.setLane i none) else none

end State

end Queue

section Invariant

variable {Id Path Hash Tenant : Type} [DecidableEq Id] [DecidableEq Path] [DecidableEq Hash]
variable [DecidableEq Tenant] {lanes : ℕ}
variable {q : List (QueueEntry Id Path)} {p p' : Id} {path : Path} {session : Id}
variable {priority : Priority} {state : UploadState}

theorem has_iff : has q p = true ↔ ∃ e ∈ q, e.part = p := by
  simp [has]

theorem has_map {f : QueueEntry Id Path → QueueEntry Id Path} (hf : ∀ e, (f e).part = e.part) :
    has (q.map f) p = has q p := by
  simp [has, List.any_map, Function.comp_def, hf]

theorem setState_part (e : QueueEntry Id Path) :
    (if e.part = p then { e with state := state } else e).part = e.part := by
  split <;> rfl

theorem has_setState : has (setState q p' state) p = has q p :=
  has_map (fun e => setState_part e)

theorem has_markFailed : has (markFailed q p') p = has q p :=
  has_map (fun e => by split <;> rfl)

theorem has_resetInFlight : has (resetInFlight q) p = has q p :=
  has_map (fun e => by split <;> rfl)

theorem has_retryFailed : has (retryFailed q) p = has q p :=
  has_map (fun e => by split <;> rfl)

theorem has_deleteEntry (hp : p ≠ p') (h : has q p = true) : has (deleteEntry q p') p = true := by
  obtain ⟨e, he, rfl⟩ := has_iff.mp h
  exact has_iff.mpr ⟨e, List.mem_filter.mpr ⟨he, decide_eq_true hp⟩, rfl⟩

theorem has_enqueue_self : has (enqueue q p path session priority) p = true := by
  unfold enqueue
  split
  · assumption
  · exact has_iff.mpr ⟨_, List.mem_append_right _ (List.mem_singleton_self _), rfl⟩

theorem has_enqueue (h : has q p = true) : has (enqueue q p' path session priority) p = true := by
  unfold enqueue
  split
  · exact h
  · obtain ⟨e, he, hp⟩ := has_iff.mp h
    exact has_iff.mpr ⟨e, List.mem_append_left _ he, hp⟩

/-- The parts whose entry is done. -/
def isDone (q : List (QueueEntry Id Path)) (p : Id) : Prop :=
  ∃ e ∈ q, e.part = p ∧ e.state = .done

theorem isDone_map {f : QueueEntry Id Path → QueueEntry Id Path}
    (hf : ∀ e, (f e).part = e.part ∧ ((f e).state = .done → e.state = .done))
    (h : isDone (q.map f) p) : isDone q p := by
  obtain ⟨e, he, hp, hs⟩ := h
  obtain ⟨e', he', rfl⟩ := List.mem_map.mp he
  exact ⟨e', he', (hf e').1.symm.trans hp, (hf e').2 hs⟩

theorem isDone_setState (h : isDone (setState q p' state) p) :
    isDone q p ∨ (p = p' ∧ state = .done) := by
  obtain ⟨e, he, hp, hs⟩ := h
  obtain ⟨e', he', rfl⟩ := List.mem_map.mp he
  by_cases hpart : e'.part = p'
  · rw [if_pos hpart] at hp hs
    exact .inr ⟨hp.symm.trans hpart, hs⟩
  · rw [if_neg hpart] at hp hs
    exact .inl ⟨e', he', hp, hs⟩

theorem isDone_markFailed (h : isDone (markFailed q p') p) : isDone q p :=
  isDone_map (fun e => by split <;> simp_all) h

theorem isDone_resetInFlight (h : isDone (resetInFlight q) p) : isDone q p :=
  isDone_map (fun e => by split <;> simp_all) h

theorem isDone_retryFailed (h : isDone (retryFailed q) p) : isDone q p :=
  isDone_map (fun e => by split <;> simp_all) h

theorem isDone_deleteEntry (h : isDone (deleteEntry q p') p) : isDone q p := by
  obtain ⟨e, he, hp⟩ := h
  exact ⟨e, List.mem_of_mem_filter he, hp⟩

theorem isDone_enqueue (h : isDone (enqueue q p' path session priority) p) : isDone q p := by
  unfold enqueue at h
  split at h
  · exact h
  · obtain ⟨e, he, hp, hs⟩ := h
    rcases List.mem_append.mp he with hold | hnew
    · exact ⟨e, hold, hp, hs⟩
    · rw [List.mem_singleton.mp hnew] at hs
      cases hs

theorem nextReady_pending {e : QueueEntry Id Path} (h : nextReady q p = some e) :
    e ∈ q ∧ e.state = .pending := by
  obtain ⟨hfind, -⟩ := Option.filter_eq_some_iff.mp h
  have hmem := List.mem_of_find?_eq_some hfind
  obtain ⟨hq, hs⟩ := List.mem_filter.mp hmem
  exact ⟨hq, of_decide_eq_true hs⟩

namespace State

variable {s t : State Id Path Hash Tenant lanes}

/-- What the claim asks of an entry: a later start uploads it. -/
def willUpload (s : State Id Path Hash Tenant lanes) (p : Id) : Bool :=
  s.queue.any (fun e => e.part = p && e.state ≠ .done)

/-- An account is bound while no lane runs and when its relay already has what is done, a lane
starts alone, and no row comes back while its entry is being dropped. -/
def Guard (s : State Id Path Hash Tenant lanes) :
    Event Id Path Hash Tenant lanes → State Id Path Hash Tenant lanes → Prop
  | .reconcileAccountBinding b, _ => s.bound ≠ some b →
      (∀ i, s.lane i = none) ∧ ∀ e ∈ s.queue, e.state = .done → s.holdsAudio b e.part = true
  | .spawnAudioUploader _, _ => ∀ i, s.lane i = none
  | .saveRow r, _ => ∀ i, ∀ l ∈ s.lane i, ∀ e ∈ l.pc.drops, e.part ≠ r.id
  | _, _ => True

/-- A part that a walk or a save has covered is queued, or uploaded under the account that is
bound; the walk is marked only when what it met is queued; an entry goes only after its rows. -/
def Remembers (s : State Id Path Hash Tenant lanes) (_e : Event Id Path Hash Tenant lanes)
    (t : State Id Path Hash Tenant lanes) : Prop :=
  (∀ r ∈ t.rows, r.id ∈ t.covered → t.isLocal r = true →
    t.willUpload r.id = true ∨ ∃ b ∈ t.bound, t.holdsAudio b r.id = true) ∧
  (t.walkDoneAt ≠ s.walkDoneAt → ∀ x ∈ t.steady, has t.queue x.1 = true) ∧
  ∀ e ∈ s.queue, has t.queue e.part = true ∨ s.partSourceExists e.part = false

def initial : State Id Path Hash Tenant lanes :=
  ⟨none, [], fun _ => false, [], 0, fun _ => none, fun _ _ => none, fun _ _ => false, [], []⟩

/-- What a lane relies on between two of its statements. -/
def PcOk (s : State Id Path Hash Tenant lanes) (tenant : Tenant) : Pc Id Path Hash → Prop
  | .parts todo false | .dictations todo false =>
    ∀ x ∈ s.steady, has s.queue x.1 = true ∨ ∃ r ∈ todo, r.id = x.1 ∧ r.file = some x.2
  | .picked e | .upload e | .sealing e | .presign e _ | .failing e => ¬ isDone s.queue e.part
  | .dropping e => s.partSourceExists e.part = false
  | .put e sha256 => ¬ isDone s.queue e.part ∧ s.objectOf tenant e.part = some sha256
  | .uploaded e => ¬ isDone s.queue e.part ∧ s.holdsAudio tenant e.part = true
  | _ => True

structure Sound (s : State Id Path Hash Tenant lanes) : Prop where
  unique : ∀ e ∈ s.queue, ∀ e' ∈ s.queue, e.part = e'.part → e = e'
  done : ∀ p, isDone s.queue p → ∃ b, s.bound = some b ∧ s.holdsAudio b p = true
  covered : ∀ p ∈ s.covered, s.partSourceExists p = true → has s.queue p = true
  steady : ∀ x ∈ s.steady, s.files x.2 = true

structure Inv (s : State Id Path Hash Tenant lanes) : Prop extends Sound s where
  alone : ∀ i j, (s.lane i).isSome = true → (s.lane j).isSome = true → i = j
  lane : ∀ i l, s.lane i = some l → s.bound = some l.tenant ∧ s.PcOk l.tenant l.pc

theorem inv_initial : Inv (initial : State Id Path Hash Tenant lanes) := by
  refine ⟨⟨?_, ?_, ?_, ?_⟩, ?_, ?_⟩
  · rintro e ⟨⟩
  · rintro p ⟨e, ⟨⟩, -⟩
  · rintro p ⟨⟩
  · rintro x ⟨⟩
  · rintro i j ⟨⟩
  · rintro i l ⟨⟩

theorem PcOk.mono {tenant : Tenant} {pc : Pc Id Path Hash} (h : s.PcOk tenant pc)
    (hhas : ∀ p, has s.queue p = true → has t.queue p = true)
    (hdone : ∀ p, isDone t.queue p → isDone s.queue p) (hsteady : ∀ x ∈ t.steady, x ∈ s.steady)
    (hrows : ∀ e ∈ pc.drops, s.partSourceExists e.part = false →
      t.partSourceExists e.part = false)
    (hobj : t.objectOf = s.objectOf) (hstored : t.stored = s.stored) : t.PcOk tenant pc := by
  have hholds : ∀ p, s.holdsAudio tenant p = t.holdsAudio tenant p := by
    intro p
    rw [holdsAudio, holdsAudio, hobj, hstored]
  cases pc with
  | parts todo skipped | dictations todo skipped =>
    cases skipped with
    | true => trivial
    | false => exact fun x hx => (h x (hsteady x hx)).imp (hhas x.1) (fun hr => hr)
  | picked e | upload e | sealing e | presign e _ | failing e => exact fun hd => h (hdone _ hd)
  | dropping e => exact hrows e rfl h
  | put e sha256 =>
    obtain ⟨hnot, ho⟩ := h
    exact ⟨fun hd => hnot (hdone _ hd), by rw [hobj]; exact ho⟩
  | uploaded e =>
    obtain ⟨hnot, hu⟩ := h
    exact ⟨fun hd => hnot (hdone _ hd), by rw [← hholds]; exact hu⟩
  | _ => trivial

theorem lane_setLane (i : Fin lanes) (l : Option (Lane Id Path Hash Tenant)) :
    (t.setLane i l).lane i = l := Function.update_self ..

theorem lane_setLane_of_ne {i j : Fin lanes} (hji : j ≠ i)
    (l : Option (Lane Id Path Hash Tenant)) : (t.setLane i l).lane j = t.lane j :=
  Function.update_of_ne hji ..

theorem Inv.env (h : Inv s) (hs : Sound t) (hlane : t.lane = s.lane) (hbound : t.bound = s.bound)
    (hpc : ∀ i l, s.lane i = some l → s.PcOk l.tenant l.pc → t.PcOk l.tenant l.pc) : Inv t := by
  refine ⟨hs, ?_, fun i l hl => ?_⟩
  · rw [hlane]
    exact h.alone
  · rw [hlane] at hl
    obtain ⟨hb, hok⟩ := h.lane i l hl
    exact ⟨hbound.trans hb, hpc i l hl hok⟩

theorem Sound.setLane (h : Sound t) (i : Fin lanes) (l : Option (Lane Id Path Hash Tenant)) :
    Sound (t.setLane i l) := ⟨h.unique, h.done, h.covered, h.steady⟩

theorem pcOk_setLane {tenant : Tenant} {pc : Pc Id Path Hash} (h : t.PcOk tenant pc)
    (i : Fin lanes) (l : Option (Lane Id Path Hash Tenant)) :
    (t.setLane i l).PcOk tenant pc :=
  h.mono (fun _ h => h) (fun _ h => h) (fun _ h => h) (fun _ _ h => h) rfl rfl

/-- The lane goes on to its next statement. -/
theorem Inv.goto (h : Inv s) {i : Fin lanes} {tenant : Tenant} {pc pc' : Pc Id Path Hash}
    (hl : s.lane i = some ⟨tenant, pc⟩) (ht : Sound t) (hlane : t.lane = s.lane)
    (hbound : t.bound = s.bound) (hpc : t.PcOk tenant pc') :
    Inv (t.setLane i (some ⟨tenant, pc'⟩)) := by
  have hsome : ∀ j, ((t.setLane i (some ⟨tenant, pc'⟩)).lane j).isSome = true →
      (s.lane j).isSome = true := by
    intro j hj
    by_cases hji : j = i
    · subst hji
      rw [hl]
      rfl
    · rw [lane_setLane_of_ne hji, hlane] at hj
      exact hj
  refine ⟨ht.setLane i _, fun j k hj hk => h.alone j k (hsome j hj) (hsome k hk), fun j l hj => ?_⟩
  have hji : j = i := h.alone j i (hsome j (by rw [hj]; rfl)) (by rw [hl]; rfl)
  subst hji
  rw [lane_setLane, Option.some.injEq] at hj
  subst hj
  exact ⟨hbound.trans (h.lane j _ hl).1, pcOk_setLane hpc j _⟩

/-- The queue after a statement that keeps its entries apart from their state. -/
theorem Sound.of_map (h : Sound s) {f : QueueEntry Id Path → QueueEntry Id Path}
    (hf : ∀ e, (f e).part = e.part)
    (hdone : ∀ p, isDone (s.queue.map f) p → ∃ b, s.bound = some b ∧ s.holdsAudio b p = true) :
    Sound { s with queue := s.queue.map f } := by
  refine ⟨fun e he e' he' hp => ?_, hdone, fun p hp hrow => ?_, h.steady⟩
  · obtain ⟨e₁, he₁, rfl⟩ := List.mem_map.mp he
    obtain ⟨e₂, he₂, rfl⟩ := List.mem_map.mp he'
    rw [hf, hf] at hp
    rw [h.unique e₁ he₁ e₂ he₂ hp]
  · exact (has_map hf).trans (h.covered p hp hrow)

theorem Sound.setState (h : Sound s) (p : Id) (state : UploadState)
    (hp : state = .done → ∃ b, s.bound = some b ∧ s.holdsAudio b p = true) :
    Sound { s with queue := setState s.queue p state } := by
  apply h.of_map (fun e => setState_part e)
  intro p' hdone
  rcases isDone_setState hdone with hold | ⟨rfl, hs⟩
  · exact h.done p' hold
  · exact hp hs

theorem Sound.enqueue (h : Sound s) (p : Id) (path : Path) (session : Id) (priority : Priority) :
    Sound { s with queue := enqueue s.queue p path session priority } := by
  refine ⟨?_, fun p' hd => h.done p' (isDone_enqueue hd), fun p' hp hrow => ?_, h.steady⟩
  · simp only [Upload.enqueue]
    split
    · exact h.unique
    · rename_i hnot
      intro e he e' he' hp
      have hfresh : ∀ e ∈ s.queue, e.part ≠ p := fun e he hep => hnot (has_iff.mpr ⟨e, he, hep⟩)
      rcases List.mem_append.mp he with hold | hnew
      · rcases List.mem_append.mp he' with hold' | hnew'
        · exact h.unique e hold e' hold' hp
        · rw [List.mem_singleton.mp hnew'] at hp
          exact absurd hp (hfresh e hold)
      · rcases List.mem_append.mp he' with hold' | hnew'
        · rw [List.mem_singleton.mp hnew] at hp
          exact absurd hp.symm (hfresh e' hold')
        · rw [List.mem_singleton.mp hnew, List.mem_singleton.mp hnew']
  · exact has_enqueue (h.covered p' hp hrow)

theorem Sound.deleteEntry (h : Sound s) {p : Id} (hgone : s.partSourceExists p = false) :
    Sound { s with queue := deleteEntry s.queue p } := by
  refine ⟨fun e he e' he' hp => ?_, fun p' hd => h.done p' (isDone_deleteEntry hd),
    fun p' hp hrow => ?_, h.steady⟩
  · exact h.unique e (List.mem_of_mem_filter he) e' (List.mem_of_mem_filter he') hp
  · have hne : p' ≠ p := by
      rintro rfl
      exact absurd (hrow.symm.trans hgone) (by decide)
    exact has_deleteEntry hne (h.covered p' hp hrow)

/-- The relay's answers to a lane change nothing of what is done. -/
theorem Sound.presign (h : Sound s) (tenant : Tenant) {p : Id} (hnot : ¬ isDone s.queue p)
    (sha256 : Hash) :
    Sound { s with
      objectOf := Function.update s.objectOf tenant
        (Function.update (s.objectOf tenant) p (some sha256)) } := by
  refine ⟨h.unique, fun p' hd => ?_, h.covered, h.steady⟩
  obtain ⟨b, hb, hheld⟩ := h.done p' hd
  refine ⟨b, hb, ?_⟩
  have hne : p' ≠ p := by
    rintro rfl
    exact hnot hd
  by_cases hbt : b = tenant
  · subst hbt
    simpa [holdsAudio, hne] using hheld
  · simpa [holdsAudio, hbt] using hheld

theorem holdsAudio_put {tenant b : Tenant} {sha256 : Hash} {p : Id}
    (h : s.holdsAudio b p = true) :
    holdsAudio { s with
      stored := Function.update s.stored tenant
        (Function.update (s.stored tenant) sha256 true) } b p = true := by
  obtain ⟨hash, hmap, hstored⟩ := (Option.any_eq_true _ _).mp h
  refine (Option.any_eq_true _ _).mpr ⟨hash, hmap, ?_⟩
  dsimp only
  by_cases hb : b = tenant
  · subst hb
    rw [Function.update_self]
    by_cases hh : hash = sha256
    · rw [hh, Function.update_self]
    · rw [Function.update_of_ne hh]
      exact hstored
  · rw [Function.update_of_ne hb]
    exact hstored

theorem Sound.put (h : Sound s) (tenant : Tenant) (sha256 : Hash) :
    Sound { s with
      stored := Function.update s.stored tenant
        (Function.update (s.stored tenant) sha256 true) } := by
  refine ⟨h.unique, fun p hd => ?_, h.covered, h.steady⟩
  obtain ⟨b, hb, hheld⟩ := h.done p hd
  exact ⟨b, hb, holdsAudio_put hheld⟩

end State

end Invariant

end YapStack.Upload
