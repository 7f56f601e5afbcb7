import Mathlib.Logic.Function.Basic
import YapStack.Foundation.Runs
import YapStack.Live.Dispatch

set_option linter.unusedSectionVars false

namespace YapStack.Live.Buffers

open Spans

inductive AudioSourceLabel where
  | mic
  | system
  deriving DecidableEq

inductive LiveSourceKind where
  | session
  | dictation
  deriving DecidableEq

def LiveSourceKind.other : LiveSourceKind → LiveSourceKind
  | .session => .dictation
  | .dictation => .session

inductive CaptureSource where
  | micOnly
  | systemOnly
  | mixed
  deriving DecidableEq

/-- `check_mic` and `check_system`. -/
def CaptureSource.checks : CaptureSource → AudioSourceLabel → Bool
  | .micOnly, .mic => true
  | .systemOnly, .system => true
  | .mixed, _ => true
  | _, _ => false

def CaptureSource.labels (source : CaptureSource) : List AudioSourceLabel :=
  [.mic, .system].filter source.checks

/-- A ring buffer of the manager. The `id` tells the buffer objects apart. -/
structure Buffer where
  id : Nat
  ring : Ring
  format : Format

/-- The existing buffer is kept when the format of the device is the same. -/
def pickBufferForRestart (existing : Buffer) (probed : Format) (capacity : Nat) : Buffer :=
  if existing.format.sampleRate = probed.sampleRate ∧ existing.format.channels = probed.channels
  then existing
  else ⟨existing.id + 1, ⟨capacity, 0⟩, probed⟩

/-- What a device is probed as, and the size of a buffer for it. -/
structure Probe where
  format : Format
  capacity : Nat

def Buffer.restart (existing : Buffer) (probe : Probe) : Buffer :=
  pickBufferForRestart existing probe.format probe.capacity

/-- A position, with the buffer that it was read from. -/
structure Bound where
  pos : Nat
  buffer : Nat
  deriving DecidableEq

/-- `DictationOwnsMic`, with the buffers of its bounds. -/
structure DictationOwnsMic where
  opened : Option Bound
  closed : List (Bound × Bound)

namespace DictationOwnsMic

def new : DictationOwnsMic := ⟨none, []⟩

def close (owns : DictationOwnsMic) (stop : Bound) : DictationOwnsMic :=
  match owns.opened with
  | none => owns
  | some start =>
    ⟨none, if start.pos < stop.pos then owns.closed ++ [(start, stop)] else owns.closed⟩

def pruneBefore (owns : DictationOwnsMic) (minPos : Nat) : DictationOwnsMic :=
  { owns with closed := owns.closed.dropWhile (fun w => decide (w.2.pos ≤ minPos)) }

def rebaseForMicBufferReplacement (owns : DictationOwnsMic) (newOpenStart : Bound) :
    DictationOwnsMic :=
  ⟨owns.opened.map (fun _ => newOpenStart), []⟩

/-- The buffers of all recorded bounds. -/
def buffers (owns : DictationOwnsMic) : List Nat :=
  owns.opened.toList.map Bound.buffer ++ owns.closed.flatMap (fun w => [w.1.buffer, w.2.buffer])

end DictationOwnsMic

/-- One source of a running loop. `of` and `flushOf` are the buffers that its positions, and its
WAV flush position, were read from or computed against. -/
structure Source where
  vad : SourceVadState
  of : List Nat
  extracted : Option Nat
  flush : Option Nat
  flushOf : List Nat
  flushRead : Option Bound

/-- A read of a ring buffer at a stored position that was taken from the buffers `of`. -/
structure Read where
  of : List Nat
  buffer : Nat
  deriving DecidableEq

/-- A replaced buffer that a loop is handling. -/
structure Handling where
  label : AudioSourceLabel
  old : Buffer
  newPos : Option Bound
  rebased : Bool

structure Loop where
  source : CaptureSource
  sources : AudioSourceLabel → Option Source
  handling : Option Handling

def Loop.setSource (loop : Loop) (label : AudioSourceLabel) (source : Source) : Loop :=
  { loop with sources := Function.update loop.sources label (some source) }

/-- A start command between its slot reservation and the begin of its loop. `todo` are the
sources that the preflight has still to check. -/
structure Starting where
  source : CaptureSource
  start : Option Bound
  todo : List AudioSourceLabel
  flush : Option (AudioSourceLabel → Bound)

inductive Slot where
  | idle
  | starting (start : Starting)
  | spawned (start : Starting)
  | running (loop : Loop)
  | finalizing (stop : Option Bound)
  | closed

/-- The runtime of the slot holds positions of that source. -/
def Slot.uses : Slot → AudioSourceLabel → Bool
  | .idle, _ | .closed, _ => false
  | .starting start, label | .spawned start, label =>
    start.flush.isSome && start.source.checks label
  | .running loop, label => loop.source.checks label
  | .finalizing stop, label => stop.isSome && decide (label = .mic)

/-- A running session on the mic goes by the dictation windows. -/
def Slot.watchesMic : Slot → Bool
  | .running loop => loop.source.checks .mic
  | _ => false

inductive RoutingDecision where
  | sentThroughInbox
  | skipMidStop
  | skipNoActiveCapture
  | directRestart
  deriving DecidableEq

def decideRouting (intentSent liveSessionPresent captureActive : Bool) : RoutingDecision :=
  if intentSent then .sentThroughInbox
  else if liveSessionPresent then .skipMidStop
  else if !captureActive then .skipNoActiveCapture
  else .directRestart

/-- The device broker, between two steps of one dispatch. -/
inductive Broker where
  | idle
  | unsent (label : AudioSourceLabel) (active : Bool)
  | direct (label : AudioSourceLabel)

/-- `starts` are the start positions that dictation commands have read and not used yet;
`inbox` is the published sender, `receiver` the loop's end of it. -/
structure State where
  buffers : AudioSourceLabel → Buffer
  owns : DictationOwnsMic
  starts : List Bound
  slots : LiveSourceKind → Slot
  inbox : Bool
  receiver : Bool
  queue : List AudioSourceLabel
  present : Bool
  clearing : Bool
  broker : Broker
  reads : List Read

/-- The steps of a loop on one of its sources. -/
inductive SourceStep where
  | extract
  | feed (frames : List Frame) (pending : Nat)
  | readWav (limit : Option Nat) (trim : Nat)
  | writeWav
  | drain
  | poll (frames : List Frame) (clock : List Nat)
  | consume (window : Bound × Bound) (now : Nat)
  | settle (now : Nat)
  | dispatch (isForceChunk : Bool) (origin : JobOrigin) (now : Nat)
  | advanceIdle
  | copyFinal

inductive Action where
  | write (label : AudioSourceLabel) (n : Nat)
  | readStart
  | reserveSession (source : CaptureSource)
  | reserveDictation (start : Bound)
  | preflight (kind : LiveSourceKind) (probe : Option Probe)
  | readFlush (kind : LiveSourceKind) (rewind : AudioSourceLabel → Nat)
  | publish
  | spawn (kind : LiveSourceKind)
  | abortStart (kind : LiveSourceKind)
  | begin (kind : LiveSourceKind) (rewind : AudioSourceLabel → Nat) (backfill : Bool) (anchor : ℚ)
  | onSource (kind : LiveSourceKind) (label : AudioSourceLabel) (op : SourceStep)
  | prune (minPos : Nat)
  | takeIntent (probe : Option Probe)
  | watchdog (kind : LiveSourceKind) (label : AudioSourceLabel) (probe : Probe)
  | readNewPos (kind : LiveSourceKind)
  | rebase (kind : LiveSourceKind)
  | rescue (kind : LiveSourceKind) (sent : Bool)
  | reset (kind : LiveSourceKind) (anchor : ℚ)
  | stop
  | finish (kind : LiveSourceKind)
  | readEnd
  | close
  | release (kind : LiveSourceKind)
  | clearPresent
  | trySend (label : AudioSourceLabel) (active : Bool)
  | route
  | directRestart (probe : Option Probe)

section Steps

variable (f32 : Rounding)

def preWindowFlush (vad : SourceVadState) (ring : Ring) (windowStart now : Nat) :
    SourceVadState :=
  if vad.isSpeaking && !vad.hasInFlightTask && decide (vad.speechStartPos < windowStart) then
    (prepareChunkDispatchInner f32 vad ring true .live parakeet.maxChunkDuration true windowStart
      now).1
  else vad

def wavEnd (ring : Ring) (pos : Nat) : Option Nat → Nat
  | none => (snapshotSinceWithPos ring pos).2
  | some limit => (snapshotRange ring pos limit).span.stop

/-- One step of a loop on one source, with the ring reads that it makes. -/
def Source.step (kind : LiveSourceKind) (label : AudioSourceLabel) (owns : DictationOwnsMic)
    (buffer : Buffer) (s : Source) : SourceStep → Option (Source × List Read)
  | .extract =>
    some ({ s with
      extracted := some (extractSourceAudio buffer.ring s.vad.silero.readPos).2
      of := buffer.id :: s.of }, [⟨s.of, buffer.id⟩])
  | .feed frames pending =>
    s.extracted.map (fun newPos =>
      ({ s with vad := s.vad.feedSilero newPos frames pending, extracted := none }, []))
  | .readWav limit trim =>
    s.flush.map (fun pos =>
      ({ s with
        flushRead := some ⟨max pos (wavEnd buffer.ring pos limit - trim), buffer.id⟩
        flushOf := buffer.id :: s.flushOf }, [⟨s.flushOf, buffer.id⟩]))
  | .writeWav =>
    s.flushRead.map (fun read =>
      ({ s with flush := some read.pos, flushRead := none },
        if kind = .session ∧ label = .mic then [⟨owns.buffers, read.buffer⟩] else []))
  | .drain => some ({ s with vad := { s.vad with hasInFlightTask := false } }, [])
  | .poll frames clock =>
    some ({ s with vad := (pollSource parakeet s.vad frames clock).1 }, [])
  | .consume window now =>
    if kind = .session ∧ label = .mic ∧ window ∈ owns.closed ∧
        s.vad.dictationConsumedThrough < window.2.pos then
      let flushed := preWindowFlush f32 s.vad buffer.ring window.1.pos now
      some ({ s with
        vad := { flushed.resetVadPast window.2.pos with
          dictationConsumedThrough := window.2.pos
          flushedOpenAt :=
            if flushed.flushedOpenAt = some window.1.pos then none else flushed.flushedOpenAt }
        of := window.1.buffer :: window.2.buffer :: buffer.id :: s.of },
        [⟨window.1.buffer :: s.of, buffer.id⟩])
    else none
  | .settle now =>
    match owns.opened with
    | none => none
    | some start =>
      if kind = .session ∧ label = .mic ∧ s.vad.flushedOpenAt ≠ some start.pos then
        some ({ s with
          vad := { preWindowFlush f32 s.vad buffer.ring start.pos now with
            flushedOpenAt := some start.pos }
          of := start.buffer :: buffer.id :: s.of }, [⟨start.buffer :: s.of, buffer.id⟩])
      else none
  | .dispatch isForceChunk origin now =>
    some ({ s with
      vad := (prepareChunkDispatchInner f32 s.vad buffer.ring isForceChunk origin
        parakeet.maxChunkDuration false buffer.ring.writePos now).1
      of := buffer.id :: s.of }, [⟨s.of, buffer.id⟩])
  | .advanceIdle =>
    some ({ s with vad := advanceIdleCursor s.vad buffer.ring, of := buffer.id :: s.of }, [])
  | .copyFinal => some (s, [⟨s.of, buffer.id⟩])

/-- A source after its buffer was replaced: all positions are that of the new buffer. -/
def Source.replaced (source : Source) (kind : LiveSourceKind) (label : AudioSourceLabel)
    (newPos : Bound) (format : Format) (anchor : ℚ) : Source :=
  let ofSessionMic := decide (kind = .session ∧ label = .mic)
  { source with
    vad := { source.vad.resetForBufferReplacement newPos.pos format anchor with
      dictationConsumedThrough := if ofSessionMic then 0 else source.vad.dictationConsumedThrough
      flushedOpenAt := if ofSessionMic then none else source.vad.flushedOpenAt }
    of := [newPos.buffer]
    flush := source.flush.map (fun _ => newPos.pos)
    flushOf := [newPos.buffer] }

/-- Nothing that was read is waiting to be applied: where a loop checks for restarts. -/
def Loop.Settled (loop : Loop) : Prop :=
  loop.handling = none ∧ ∀ label, ∀ s ∈ loop.sources label, s.extracted = none ∧ s.flushRead = none

instance (loop : Loop) : Decidable loop.Settled :=
  decidable_of_iff (loop.handling.isNone = true ∧
      (∀ s ∈ loop.sources .mic, s.extracted = none ∧ s.flushRead = none) ∧
        ∀ s ∈ loop.sources .system, s.extracted = none ∧ s.flushRead = none) (by
    unfold Loop.Settled
    rw [Option.isNone_iff_eq_none]
    refine and_congr_right fun _ => ⟨fun h label => ?_, fun h => ⟨h .mic, h .system⟩⟩
    cases label with
    | mic => exact h.1
    | system => exact h.2)

/-- The first sources of a loop: at the start of the dictation, or at the write position. -/
def Starting.begin (start : Starting) (buffers : AudioSourceLabel → Buffer)
    (rewind : AudioSourceLabel → Nat) (backfill : Bool) (anchor : ℚ) (label : AudioSourceLabel) :
    Option Source :=
  if start.source.checks label then
    let buffer := buffers label
    let fresh := SourceVadState.new (buffer.ring.writePos - rewind label)
      (buffer.ring.writePos - rewind label) buffer.format anchor
    let flush := start.flush.map (fun f => f label)
    match label, start.start with
    | .mic, some bound =>
      let clamped := min bound.pos buffer.ring.writePos
      some {
        vad := SourceVadState.new clamped clamped buffer.format anchor
        of := if bound.pos ≤ buffer.ring.writePos then [bound.buffer] else [buffer.id]
        extracted := none
        flush := flush.map Bound.pos
        flushOf := flush.toList.map Bound.buffer
        flushRead := none }
    | _, _ =>
      some {
        vad := if backfill then fresh.startAfterBackfill buffer.ring.writePos else fresh
        of := [buffer.id]
        extracted := none
        flush := flush.map Bound.pos
        flushOf := flush.toList.map Bound.buffer
        flushRead := none }
  else none

def State.setSlot (s : State) (kind : LiveSourceKind) (slot : Slot) : State :=
  { s with slots := Function.update s.slots kind slot }

def State.setBuffer (s : State) (label : AudioSourceLabel) (buffer : Buffer) : State :=
  { s with buffers := Function.update s.buffers label buffer }

/-- `attempt_source_restart` in a loop. A replaced buffer has to be handled. -/
def restartInLoop (s : State) (kind : LiveSourceKind) (loop : Loop) (label : AudioSourceLabel)
    (probe : Probe) : State :=
  let existing := s.buffers label
  let buffer := existing.restart probe
  if buffer.id = existing.id then s
  else
    (s.setBuffer label buffer).setSlot kind
      (.running { loop with handling := some ⟨label, existing, none, false⟩ })

/-- `start_live_transcription` up to the begin of its loop. -/
def stepStart (s : State) : Action → Option State
  | .readStart =>
    some { s with
      starts := s.starts ++ [⟨(s.buffers .mic).ring.writePos, (s.buffers .mic).id⟩] }
  | .reserveSession source =>
    match s.slots .session with
    | .idle =>
      some ({ s with
        owns := match s.slots .dictation with
          | .idle => .new
          | _ => s.owns }.setSlot .session (.starting ⟨source, none, source.labels, none⟩))
    | _ => none
  | .reserveDictation start =>
    match s.slots .dictation with
    | .idle =>
      if start ∈ s.starts then
        let todo := match s.slots .session with
          | .idle => CaptureSource.labels .micOnly
          | _ => []
        some ({ s with
          owns := { s.owns with opened := some start }
          starts := s.starts.erase start }.setSlot .dictation
            (.starting ⟨.micOnly, some start, todo, none⟩))
      else none
    | _ => none
  | .preflight kind probe =>
    match s.slots kind with
    | .starting start =>
      match start.todo with
      | [] => none
      | label :: todo =>
        let buffer := (probe.map (s.buffers label).restart).getD (s.buffers label)
        some ((s.setBuffer label buffer).setSlot kind (.starting { start with todo := todo }))
    | _ => none
  | .readFlush kind rewind =>
    match s.slots kind with
    | .starting start =>
      if start.todo = [] ∧ start.flush.isNone then
        some (s.setSlot kind (.starting { start with
          flush := some (fun label =>
            ⟨(s.buffers label).ring.writePos - rewind label, (s.buffers label).id⟩) }))
      else none
    | _ => none
  | .publish =>
    match s.slots .session with
    | .starting start =>
      if start.todo = [] then some { s with inbox := true, receiver := true, queue := [] } else none
    | _ => none
  | .spawn kind =>
    match s.slots kind with
    | .starting start =>
      if start.todo = [] ∧ (kind = .session → s.receiver = true) then
        some ({ s with present := s.present || decide (kind = LiveSourceKind.session) }.setSlot kind
          (.spawned start))
      else none
    | _ => none
  | .abortStart kind =>
    match s.slots kind with
    | .starting _ =>
      some ((match kind with
        | .session => { s with receiver := false }
        | .dictation => { s with owns := { s.owns with opened := none } }).setSlot kind .idle)
    | _ => none
  | .begin kind rewind backfill anchor =>
    match s.slots kind with
    | .spawned start =>
      some (s.setSlot kind (.running
        ⟨start.source, start.begin s.buffers rewind backfill anchor, none⟩))
    | _ => none
  | _ => none

/-- A running loop between two restarts, and the end of it. -/
def stepLoop (s : State) : Action → Option State
  | .onSource kind label op =>
    match s.slots kind with
    | .running loop =>
      match loop.handling, loop.sources label with
      | none, some source =>
        (source.step f32 kind label s.owns (s.buffers label) op).map (fun result =>
          { s with reads := s.reads ++ result.2 }.setSlot kind
            (.running (loop.setSource label result.1)))
      | _, _ => none
    | _ => none
  | .prune minPos =>
    match s.slots .session with
    | .running _ => some { s with owns := s.owns.pruneBefore minPos }
    | _ => none
  | .stop => some { s with inbox := false }
  | .finish kind =>
    match s.slots kind with
    | .running loop =>
      if loop.handling.isNone then
        match kind with
        | .session => some ({ s with receiver := false }.setSlot .session .closed)
        | .dictation => some (s.setSlot .dictation (.finalizing none))
      else none
    | _ => none
  | .readEnd =>
    match s.slots .dictation with
    | .finalizing none =>
      some (s.setSlot .dictation
        (.finalizing (some ⟨(s.buffers .mic).ring.writePos, (s.buffers .mic).id⟩)))
    | _ => none
  | .close =>
    match s.slots .dictation with
    | .finalizing (some stop) =>
      some ({ s with owns := s.owns.close stop }.setSlot .dictation .closed)
    | _ => none
  | .release kind =>
    match s.slots kind with
    | .closed =>
      some ({ s with clearing := s.clearing || decide (kind = LiveSourceKind.session) }.setSlot kind .idle)
    | _ => none
  | .clearPresent =>
    if s.clearing then some { s with present := false, clearing := false } else none
  | _ => none

/-- A restart by a loop, and its handling of a replaced buffer. -/
def stepReplace (s : State) : Action → Option State
  | .takeIntent probe =>
    match s.slots .session, s.queue with
    | .running loop, label :: queue =>
      if loop.Settled then
        match loop.sources label, probe with
        | some _, some probe =>
          some (restartInLoop { s with queue := queue } .session loop label probe)
        | _, _ => some { s with queue := queue }
      else none
    | _, _ => none
  | .watchdog kind label probe =>
    match s.slots kind with
    | .running loop =>
      if loop.Settled ∧ (loop.sources label).isSome then
        some (restartInLoop s kind loop label probe)
      else none
    | _ => none
  | .readNewPos kind =>
    match s.slots kind with
    | .running loop =>
      match loop.handling with
      | some ⟨label, old, none, false⟩ =>
        some (s.setSlot kind (.running { loop with handling := some ⟨label, old,
          some ⟨(s.buffers label).ring.writePos, (s.buffers label).id⟩, false⟩ }))
      | _ => none
    | _ => none
  | .rebase kind =>
    match s.slots kind with
    | .running loop =>
      match loop.handling with
      | some ⟨label, old, some newPos, false⟩ =>
        some ({ s with
          owns :=
            if kind = LiveSourceKind.session ∧ label = AudioSourceLabel.mic then
              s.owns.rebaseForMicBufferReplacement newPos
            else s.owns }.setSlot kind (.running { loop with
              handling := some ⟨label, old, some newPos, true⟩ }))
      | _ => none
    | _ => none
  | .rescue kind sent =>
    match s.slots kind with
    | .running loop =>
      match loop.handling with
      | some ⟨label, old, some _, true⟩ =>
        (loop.sources label).map (fun source =>
          { s with
            reads := s.reads ++ [Read.mk source.of old.id, Read.mk source.flushOf old.id] }.setSlot kind
              (.running (loop.setSource label
                { source with vad := { source.vad with hasInFlightTask := sent } })))
      | _ => none
    | _ => none
  | .reset kind anchor =>
    match s.slots kind with
    | .running loop =>
      match loop.handling with
      | some ⟨label, _, some newPos, true⟩ =>
        (loop.sources label).map (fun source =>
          s.setSlot kind (.running ({ loop with handling := none }.setSource label
            (source.replaced kind label newPos (s.buffers label).format anchor))))
      | _ => none
    | _ => none
  | _ => none

/-- Captured samples and the device broker. -/
def stepOutside (s : State) : Action → Option State
  | .write label n =>
    some (s.setBuffer label { s.buffers label with ring := (s.buffers label).ring.write n })
  | .trySend label active =>
    match s.broker with
    | .idle =>
      if s.inbox && s.receiver then some { s with queue := s.queue ++ [label] }
      else some { s with broker := .unsent label active }
    | _ => none
  | .route =>
    match s.broker with
    | .unsent label active =>
      some { s with
        broker := if decideRouting false s.present active = .directRestart then .direct label
          else .idle }
    | _ => none
  | .directRestart probe =>
    match s.broker with
    | .direct label =>
      let buffer := (probe.map (s.buffers label).restart).getD (s.buffers label)
      some ({ s with broker := .idle }.setBuffer label buffer)
    | _ => none
  | _ => none

def step (s : State) (a : Action) : Option State :=
  (stepStart s a).or ((stepLoop f32 s a).or ((stepReplace s a).or (stepOutside s a)))

end Steps

/-- Every read was made at a position of the buffer that it reads, and a running loop holds no
position of a dropped buffer. -/
structure Current (s : State) : Prop where
  reads : ∀ r ∈ s.reads, ∀ b ∈ r.of, b = r.buffer
  held : ∀ kind loop, s.slots kind = .running loop → ∀ label source,
    loop.sources label = some source → (∀ h ∈ loop.handling, h.label ≠ label) →
      ∀ b ∈ source.of ++ source.flushOf, b = (s.buffers label).id

structure Initial (s : State) : Prop where
  slots : ∀ kind, s.slots kind = .idle
  reads : s.reads = []

section Guards

/-- The restart gives the source a new buffer. -/
def Replaces (s : State) (label : AudioSourceLabel) (probe : Probe) : Prop :=
  ((s.buffers label).restart probe).id ≠ (s.buffers label).id

instance (s : State) (label : AudioSourceLabel) (probe : Probe) :
    Decidable (Replaces s label probe) := inferInstanceAs (Decidable (_ ≠ _))

/-- The condition under which a step leaves no position of a dropped buffer behind. -/
def Guarded (s : State) : Action → Prop
  | .reserveDictation start =>
    (s.slots .session).watchesMic = true → start.buffer = (s.buffers .mic).id
  | .preflight kind (some probe) =>
    match s.slots kind with
    | .starting start => ∀ label ∈ start.todo.head?, Replaces s label probe →
      (s.slots kind.other).uses label = false
    | _ => True
  | .begin .session _ _ _ =>
    match s.slots .session with
    | .spawned start =>
      start.source.checks .mic = true → ∀ b ∈ s.owns.buffers, b = (s.buffers .mic).id
    | _ => True
  | .begin .dictation _ _ _ =>
    match s.slots .dictation with
    | .spawned start => ∀ bound ∈ start.start,
      bound.buffer = (s.buffers .mic).id ∨ (s.buffers .mic).ring.writePos < bound.pos
    | _ => True
  | .takeIntent (some probe) =>
    ∀ label ∈ s.queue.head?, Replaces s label probe →
      (s.slots .dictation).uses label = false
  | .watchdog kind label probe =>
    Replaces s label probe → (s.slots kind.other).uses label = false
  | .directRestart (some probe) =>
    match s.broker with
    | .direct label => Replaces s label probe →
      (s.slots .session).uses label = false ∧ (s.slots .dictation).uses label = false
    | _ => True
  | _ => True

instance (s : State) (a : Action) : Decidable (Guarded s a) := by
  unfold Guarded
  split
  all_goals first | infer_instance | (split <;> infer_instance)

end Guards

end YapStack.Live.Buffers
