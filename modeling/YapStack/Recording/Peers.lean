import YapStack.Foundation.Runs
import YapStack.Recording.Store
import YapStack.Sync.Crr
import Mathlib.Data.Fintype.Basic

set_option linter.unusedSectionVars false

namespace YapStack.Recording.Peers

open YapStack.Runs YapStack.Sync.Crr

/-- The columns of `sessions` that hold the recording state. -/
inductive Column
  | status
  | owner
  deriving DecidableEq

instance : Fintype Column where
  elems := {.status, .owner}
  complete c := by cases c <;> simp

/-- `device` holds a fingerprint. -/
inductive Value
  | null
  | completed
  | recording
  | device (d : ℕ)
  deriving DecidableEq

def Value.rank : Value → ℕ
  | .null => 0
  | .completed => 1
  | .recording => 2
  | .device d => d + 3

theorem Value.rank_injective : Function.Injective Value.rank := by
  intro a b h
  cases a <;> cases b <;> simp [Value.rank] at h ⊢
  exact h

instance : LinearOrder Value := LinearOrder.lift' Value.rank Value.rank_injective

/-- The defaults of the table. -/
def default : Column → Value
  | .status => .recording
  | .owner => .null

abbrev SessionRow := Row Column Value

/-- What a local statement does to a row: `set` gives the columns that it assigns. -/
inductive Edit
  | keep
  | delete
  | set (value : Column → Option Value)

def setCells (value : Column → Option Value) (cells : Column → Cell Value) :
    Column → Cell Value := fun col => (value col).elim (cells col) (cells col).updated

def Edit.apply : Edit → SessionRow → SessionRow
  | .keep, row => row
  | .delete, row => if row.cells.isSome then row.deleted else row
  | .set value, row => { row with cells := row.cells.map (setCells value) }

/-- The column has another value after the statement. -/
def Edit.writes (e : Edit) (row : SessionRow) (col : Column) : Option (Cell Value) :=
  match e, row.cells with
  | .set value, some cells =>
    (value col).bind (fun x =>
      if (cells col).value = x then none else some ((cells col).updated x))
  | _, _ => none

/-- `pending` marks this device's own writes that no capture has read yet; the sentinel of a
deleted row has no column. A device that is down keeps in `recording` what it was recording. -/
structure Device (Key : Type) where
  running : Bool
  rows : Key → SessionRow
  recording : Option Key
  pending : Key → Option Column → Bool
  outbox : List (List (Change Key Column Value))
  merged : ℕ

structure Write (n : ℕ) where
  device : Fin n
  value : Value
  version : ℕ
  deriving DecidableEq

/-- `history` keeps the local writes to a column of a row, in the order of the run. -/
structure State (Key : Type) (n : ℕ) where
  devices : Fin n → Device Key
  relay : List (List (Change Key Column Value))
  history : Key → Column → List (Write n)

/-- A boot is given the sessions without segments and parts, and those with a stale heartbeat. -/
inductive Event (Key : Type) (n : ℕ)
  | createSession (d : Fin n) (k : Key)
  | resumeSession (d : Fin n) (k : Key)
  | completeSession (d : Fin n)
  | exit (d : Fin n)
  | boot (d : Fin n) (empties stales : List Key)
  | capture (d : Fin n) (chunks : List (List (Key × Option Column)))
  | push (d : Fin n)
  | merge (d : Fin n)

variable {Key : Type} [DecidableEq Key] {n : ℕ}

namespace Device

def cell (v : Device Key) (k : Key) (col : Column) : Option (Cell Value) :=
  (v.rows k).cells.map (fun cells => cells col)

def value (v : Device Key) (k : Key) (col : Column) : Option Value :=
  (v.cell k col).map Cell.value

/-- The session that is being recorded. -/
def live (v : Device Key) : Option Key := if v.running then v.recording else none

/-- The session that was being recorded when the device went down. -/
def interrupted (v : Device Key) : Option Key := if v.running then none else v.recording

/-- The clock of a column; 0 where there is none. -/
def version (v : Device Key) (k : Key) (col : Column) : ℕ :=
  ((v.cell k col).bind Cell.version).getD 0

def edit (v : Device Key) (edits : Key → Edit) : Device Key :=
  { v with
    rows := fun k => (edits k).apply (v.rows k)
    pending := fun k col =>
      match edits k, col with
      | .delete, none => v.pending k none || (v.rows k).cells.isSome
      | .delete, some col => v.pending k (some col) && (v.rows k).cells.isNone
      | e, some col => v.pending k (some col) || (e.writes (v.rows k) col).isSome
      | _, none => v.pending k none }

def only (k : Key) (e : Edit) : Key → Edit := fun j => if j = k then e else .keep

def recordingValues (me : Fin n) : Column → Option Value
  | .status => some .recording
  | .owner => some (.device me)

def completedValues : Column → Option Value
  | .status => some .completed
  | .owner => none

/-- `markSessionRecording` -/
def recordingEdit (me : Fin n) : Edit := .set (recordingValues me)

/-- `completeSession`, and the `UPDATE` of the sweep -/
def completedEdit : Edit := .set completedValues

/-- `recording_device_id IS NULL OR recording_device_id IS ?1` -/
def notForeign (v : Device Key) (me : Fin n) (k : Key) : Bool :=
  v.value k .owner = some .null || v.value k .owner = some (.device me)

def isRecording (v : Device Key) (k : Key) : Bool := v.value k .status = some .recording

/-- `sweep_orphaned_recordings` with a loaded fingerprint: the `DELETE`, then the `UPDATE`. -/
def sweepEdit (v : Device Key) (me : Fin n) (empties stales : List Key) (k : Key) : Edit :=
  let own := v.value k .owner = some (.device me)
  if v.isRecording k && k ∈ empties && v.notForeign me k && own then .delete
  else if v.isRecording k && v.notForeign me k && !(k ∈ empties && own) &&
      (own || k ∈ stales) then completedEdit
  else .keep

/-- The row of `crsql_changes` for a column, or for the sentinel. -/
def change (v : Device Key) (k : Key) : Option Column → Option (Change Key Column Value)
  | none =>
    if (v.rows k).cells.isNone && 0 < (v.rows k).cl then some ⟨k, (v.rows k).cl, none⟩ else none
  | some col =>
    (v.cell k col).bind (fun c =>
      c.version.map (fun version => ⟨k, (v.rows k).cl, some ⟨col, c.value, version⟩⟩))

/-- Merge one change. A column that it overwrites is not this device's own any more. -/
def mergeChange (v : Device Key) (c : Change Key Column Value) : Device Key :=
  let t := { v with
    rows := Function.update v.rows c.key (mergeInsert (v.rows c.key) c default) }
  { t with
    pending := fun k col =>
      v.pending k col && (v.rows k).cl = (t.rows k).cl &&
        col.all (fun col => v.cell k col = t.cell k col) }

end Device

namespace State

def onDevice (s : State Key n) (d : Fin n) (v : Device Key) : State Key n :=
  { s with devices := Function.update s.devices d v }

/-- A statement on one device. -/
def edit (s : State Key n) (d : Fin n) (edits : Key → Edit) : State Key n :=
  { s.onDevice d ((s.devices d).edit edits) with
    history := fun k col =>
      s.history k col ++ (((edits k).writes ((s.devices d).rows k) col).map
        (fun c => ⟨d, c.value, c.version.getD 0⟩)).toList }

def insertedValues (d : Fin n) : Column → Value
  | .status => .recording
  | .owner => .device d

/-- The `INSERT` of a session under a fresh id. -/
def insert (s : State Key n) (d : Fin n) (k : Key) : State Key n :=
  let v := s.devices d
  { s.onDevice d { v with
      rows := Function.update v.rows k (.inserted (insertedValues d))
      pending := Function.update v.pending k (fun col => col.isSome) } with
    history := Function.update s.history k (fun col => [⟨d, insertedValues d col, 1⟩]) }

def setRecording (s : State Key n) (d : Fin n) (k : Option Key) : State Key n :=
  s.onDevice d { s.devices d with recording := k }

def step (s : State Key n) : Event Key n → Option (State Key n)
  | .createSession d k =>
    let v := s.devices d
    if v.running && v.recording.isNone && s.history k .status = [] && s.history k .owner = [] then
      some ((s.insert d k).setRecording d (some k))
    else none
  | .resumeSession d k =>
    let v := s.devices d
    if v.running && v.recording.isNone && v.value k .status = some .completed then
      some ((s.edit d (Device.only k (Device.recordingEdit d))).setRecording d (some k))
    else none
  | .completeSession d =>
    match (s.devices d).running, (s.devices d).recording with
    | true, some k => some ((s.edit d (Device.only k Device.completedEdit)).setRecording d none)
    | _, _ => none
  | .exit d =>
    let v := s.devices d
    if v.running then
      some (s.onDevice d { v with running := false })
    else none
  | .boot d empties stales =>
    if (s.devices d).running then none
    else
      let t := s.edit d ((s.devices d).sweepEdit d empties stales)
      some (t.onDevice d { t.devices d with running := true, recording := none })
  | .capture d chunks =>
    let v := s.devices d
    if v.running && chunks.flatten.all (fun p => v.pending p.1 p.2) then
      some (s.onDevice d { v with
        outbox := v.outbox ++ chunks.map (fun chunk => chunk.filterMap (fun p => v.change p.1 p.2))
        pending := fun k col => v.pending k col && decide ((k, col) ∉ chunks.flatten) })
    else none
  | .push d =>
    let v := s.devices d
    match v.running, v.outbox with
    | true, changeset :: rest =>
      some { s.onDevice d { v with outbox := rest } with relay := s.relay ++ [changeset] }
    | _, _ => none
  | .merge d =>
    let v := s.devices d
    if v.running then
      s.relay[v.merged]?.map (fun changeset =>
        s.onDevice d { changeset.foldl Device.mergeChange v with merged := v.merged + 1 })
    else none

end State

def Value.ofOwner : Option ℕ → Value
  | none => .null
  | some d => .device d

/-- The sweep decides about a row as `Store.sweepOrphanedRecordings` does. -/
theorem Device.sweepEdit_eq {v : Device Key} {me : Fin n} {empties stales : List Key} {k : Key}
    {st : Store} {b : Boot} {id : SessionId} {r : Recording.SessionRow}
    (hme : b.me = some me.val) (hstatus : v.isRecording k = r.recording)
    (howner : v.value k .owner = some (.ofOwner r.owner))
    (hempty : st.isEmpty id = decide (k ∈ empties))
    (hstale : st.isStale id r b.now = decide (k ∈ stales)) :
    v.sweepEdit me empties stales k =
      if st.deletes b id r then .delete
      else if st.finalizes b id r then completedEdit
      else .keep := by
  have hown : (v.value k .owner = some (.device me.val)) ↔ r.owner = b.me := by
    rw [howner, hme]
    cases r.owner <;> simp [Value.ofOwner]
  have hnull : (v.value k .owner = some .null) ↔ r.owner = none := by
    rw [howner]
    cases r.owner <;> simp [Value.ofOwner]
  have hsome : b.me.isSome = true := by rw [hme]; rfl
  have hnone : b.me ≠ none := by rw [hme]; exact Option.some_ne_none _
  have hnf : v.notForeign me k = Store.notForeign b r := by
    simp [notForeign, Store.notForeign, hown, hnull]
  simp [sweepEdit, Store.deletes, Store.finalizes, Store.deleteEligible, hnf, hown, hstatus,
    hempty, hstale, hsome, hnone]

end YapStack.Recording.Peers
