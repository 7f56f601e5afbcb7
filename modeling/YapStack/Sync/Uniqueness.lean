import Mathlib.Data.Finset.Filter
import Mathlib.Data.Finset.Image
import Mathlib.Data.Finset.Union
import Mathlib.Data.Fintype.Pi
import YapStack.Foundation.Runs
import YapStack.Sync.Crr

set_option linter.unusedSectionVars false

namespace YapStack.Sync.Uniqueness

open Crr

/-- The columns of `notes` besides its primary key. -/
inductive Column where
  | sessionId
  | content
  | updatedAt
  deriving DecidableEq

instance : Fintype Column := ⟨{.sessionId, .content, .updatedAt}, fun c => by cases c <;> simp⟩

abbrev Notes (I V : Type) := Replica I Column V

section Pass

variable {I V : Type} [LinearOrder I] [LinearOrder V]

/-- Both columns that the comparison reads are proven merged values. -/
def proven (cells : Column → Cell V) : Bool :=
  (cells .sessionId).version.isSome && (cells .updatedAt).version.isSome

/-- By `updated_at` descending, then by `id` ascending. -/
def sortsHigher (w n : I) (cw cn : Column → Cell V) : Bool :=
  decide ((cn .updatedAt).value < (cw .updatedAt).value) ||
    (decide ((cw .updatedAt).value = (cn .updatedAt).value) && decide (w < n))

/-- The join of `dedup_notes`: `w` makes `n` a loser. -/
def outranks (t : Notes I V) (w n : I) : Bool :=
  match (t.row w).cells, (t.row n).cells with
  | some cw, some cn =>
    decide ((cw .sessionId).value = (cn .sessionId).value) && decide (w ≠ n) &&
      sortsHigher w n cw cn && proven cn && proven cw
  | _, _ => false

def Outranked (t : Notes I V) (n : I) : Prop := ∃ w ∈ t.keys, outranks t w n = true

instance decidableOutranked (t : Notes I V) (n : I) : Decidable (Outranked t n) :=
  inferInstanceAs (Decidable (∃ w ∈ t.keys, outranks t w n = true))

def losers (t : Notes I V) : Finset I := t.keys.filter (Outranked t)

def loses (t : Notes I V) (n : I) : Bool := decide (n ∈ losers t)

theorem mem_keys_of_loses {t : Notes I V} (n : I) (h : loses t n = true) : n ∈ t.keys :=
  (Finset.mem_filter.mp (of_decide_eq_true h)).1

def dedupNotes (t : Notes I V) : Notes I V := t.deleteWhere (loses t) mem_keys_of_loses

/-- The tombstones that a pass writes. -/
def tombstones (t : Notes I V) : Finset (Change I Column V) :=
  (losers t).image (fun n => ⟨n, ((t.row n).deleted).cl, none⟩)

end Pass

section Machine

variable {Dev I V : Type} [DecidableEq Dev] [LinearOrder I] [LinearOrder V]

/-- Devices with a `notes` table each, and every change that any of them has made.
`created` is history: the notes ever inserted, with their sessions. -/
structure State (Dev I V : Type) where
  notes : Dev → Notes I V
  log : Finset (Change I Column V)
  created : Finset (I × V)

inductive Action (Dev I V : Type) where
  | create (d : Dev) (n : I) (session content now : V)
  | edit (d : Dev) (n : I) (content now : V)
  | deliver (d : Dev) (c : Change I Column V) (now : V)
  | dedup (d : Dev)

def State.empty : State Dev I V := ⟨fun _ => .empty, ∅, ∅⟩

def noteValues (session content now : V) : Column → V
  | .sessionId => session
  | .content => content
  | .updatedAt => now

/-- The clock entries of an insert. -/
def insertChanges (n : I) (values : Column → V) : Finset (Change I Column V) :=
  Finset.univ.image (fun col =>
    ⟨n, 1, some ⟨col, values col, 1⟩⟩)

/-- `UPDATE notes SET content, updated_at`. -/
def editCells (cells : Column → Cell V) (content now : V) : Column → Cell V
  | .sessionId => cells .sessionId
  | .content => (cells .content).updated content
  | .updatedAt => (cells .updatedAt).updated now

/-- The clock entries of an update: one for each column whose value changed. -/
def editChanges (n : I) (cl : Nat) (cells : Column → Cell V) (content now : V) :
    Finset (Change I Column V) :=
  (([Column.content, .updatedAt].toFinset).filter (fun col =>
    editCells cells content now col ≠ cells col)).image (fun col =>
      ⟨n, cl, some ⟨col, (editCells cells content now col).value,
        (editCells cells content now col).version.getD 0⟩⟩)

variable (blank : V)

/-- The values a row takes for columns that no change has written yet. -/
def defaults (now : V) : Column → V
  | .sessionId => blank
  | .content => blank
  | .updatedAt => now

/-- A device writes a note, receives any change that any device has made, or runs the pass. -/
def step (s : State Dev I V) : Action Dev I V → Option (State Dev I V)
  | .create d n session content now =>
    if n ∈ s.created.image Prod.fst then none
    else
      some {
        notes := Function.update s.notes d
          ((s.notes d).set n (Row.inserted (noteValues session content now)))
        log := s.log ∪ insertChanges n (noteValues session content now)
        created := insert (n, session) s.created }
  | .edit d n content now =>
    match ((s.notes d).row n).cells with
    | none => none
    | some cells =>
      some { s with
        notes := Function.update s.notes d ((s.notes d).set n
          { (s.notes d).row n with cells := some (editCells cells content now) })
        log := s.log ∪ editChanges n ((s.notes d).row n).cl cells content now }
  | .deliver d c now =>
    if c ∈ s.log then
      some { s with
        notes := Function.update s.notes d ((s.notes d).merge c (defaults blank now)) }
    else none
  | .dedup d =>
    some { s with
      notes := Function.update s.notes d (dedupNotes (s.notes d))
      log := s.log ∪ tombstones (s.notes d) }

/-- The device has deleted the note, or learned that another has. -/
def Tombstoned (t : Notes I V) (n : I) : Prop := 0 < (t.row n).cl ∧ (t.row n).cl % 2 = 0

/-- A note of the session, as its row is stored. -/
def Live (t : Notes I V) (session : V) (n : I) : Prop :=
  ∃ cells ∈ (t.row n).cells, (cells .sessionId).value = session

/-- Every device has every change, and no pass finds a loser. -/
structure Settled (s : State Dev I V) : Prop where
  exchanged : ∀ d, ∀ c ∈ s.log, ∀ now,
    mergeInsert ((s.notes d).row c.key) c (defaults blank now) = (s.notes d).row c.key
  deduplicated : ∀ d, losers (s.notes d) = ∅

/-- No device has deleted the note. -/
def Undeleted (s : State Dev I V) (n : I) : Prop := ∀ d, ¬ Tombstoned (s.notes d) n

/-- Of every session with an undeleted note, a pass on `d` spares one: one that the copies
of `session_id`, `updated_at` and `id` on this device do not outrank. -/
def Spares (s : State Dev I V) (d : Dev) : Prop :=
  ∀ p ∈ s.created, Undeleted s p.1 →
    ∃ q ∈ s.created, q.2 = p.2 ∧ Undeleted s q.1 ∧ ¬ Outranked (s.notes d) q.1

def Guarded (s : State Dev I V) : Action Dev I V → Prop
  | .dedup d => Spares s d
  | _ => True

end Machine

end YapStack.Sync.Uniqueness
