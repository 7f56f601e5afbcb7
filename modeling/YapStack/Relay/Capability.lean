import Mathlib.Algebra.Group.Int.Defs
import YapStack.Relay.Devices

namespace YapStack.Relay.Capability

open Devices (Status)

/-- The two levels of a workspace; a new row starts at level 0. -/
structure Levels where
  required : Int
  requested : Int
  deriving DecidableEq

def Levels.initial : Levels := ⟨0, 0⟩

/-- The columns of `devices` that the gate reads. -/
structure Device where
  label : String
  platform : String
  status : Status
  syncCapability : Int
  capabilitySeenAt : Option Int
  deriving DecidableEq

structure CapabilityBlocker (Client : Type) where
  clientId : Client
  label : String
  platform : String
  syncCapability : Int
  capabilitySeenAt : Int
  deriving DecidableEq

structure SyncCapabilityBlocked (Client : Type) where
  code : String
  message : String
  levels : Levels
  blockers : List (CapabilityBlocker Client)
  deriving DecidableEq

section Header

def isVisible (c : Char) : Bool := (32 ≤ c.toNat && c.toNat < 127) || c = '\t'

def digits (cs : List Char) : Option Nat :=
  if cs ≠ [] ∧ cs.all Char.isDigit = true then
    some (cs.foldl (fun n c => 10 * n + (c.toNat - 48)) 0)
  else none

def i32 (n : Int) : Option Int := if -(2 ^ 31) ≤ n ∧ n < 2 ^ 31 then some n else none

/-- `str::parse::<i32>`. -/
def parseI32 : List Char → Option Int
  | '+' :: cs => (digits cs).bind (fun n => i32 n)
  | '-' :: cs => (digits cs).bind (fun n => i32 (-n))
  | cs => (digits cs).bind (fun n => i32 n)

def trim (cs : List Char) : List Char :=
  ((cs.dropWhile Char.isWhitespace).reverse.dropWhile Char.isWhitespace).reverse

/-- An absent header is level 0; the error is the text of the bad request. -/
def headerLevel (name : String) : Option (List Char) → Except String Int
  | none => .ok 0
  | some v =>
    match if v.all isVisible then parseI32 (trim v) else none with
    | none => .error (name ++ ": expected a non-negative integer")
    | some l => if 0 ≤ l then .ok l else .error (name ++ ": expected a non-negative integer")

theorem headerLevel_nonneg {name : String} {v : Option (List Char)} {l : Int}
    (h : headerLevel name v = .ok l) : 0 ≤ l := by
  cases v with
  | none =>
    cases h
    exact Int.le_refl 0
  | some v =>
    simp only [headerLevel] at h
    split at h
    · cases h
    · split at h
      · cases h
        assumption
      · cases h

end Header

/-- Time is in microseconds. -/
def hour : Int := 3600 * 1000000

def capabilityWindowDays : Int := 30

/-- The `WHERE` of the stamp: it is throttled to one write an hour. -/
def stampDue (now level : Int) (d : Device) : Bool :=
  d.syncCapability ≠ level || d.capabilitySeenAt.all (fun seen => seen < now - hour)

def stamp (now level : Int) (d : Device) : Device :=
  { d with syncCapability := level, capabilitySeenAt := some now }

def inWindow (now : Int) (d : Device) : Bool :=
  d.capabilitySeenAt.any (fun seen => seen > now - capabilityWindowDays * 24 * hour)

/-- Seen within the window and reporting less than `target`. -/
def below (now target : Int) (d : Device) : Bool :=
  inWindow now d && decide (d.syncCapability < target)

def blocks (now target : Int) (d : Device) : Bool :=
  decide (d.status ≠ .revoked) && below now target d

def blocker {Client : Type} (client : Client) (d : Device) : CapabilityBlocker Client :=
  ⟨client, d.label, d.platform, d.syncCapability, d.capabilitySeenAt.getD 0⟩

def seenLater {Client : Type} (a b : CapabilityBlocker Client) : Bool :=
  b.capabilitySeenAt ≤ a.capabilitySeenAt

def blocked {Client : Type} (levels : Levels) (blockers : List (CapabilityBlocker Client)) :
    SyncCapabilityBlocked Client :=
  ⟨"sync_capability_blocked", "other devices need to update YapStack first", levels, blockers⟩

/-- May content of this level be published under the floor held right now? -/
def admitsPublication (levels : Levels) (contentLevel : Int) : Bool :=
  contentLevel ≤ levels.required

def raiseRequired (target : Int) (l : Levels) : Levels := { l with required := max l.required target }

def raiseRequested (target : Int) (l : Levels) : Levels :=
  { l with requested := max l.requested target }

/-- What a route other than the gate may do to a device's row: a new row has
never been seen, and an old one keeps its level and its stamp. -/
def edit (label platform : String) (status : Status) : Option Device → Device
  | none => ⟨label, platform, status, 0, none⟩
  | some d => { d with label := label, platform := platform, status := status }

theorem below_new (now target : Int) (label platform : String) (status : Status) :
    below now target (edit label platform status none) = false := rfl

theorem below_edit (now target : Int) (label platform : String) (status : Status) (d : Device) :
    below now target (edit label platform status (some d)) = below now target d := rfl

/-- A later instant has a smaller window. -/
theorem below_mono {now later target : Int} {d : Device} (hl : now ≤ later)
    (h : below later target d = true) : below now target d = true := by
  simp only [below, inWindow, Bool.and_eq_true, Option.any_eq_true, decide_eq_true_eq] at h ⊢
  obtain ⟨⟨seen, hs, hw⟩, hb⟩ := h
  exact ⟨⟨seen, hs, by omega⟩, hb⟩

end YapStack.Relay.Capability
