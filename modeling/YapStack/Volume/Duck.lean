import YapStack.Foundation.Runs
import Mathlib.Algebra.Order.Field.Rat
import Mathlib.Logic.Function.Basic
import Mathlib.Order.Lattice
import Mathlib.Tactic.Linarith

set_option linter.unusedSectionVars false

namespace YapStack.Volume

/-- A volume in `[0.0, 1.0]`. -/
abbrev Level := {q : ℚ // 0 ≤ q ∧ q ≤ 1}

/-- `x.clamp(0.0, 1.0)`. -/
def clamp (x : ℚ) : Level :=
  ⟨max 0 (min x 1), le_max_left 0 _, max_le zero_le_one (min_le_right x 1)⟩

/-- `(level * (1.0 - amount)).clamp(0.0, 1.0)` for the clamped amount. -/
def lowered (level : Level) (amount : ℚ) : Level := clamp (level.1 * (1 - (clamp amount).1))

structure Snapshot (D : Type) where
  device : D
  level : Level
  deriving DecidableEq

/-- Where a call of `apply_duck_inner` or `restore_inner` stands. The snapshot is locked from
`reapplyGet`, `reapplySet`, `applySet` and `restoreSet` on, until the call returns. -/
inductive Pc (D : Type)
  | absent
  | applyStarted (amount : ℚ)
  | applyDevice (amount : ℚ) (device : D)
  | applyRead (amount : ℚ) (device : D) (current : Level)
  | reapplyGet (device : D) (absolute : Level)
  | reapplySet (device : D) (absolute : Level)
  | applySet (device : D) (absolute : Level)
  | restoreStarted
  | restoreSet (device : D) (level : Level)
  | returned (ok : Bool)
  deriving DecidableEq

structure State (D : Type) where
  vol : D → Level
  default : D
  slot : Option (Snapshot D)
  holder : Option ℕ
  pc : ℕ → Pc D

/-- `next` is the next step of a call; `ok` says how its controller call comes back. -/
inductive Event (D : Type)
  | applyDuck (i : ℕ) (amount : ℚ)
  | restore (i : ℕ)
  | next (i : ℕ) (ok : Bool)
  | switchDefault (device : D)

variable {D : Type} [DecidableEq D]

def State.goto (s : State D) (i : ℕ) (pc : Pc D) : State D :=
  { s with pc := Function.update s.pc i pc }

/-- The guard is dropped and the call returns. -/
def State.leave (s : State D) (i : ℕ) (ok : Bool) : State D :=
  { s.goto i (.returned ok) with holder := none }

def State.set (s : State D) (device : D) (level : Level) : State D :=
  { s with vol := Function.update s.vol device level }

/-- What `apply_duck_inner` does when it has the lock. -/
def applyLocked (s : State D) (i : ℕ) (amount : ℚ) (device : D) (current : Level) : State D :=
  match s.slot with
  | some snapped =>
    { s with holder := some i }.goto i
      (.reapplyGet snapped.device (lowered snapped.level amount))
  | none =>
    { s with holder := some i, slot := some ⟨device, current⟩ }.goto i
      (.applySet device (lowered current amount))

/-- What `restore_inner` does when it has the lock. -/
def restoreLocked (s : State D) (i : ℕ) : State D :=
  match s.slot with
  | some snapped =>
    { s with holder := some i, slot := none }.goto i (.restoreSet snapped.device snapped.level)
  | none => s.goto i (.returned true)

def next (s : State D) (i : ℕ) (ok : Bool) : Option (State D) :=
  match s.pc i with
  | .absent | .returned _ => none
  | .applyStarted amount =>
    some (s.goto i (if ok then .applyDevice amount s.default else .returned false))
  | .applyDevice amount device =>
    some (s.goto i (if ok then .applyRead amount device (s.vol device) else .returned false))
  | .applyRead amount device current =>
    if s.holder = none then some (applyLocked s i amount device current) else none
  | .reapplyGet device absolute =>
    if ok then
      if absolute < s.vol device then some (s.goto i (.reapplySet device absolute))
      else some (s.leave i true)
    else some (s.leave i false)
  | .reapplySet device absolute =>
    if ok then some ((s.set device absolute).leave i true) else some (s.leave i false)
  | .applySet device absolute =>
    if ok then some ((s.set device absolute).leave i true)
    else some ({ s with slot := none }.leave i false)
  | .restoreStarted => if s.holder = none then some (restoreLocked s i) else none
  | .restoreSet device level =>
    if ok then some ((s.set device level).leave i true) else some (s.leave i false)

def step (s : State D) : Event D → Option (State D)
  | .applyDuck i amount =>
    if s.pc i = .absent then some (s.goto i (.applyStarted amount)) else none
  | .restore i => if s.pc i = .absent then some (s.goto i .restoreStarted) else none
  | .next i ok => next s i ok
  | .switchDefault device => some { s with default := device }

def start (vol : D → Level) (default : D) : State D := ⟨vol, default, none, none, fun _ => .absent⟩

/-- The level to which a device belongs: the one it started with or, once a set of
`restore_inner` has failed on it, the one at which that left it. -/
def rebase (base : D → Level) (s : State D) : Event D → D → Level
  | .next i false =>
    match s.pc i with
    | .restoreSet device _ => Function.update base device (s.vol device)
    | _ => base
  | _ => base

/-- The level that `apply_duck_inner` read is the level of the device when it takes the
snapshot. -/
def readFresh (s : State D) : Event D → Bool
  | .next i _ =>
    match s.pc i with
    | .applyRead _ device current => s.slot.isSome || decide (current = s.vol device)
    | _ => true
  | _ => true

/-- A set made by `apply_duck_inner`. -/
def IsDuckSet (s : State D) : Event D → Prop
  | .next i _ =>
    match s.pc i with
    | .applySet _ _ | .reapplySet _ _ => True
    | _ => False
  | _ => False

def Pc.Applying : Pc D → Prop
  | .applyStarted _ | .applyDevice _ _ | .applyRead _ _ _ | .reapplyGet _ _ | .reapplySet _ _
  | .applySet _ _ => True
  | _ => False

def Pc.Locked : Pc D → Prop
  | .reapplyGet _ _ | .reapplySet _ _ | .applySet _ _ | .restoreSet _ _ => True
  | _ => False

theorem lowered_le (level : Level) (amount : ℚ) : lowered level amount ≤ level := by
  obtain ⟨q, hq0, hq1⟩ := level
  have h0 := (clamp amount).2.1
  have hle : q * (1 - (clamp amount).1) ≤ q := by nlinarith
  show max 0 (min (q * (1 - (clamp amount).1)) 1) ≤ q
  exact max_le hq0 ((min_le_left _ _).trans hle)

end YapStack.Volume
