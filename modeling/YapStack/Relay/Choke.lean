import Mathlib.Algebra.Group.Int.Defs
import YapStack.Foundation.Statements

namespace YapStack.Relay.Choke

inductive Limit where
  | unlimited
  | max (n : Nat)
  deriving DecidableEq

inductive TenantState where
  | active
  | grace (untilTime : Int)
  | frozen
  deriving DecidableEq

structure TenantLimits where
  storageBytes : Limit
  uploadBytesPeriod : Limit
  periodStart : Option Int
  state : TenantState

def TenantLimits.unlimited : TenantLimits := ⟨.unlimited, .unlimited, none, .active⟩

/-- The row of `tenant_usage`. -/
structure Usage where
  storageBytes : Int
  uploadBytesPeriod : Int
  windowStart : Int
  deriving DecidableEq

/-- The body of the 429 answer. -/
structure QuotaExceeded where
  code : String
  resource : String
  used : Nat
  limit : Nat
  resetsAt : Option Int
  helpUrl : String
  deriving DecidableEq

def i64Max : Int := 2 ^ 63 - 1

/-- `i64::try_from(n).unwrap_or(i64::MAX)` of an unsigned `n`. -/
def toI64 (n : Nat) : Int := min (n : Int) i64Max

def limitBound : Limit → Option Int
  | .unlimited => none
  | .max n => some (toI64 n)

def quota (resource : String) (used limit : Nat) (limits : TenantLimits) (helpUrl : String) :
    QuotaExceeded :=
  ⟨"quota_exceeded", resource, used, limit, limits.periodStart, helpUrl⟩

/-- The row that `INSERT INTO tenant_usage` creates. -/
def newUsage (now : Int) : Usage := ⟨0, 0, now⟩

def windowBefore (periodStart : Int) (u : Usage) : Bool := u.windowStart < periodStart

def rollWindow (periodStart : Int) (u : Usage) : Usage :=
  { u with uploadBytesPeriod := 0, windowStart := periodStart }

def isFrozen (limits : TenantLimits) : Bool := limits.state = .frozen

def withinBound (used added : Int) (bound : Option Int) : Bool :=
  bound.all (fun b => used + added ≤ b)

/-- The `WHERE` of the check-and-reserve statement. -/
def fits (limits : TenantLimits) (added : Int) (u : Usage) : Bool :=
  withinBound u.storageBytes added (limitBound limits.storageBytes) &&
    withinBound u.uploadBytesPeriod added (limitBound limits.uploadBytesPeriod)

def reserve (added : Int) (u : Usage) : Usage :=
  { u with storageBytes := u.storageBytes + added, uploadBytesPeriod := u.uploadBytesPeriod + added }

def saturatingAdd (a b : Int) : Int := max (-(2 ^ 63)) (min (a + b) i64Max)

def exceeds (used added : Int) (bound : Option Int) : Option Int :=
  bound.filter (fun b => saturatingAdd used added > b)

/-- Which bound the counters breach, read after the reservation was refused. -/
def breach (limits : TenantLimits) (added : Int) (helpUrl : String) (u : Usage) :
    QuotaExceeded :=
  match exceeds u.storageBytes added (limitBound limits.storageBytes) with
  | some b => quota "storage_bytes" u.storageBytes.toNat b.toNat limits helpUrl
  | none =>
    match exceeds u.uploadBytesPeriod added (limitBound limits.uploadBytesPeriod) with
    | some b => quota "upload_bytes_period" u.uploadBytesPeriod.toNat b.toNat limits helpUrl
    | none => quota "upload_bytes_period" u.uploadBytesPeriod.toNat 0 limits helpUrl

/-- What the sweep gives back for a deleted blob. -/
def reclaim (size : Int) (u : Usage) : Usage :=
  { u with storageBytes := max 0 (u.storageBytes - max size 0) }

inductive Refusal where
  | quota (body : QuotaExceeded)
  | db
  deriving DecidableEq

/-- The arguments of `admit`, and the `now()` of the transaction it runs in. -/
structure Ingress where
  limits : TenantLimits
  addedBytes : Nat
  helpUrl : String
  now : Int

/-- The next statement of `admit`. -/
inductive Stage where
  | ensure
  | roll
  | reserve
  | read

inductive Verdict where
  | next (stage : Stage)
  | admitted
  | refused (r : Refusal)

section Admit

variable {Tx : Type*} [DecidableEq Tx] (usage : Table Tx Unit Usage) (t : Tx) (i : Ingress)

def ensureUsage : Option (Table Tx Unit Usage × Verdict) :=
  (usage.insertIgnore t () (newUsage i.now)).map (fun r => (r.1, .next .roll))

def rollPeriod : Option (Table Tx Unit Usage × Verdict) :=
  match i.limits.periodStart with
  | none => some (usage, .next .reserve)
  | some ps =>
    (usage.modify t () (windowBefore ps) (fun u => some (rollWindow ps u))).map
      (fun usage => (usage, .next .reserve))

def reserveBytes : Option (Table Tx Unit Usage × Verdict) :=
  if isFrozen i.limits then
    some (usage, .refused (.quota (quota "frozen" 0 0 i.limits i.helpUrl)))
  else if usage.hits t () (fits i.limits (toI64 i.addedBytes)) then
    (usage.modify t () (fits i.limits (toI64 i.addedBytes))
      (fun u => some (reserve (toI64 i.addedBytes) u))).map (fun usage => (usage, .admitted))
  else some (usage, .next .read)

def readBreach : Verdict :=
  match usage.view t () with
  | none => .refused .db
  | some u => .refused (.quota (breach i.limits (toI64 i.addedBytes) i.helpUrl u))

/-- One statement of `admit`. -/
def admitIngress : Stage → Option (Table Tx Unit Usage × Verdict)
  | .ensure => ensureUsage usage t i
  | .roll => rollPeriod usage t i
  | .reserve => reserveBytes usage t i
  | .read => some (usage, readBreach usage t i)

variable {usage : Table Tx Unit Usage} {t : Tx} {i : Ingress}

theorem admit_touched {stage : Stage} {r : Table Tx Unit Usage × Verdict}
    (h : admitIngress usage t i stage = some r) : Table.Touched t usage r.1 := by
  cases stage with
  | ensure =>
    obtain ⟨q, hq, rfl⟩ := Option.map_eq_some_iff.mp h
    exact Table.insertIgnore_touched hq
  | roll =>
    simp only [admitIngress, rollPeriod] at h
    split at h
    · cases h
      exact .none
    · obtain ⟨q, hq, rfl⟩ := Option.map_eq_some_iff.mp h
      exact Table.modify_touched hq
  | reserve =>
    simp only [admitIngress, reserveBytes] at h
    split at h
    · cases h
      exact .none
    · split at h
      · obtain ⟨q, hq, rfl⟩ := Option.map_eq_some_iff.mp h
        exact Table.modify_touched hq
      · cases h
        exact .none
  | read =>
    cases h
    exact .none

end Admit

theorem toI64_nonneg (n : Nat) : 0 ≤ toI64 n := by
  simp only [toI64, i64Max]
  omega

theorem reserve_within (limits : TenantLimits) (added b : Int) (u : Usage)
    (hb : limitBound limits.storageBytes = some b) (h : fits limits added u = true) :
    (reserve added u).storageBytes ≤ b := by
  simp only [fits, hb, withinBound, Option.all_some, Bool.and_eq_true, decide_eq_true_eq] at h
  exact h.1

end YapStack.Relay.Choke
