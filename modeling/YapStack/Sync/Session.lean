import YapStack.Sync.Transport

namespace YapStack.Sync

def raiseBackoffInitialMs : Int := 60000

def raiseBackoffMaxMs : Int := 15 * 60000

/-- Why a floor raise was refused. -/
inductive RaiseRefusal
  | blocked (blockers : List CapabilityBlocker)
  | gateMissing
  deriving DecidableEq

structure RefusedRaise where
  level : Int
  refusal : RaiseRefusal
  deriving DecidableEq

def RefusedRaise.intoError (r : RefusedRaise) : SyncError :=
  match r.refusal with
  | .blocked blockers => .capabilityBlocked r.level blockers
  | .gateMissing => .capabilityGateMissing r.level

def RaiseRefusal.kind : RaiseRefusal → String
  | .blocked _ => "blocked"
  | .gateMissing => "gate_missing"

/-- The row of the TEMP table that holds the raise backoff. -/
structure Backoff where
  level : Int
  refusal : RaiseRefusal
  retryAtMs : Int
  delayMs : Int
  required : Option Int
  requested : Option Int
  deriving DecidableEq

/-- The relay's levels end the backoff at this level: the floor reaches it, or
they differ from the levels it remembers. -/
def Backoff.endedBy (b : Backoff) (levels : SyncCapabilityLevels) : Bool :=
  b.level ≤ levels.requiredSyncCapability ||
    b.required.any (fun r => r ≠ levels.requiredSyncCapability) ||
    b.requested.any (fun r => r ≠ levels.requestedSyncCapability)

/-- What lives in the TEMP tables of one connection. -/
structure Session where
  seqReconciled : Bool
  capabilityGateProven : Bool
  backoff : Option Backoff
  deriving DecidableEq

namespace Session

def opened : Session := ⟨false, false, none⟩

/-- The refused raise to report instead of asking again, while `nowMs` is inside its wait. -/
def raiseBackoff (s : Session) (nowMs : Int) : Option RefusedRaise :=
  s.backoff.bind (fun b =>
    if b.retryAtMs ≤ nowMs ∨ b.delayMs < b.retryAtMs - nowMs then none
    else some ⟨b.level, b.refusal⟩)

def refusedDelay (s : Session) (refused : RefusedRaise) : Int :=
  match s.backoff with
  | none => raiseBackoffInitialMs
  | some b =>
    if b.level = refused.level ∧ b.refusal.kind = refused.refusal.kind then
      min (b.delayMs * 2) raiseBackoffMaxMs
    else raiseBackoffInitialMs

def recordRefusedRaise (s : Session) (refused : RefusedRaise) (nowMs : Int) : Session :=
  let delay := s.refusedDelay refused
  { s with
    backoff := some ⟨refused.level, refused.refusal, nowMs + delay, delay,
      s.backoff.bind Backoff.required, s.backoff.bind Backoff.requested⟩ }

end Session

/-- One statement on the TEMP tables. -/
inductive SessionStatement
  | markSeqReconciled
  | clearSeqReconciled
  | markCapabilityGateProven
  | forgetProof
  | forgetMissingGate
  | clearRaiseBackoff
  | recordRefusedRaise (refused : RefusedRaise) (nowMs : Int)
  | endBackoff (levels : SyncCapabilityLevels)
  | rememberLevels (levels : SyncCapabilityLevels)
  deriving DecidableEq

def Session.run (s : Session) : SessionStatement → Session
  | .markSeqReconciled => { s with seqReconciled := true }
  | .clearSeqReconciled => { s with seqReconciled := false }
  | .markCapabilityGateProven => { s with capabilityGateProven := true }
  | .forgetProof => { s with capabilityGateProven := false }
  | .forgetMissingGate =>
    { s with backoff := s.backoff.filter (fun b => b.refusal.kind ≠ "gate_missing") }
  | .clearRaiseBackoff => { s with backoff := none }
  | .recordRefusedRaise refused nowMs => s.recordRefusedRaise refused nowMs
  | .endBackoff levels => { s with backoff := s.backoff.filter (fun b => !b.endedBy levels) }
  | .rememberLevels levels =>
    { s with
      backoff := s.backoff.map (fun b =>
        if b.required = none then
          { b with
            required := some levels.requiredSyncCapability
            requested := some levels.requestedSyncCapability }
        else b) }

def forgetCapabilityGate : List SessionStatement := [.forgetProof, .forgetMissingGate]

def noteRelayCapability (levels : SyncCapabilityLevels) : List SessionStatement :=
  [.endBackoff levels, .rememberLevels levels]

/-- The statements that `drain_once` folds a cycle's outcome in with. -/
def foldCycle (pushError pullError : Option SyncError)
    (relayCapability : Option SyncCapabilityLevels) : List SessionStatement :=
  (if pullError.any SyncError.isUpdateRequired then [.markCapabilityGateProven] else []) ++
    ((if pushError.any SyncError.isNetwork || pullError.any SyncError.isNetwork then
        forgetCapabilityGate else []) ++
      (relayCapability.map noteRelayCapability).getD [])

namespace Session

variable {s : Session} {nowMs : Int} {refused : RefusedRaise} {st : SessionStatement}

/-- A row of the backoff only carries the level of a refusal. -/
theorem run_backoff_level {b : Backoff} (h : (s.run st).backoff = some b) :
    (∃ c, s.backoff = some c ∧ c.level = b.level) ∨
      ∃ refused nowMs, st = .recordRefusedRaise refused nowMs ∧ refused.level = b.level := by
  cases st with
  | markSeqReconciled => exact Or.inl ⟨b, h, rfl⟩
  | clearSeqReconciled => exact Or.inl ⟨b, h, rfl⟩
  | markCapabilityGateProven => exact Or.inl ⟨b, h, rfl⟩
  | forgetProof => exact Or.inl ⟨b, h, rfl⟩
  | forgetMissingGate => exact Or.inl ⟨b, (Option.filter_eq_some_iff.mp h).1, rfl⟩
  | clearRaiseBackoff => cases h
  | recordRefusedRaise refused nowMs =>
    cases h
    exact Or.inr ⟨refused, nowMs, rfl, rfl⟩
  | endBackoff levels => exact Or.inl ⟨b, (Option.filter_eq_some_iff.mp h).1, rfl⟩
  | rememberLevels levels =>
    obtain ⟨c, hc, rfl⟩ := Option.map_eq_some_iff.mp h
    refine Or.inl ⟨c, hc, ?_⟩
    split <;> rfl

theorem raiseBackoff_level (h : s.raiseBackoff nowMs = some refused) :
    ∃ b, s.backoff = some b ∧ b.level = refused.level := by
  obtain ⟨b, hb, hr⟩ := Option.bind_eq_some_iff.mp h
  split at hr
  · cases hr
  · cases hr
    exact ⟨b, hb, rfl⟩

/-- A refusal holds from when it arrived until its delay is over. -/
theorem raiseBackoff_recorded {now : Int} (hfrom : nowMs ≤ now)
    (huntil : now < nowMs + s.refusedDelay refused) :
    (s.recordRefusedRaise refused nowMs).raiseBackoff now = some refused := by
  have hinside : ¬ (nowMs + s.refusedDelay refused ≤ now ∨
      s.refusedDelay refused < nowMs + s.refusedDelay refused - now) := by omega
  simp only [raiseBackoff, recordRefusedRaise, Option.bind_some, if_neg hinside]

end Session

end YapStack.Sync
