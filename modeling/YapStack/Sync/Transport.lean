import YapStack.Crypto.Aead
import YapStack.Relay.Sequence

namespace YapStack.Sync

open Relay.Sequence

structure SyncCapabilityLevels where
  requiredSyncCapability : Int
  requestedSyncCapability : Int
  deriving DecidableEq

/-- One device that keeps a raise from succeeding. -/
structure CapabilityBlocker where
  clientId : String
  label : String
  platform : String
  syncCapability : Int
  capabilitySeenAt : String
  deriving DecidableEq

inductive SyncError
  | database
  | crypto (e : Crypto.CryptoError)
  | codec (message : String)
  | transport (message : String)
  | unauthorized
  | oversized (clientSeq : Int) (size : Nat)
  | network
  | relayConflict (message : String)
  | updateRequired (level required requested : Int)
  | capabilityFloor (batch required requested : Int)
  | capabilityBlocked (level : Int) (blockers : List CapabilityBlocker)
  | capabilityGateMissing (level : Int)
  | http
  deriving DecidableEq

def SyncError.isNetwork : SyncError → Bool
  | .network => true
  | _ => false

def SyncError.isConflict : SyncError → Bool
  | .relayConflict _ => true
  | _ => false

def SyncError.isUpdateRequired : SyncError → Bool
  | .updateRequired _ _ _ => true
  | _ => false

def SyncError.isCapabilityFloor : SyncError → Bool
  | .capabilityFloor _ _ _ => true
  | _ => false

structure PushResponse (Client : Type) where
  acks : List (PushAck Client)
  maxChangesetSeq : Nat
  deriving DecidableEq

structure CompletenessResponse (Client : Type) where
  maxChangesetSeq : Nat
  count : Nat
  contiguous : Bool
  perClient : List (Client × Int)

/-- What a response body turns out to be when it is read. A refusal carries the
fields that parsed. -/
inductive Body (α : Type)
  | unreadable (timeout : Bool)
  | notJson
  | refusal (code message : String) (levels : Option SyncCapabilityLevels)
      (blockers : Option (List CapabilityBlocker))
  | payload (a : α)

/-- The end of one HTTP request: `send` failed, or a response arrived. -/
inductive Reply (α : Type)
  | sendFailed (unreachable : Bool)
  | response (status : Nat) (body : Body α)

section Transport

variable {α : Type}

def mapSendError (unreachable : Bool) : SyncError := if unreachable then .network else .http

def statusText (status : Nat) : String :=
  if status = 426 then "426 Upgrade Required" else "409 Conflict"

def unrecognised (status : Nat) (what : String) : SyncError :=
  .transport ("relay answered " ++ statusText status ++ " with " ++ what ++
    "; nothing was changed locally")

def incomplete (code : String) : String := "an incomplete `" ++ code ++ "` body"

/-- The error that a 409 or a 426 with this code stands for. -/
def classifyRefusal (status : Nat) (levelSent : Int) (code message : String)
    (levels : Option SyncCapabilityLevels) (blockers : Option (List CapabilityBlocker)) :
    SyncError :=
  if status = 426 ∧ code = "update_required" then
    match levels with
    | none => unrecognised status (incomplete code)
    | some r => .updateRequired levelSent r.requiredSyncCapability r.requestedSyncCapability
  else if status = 409 ∧ code = "sync_capability_floor" then
    match levels with
    | none => unrecognised status (incomplete code)
    | some r => .capabilityFloor levelSent r.requiredSyncCapability r.requestedSyncCapability
  else if status = 409 ∧ code = "sync_capability_blocked" then
    match levels, blockers with
    | some _, some b => .capabilityBlocked levelSent b
    | _, _ => unrecognised status (incomplete "sync_capability_blocked")
  else if status = 409 ∧ code = "conflict" then .relayConflict message
  else unrecognised status ("an unrecognised code `" ++ code ++ "`")

/-- A 409 or 426 is always an error; every other status passes through. -/
def checkCapability (status : Nat) (body : Body α) (levelSent : Int) :
    Except SyncError (Nat × Body α) :=
  if status ≠ 426 ∧ status ≠ 409 then .ok (status, body)
  else
    match body with
    | .unreadable timeout => .error (mapSendError timeout)
    | .notJson => .error (unrecognised status "a body that isn't JSON")
    | .refusal code message levels blockers =>
      .error (classifyRefusal status levelSent code message levels blockers)
    | .payload _ => .error (unrecognised status "an unrecognised code ``")

/-- Read the response as the expected value, unless the status is an error. -/
def checkAuth (status : Nat) (body : Body α) : Except SyncError α :=
  if status = 401 then .error .unauthorized
  else if 400 ≤ status ∧ status < 600 then .error .http
  else
    match body with
    | .payload a => .ok a
    | _ => .error .http

def receive (levelSent : Int) : Reply α → Except SyncError α
  | .sendFailed unreachable => .error (mapSendError unreachable)
  | .response status body => do
    let (status, body) ← checkCapability status body levelSent
    checkAuth status body

/-- The result of `raise_sync_capability`: a relay without the route predates the gate. -/
def receiveRaise (level : Int) : Reply SyncCapabilityLevels → Except SyncError SyncCapabilityLevels
  | .sendFailed unreachable => .error (mapSendError unreachable)
  | .response status body =>
    if status = 404 ∨ status = 405 then .error (.capabilityGateMissing level)
    else receive level (.response status body)

/-- The result of `completeness`, which declares no level. -/
def receiveCompleteness : Reply α → Except SyncError α
  | .sendFailed unreachable => .error (mapSendError unreachable)
  | .response status body => checkAuth status body

theorem classifyRefusal_blocked {status : Nat} {level l : Int} {code message : String}
    {levels : Option SyncCapabilityLevels} {b : Option (List CapabilityBlocker)}
    {blockers : List CapabilityBlocker}
    (h : classifyRefusal status level code message levels b = .capabilityBlocked l blockers) :
    l = level := by
  simp only [classifyRefusal, unrecognised] at h
  split_ifs at h
  · split at h <;> cases h
  · split at h <;> cases h
  · split at h
    · cases h
      rfl
    · cases h

/-- A refusal that names blockers is always at the level the request declared. -/
theorem receive_blocked {level l : Int} {blockers : List CapabilityBlocker} {reply : Reply α}
    (h : receive level reply = .error (.capabilityBlocked l blockers)) : l = level := by
  cases reply with
  | sendFailed unreachable => cases unreachable <;> cases h
  | response status body =>
    simp only [receive, bind, Except.bind, checkCapability] at h
    split at h
    · rename_i e he
      cases h
      split at he
      · cases he
      · cases body with
        | unreadable timeout => cases timeout <;> cases he
        | notJson => cases he
        | payload a => cases he
        | refusal code message levels b => exact classifyRefusal_blocked (Except.error.inj he)
    · simp only [checkAuth] at h
      split_ifs at h
      · cases h
      · cases h
      · split at h <;> cases h

end Transport

end YapStack.Sync
