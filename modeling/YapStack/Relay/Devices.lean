import Mathlib.Data.List.Dedup
import YapStack.Foundation.Bytes
import YapStack.Foundation.Runs

namespace YapStack.Relay.Devices

inductive AppError where
  | badRequest (message : String)
  | unauthorized
  | forbidden
  | conflict (message : String)
  | notFound
  | db
  deriving DecidableEq

inductive Status where
  | pending
  | active
  | revoked
  deriving DecidableEq

/-- A row of `devices`. `Account` stands for the user and its one workspace. -/
structure Device (Account : Type) where
  account : Account
  ed25519Pub : Bytes
  label : String
  platform : String
  status : Status
  recoveryGrantAt : Option Int
  recoveredAt : Option Int
  deriving DecidableEq

structure User (Account : Type) where
  id : Account
  email : String
  verifier : Bytes
  serverSalt : Bytes
  saltEnc : Bytes
  wrappedVaultKeyPassword : Bytes
  wrappedVaultKeyRecovery : Bytes
  recoverySalt : Option Bytes
  recoveryVerifier : Option Bytes
  deriving DecidableEq

structure Roster where
  deviceList : Bytes
  signature : Bytes
  counter : Int
  vaultKeyEpoch : Int
  deriving DecidableEq

structure LoginNonce where
  nonce : Bytes
  emailLower : String
  issuedAt : Int
  deriving DecidableEq

/-- The calls that leave the relay's own code: the password hash, the signature
check, the bytes of a UUID and the lower-casing of an email. -/
structure Crypto (Client : Type) where
  serverVerifier : Bytes → Bytes → Bytes
  verifySignature : Bytes → Bytes → Bytes → Bool
  clientBytes : Client → Bytes
  lower : String → String

structure State (Client Account : Type) where
  users : List (User Account)
  devices : Client → Option (Device Account)
  rosters : Account → Option Roster
  nonces : List LoginNonce
  now : Int

def State.empty {Client Account : Type} : State Client Account :=
  ⟨[], fun _ => none, fun _ => none, [], 0⟩

/-- The validated claims of an access token. -/
structure AuthTenant (Client Account : Type) where
  tenantId : Account
  clientId : Option Client

structure RosterEnvelope (Client : Type) where
  deviceList : Bytes
  signature : Bytes
  counter : Int
  vaultKeyEpoch : Int
  clientId : Client
  ed25519Pub : Bytes
  label : String
  platform : String

structure SignupRequest (Client : Type) where
  email : String
  authKey : Bytes
  recoveryAuthKey : Bytes
  saltEnc : Bytes
  wrappedVaultKeyPassword : Bytes
  wrappedVaultKeyRecovery : Bytes
  deviceList : RosterEnvelope Client

/-- The device fields of `LoginFinishRequest` and of `RecoverRequest`. -/
structure DeviceFields (Client : Type) where
  clientId : Option Client
  ed25519Pub : Option Bytes
  label : Option String
  platform : Option String
  nonce : Option Bytes
  proof : Option Bytes

structure LoginPop (Client : Type) where
  clientId : Client
  presentedPub : Bytes
  nonce : Bytes
  proof : Bytes

structure RosterUploadRequest (Client : Type) where
  deviceList : Bytes
  signature : Bytes
  counter : Int
  vaultKeyEpoch : Int
  activeDevices : List Client
  revokedDevices : List Client
  currentAuthKey : Option Bytes

structure ChangePasswordRequest where
  currentAuthKey : Option Bytes
  authKey : Bytes
  wrappedVaultKeyPassword : Bytes

inductive Answer (Client Account : Type) where
  | tokens (tenantId : Account) (clientId : Option Client)
  | login (tenantId : Account) (clientId : Option Client) (saltEnc wrappedVaultKey : Bytes)
      (roster : Option (Bytes × Bytes))
  | roster (counter vaultKeyEpoch : Int)
  | ok

/-- Minutes in the microseconds of `timestamptz`. -/
def minutes (n : Int) : Int := n * 60000000

def ed25519SigLen : Nat := 64

def loginPopDomain : Bytes := "yapstack.login.pop.v1".toUTF8.toList

section Requests

variable {Client Account : Type} [DecidableEq Client] [DecidableEq Account]
variable (cr : Crypto Client) (s : State Client Account)

def Device.isActive (d : Device Account) : Bool := d.status = .active

/-- The row of a device as a statement scoped to one workspace sees it. -/
def State.device (account : Account) (c : Client) : Option (Device Account) :=
  (s.devices c).filter (fun d => d.account = account)

def State.setDevice (c : Client) (d : Device Account) : State Client Account :=
  { s with devices := Function.update s.devices c (some d) }

/-- `UPDATE devices ... WHERE workspace_id = account AND client_id = ANY(ids)`. -/
def State.updateDevices (account : Account) (ids : List Client)
    (f : Device Account → Device Account) : State Client Account :=
  { s with devices := fun c =>
      if c ∈ ids then (s.devices c).map (fun d => if d.account = account then f d else d)
      else s.devices c }

/-- `INSERT INTO devices ... ON CONFLICT (client_id) DO UPDATE ... WHERE` the row
is of the same account; `none` when no row is touched. -/
def upsertDevice (c : Client) (new : Device Account)
    (onConflict : Device Account → Device Account) : Option (State Client Account) :=
  match s.devices c with
  | none => some (s.setDevice c new)
  | some d => if d.account = new.account then some (s.setDevice c (onConflict d)) else none

def State.setRoster (account : Account) (r : Roster) : State Client Account :=
  { s with rosters := Function.update s.rosters account (some r) }

def State.updateUser (account : Account) (f : User Account → User Account) :
    State Client Account :=
  { s with users := s.users.map (fun u => if u.id = account then f u else u) }

def reenrol : Status → Status
  | .revoked => .pending
  | status => status

def loginConflict (d : Device Account) : Device Account := { d with status := reenrol d.status }

def recoverConflict (now : Int) (d : Device Account) : Device Account :=
  { d with
    status := reenrol d.status
    recoveryGrantAt := if d.status = .revoked then none else some now
    recoveredAt := some now }

def findUser (email : String) : Option (User Account) :=
  s.users.find? (fun u => cr.lower u.email = cr.lower email)

def userById (account : Account) : Option (User Account) := s.users.find? (fun u => u.id = account)

/-- `login/begin` as far as it changes state: a nonce for the email. -/
def loginBegin (email : String) (nonce : Bytes) :
    State Client Account × Except AppError (Answer Client Account) :=
  if 254 < email.utf8ByteSize then (s, .error (.badRequest "email: too long"))
  else
    ({ s with nonces := ⟨nonce, cr.lower email, s.now⟩ ::
        s.nonces.filter (fun n => ¬ n.issuedAt < s.now - minutes 10) }, .ok .ok)

def nonceMatches (email : String) (nonce : Bytes) (n : LoginNonce) : Bool :=
  n.nonce = nonce ∧ n.emailLower = cr.lower email ∧ n.issuedAt > s.now - minutes 5

def popMessage (email : String) (pop : LoginPop Client) : Bytes :=
  Bytes.lp [loginPopDomain, pop.nonce, cr.clientBytes pop.clientId, pop.presentedPub,
    (cr.lower email).toUTF8.toList]

/-- The key a proof is checked against: the enrolled one, or the presented one
of a new device. -/
def popKey (account : Account) (pop : LoginPop Client) : Except AppError Bytes :=
  match s.device account pop.clientId with
  | some d => if d.ed25519Pub.length = 32 then .ok d.ed25519Pub else .error .unauthorized
  | none => .ok pop.presentedPub

/-- Proof of possession. The nonce is consumed even when the proof then fails. -/
def verifyLoginPop (account : Account) (email : String) (pop : LoginPop Client) :
    State Client Account × Except AppError Bytes :=
  if pop.presentedPub.length ≠ 32 then
    (s, .error (.badRequest "ed25519_pub: expected 32 bytes"))
  else if pop.proof.length ≠ 64 then (s, .error .unauthorized)
  else if (s.nonces.filter (nonceMatches cr s email pop.nonce)).length ≠ 1 then
    ({ s with nonces := s.nonces.filter (fun n => ¬ nonceMatches cr s email pop.nonce n) },
      .error .unauthorized)
  else
    ({ s with nonces := s.nonces.filter (fun n => ¬ nonceMatches cr s email pop.nonce n) },
      (popKey s account pop).bind (fun key =>
        if cr.verifySignature key (popMessage cr email pop) pop.proof then .ok key
        else .error .unauthorized))

def DeviceFields.identity (f : DeviceFields Client) : Option (LoginPop Client) :=
  match f.clientId, f.ed25519Pub, f.nonce, f.proof with
  | some clientId, some pub, some nonce, some proof => some ⟨clientId, pub, nonce, proof⟩
  | _, _, _, _ => none

def otherAccount : AppError := .conflict "client_id is already enrolled under a different account"

/-- The enrolment of a login or a recovery: a new row, or the conflict arm. -/
def enrol (account : Account) (email : String) (fields : DeviceFields Client)
    (grant recovered : Option Int) (onConflict : Device Account → Device Account) :
    State Client Account × Except AppError (Option Client) :=
  match fields.identity with
  | none => (s, .ok none)
  | some pop =>
    match verifyLoginPop cr s account email pop with
    | (s', .error e) => (s', .error e)
    | (s', .ok key) =>
      match upsertDevice s' pop.clientId ⟨account, key, fields.label.getD "",
          fields.platform.getD "", .pending, grant, recovered⟩ onConflict with
      | none => (s', .error otherAccount)
      | some s'' => (s'', .ok (some pop.clientId))

def rosterOf (account : Account) : Option (Bytes × Bytes) :=
  (s.rosters account).map (fun r => (r.deviceList, r.signature))

def loginFinish (email : String) (authKey : Bytes) (fields : DeviceFields Client) :
    State Client Account × Except AppError (Answer Client Account) :=
  match findUser cr s email with
  | none => (s, .error .unauthorized)
  | some u =>
    if cr.serverVerifier authKey u.serverSalt ≠ u.verifier then (s, .error .unauthorized)
    else
      match enrol cr s u.id email fields none none loginConflict with
      | (s', .error e) => (s', .error e)
      | (s', .ok bound) =>
        (s', .ok (.login u.id bound u.saltEnc u.wrappedVaultKeyPassword (rosterOf s u.id)))

def recover (email : String) (recoveryAuthKey : Bytes) (fields : DeviceFields Client) :
    State Client Account × Except AppError (Answer Client Account) :=
  match findUser cr s email with
  | none => (s, .error .unauthorized)
  | some u =>
    match u.recoverySalt, u.recoveryVerifier with
    | some salt, some verifier =>
      if cr.serverVerifier recoveryAuthKey salt ≠ verifier then (s, .error .unauthorized)
      else
        match enrol cr s u.id email fields (some s.now) (some s.now) (recoverConflict s.now) with
        | (s', .error e) => (s', .error e)
        | (s', .ok bound) =>
          (s', .ok (.login u.id bound u.saltEnc u.wrappedVaultKeyRecovery (rosterOf s u.id)))
    | _, _ => (s, .error .unauthorized)

def signupRow (r : SignupRequest Client) (account : Account) (serverSalt recoverySalt : Bytes) :
    User Account where
  id := account
  email := r.email
  verifier := cr.serverVerifier r.authKey serverSalt
  serverSalt := serverSalt
  saltEnc := r.saltEnc
  wrappedVaultKeyPassword := r.wrappedVaultKeyPassword
  wrappedVaultKeyRecovery := r.wrappedVaultKeyRecovery
  recoverySalt := some recoverySalt
  recoveryVerifier := some (cr.serverVerifier r.recoveryAuthKey recoverySalt)

/-- The first device of an account is active from the start. -/
def signup (r : SignupRequest Client) (account : Account) (serverSalt recoverySalt : Bytes) :
    State Client Account × Except AppError (Answer Client Account) :=
  if r.saltEnc.length ≠ 16 then (s, .error (.badRequest "salt_enc: expected 16 bytes"))
  else if (findUser cr s r.email).isSome then
    (s, .error (.conflict "email already registered"))
  else if (userById s account).isSome ∨ (s.devices r.deviceList.clientId).isSome ∨
      (s.rosters account).isSome then (s, .error .db)
  else
    ({ s with
        users := s.users ++ [signupRow cr r account serverSalt recoverySalt]
        devices := Function.update s.devices r.deviceList.clientId
          (some ⟨account, r.deviceList.ed25519Pub, r.deviceList.label, r.deviceList.platform,
            .active, none, none⟩)
        rosters := Function.update s.rosters account
          (some ⟨r.deviceList.deviceList, r.deviceList.signature, r.deviceList.counter,
            r.deviceList.vaultKeyEpoch⟩) },
      .ok (.tokens account (some r.deviceList.clientId)))

def grantFresh (d : Device Account) : Bool :=
  d.recoveryGrantAt.any (fun g => g > s.now - minutes 15)

/-- The caller's authority: `false` for an active device, `true` for one that is
admitted by a fresh recovery grant only. -/
def recoveryBootstrap (account : Account) (caller : Client) : Except AppError Bool :=
  match s.device account caller with
  | none => .error .forbidden
  | some d =>
    if d.isActive then .ok false else if grantFresh s d then .ok true else .error .forbidden

def checkRemoval (account : Account) (caller : Client) (r : RosterUploadRequest Client)
    (bootstrap : Bool) : Except AppError Unit :=
  if r.revokedDevices = [] then .ok ()
  else if bootstrap ∨ caller ∈ r.revokedDevices then .error .forbidden
  else if 32 < r.revokedDevices.length then
    .error (.badRequest "too many devices in one removal")
  else if r.revokedDevices.any (fun id => id ∈ r.activeDevices) then
    .error (.badRequest "a device cannot be both revoked and active")
  else
    match r.currentAuthKey with
    | none => .error .unauthorized
    | some key =>
      match userById s account with
      | none => .error .unauthorized
      | some u => if cr.serverVerifier key u.serverSalt ≠ u.verifier then .error .unauthorized
        else .ok ()

def checkRollback (current : Option Roster) (r : RosterUploadRequest Client) :
    Except AppError Roster :=
  match current with
  | none => .error .notFound
  | some stored =>
    if r.counter ≤ stored.counter then
      .error (.conflict "roster counter is not newer than the stored roster")
    else if r.vaultKeyEpoch < stored.vaultKeyEpoch then
      .error (.conflict "vault_key_epoch is older than the stored roster")
    else .ok stored

/-- The number of the listed devices that are active rows of the account. -/
def alreadyActive (account : Account) (others : List Client) : Nat :=
  (others.dedup.filter (fun c => (s.device account c).any Device.isActive)).length

def checkBootstrap (account : Account) (caller : Client) (stored : Roster)
    (r : RosterUploadRequest Client) (bootstrap : Bool) : Except AppError Unit :=
  if bootstrap = false then .ok ()
  else if r.counter ≠ stored.counter + 1 then
    .error (.conflict "recovery re-bootstrap must advance the roster counter by exactly one")
  else if r.vaultKeyEpoch ≠ stored.vaultKeyEpoch then .error .forbidden
  else if caller ∉ r.activeDevices then .error .forbidden
  else if alreadyActive s account (r.activeDevices.filter (fun c => c ≠ caller)) ≠
      (r.activeDevices.filter (fun c => c ≠ caller)).length then .error .forbidden
  else .ok ()

/-- Every check of `put_roster`, in its order; the caller when all pass. -/
def authorizeRoster (auth : AuthTenant Client Account) (r : RosterUploadRequest Client) :
    Except AppError Client :=
  if r.signature.length ≠ ed25519SigLen then
    .error (.badRequest "signature: expected 64 bytes")
  else
    match auth.clientId with
    | none => .error .forbidden
    | some caller => do
      let bootstrap ← recoveryBootstrap s auth.tenantId caller
      checkRemoval cr s auth.tenantId caller r bootstrap
      let stored ← checkRollback (s.rosters auth.tenantId) r
      checkBootstrap s auth.tenantId caller stored r bootstrap
      return caller

def activate (d : Device Account) : Device Account :=
  { d with status := .active, recoveryGrantAt := none }

def revoke (d : Device Account) : Device Account :=
  { d with status := .revoked, recoveryGrantAt := none, recoveredAt := none }

def clearGrant (d : Device Account) : Device Account := { d with recoveryGrantAt := none }

def clearRecovered (d : Device Account) : Device Account := { d with recoveredAt := none }

def applyRoster (account : Account) (caller : Client) (r : RosterUploadRequest Client) :
    State Client Account :=
  (((s.setRoster account ⟨r.deviceList, r.signature, r.counter, r.vaultKeyEpoch⟩).updateDevices
    account r.activeDevices activate).updateDevices
    account r.revokedDevices revoke).updateDevices account [caller] clearGrant

def putRoster (auth : AuthTenant Client Account) (r : RosterUploadRequest Client) :
    State Client Account × Except AppError (Answer Client Account) :=
  match authorizeRoster cr s auth r with
  | .error e => (s, .error e)
  | .ok caller => (applyRoster s auth.tenantId caller r, .ok (.roster r.counter r.vaultKeyEpoch))

def requireActiveCaller (auth : AuthTenant Client Account) : Except AppError Client :=
  match auth.clientId with
  | none => .error .forbidden
  | some c => if (s.device auth.tenantId c).any Device.isActive then .ok c else .error .forbidden

/-- Re-authentication with the current key, or one use of a fresh recovery. -/
def reauthenticate (account : Account) (caller : Client) (u : User Account)
    (current : Option Bytes) : Except AppError Unit :=
  match current with
  | some key => if cr.serverVerifier key u.serverSalt ≠ u.verifier then .error .unauthorized
    else .ok ()
  | none =>
    if (s.device account caller).any
        (fun d => d.recoveredAt.any (fun t => t > s.now - minutes 15)) then .ok ()
    else .error .unauthorized

def setPassword (r : ChangePasswordRequest) (salt : Bytes)
    (u : User Account) : User Account :=
  { u with
    verifier := cr.serverVerifier r.authKey salt
    serverSalt := salt
    wrappedVaultKeyPassword := r.wrappedVaultKeyPassword }

def changePassword (auth : AuthTenant Client Account) (r : ChangePasswordRequest) (salt : Bytes) :
    State Client Account × Except AppError (Answer Client Account) :=
  if r.authKey.length ≠ 32 then (s, .error (.badRequest "auth_key: expected 32 bytes"))
  else if r.wrappedVaultKeyPassword.length ≠ 105 then
    (s, .error (.badRequest
      "wrapped_vault_key_password: expected a 105-byte committing envelope"))
  else
    match requireActiveCaller s auth with
    | .error e => (s, .error e)
    | .ok caller =>
      match userById s auth.tenantId with
      | none => (s, .error .unauthorized)
      | some u =>
        match reauthenticate cr s auth.tenantId caller u r.currentAuthKey with
        | .error e => (s, .error e)
        | .ok () =>
          ((s.updateUser auth.tenantId (setPassword cr r salt)).updateDevices auth.tenantId
            [caller] clearRecovered, .ok .ok)

end Requests

section Machine

variable {Client Account : Type} [DecidableEq Client] [DecidableEq Account]

/-- A request, with the random values the relay draws for it, or time passing. -/
inductive Request (Client Account : Type) where
  | wait (d : Nat)
  | loginBegin (email : String) (nonce : Bytes)
  | signup (r : SignupRequest Client) (account : Account) (serverSalt recoverySalt : Bytes)
  | loginFinish (email : String) (authKey : Bytes) (fields : DeviceFields Client)
  | recover (email : String) (recoveryAuthKey : Bytes) (fields : DeviceFields Client)
  | putRoster (auth : AuthTenant Client Account) (r : RosterUploadRequest Client)
  | changePassword (auth : AuthTenant Client Account) (r : ChangePasswordRequest) (salt : Bytes)

def handle (cr : Crypto Client) (s : State Client Account) :
    Request Client Account → State Client Account × Except AppError (Answer Client Account)
  | .wait d => ({ s with now := s.now + d }, .ok .ok)
  | .loginBegin email nonce => loginBegin cr s email nonce
  | .signup r account serverSalt recoverySalt => signup cr s r account serverSalt recoverySalt
  | .loginFinish email authKey fields => loginFinish cr s email authKey fields
  | .recover email recoveryAuthKey fields => recover cr s email recoveryAuthKey fields
  | .putRoster auth r => putRoster cr s auth r
  | .changePassword auth r salt => changePassword cr s auth r salt

def step (cr : Crypto Client) (s : State Client Account) (a : Request Client Account) :
    Option (State Client Account) :=
  some (handle cr s a).1

end Machine

end YapStack.Relay.Devices
