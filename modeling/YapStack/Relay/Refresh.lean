import YapStack.Foundation.Runs
import YapStack.Foundation.Statements

namespace YapStack.Relay.Refresh

/-- A row of `refresh_tokens`; its key is the JWT's `jti`. -/
structure Token (User Client Family Jti : Type*) where
  userId : User
  clientId : Option Client
  familyId : Family
  expiresAt : Int
  rotatedAt : Option Int
  replacedBy : Option Jti
  revoked : Bool
  deriving DecidableEq

/-- The claims of a refresh token, as the relay signs them. -/
structure RefreshClaims (User Client Family Jti : Type*) where
  sub : User
  clientId : Option Client
  family : Family
  jti : Jti
  deriving DecidableEq

/-- Whose tokens an `UPDATE ... SET revoked = true` is about: the family of a
token presented again, the devices a roster drops, or every device but the
one that changed the password. -/
inductive Target (Client Family : Type*) where
  | family (f : Family)
  | devices (clients : List Client)
  | othersThan (caller : Option Client)
  deriving DecidableEq

section Statements

variable {Tx User Client Family Jti : Type*}
variable [DecidableEq Tx] [DecidableEq Client] [DecidableEq Family] [DecidableEq Jti]

def Token.spent (r : Token User Client Family Jti) : Bool := r.revoked || r.rotatedAt.isSome

def Token.live (r : Token User Client Family Jti) : Bool := !r.spent

def Token.rotate (now : Int) (new : Jti) (r : Token User Client Family Jti) :
    Token User Client Family Jti :=
  { r with rotatedAt := some now, replacedBy := some new }

def Token.revoke (r : Token User Client Family Jti) : Token User Client Family Jti :=
  { r with revoked := true }

def issuedToken (c : RefreshClaims User Client Family Jti) (expiresAt : Int) :
    Token User Client Family Jti :=
  ⟨c.sub, c.clientId, c.family, expiresAt, none, none, false⟩

def Target.covers : Target Client Family → Token User Client Family Jti → Bool
  | .family f, r => r.familyId = f
  | .devices cs, r => r.clientId.any (fun c => c ∈ cs)
  | .othersThan caller, r => r.clientId ≠ caller

/-- The `WHERE` of the revoking statement. Reuse detection updates the revoked
rows of the family too, the other two skip them. -/
def Target.selects (g : Target Client Family) (r : Token User Client Family Jti) : Bool :=
  match g with
  | .family _ => g.covers r
  | .devices _ => g.covers r && !r.revoked
  | .othersThan _ => g.covers r && !r.revoked

inductive Pc (User Client Family Jti : Type*) where
  | idle
  | presented (c : RefreshClaims User Client Family Jti)
  | failed
  | read (c : RefreshClaims User Client Family Jti) (row : Token User Client Family Jti)
  | rotated (c : RefreshClaims User Client Family Jti) (row : Token User Client Family Jti)
      (new : Jti)
  | refreshed (c : RefreshClaims User Client Family Jti) (row : Token User Client Family Jti)
      (new : RefreshClaims User Client Family Jti)
  | issued (new : RefreshClaims User Client Family Jti)
  | revoking (g : Target Client Family) (seen remaining : List Jti)

/-- The refresh tokens of one tenant, the claims its clients hold, and the
family identifiers drawn so far. -/
structure State (Tx User Client Family Jti : Type*) where
  tokens : Table Tx Jti (Token User Client Family Jti)
  issued : List (RefreshClaims User Client Family Jti)
  families : List Family
  pc : Tx → Pc User Client Family Jti

def State.empty : State Tx User Client Family Jti := ⟨.empty, [], [], fun _ => .idle⟩

def State.goto (s : State Tx User Client Family Jti) (t : Tx) (c : Pc User Client Family Jti) :
    State Tx User Client Family Jti :=
  { s with pc := Function.update s.pc t c }

def State.close (s : State Tx User Client Family Jti) (t : Tx) (keep : Bool)
    (issued : List (RefreshClaims User Client Family Jti)) : State Tx User Client Family Jti where
  tokens := s.tokens.close t keep
  issued := issued ++ s.issued
  families := s.families
  pc := Function.update s.pc t .idle

variable (s : State Tx User Client Family Jti) (t : Tx)
variable (c : RefreshClaims User Client Family Jti) (row : Token User Client Family Jti)

/-- `SELECT ... WHERE id = jti FOR UPDATE`. -/
def readToken : Option (State Tx User Client Family Jti) :=
  match s.tokens.view t c.jti with
  | none => some (s.goto t .failed)
  | some r =>
    (s.tokens.lock t c.jti).map (fun tokens => { s with tokens := tokens }.goto t (.read c r))

/-- The snapshot of a revoking statement: every row in reach of it, and those
it is going to update. -/
def beginRevoke (g : Target Client Family) : State Tx User Client Family Jti :=
  s.goto t (.revoking g (s.tokens.scan t (fun _ r => g.covers r))
    (s.tokens.scan t (fun _ r => g.selects r)))

/-- The revoking statement reaches one row of its snapshot, waits for its lock
and tests it again. -/
def revokeRow (g : Target Client Family) (seen remaining : List Jti) (k : Jti) :
    Option (State Tx User Client Family Jti) :=
  if k ∈ remaining ∧ s.tokens.Free t k then
    (s.tokens.modify t k g.selects (fun r => some r.revoke)).map
      (fun tokens => { s with tokens := tokens }.goto t (.revoking g seen (remaining.erase k)))
  else none

def rotateToken (new : Jti) (now : Int) : Option (State Tx User Client Family Jti) :=
  (s.tokens.modify t c.jti (fun _ => true) (fun r => some (r.rotate now new))).map
    (fun tokens => { s with tokens := tokens }.goto t (.rotated c row new))

/-- `INSERT`; a duplicate key fails the transaction. -/
def insertToken (new : RefreshClaims User Client Family Jti) (expiresAt : Int)
    (next : Pc User Client Family Jti) : Option (State Tx User Client Family Jti) :=
  (s.tokens.insertIgnore t new.jti (issuedToken new expiresAt)).map
    (fun r => { s with tokens := r.1 }.goto t (if r.2 then next else .failed))

/-- The claims of the replacement: the presented token's, with the family of its row. -/
def successor (new : Jti) : RefreshClaims User Client Family Jti :=
  ⟨c.sub, c.clientId, row.familyId, new⟩

/-- `issue_pair` of a signup or a login: a new family. -/
def issuePair (new : RefreshClaims User Client Family Jti) (expiresAt : Int) :
    Option (State Tx User Client Family Jti) :=
  if new.family ∈ s.families then none
  else
    insertToken { s with families := new.family :: s.families } t new expiresAt (.issued new)

end Statements

section Machine

variable {Tx User Client Family Jti : Type*}
variable [DecidableEq Tx] [DecidableEq User] [DecidableEq Client] [DecidableEq Family]
variable [DecidableEq Jti]

inductive Action (Tx User Client Family Jti : Type*) where
  | refresh (t : Tx) (c : RefreshClaims User Client Family Jti)
  | login (t : Tx) (new : RefreshClaims User Client Family Jti) (expiresAt : Int)
  | putRoster (t : Tx) (revokedDevices : List Client)
  | changePassword (t : Tx) (caller : Option Client)
  | read (t : Tx)
  | detect (t : Tx)
  | rotate (t : Tx) (new : Jti) (now : Int)
  | insert (t : Tx) (expiresAt : Int)
  | revokeRow (t : Tx) (k : Jti)
  | commit (t : Tx)
  | rollback (t : Tx)

/-- One step of any interleaving. Only a token the relay has signed passes
`verify_refresh`. -/
def step (s : State Tx User Client Family Jti) : Action Tx User Client Family Jti →
    Option (State Tx User Client Family Jti)
  | .refresh t c =>
    match s.pc t with
    | .idle => if c ∈ s.issued then some (s.goto t (.presented c)) else none
    | _ => none
  | .login t new expiresAt =>
    match s.pc t with
    | .idle => issuePair s t new expiresAt
    | _ => none
  | .putRoster t revokedDevices =>
    match s.pc t with
    | .idle => some (beginRevoke s t (.devices revokedDevices))
    | _ => none
  | .changePassword t caller =>
    match s.pc t with
    | .idle => some (beginRevoke s t (.othersThan caller))
    | _ => none
  | .read t =>
    match s.pc t with
    | .presented c => readToken s t c
    | _ => none
  | .detect t =>
    match s.pc t with
    | .read _ row => if row.spent then some (beginRevoke s t (.family row.familyId)) else none
    | _ => none
  | .rotate t new now =>
    match s.pc t with
    | .read c row => if row.spent then none else rotateToken s t c row new now
    | _ => none
  | .insert t expiresAt =>
    match s.pc t with
    | .rotated c row new =>
      insertToken s t (successor c row new) expiresAt (.refreshed c row (successor c row new))
    | _ => none
  | .revokeRow t k =>
    match s.pc t with
    | .revoking g seen remaining => revokeRow s t g seen remaining k
    | _ => none
  | .commit t =>
    match s.pc t with
    | .refreshed _ _ new => some (s.close t true [new])
    | .issued new => some (s.close t true [new])
    | .revoking _ _ [] => some (s.close t true [])
    | _ => none
  | .rollback t =>
    match s.pc t with
    | .idle => none
    | _ => some (s.close t false [])

end Machine

end YapStack.Relay.Refresh
