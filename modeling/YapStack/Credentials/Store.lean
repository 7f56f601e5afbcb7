import Mathlib.Data.List.Basic
import Mathlib.Logic.Function.Basic
import Mathlib.Data.Int.Order.Basic

namespace YapStack.Credentials

/-- What the device keeps of a signed roster: its counter and its fingerprint. -/
structure Roster where
  counter : ℤ
  fingerprint : ℕ
  deriving DecidableEq

/-- `login` numbers the sign-in the session comes from, and `refresh` the rotation of that
sign-in's refresh token; an expired session has none. -/
structure Session where
  account : ℕ
  login : ℕ
  refresh : Option ℕ
  syncEnabled : Bool
  rosterCounter : ℤ
  rosterFingerprint : Option ℕ
  deriving DecidableEq

structure AccountAnchor where
  rosterCounter : ℤ
  rosterFingerprint : Option ℕ
  deriving DecidableEq

/-- A command or a drain between two of its steps, with the session it read. -/
inductive Task
  | refresh (copy : Session) (token : ℕ) (drain : Bool)
  | storeRefreshed (copy : Session)
  | expire (login : ℕ)
  | storeExpired (copy : Session) (login : ℕ)
  | storeEnabled (copy : Session)
  | fetchRoster (copy : Session) (again : Bool)
  | ratchet (copy : Session) (roster : Roster) (again : Bool)
  | anchorRatchet (copy : Session) (roster : Roster) (again : Bool)
  | upload (copy : Session) (base : Roster) (again : Bool)
  | mergeUpload (copy : Session) (roster : Roster)
  | anchor (copy : Session)
  | login (account : ℕ) (floor : ℤ)
  | recover (account : ℕ)
  | checkRecovered (account : ℕ) (roster : Roster)
  | storeSignedIn (account : ℕ) (floor : ℤ) (roster : Roster) (selfAdmit : Bool)
  | anchorSignedIn (copy : Session) (roster : Roster) (selfAdmit : Bool)
  deriving DecidableEq

/-- What a step finds: an answer of the relay, or nothing but its turn. -/
inductive Answer
  | go
  | failed
  | rotated
  | rejected
  | served (plaintext : ℤ) (roster : Roster)
  | signed (roster : Roster)
  | selfAdmit (wanted : Bool)
  | uploaded (fingerprint : ℕ)
  | conflict
  deriving DecidableEq

/-- The session record with its cache, the anchors, and the relay's newest rotation of each
sign-in. `active`, `stored` and `forgotten` are history: the sign-in in force, the newest
rotation a refresh has stored, and the accounts forgotten since a roster was stored. -/
structure Cells where
  record : Option Session
  anchors : ℕ → Option AccountAnchor
  current : ℕ → ℕ
  logins : ℕ
  active : Option ℕ
  stored : ℕ → ℕ
  forgotten : ℕ → Bool

namespace Cells

def storeSession (c : Cells) (s : Session) : Cells := { c with record := some s }

def updateSession (c : Cells) (f : Session → Session) : Option (Cells × Session) :=
  c.record.map (fun s => (c.storeSession (f s), f s))

def clearSession (c : Cells) : Cells := { c with record := none, active := none }

def persistAccountAnchor (c : Cells) (s : Session) : Cells :=
  { c with
    anchors := Function.update c.anchors s.account
      (some ⟨s.rosterCounter, s.rosterFingerprint⟩)
    forgotten := Function.update c.forgotten s.account false }

def clearAccountAnchor (c : Cells) (account : ℕ) : Cells :=
  { c with
    anchors := Function.update c.anchors account none
    forgotten := Function.update c.forgotten account true }

/-- The floor of a sign-in: the account's anchor, else its live session, else none. -/
def cachedCounter (c : Cells) (account : ℕ) : ℤ :=
  match c.anchors account, c.record with
  | some a, _ => a.rosterCounter
  | none, some s => if s.account = account then s.rosterCounter else -1
  | none, none => -1

/-- The anti-rollback check on a roster whose signature verified. -/
def verifyRosterSigned (cachedCounter : ℤ) (r : Roster) : Bool := cachedCounter ≤ r.counter

/-- A recovered roster at the anchored counter must be the anchored one. -/
def sameAsAnchored (c : Cells) (account : ℕ) (r : Roster) : Bool :=
  match c.anchors account with
  | none => true
  | some a => a.rosterCounter ≠ r.counter || a.rosterFingerprint.all (fun f => f = r.fingerprint)

def setRoster (r : Roster) (s : Session) : Session :=
  { s with rosterCounter := r.counter, rosterFingerprint := some r.fingerprint }

def invalidateSessionCredentials (s : Session) : Session := { s with refresh := none }

/-- The session a sign-in stores; its refresh token is the first of its family. -/
def signIn (c : Cells) (account : ℕ) (r : Roster) : Cells :=
  { c with
    record := some ⟨account, c.logins, some 0, false, r.counter, some r.fingerprint⟩
    current := Function.update c.current c.logins 0
    logins := c.logins + 1
    active := some c.logins
    forgotten := Function.update c.forgotten account false }

def storeRefreshed (c : Cells) (copy : Session) : Cells :=
  { c.storeSession copy with
    stored := Function.update c.stored copy.login
      (max (c.stored copy.login) (copy.refresh.getD 0)) }

/-- Merge the roster into the current session, then go on with the merged one. -/
def mergeRoster (c : Cells) (r : Roster) (next : Session → Task) : Cells × List Task :=
  match c.updateSession (setRoster r) with
  | none => (c, [])
  | some (d, merged) =>
    ({ d with forgotten := Function.update d.forgotten merged.account false }, [next merged])

/-- The step a task takes on an answer, and the tasks it leaves. -/
def act (c : Cells) : Task → Answer → Option (Cells × List Task)
  | .refresh copy token _, .rotated =>
    if token = c.current copy.login then
      some ({ c with current := Function.update c.current copy.login (token + 1) },
        [.storeRefreshed { copy with refresh := some (token + 1) }])
    else none
  | .refresh copy _ drain, .rejected => some (c, if drain then [.expire copy.login] else [])
  | .storeRefreshed copy, .go => some (c.storeRefreshed copy, [])
  | .expire login, .go =>
    match c.record with
    | none => some (c, [])
    | some s => some (c, [.storeExpired (invalidateSessionCredentials s) login])
  | .storeExpired copy _, .go => some (c.storeSession copy, [])
  | .storeEnabled copy, .go =>
    some (c.storeSession { copy with syncEnabled := true },
      [.anchor { copy with syncEnabled := true }])
  | .fetchRoster copy again, .served plaintext r =>
    if verifyRosterSigned copy.rosterCounter r && decide (plaintext = r.counter) then
      some (c, [.ratchet copy r again])
    else some (c, [])
  | .ratchet _ r again, .go => some (c.mergeRoster r (fun s => .anchorRatchet s r again))
  | .anchorRatchet copy r again, .go =>
    some (c.persistAccountAnchor copy, [.upload copy r again])
  | .upload copy base _, .uploaded fingerprint =>
    some (c, [.mergeUpload copy ⟨base.counter + 1, fingerprint⟩])
  | .upload copy _ again, .conflict =>
    some (c, if again then [.fetchRoster copy false] else [])
  | .mergeUpload _ r, .go => some (c.mergeRoster r (fun s => .anchor s))
  | .anchor copy, .go => some (c.persistAccountAnchor copy, [])
  | .login account floor, .signed r =>
    if verifyRosterSigned floor r then some (c, [.storeSignedIn account floor r false])
    else some (c, [])
  | .recover account, .signed r => some (c, [.checkRecovered account r])
  | .checkRecovered account r, .selfAdmit wanted =>
    if verifyRosterSigned (c.cachedCounter account) r && c.sameAsAnchored account r then
      some (c, [.storeSignedIn account (c.cachedCounter account) r wanted])
    else some (c, [])
  | .storeSignedIn account _ r selfAdmit, .go =>
    let d := c.signIn account r
    some (d, d.record.toList.map (fun s => .anchorSignedIn s r selfAdmit))
  | .anchorSignedIn copy r selfAdmit, .go =>
    some (c.persistAccountAnchor copy, if selfAdmit then [.upload copy r false] else [])
  | _, .failed => some (c, [])
  | _, _ => none

end Cells

/-- The commands, the drain's refresh, and the steps of what is under way. -/
inductive Event
  | refreshAccessToken (drain : Bool)
  | enable
  | changeRoster
  | login (account : ℕ)
  | recover (account : ℕ)
  | disable
  | signOut
  | forgetAccount (account : ℕ)
  | act (k : Task) (a : Answer)
  deriving DecidableEq

structure State extends Cells where
  tasks : List Task

namespace State

def spawn (s : State) (ks : List Task) : State := { s with tasks := ks ++ s.tasks }

/-- Without a refresh token a refresh is rejected before it is sent. -/
def refreshTask (s : Session) (drain : Bool) : List Task :=
  match s.refresh with
  | some token => [.refresh s token drain]
  | none => if drain then [.expire s.login] else []

def step (s : State) : Event → Option State
  | .refreshAccessToken drain =>
    some (s.spawn (s.record.toList.flatMap (fun copy => refreshTask copy drain)))
  | .enable => some (s.spawn (s.record.toList.map .storeEnabled))
  | .changeRoster => some (s.spawn (s.record.toList.map (fun copy => .fetchRoster copy true)))
  | .login account => some (s.spawn [.login account (s.cachedCounter account)])
  | .recover account => some (s.spawn [.recover account])
  | .disable =>
    some { s with record := s.record.map (fun r => { r with syncEnabled := false }) }
  | .signOut => some { s with toCells := s.clearSession }
  | .forgetAccount account => some { s with toCells := s.clearAccountAnchor account }
  | .act k a =>
    if k ∈ s.tasks then
      (s.toCells.act k a).map (fun p => ⟨p.1, p.2 ++ s.tasks.erase k⟩)
    else none

end State

end YapStack.Credentials
