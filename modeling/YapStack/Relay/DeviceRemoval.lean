import YapStack.Relay.Devices

set_option linter.unusedSectionVars false

namespace YapStack.Relay.Devices

variable {Client Account : Type} [DecidableEq Client] [DecidableEq Account]
variable {cr : Crypto Client} {s s' s₁ : State Client Account} {c : Client} {account : Account}
variable {d d' : Device Account} {auth : AuthTenant Client Account}
variable {r : RosterUploadRequest Client} {fields : DeviceFields Client}

def accepted {ε α : Type} : Except ε α → Bool
  | .ok _ => true
  | .error _ => false

def State.isActive (s : State Client Account) (c : Client) : Bool :=
  (s.devices c).any Device.isActive

/-- Does the request come from a device that is active in its own account? -/
def callerActive (s : State Client Account) (auth : AuthTenant Client Account) : Bool :=
  auth.clientId.any (fun c => (s.device auth.tenantId c).any Device.isActive)

/-- The device has a row, and no recovery grant unless it is active. -/
def Barred (c : Client) (s : State Client Account) : Prop :=
  ∃ d, s.devices c = some d ∧ (d.status ≠ .active → d.recoveryGrantAt = none)

/-- No accepted recovery login names the device while it is pending. -/
def Unarmed (cr : Crypto Client) (c : Client) (s : State Client Account) :
    Request Client Account → Prop
  | .recover email key fields => accepted (recover cr s email key fields).2 = true →
      ∀ pop ∈ fields.identity, pop.clientId = c → ∀ d ∈ s.devices c, d.status ≠ .pending
  | _ => True

instance decidableUnarmed (cr : Crypto Client) (c : Client) (s : State Client Account) :
    ∀ a, Decidable (Unarmed cr c s a)
  | .recover email key fields =>
    inferInstanceAs (Decidable (accepted (recover cr s email key fields).2 = true →
      ∀ pop ∈ fields.identity, pop.clientId = c → ∀ d ∈ s.devices c, d.status ≠ .pending))
  | .wait _ => .isTrue trivial
  | .loginBegin _ _ => .isTrue trivial
  | .signup _ _ _ _ => .isTrue trivial
  | .loginFinish _ _ _ => .isTrue trivial
  | .putRoster _ _ => .isTrue trivial
  | .changePassword _ _ _ => .isTrue trivial

/-- An accepted roster upload of an active caller that names the device. -/
def Approval (cr : Crypto Client) (c : Client) (s : State Client Account) :
    Request Client Account → Prop
  | .putRoster auth r => accepted (putRoster cr s auth r).2 = true ∧
      callerActive s auth = true ∧ c ∈ r.activeDevices
  | _ => False

instance decidableApproval (cr : Crypto Client) (c : Client) (s : State Client Account) :
    ∀ a, Decidable (Approval cr c s a)
  | .putRoster auth r =>
    inferInstanceAs (Decidable (accepted (putRoster cr s auth r).2 = true ∧
      callerActive s auth = true ∧ c ∈ r.activeDevices))
  | .wait _ => .isFalse id
  | .loginBegin _ _ => .isFalse id
  | .signup _ _ _ _ => .isFalse id
  | .loginFinish _ _ _ => .isFalse id
  | .recover _ _ _ => .isFalse id
  | .changePassword _ _ _ => .isFalse id

/-- Only an approval makes the device active. -/
def Readmitted (cr : Crypto Client) (c : Client) (s : State Client Account)
    (a : Request Client Account) (s' : State Client Account) : Prop :=
  s.isActive c = false → s'.isActive c = true → Approval cr c s a

instance (cr : Crypto Client) (c : Client) (s : State Client Account)
    (a : Request Client Account) (s' : State Client Account) :
    Decidable (Readmitted cr c s a s') := inferInstanceAs (Decidable (_ → _ → _))

theorem device_eq_some :
    s.device account c = some d ↔ s.devices c = some d ∧ d.account = account := by
  simp [State.device, Option.filter_eq_some_iff]

theorem verifyLoginPop_devices (cr : Crypto Client) (s : State Client Account)
    (account : Account) (email : String) (pop : LoginPop Client) :
    (verifyLoginPop cr s account email pop).1.devices = s.devices := by
  unfold verifyLoginPop
  split
  · rfl
  · split
    · rfl
    · split <;> rfl

/-- An enrolment that finds a row of the device either leaves it alone or runs
the conflict arm on it. -/
theorem enrol_cases (cr : Crypto Client) (account : Account) (email : String)
    (fields : DeviceFields Client) (grant recovered : Option Int)
    (f : Device Account → Device Account) (hd : s.devices c = some d) :
    (enrol cr s account email fields grant recovered f).1.devices c = some d ∨
      ((enrol cr s account email fields grant recovered f).1.devices c = some (f d) ∧
        accepted (enrol cr s account email fields grant recovered f).2 = true ∧
        ∃ pop ∈ fields.identity, pop.clientId = c) := by
  unfold enrol
  split
  · exact Or.inl hd
  · rename_i pop hpop
    have hdev := verifyLoginPop_devices cr s account email pop
    split
    · rename_i s' e heq
      rw [heq] at hdev
      exact Or.inl (by rw [show s'.devices = s.devices from hdev]; exact hd)
    · rename_i s' key heq
      rw [heq] at hdev
      have hd' : s'.devices c = some d := by rw [show s'.devices = s.devices from hdev]; exact hd
      split
      · exact Or.inl hd'
      · rename_i s'' hups
        unfold upsertDevice at hups
        by_cases hc : pop.clientId = c
        · rw [hc, hd'] at hups
          simp only at hups
          split at hups
          · cases hups
            exact Or.inr ⟨by simp [State.setDevice], rfl, pop, hpop, hc⟩
          · cases hups
        · refine Or.inl ?_
          split at hups
          · cases hups
            simpa [State.setDevice, Function.update_of_ne (Ne.symm hc)] using hd'
          · split at hups
            · cases hups
              simpa [State.setDevice, Function.update_of_ne (Ne.symm hc)] using hd'
            · cases hups

theorem loginFinish_cases (cr : Crypto Client) (email : String) (key : Bytes)
    (fields : DeviceFields Client) (hd : s.devices c = some d) :
    (loginFinish cr s email key fields).1.devices c = some d ∨
      (loginFinish cr s email key fields).1.devices c = some (loginConflict d) := by
  unfold loginFinish
  split
  · exact Or.inl hd
  · rename_i u _
    split
    · exact Or.inl hd
    · have he := enrol_cases cr u.id email fields none none loginConflict hd
      split
      · rename_i heq
        rw [heq] at he
        exact he.imp_right (fun h => h.1)
      · rename_i heq
        rw [heq] at he
        exact he.imp_right (fun h => h.1)

theorem recover_cases (cr : Crypto Client) (email : String) (key : Bytes)
    (fields : DeviceFields Client) (hd : s.devices c = some d) :
    (recover cr s email key fields).1.devices c = some d ∨
      ((recover cr s email key fields).1.devices c = some (recoverConflict s.now d) ∧
        accepted (recover cr s email key fields).2 = true ∧
        ∃ pop ∈ fields.identity, pop.clientId = c) := by
  unfold recover
  split
  · exact Or.inl hd
  · rename_i u _
    split
    · split
      · exact Or.inl hd
      · have he := enrol_cases cr u.id email fields (some s.now) (some s.now)
          (recoverConflict s.now) hd
        split
        · rename_i heq
          rw [heq] at he
          exact he
        · rename_i heq
          rw [heq] at he
          exact he
    · exact Or.inl hd

theorem signup_devices (cr : Crypto Client) (q : SignupRequest Client) (account : Account)
    (salt salt' : Bytes) (hd : s.devices c = some d) : (signup cr s q account salt salt').1.devices c = some d := by
  unfold signup
  split
  · exact hd
  · split
    · exact hd
    · split
      · exact hd
      · rename_i hfree
        have hne : c ≠ q.deviceList.clientId := by
          rintro rfl
          simp [hd] at hfree
        simpa [Function.update_of_ne hne] using hd

theorem updateDevices_some (s : State Client Account) (account : Account) (ids : List Client)
    (f : Device Account → Device Account) (hd : s.devices c = some d) :
    (s.updateDevices account ids f).devices c =
      some (if c ∈ ids ∧ d.account = account then f d else d) := by
  by_cases hc : c ∈ ids <;> by_cases ha : d.account = account <;>
    simp [State.updateDevices, hd, hc, ha]

theorem changePassword_devices (cr : Crypto Client) (auth : AuthTenant Client Account)
    (q : ChangePasswordRequest) (salt : Bytes) (hd : s.devices c = some d) :
    ∃ d', (changePassword cr s auth q salt).1.devices c = some d' ∧ d'.status = d.status ∧
      d'.recoveryGrantAt = d.recoveryGrantAt := by
  unfold changePassword
  split
  · exact ⟨d, hd, rfl, rfl⟩
  split
  · exact ⟨d, hd, rfl, rfl⟩
  split
  · exact ⟨d, hd, rfl, rfl⟩
  split
  · exact ⟨d, hd, rfl, rfl⟩
  split
  · exact ⟨d, hd, rfl, rfl⟩
  · refine ⟨_, updateDevices_some (s.updateUser _ _) _ _ _ hd, ?_, ?_⟩ <;> split <;> rfl

/-- The row of a device after an accepted roster. -/
def rosterRow (account : Account) (caller : Client) (r : RosterUploadRequest Client) (c : Client)
    (d : Device Account) : Device Account :=
  let d₁ := if c ∈ r.activeDevices ∧ d.account = account then activate d else d
  let d₂ := if c ∈ r.revokedDevices ∧ d₁.account = account then revoke d₁ else d₁
  if c ∈ [caller] ∧ d₂.account = account then clearGrant d₂ else d₂

theorem applyRoster_devices {caller : Client} (hd : s.devices c = some d) :
    (applyRoster s account caller r).devices c = some (rosterRow account caller r c d) := by
  have h₁ := updateDevices_some (s.setRoster account
    ⟨r.deviceList, r.signature, r.counter, r.vaultKeyEpoch⟩) account r.activeDevices activate hd
  have h₂ := updateDevices_some _ account r.revokedDevices revoke h₁
  exact updateDevices_some _ account [caller] clearGrant h₂

theorem rosterRow_barred {caller : Client} (h : d.status ≠ .active → d.recoveryGrantAt = none) :
    (rosterRow account caller r c d).status ≠ .active →
      (rosterRow account caller r c d).recoveryGrantAt = none := by
  simp only [rosterRow]
  split <;> split <;> split <;> simp_all [activate, revoke, clearGrant]

theorem rosterRow_active {caller : Client} (h : d.status ≠ .active)
    (ha : (rosterRow account caller r c d).status = .active) :
    c ∈ r.activeDevices ∧ d.account = account := by
  by_contra hn
  simp only [rosterRow, if_neg hn] at ha
  split at ha <;> split at ha <;> simp_all [revoke, clearGrant]

theorem putRoster_eq (h : authorizeRoster cr s auth r = .ok c) :
    putRoster cr s auth r =
      (applyRoster s auth.tenantId c r, .ok (.roster r.counter r.vaultKeyEpoch)) := by
  simp [putRoster, h]

theorem except_bind_ok {ε α β : Type} {x : Except ε α} {f : α → Except ε β} {b : β}
    (h : x.bind f = .ok b) : ∃ a, x = .ok a ∧ f a = .ok b := by
  cases x with
  | error e => cases h
  | ok a => exact ⟨a, rfl, h⟩

/-- An accepted roster comes from an active caller, or from one with a fresh
grant whose upload passes the bootstrap checks. -/
theorem authorizeRoster_ok (h : authorizeRoster cr s auth r = .ok c) :
    auth.clientId = some c ∧ ∃ bootstrap stored,
      recoveryBootstrap s auth.tenantId c = .ok bootstrap ∧
      checkRemoval cr s auth.tenantId c r bootstrap = .ok () ∧
      checkBootstrap s auth.tenantId c stored r bootstrap = .ok () := by
  unfold authorizeRoster at h
  split at h
  · cases h
  · split at h
    · cases h
    · rename_i caller hcaller
      obtain ⟨bootstrap, hboot, h⟩ := except_bind_ok h
      obtain ⟨⟨⟩, hrem, h⟩ := except_bind_ok h
      obtain ⟨stored, _, h⟩ := except_bind_ok h
      obtain ⟨⟨⟩, hchk, h⟩ := except_bind_ok h
      cases h
      exact ⟨hcaller, bootstrap, stored, hboot, hrem, hchk⟩

theorem recoveryBootstrap_ok {bootstrap : Bool}
    (h : recoveryBootstrap s account c = .ok bootstrap) :
    ∃ d, s.device account c = some d ∧
      (bootstrap = false ∧ d.isActive = true ∨
        bootstrap = true ∧ d.isActive = false ∧ grantFresh s d = true) := by
  unfold recoveryBootstrap at h
  split at h
  · cases h
  · rename_i d hd
    split at h
    · cases h
      exact ⟨d, hd, Or.inl ⟨rfl, by assumption⟩⟩
    · rename_i hina
      split at h
      · cases h
        exact ⟨d, hd, Or.inr ⟨rfl, by simpa using hina, by assumption⟩⟩
      · cases h

/-- The count of the bootstrap check says that every other listed device is active. -/
theorem alreadyActive_all {others : List Client}
    (h : alreadyActive s account others = others.length) :
    ∀ c ∈ others, (s.device account c).any Device.isActive = true := by
  intro c hc
  have hle : others.dedup.length ≤ others.length := (List.dedup_sublist others).length_le
  have hfil := List.length_filter_le (fun c => (s.device account c).any Device.isActive)
    others.dedup
  have hall : (others.dedup.filter
      (fun c => (s.device account c).any Device.isActive)).length = others.dedup.length := by
    simp only [alreadyActive] at h
    omega
  exact List.length_filter_eq_length_iff.mp hall c (List.mem_dedup.mpr hc)

theorem checkBootstrap_others {stored : Roster} {caller : Client}
    (h : checkBootstrap s account caller stored r true = .ok ()) :
    ∀ c ∈ r.activeDevices, c ≠ caller → (s.device account c).any Device.isActive = true := by
  intro c hc hne
  unfold checkBootstrap at h
  split at h
  · rename_i hb
    cases hb
  split at h
  · cases h
  split at h
  · cases h
  split at h
  · cases h
  split at h
  · cases h
  · rename_i hcount
    exact alreadyActive_all (by simpa using hcount) c
      (List.mem_filter.mpr ⟨hc, by simpa using hne⟩)

/-- A roster that makes a barred device active comes from an active caller. -/
theorem putRoster_readmits {caller : Client} (hb : Barred c s)
    (h : authorizeRoster cr s auth r = .ok caller) (hin : s.isActive c = false)
    (hact : (applyRoster s auth.tenantId caller r).isActive c = true) :
    callerActive s auth = true ∧ c ∈ r.activeDevices := by
  obtain ⟨d, hd, hgrant⟩ := hb
  have hst : d.status ≠ .active := by simpa [State.isActive, hd, Device.isActive] using hin
  have hrow : (rosterRow auth.tenantId caller r c d).status = .active := by
    simpa [State.isActive, applyRoster_devices hd, Device.isActive] using hact
  obtain ⟨hmem, hacc⟩ := rosterRow_active hst hrow
  obtain ⟨hcl, bootstrap, stored, hboot, _, hchk⟩ := authorizeRoster_ok h
  obtain ⟨dc, hdc, ⟨_, hca⟩ | ⟨rfl, _, hfresh⟩⟩ := recoveryBootstrap_ok hboot
  · exact ⟨by simp [callerActive, hcl, hdc, hca], hmem⟩
  · by_cases hcc : c = caller
    · subst hcc
      have hdd : dc = d := by
        rw [(device_eq_some.mp hdc).1] at hd
        exact Option.some.inj hd
      rw [grantFresh, hdd, hgrant hst] at hfresh
      cases hfresh
    · have hother := checkBootstrap_others hchk c hmem hcc
      rw [device_eq_some.mpr ⟨hd, hacc⟩] at hother
      exact absurd (by simpa [Device.isActive] using hother) hst

theorem not_active_of_status (hd : s.devices c = some d) (h : s.isActive c = false) :
    d.status ≠ .active := by
  simpa [State.isActive, hd, Device.isActive] using h

theorem barred_step (a : Request Client Account) (hb : Barred c s) (hu : Unarmed cr c s a) :
    Barred c (handle cr s a).1 ∧ Readmitted cr c s a (handle cr s a).1 := by
  have hsame : ∀ s' : State Client Account, ∀ d d' : Device Account, s.devices c = some d →
      s'.devices c = some d' → d'.status = d.status → Readmitted cr c s a s' := by
    intro s' d d' hd hd' hst hin hact
    refine absurd ?_ (not_active_of_status hd hin)
    simpa [State.isActive, hd', Device.isActive, hst] using hact
  obtain ⟨d, hd, hgrant⟩ := hb
  cases a with
  | wait n => exact ⟨⟨d, hd, hgrant⟩, hsame _ d d hd hd rfl⟩
  | loginBegin email nonce =>
    have hd' : (loginBegin cr s email nonce).1.devices c = some d := by
      unfold loginBegin
      split <;> exact hd
    exact ⟨⟨d, hd', hgrant⟩, hsame _ d d hd hd' rfl⟩
  | signup q account salt salt' =>
    have hd' := signup_devices cr q account salt salt' hd
    exact ⟨⟨d, hd', hgrant⟩, hsame _ d d hd hd' rfl⟩
  | loginFinish email key fields =>
    obtain hd' | hd' := loginFinish_cases cr email key fields hd
    · exact ⟨⟨d, hd', hgrant⟩, hsame _ d d hd hd' rfl⟩
    · refine ⟨⟨_, hd', fun h => hgrant (fun ha => h ?_)⟩, fun hin hact => ?_⟩
      · simp [loginConflict, ha, reenrol]
      · have hst := not_active_of_status hd hin
        have hre : reenrol d.status = .active := by
          simpa [handle, State.isActive, hd', Device.isActive, loginConflict] using hact
        cases hs : d.status <;> simp_all [reenrol]
  | recover email key fields =>
    obtain hd' | ⟨hd', hacc, pop, hpop, hpc⟩ := recover_cases cr email key fields hd
    · exact ⟨⟨d, hd', hgrant⟩, hsame _ d d hd hd' rfl⟩
    · have hpend := hu hacc pop hpop hpc d hd
      refine ⟨⟨_, hd', fun h => ?_⟩, fun hin hact => ?_⟩
      · cases hs : d.status <;> simp_all [recoverConflict, reenrol]
      · have hst := not_active_of_status hd hin
        have hre : reenrol d.status = .active := by
          simpa [handle, State.isActive, hd', Device.isActive, recoverConflict] using hact
        cases hs : d.status <;> simp_all [reenrol]
  | putRoster auth r =>
    cases hauth : authorizeRoster cr s auth r with
    | error e =>
      have hd' : (putRoster cr s auth r).1.devices c = some d := by simpa [putRoster, hauth] using hd
      exact ⟨⟨d, hd', hgrant⟩, hsame _ d d hd hd' rfl⟩
    | ok caller =>
      have heq := putRoster_eq hauth
      simp only [handle, heq]
      refine ⟨⟨_, applyRoster_devices hd, rosterRow_barred hgrant⟩, fun hin hact => ?_⟩
      obtain ⟨hca, hmem⟩ := putRoster_readmits ⟨d, hd, hgrant⟩ hauth hin hact
      exact ⟨by rw [heq]; rfl, hca, hmem⟩
  | changePassword auth q salt =>
    obtain ⟨d', hd', hst, hg⟩ := changePassword_devices cr auth q salt hd
    refine ⟨⟨d', hd', ?_⟩, hsame _ d d' hd hd' hst⟩
    rw [hst, hg]
    exact hgrant

/-- A roster upload that was accepted and dropped a device of the caller's account. -/
def Removes (cr : Crypto Client) (c : Client) (s : State Client Account)
    (auth : AuthTenant Client Account) (r : RosterUploadRequest Client) : Prop :=
  accepted (putRoster cr s auth r).2 = true ∧ c ∈ r.revokedDevices ∧
    (s.device auth.tenantId c).isSome = true

instance (cr : Crypto Client) (c : Client) (s : State Client Account)
    (auth : AuthTenant Client Account) (r : RosterUploadRequest Client) :
    Decidable (Removes cr c s auth r) := inferInstanceAs (Decidable (_ ∧ _ ∧ _))

theorem removes_barred (h : Removes cr c s auth r) : Barred c (putRoster cr s auth r).1 := by
  obtain ⟨hacc, hrev, hdev⟩ := h
  obtain ⟨d, hd⟩ := Option.isSome_iff_exists.mp hdev
  obtain ⟨hd, hda⟩ := device_eq_some.mp hd
  cases hauth : authorizeRoster cr s auth r with
  | error e => simp [putRoster, hauth, accepted] at hacc
  | ok caller =>
    rw [putRoster_eq hauth]
    refine ⟨_, applyRoster_devices hd, fun _ => ?_⟩
    simp only [rosterRow]
    split <;> split <;> split <;> simp_all [activate, revoke, clearGrant]

/-- After a removal in any state, in every run without an accepted recovery
login for the device while it is pending, only a roster of an active caller
that names it makes it active again. -/
theorem removed_stays_out (cr : Crypto Client) (c : Client) (post : List (Request Client Account))
    (auth : AuthTenant Client Account) (r : RosterUploadRequest Client)
    (s₀ s₁ : State Client Account) (hr : Removes cr c s₀ auth r) (hs : step cr s₀ (.putRoster auth r) = some s₁)
    (hu : Runs.Along (step cr) (fun s a _ => Unarmed cr c s a) s₁ post) :
    Runs.Along (step cr) (Readmitted cr c) s₁ post := by
  have hb : Barred c s₁ := by
    cases hs
    exact removes_barred hr
  refine Runs.along_of_invariant (I := Barred c) ?_ ?_ hb hu
  · intro s a s' hb hu hs
    cases hs
    exact (barred_step a hb hu).1
  · intro s a s' hb hu hs
    cases hs
    exact (barred_step a hb hu).2

section Schedules

def toySignature (key message : Bytes) : Bytes := (key ++ message).take 64

def toyCrypto : Crypto Nat where
  serverVerifier key salt := key ++ salt
  verifySignature key message proof := proof = toySignature key message
  clientBytes c := [UInt8.ofNat c]
  lower email := email

def deviceKey (c : Nat) : Bytes := List.replicate 32 (UInt8.ofNat c)

def deviceFields (c nonce : Nat) : DeviceFields Nat :=
  let pop : LoginPop Nat := ⟨c, deviceKey c, [UInt8.ofNat nonce], []⟩
  ⟨some c, some (deviceKey c), none, none, some [UInt8.ofNat nonce],
    some (toySignature (deviceKey c) (popMessage toyCrypto "user@host" pop))⟩

def login (c nonce : Nat) : List (Request Nat Nat) :=
  [.loginBegin "user@host" [UInt8.ofNat nonce],
    .loginFinish "user@host" [1] (deviceFields c nonce)]

def recovery (c nonce : Nat) : List (Request Nat Nat) :=
  [.loginBegin "user@host" [UInt8.ofNat nonce], .recover "user@host" [2] (deviceFields c nonce)]

def caller (c : Nat) : AuthTenant Nat Nat := ⟨0, some c⟩

def upload (counter : Int) (activeDevices revokedDevices : List Nat) : RosterUploadRequest Nat :=
  ⟨[], List.replicate 64 0, counter, 0, activeDevices, revokedDevices, some [1]⟩

/-- A second device signs in and is approved by the first. -/
def twoDevices : List (Request Nat Nat) :=
  .signup ⟨"user@host", [1], [2], List.replicate 16 0, [], [], ⟨[], [], 0, 0, 1, [], "", ""⟩⟩
    0 [3] [4] :: login 2 5 ++ [.putRoster (caller 1) (upload 1 [1, 2] [])]

def approvedAgain : List (Request Nat Nat) :=
  recovery 2 6 ++ [.putRoster (caller 2) (upload 3 [1, 2] []), .wait 60000000,
    .putRoster (caller 1) (upload 3 [1, 2] [])]

theorem removed_stays_out_approvedAgain :
    ∃ s₀ s₁ : State Nat Nat, Runs.exec (step toyCrypto) State.empty twoDevices = some s₀ ∧
      step toyCrypto s₀ (.putRoster (caller 1) (upload 2 [] [2])) = some s₁ ∧
      Runs.Along (step toyCrypto) (Readmitted toyCrypto 2) s₁ approvedAgain := by
  obtain ⟨s₀, h₀, hr, hu⟩ := Runs.exec_evaluates
    (P := fun s : State Nat Nat => Removes toyCrypto 2 s (caller 1) (upload 2 [] [2]) ∧
      Runs.Along (step toyCrypto) (fun s a _ => Unarmed toyCrypto 2 s a)
        (handle toyCrypto s (.putRoster (caller 1) (upload 2 [] [2]))).1 approvedAgain)
    (by decide +kernel : (Runs.exec (step toyCrypto) State.empty twoDevices).any _ = true)
  exact ⟨s₀, _, h₀, rfl,
    removed_stays_out toyCrypto 2 approvedAgain (caller 1) _ s₀ _ hr rfl hu⟩

/-- A password login makes the removed device pending, and the recovery code
then arms it. -/
def selfAdmission : List (Request Nat Nat) :=
  login 2 6 ++ recovery 2 7 ++ [.putRoster (caller 2) (upload 3 [1, 2] [])]

theorem selfAdmission_readmits :
    ¬ ∀ (c : Nat) (pre post : List (Request Nat Nat)) (auth : AuthTenant Nat Nat)
      (r : RosterUploadRequest Nat) (s₀ s₁ : State Nat Nat),
      Runs.exec (step toyCrypto) State.empty pre = some s₀ → Removes toyCrypto c s₀ auth r →
      step toyCrypto s₀ (.putRoster auth r) = some s₁ →
        Runs.Along (step toyCrypto) (Readmitted toyCrypto c) s₁ post := by
  intro hall
  obtain ⟨s₀, h₀, hr, hn⟩ := Runs.exec_evaluates
    (P := fun s : State Nat Nat => Removes toyCrypto 2 s (caller 1) (upload 2 [] [2]) ∧
      ¬ Runs.Along (step toyCrypto) (Readmitted toyCrypto 2)
        (handle toyCrypto s (.putRoster (caller 1) (upload 2 [] [2]))).1 selfAdmission)
    (by decide +kernel : (Runs.exec (step toyCrypto) State.empty twoDevices).any _ = true)
  exact hn (hall 2 twoDevices selfAdmission (caller 1) _ s₀ _ h₀ hr rfl)

end Schedules

end YapStack.Relay.Devices
