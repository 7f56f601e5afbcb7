import YapStack.Credentials.Tokens
import Mathlib

namespace YapStack.Credentials

open YapStack.Runs

namespace Cells

variable {c d : Cells}

def sessionCounter (c : Cells) (account : ℕ) : WithBot ℤ :=
  match c.record with
  | none => ⊥
  | some s => if s.account = account then (s.rosterCounter : WithBot ℤ) else ⊥

def anchorCounter (c : Cells) (account : ℕ) : WithBot ℤ :=
  match c.anchors account with
  | none => ⊥
  | some k => (k.rosterCounter : WithBot ℤ)

/-- The larger of the counters held in the session and in the anchor. -/
def held (c : Cells) (account : ℕ) : WithBot ℤ :=
  max (c.sessionCounter account) (c.anchorCounter account)

/-- The record is still what the command read: same sign-in, same roster counter. -/
def Fresh (c : Cells) (copy : Session) : Prop :=
  ∃ s ∈ c.record, s.login = copy.login ∧ s.account = copy.account ∧
    s.rosterCounter = copy.rosterCounter

/-- No command is between its session write and its anchor write. -/
def Anchored (c : Cells) : Prop :=
  ∀ s ∈ c.record, c.forgotten s.account = false →
    ∃ k ∈ c.anchors s.account, k.rosterCounter = s.rosterCounter

instance (c : Cells) (copy : Session) : Decidable (Fresh c copy) :=
  match h : c.record with
  | none => .isFalse (by simp [Fresh, h])
  | some s =>
    decidable_of_iff (s.login = copy.login ∧ s.account = copy.account ∧
      s.rosterCounter = copy.rosterCounter) (by simp [Fresh, h])

instance (c : Cells) : Decidable (Anchored c) := by
  unfold Anchored
  infer_instance

/-- The roster a step accepts, and for which account. -/
def accepts (c : Cells) : Task → Answer → Option (ℕ × Roster)
  | .fetchRoster copy _, .served plaintext r =>
    if verifyRosterSigned copy.rosterCounter r && decide (plaintext = r.counter) then
      some (copy.account, r)
    else none
  | .login account floor, .signed r =>
    if verifyRosterSigned floor r then some (account, r) else none
  | .checkRecovered account r, .selfAdmit _ =>
    if verifyRosterSigned (c.cachedCounter account) r && c.sameAsAnchored account r then
      some (account, r)
    else none
  | _, _ => none

/-- The condition under which the floor holds: what a command read is still what the record
and the anchor hold when it relies on it or writes it back. -/
def Unraced (c : Cells) : Task → Answer → Prop
  | .storeRefreshed copy, .go | .storeExpired copy _, .go | .storeEnabled copy, .go
  | .ratchet copy _ _, .go | .anchorRatchet copy _ _, .go | .mergeUpload copy _, .go
  | .anchor copy, .go | .anchorSignedIn copy _ _, .go => Fresh c copy
  | .fetchRoster copy _, .served _ _ => Fresh c copy
  | .checkRecovered _ _, .selfAdmit _ => Anchored c
  | .login account floor, .signed _ | .storeSignedIn account floor _ _, .go =>
    Anchored c ∧ c.cachedCounter account = floor
  | _, _ => True

instance (c : Cells) (k : Task) (a : Answer) : Decidable (Unraced c k a) := by
  apply @Task.casesOn (fun k => Decidable (Unraced c k a)) k <;> intros <;>
    apply @Answer.casesOn (fun a => Decidable (Unraced c _ a)) a <;> intros <;>
    dsimp only [Unraced] <;> infer_instance

/-- The session's counter covers its account's anchor; a forgotten account has no anchor. -/
structure Covered (c : Cells) : Prop where
  anchor : ∀ s ∈ c.record, ∀ k ∈ c.anchors s.account, k.rosterCounter ≤ s.rosterCounter
  forgotten : ∀ a, c.forgotten a = true → c.anchors a = none

/-- What the counters in a task's hands say about one another. -/
def TaskFloor : Task → Prop
  | .ratchet copy r _ | .mergeUpload copy r => copy.rosterCounter ≤ r.counter
  | .anchorRatchet copy r _ | .anchorSignedIn copy r _ | .upload copy r _ =>
    copy.rosterCounter = r.counter
  | .storeSignedIn _ floor r _ => floor ≤ r.counter
  | _ => True

theorem held_eq_session (h : Covered c) {s : Session} (hr : c.record = some s) :
    c.held s.account = (s.rosterCounter : WithBot ℤ) := by
  unfold held sessionCounter anchorCounter
  rw [hr]
  simp only [if_true]
  cases hk : c.anchors s.account with
  | none => simp
  | some k =>
    exact max_eq_left (WithBot.coe_le_coe.mpr (h.anchor s hr k hk))

theorem held_of_other {s : Session} {a : ℕ} (hr : c.record = some s) (hne : s.account ≠ a) :
    c.held a = c.anchorCounter a := by
  unfold held sessionCounter
  rw [hr]
  simp [hne]

theorem held_of_signedOut {a : ℕ} (hr : c.record = none) : c.held a = c.anchorCounter a := by
  unfold held sessionCounter
  rw [hr]
  simp

theorem Fresh.held_eq {copy : Session} (h : Fresh c copy) (hc : Covered c) :
    c.held copy.account = (copy.rosterCounter : WithBot ℤ) := by
  obtain ⟨s, hr, -, ha, hn⟩ := h
  rw [← ha, ← hn]
  exact held_eq_session hc hr

theorem anchorCounter_le_cachedCounter (a : ℕ) :
    c.anchorCounter a ≤ (c.cachedCounter a : WithBot ℤ) := by
  unfold anchorCounter cachedCounter
  cases hk : c.anchors a with
  | none => exact bot_le
  | some k => exact le_rfl

/-- Once every session write has its anchor, a sign-in's floor is what the device holds. -/
theorem held_le_cachedCounter (hc : Covered c) (ha : Anchored c) (a : ℕ) :
    c.held a ≤ (c.cachedCounter a : WithBot ℤ) := by
  cases hr : c.record with
  | none =>
    rw [held_of_signedOut hr]
    exact anchorCounter_le_cachedCounter a
  | some s =>
    by_cases hs : s.account = a
    · subst hs
      rw [held_eq_session hc hr]
      cases hk : c.anchors s.account with
      | none => simp [cachedCounter, hk, hr]
      | some k =>
        have hkept : c.forgotten s.account = false := by
          by_contra hf
          have hnone := hc.forgotten s.account (by simpa using hf)
          simp [hnone] at hk
        obtain ⟨k', hk', hn⟩ := ha s hr hkept
        obtain rfl : k = k' := Option.some.inj (hk.symm.trans hk')
        simp [cachedCounter, hk, hn]
    · rw [held_of_other hr hs]
      exact anchorCounter_le_cachedCounter a

/-- Whatever a step does to the record and the anchors, no account's floor sinks. -/
def Keeps (c d : Cells) : Prop := ∀ a, c.forgotten a = false → c.held a ≤ d.held a

theorem keeps_of_same (hr : d.record = c.record) (ha : d.anchors = c.anchors) : Keeps c d := by
  intro a _
  unfold held sessionCounter anchorCounter
  rw [hr, ha]

theorem Covered.storeSession {copy : Session} (h : Covered c) (hf : Fresh c copy) :
    Covered (c.storeSession copy) where
  anchor s hs k hk := by
    obtain rfl := Option.some.inj hs
    obtain ⟨s, hr, -, ha, hn⟩ := hf
    rw [← hn]
    exact h.anchor s hr k (ha ▸ hk)
  forgotten := h.forgotten

theorem keeps_storeSession {copy : Session} (hf : Fresh c copy) :
    Keeps c (c.storeSession copy) := by
  intro a _
  obtain ⟨s, hr, -, ha, hn⟩ := hf
  unfold held sessionCounter
  simp only [Cells.storeSession, Option.mem_def.mp hr, ha, hn]
  exact le_rfl

theorem Covered.mergeRoster {copy : Session} {r : Roster} {next : Session → Task}
    (h : Covered c) (hf : Fresh c copy) (hle : copy.rosterCounter ≤ r.counter) :
    Covered (c.mergeRoster r next).1 := by
  obtain ⟨s, hr, -, ha, hn⟩ := hf
  simp only [Cells.mergeRoster, Cells.updateSession, Option.mem_def.mp hr, Option.map_some]
  refine ⟨fun s' hs' k hk => ?_, fun a hfa => ?_⟩
  · obtain rfl := Option.some.inj hs'
    exact (h.anchor s hr k hk).trans (hn ▸ hle)
  · by_cases he : a = s.account
    · subst he
      simp [setRoster] at hfa
    · exact h.forgotten a (by simpa [setRoster, Cells.storeSession, he] using hfa)

theorem keeps_mergeRoster {copy : Session} {r : Roster} {next : Session → Task}
    (hf : Fresh c copy) (hle : copy.rosterCounter ≤ r.counter) :
    Keeps c (c.mergeRoster r next).1 := by
  intro a _
  obtain ⟨s, hr, -, ha, hn⟩ := hf
  simp only [Cells.mergeRoster, Cells.updateSession, Option.mem_def.mp hr, Option.map_some]
  unfold held sessionCounter
  simp only [Cells.storeSession, Option.mem_def.mp hr, setRoster]
  refine max_le_max ?_ le_rfl
  split
  · exact WithBot.coe_le_coe.mpr (hn ▸ hle)
  · exact le_rfl

theorem Covered.persistAccountAnchor {copy : Session} (h : Covered c) (hf : Fresh c copy) :
    Covered (c.persistAccountAnchor copy) := by
  obtain ⟨s, hr, -, ha, hn⟩ := hf
  refine ⟨fun s' hs' k hk => ?_, fun a hfa => ?_⟩
  · obtain rfl : s = s' := Option.some.inj (hr.symm.trans hs')
    simp only [Cells.persistAccountAnchor, ha, Function.update_self, Option.mem_some_iff] at hk
    subst hk
    exact le_of_eq hn.symm
  · by_cases he : a = copy.account
    · subst he
      simp [Cells.persistAccountAnchor] at hfa
    · have hkept : c.forgotten a = true := by
        simpa [Cells.persistAccountAnchor, he] using hfa
      simpa [Cells.persistAccountAnchor, he] using h.forgotten a hkept

theorem keeps_persistAccountAnchor {copy : Session} (h : Covered c) (hf : Fresh c copy) :
    Keeps c (c.persistAccountAnchor copy) := by
  intro a _
  by_cases he : a = copy.account
  · subst he
    rw [hf.held_eq h]
    refine le_max_of_le_right ?_
    simp [anchorCounter, Cells.persistAccountAnchor]
  · refine max_le_max le_rfl ?_
    simp [anchorCounter, Cells.persistAccountAnchor, he]

theorem Covered.signIn {account : ℕ} {r : Roster} (h : Covered c)
    (hle : c.cachedCounter account ≤ r.counter) : Covered (c.signIn account r) := by
  refine ⟨fun s hs k hk => ?_, fun a hfa => ?_⟩
  · obtain rfl := Option.some.inj hs
    refine le_trans ?_ hle
    have hk' : c.anchors account = some k := hk
    simp [cachedCounter, hk']
  · by_cases he : a = account
    · subst he
      simp [Cells.signIn] at hfa
    · exact h.forgotten a (by simpa [Cells.signIn, he] using hfa)

/-- An account whose session leaves the record keeps its counter in the anchor. -/
theorem held_eq_anchor (h : Covered c) (ha : Anchored c) {a : ℕ} (hfa : c.forgotten a = false) :
    c.held a = c.anchorCounter a := by
  cases hr : c.record with
  | none => exact held_of_signedOut hr
  | some s =>
    by_cases hs : s.account = a
    · subst hs
      obtain ⟨k, hk, hn⟩ := ha s hr hfa
      rw [held_eq_session h hr]
      simp [anchorCounter, Option.mem_def.mp hk, hn]
    · exact held_of_other hr hs

theorem keeps_of_anchors (h : Covered c) (ha : Anchored c) (hsame : d.anchors = c.anchors) :
    Keeps c d := by
  intro a hfa
  rw [held_eq_anchor h ha hfa]
  refine le_max_of_le_right ?_
  unfold anchorCounter
  rw [hsame]

theorem keeps_signIn {account : ℕ} {r : Roster} (h : Covered c) (ha : Anchored c)
    (hle : c.cachedCounter account ≤ r.counter) : Keeps c (c.signIn account r) := by
  intro a hfa
  by_cases he : account = a
  · subst he
    have hsession : (c.signIn account r).sessionCounter account = (r.counter : WithBot ℤ) := by
      simp [sessionCounter, Cells.signIn]
    calc c.held account ≤ (c.cachedCounter account : WithBot ℤ) := held_le_cachedCounter h ha _
      _ ≤ (r.counter : WithBot ℤ) := WithBot.coe_le_coe.mpr hle
      _ ≤ (c.signIn account r).held account := le_max_of_le_left (le_of_eq hsession.symm)
  · exact keeps_of_anchors (d := c.signIn account r) h ha rfl a hfa

/-- What one step of a task does to the counters, and what it leaves for the next. -/
structure FloorActs (c d : Cells) (ks : List Task) : Prop where
  covered : Covered d
  keeps : Keeps c d
  remembers : ∀ a, c.forgotten a = false → d.forgotten a = false
  tasks : ∀ k ∈ ks, TaskFloor k

theorem update_false {f : ℕ → Bool} {a : ℕ} (b : ℕ) (h : f a = false) :
    Function.update f b false a = false := by
  by_cases he : a = b
  · subst he
    simp
  · simpa [he] using h

theorem floorActs_of_same {ks : List Task} (h : Covered c) (hr : d.record = c.record)
    (ha : d.anchors = c.anchors) (hf : d.forgotten = c.forgotten)
    (hks : ∀ k ∈ ks, TaskFloor k) : FloorActs c d ks := by
  refine ⟨⟨fun s hs k hk => ?_, fun a hfa => ?_⟩, keeps_of_same hr ha, fun a hfa => ?_, hks⟩
  · exact h.anchor s (hr ▸ hs) k (ha ▸ hk)
  · exact ha ▸ h.forgotten a (hf ▸ hfa)
  · exact hf ▸ hfa

theorem floorActs_next {k : Task} (h : Covered c) (hk : TaskFloor k) : FloorActs c c [k] := by
  refine floorActs_of_same h rfl rfl rfl (fun k' hk' => ?_)
  obtain rfl := List.mem_singleton.mp hk'
  exact hk

theorem floorActs_done (h : Covered c) : FloorActs c c [] :=
  floorActs_of_same h rfl rfl rfl (fun _ h => by cases h)

theorem storeSession_floorActs {copy : Session} {ks : List Task} (h : Covered c)
    (hf : Fresh c copy) (hks : ∀ k ∈ ks, TaskFloor k) :
    FloorActs c (c.storeSession copy) ks :=
  ⟨h.storeSession hf, keeps_storeSession hf, fun _ hfa => hfa, hks⟩

theorem storeRefreshed_floorActs {copy : Session} (h : Covered c) (hf : Fresh c copy) :
    FloorActs c (c.storeRefreshed copy) [] := by
  have hs := h.storeSession hf
  exact ⟨⟨hs.anchor, hs.forgotten⟩, keeps_storeSession hf, fun _ hfa => hfa, (fun _ h => by cases h)⟩

theorem mergeRoster_floorActs {copy : Session} {r : Roster} {next : Session → Task}
    (h : Covered c) (hf : Fresh c copy) (hle : copy.rosterCounter ≤ r.counter)
    (hnext : ∀ s : Session, s.rosterCounter = r.counter → TaskFloor (next s)) :
    FloorActs c (c.mergeRoster r next).1 (c.mergeRoster r next).2 := by
  refine ⟨h.mergeRoster hf hle, keeps_mergeRoster hf hle, fun a hfa => ?_, fun k hk => ?_⟩
  · obtain ⟨s, hr, -⟩ := hf
    simp only [Cells.mergeRoster, Cells.updateSession, Option.mem_def.mp hr, Option.map_some]
    exact update_false s.account hfa
  · obtain ⟨s, hr, -⟩ := hf
    simp only [Cells.mergeRoster, Cells.updateSession, Option.mem_def.mp hr, Option.map_some,
      List.mem_singleton] at hk
    subst hk
    exact hnext _ rfl

theorem persistAccountAnchor_floorActs {copy : Session} {ks : List Task} (h : Covered c)
    (hf : Fresh c copy) (hks : ∀ k ∈ ks, TaskFloor k) :
    FloorActs c (c.persistAccountAnchor copy) ks :=
  ⟨h.persistAccountAnchor hf, keeps_persistAccountAnchor h hf,
    fun _ hfa => update_false copy.account hfa, hks⟩

theorem act_floorActs {k : Task} {a : Answer} {ks : List Task} (h : Covered c)
    (hk : TaskFloor k) (hg : Unraced c k a) (ht : c.act k a = some (d, ks)) :
    FloorActs c d ks := by
  unfold Cells.act at ht
  split at ht
  · split at ht
    · obtain ⟨rfl, rfl⟩ := Prod.mk.inj (Option.some.inj ht)
      refine floorActs_of_same h rfl rfl rfl (fun k' hk' => ?_)
      obtain rfl := List.mem_singleton.mp hk'
      trivial
    · cases ht
  · obtain ⟨rfl, rfl⟩ := Prod.mk.inj (Option.some.inj ht)
    split
    · exact floorActs_next h trivial
    · exact floorActs_done h
  · obtain ⟨rfl, rfl⟩ := Prod.mk.inj (Option.some.inj ht)
    exact storeRefreshed_floorActs h hg
  · split at ht
    · obtain ⟨rfl, rfl⟩ := Prod.mk.inj (Option.some.inj ht)
      exact floorActs_done h
    · obtain ⟨rfl, rfl⟩ := Prod.mk.inj (Option.some.inj ht)
      exact floorActs_next h trivial
  · obtain ⟨rfl, rfl⟩ := Prod.mk.inj (Option.some.inj ht)
    exact storeSession_floorActs h hg (fun _ h => by cases h)
  · obtain ⟨rfl, rfl⟩ := Prod.mk.inj (Option.some.inj ht)
    refine storeSession_floorActs h hg (fun k' hk' => ?_)
    obtain rfl := List.mem_singleton.mp hk'
    trivial
  · split at ht
    · rename_i hv
      obtain ⟨rfl, rfl⟩ := Prod.mk.inj (Option.some.inj ht)
      simp only [verifyRosterSigned, Bool.and_eq_true, decide_eq_true_eq] at hv
      exact floorActs_next h hv.1
    · obtain ⟨rfl, rfl⟩ := Prod.mk.inj (Option.some.inj ht)
      exact floorActs_done h
  · obtain ⟨rfl, rfl⟩ := Prod.mk.inj (Option.some.inj ht)
    exact mergeRoster_floorActs h hg hk (fun _ hs => hs)
  · obtain ⟨rfl, rfl⟩ := Prod.mk.inj (Option.some.inj ht)
    refine persistAccountAnchor_floorActs h hg (fun k' hk' => ?_)
    obtain rfl := List.mem_singleton.mp hk'
    exact hk
  · obtain ⟨rfl, rfl⟩ := Prod.mk.inj (Option.some.inj ht)
    refine floorActs_next h ?_
    simp only [TaskFloor] at hk ⊢
    omega
  · obtain ⟨rfl, rfl⟩ := Prod.mk.inj (Option.some.inj ht)
    split
    · exact floorActs_next h trivial
    · exact floorActs_done h
  · obtain ⟨rfl, rfl⟩ := Prod.mk.inj (Option.some.inj ht)
    exact mergeRoster_floorActs h hg hk (fun _ _ => trivial)
  · obtain ⟨rfl, rfl⟩ := Prod.mk.inj (Option.some.inj ht)
    exact persistAccountAnchor_floorActs h hg (fun _ h => by cases h)
  · split at ht
    · rename_i hv
      obtain ⟨rfl, rfl⟩ := Prod.mk.inj (Option.some.inj ht)
      simp only [verifyRosterSigned, decide_eq_true_eq] at hv
      exact floorActs_next h hv
    · obtain ⟨rfl, rfl⟩ := Prod.mk.inj (Option.some.inj ht)
      exact floorActs_done h
  · obtain ⟨rfl, rfl⟩ := Prod.mk.inj (Option.some.inj ht)
    exact floorActs_next h trivial
  · split at ht
    · rename_i hv
      obtain ⟨rfl, rfl⟩ := Prod.mk.inj (Option.some.inj ht)
      simp only [verifyRosterSigned, Bool.and_eq_true, decide_eq_true_eq] at hv
      exact floorActs_next h hv.1
    · obtain ⟨rfl, rfl⟩ := Prod.mk.inj (Option.some.inj ht)
      exact floorActs_done h
  · obtain ⟨rfl, rfl⟩ := Prod.mk.inj (Option.some.inj ht)
    obtain ⟨hanchored, hfloor⟩ := hg
    refine ⟨h.signIn (hfloor ▸ hk), ?_, fun a hfa => ?_, fun k' hk' => ?_⟩
    · exact keeps_signIn h hanchored (hfloor ▸ hk)
    · exact update_false _ hfa
    · obtain rfl := List.mem_singleton.mp hk'
      rfl
  · obtain ⟨rfl, rfl⟩ := Prod.mk.inj (Option.some.inj ht)
    refine persistAccountAnchor_floorActs h hg (fun k' hk' => ?_)
    split at hk'
    · obtain rfl := List.mem_singleton.mp hk'
      exact hk
    · exact absurd hk' List.not_mem_nil
  · obtain ⟨rfl, rfl⟩ := Prod.mk.inj (Option.some.inj ht)
    exact floorActs_done h
  · cases ht

theorem accepts_above {k : Task} {a : Answer} {account : ℕ} {r : Roster} (h : Covered c)
    (hg : Unraced c k a) (ha : accepts c k a = some (account, r)) :
    c.held account ≤ r.counter := by
  unfold accepts at ha
  split at ha
  · split at ha
    · rename_i hv
      obtain ⟨rfl, rfl⟩ := Prod.mk.inj (Option.some.inj ha)
      simp only [verifyRosterSigned, Bool.and_eq_true, decide_eq_true_eq] at hv
      have hf : Fresh c _ := hg
      rw [hf.held_eq h]
      exact WithBot.coe_le_coe.mpr hv.1
    · cases ha
  · split at ha
    · rename_i hv
      obtain ⟨rfl, rfl⟩ := Prod.mk.inj (Option.some.inj ha)
      simp only [verifyRosterSigned, decide_eq_true_eq] at hv
      obtain ⟨hanchored, rfl⟩ := hg
      exact (held_le_cachedCounter h hanchored _).trans (WithBot.coe_le_coe.mpr hv)
    · cases ha
  · split at ha
    · rename_i hv
      obtain ⟨rfl, rfl⟩ := Prod.mk.inj (Option.some.inj ha)
      simp only [verifyRosterSigned, Bool.and_eq_true, decide_eq_true_eq] at hv
      exact (held_le_cachedCounter h hg _).trans (WithBot.coe_le_coe.mpr hv.1)
    · cases ha
  · cases ha

end Cells

namespace State

open Cells

/-- The condition, event by event: besides the steps of the commands, a sign-out finds every
session write anchored. -/
def Unraced (s : State) (e : Event) (_ : State) : Prop :=
  match e with
  | .act k a => Cells.Unraced s.toCells k a
  | .signOut => Anchored s.toCells
  | _ => True

instance (s : State) (e : Event) (t : State) : Decidable (Unraced s e t) := by
  apply @Event.casesOn (fun e => Decidable (Unraced s e t)) e <;> intros <;>
    dsimp only [Unraced] <;> infer_instance

def acceptedBy (s : State) : Event → Option (ℕ × Roster)
  | .act k a => s.accepts k a
  | _ => none

/-- The floor of an account sinks only when it is forgotten, and no roster below it is
accepted. -/
structure RosterSafe (s : State) (e : Event) (t : State) : Prop where
  floor : ∀ a, e ≠ .forgetAccount a → s.forgotten a = false → s.held a ≤ t.held a
  accepted : ∀ p ∈ s.acceptedBy e, s.held p.1 ≤ (p.2.counter : WithBot ℤ)

/-- No roster of the account below `n` is accepted. -/
def AcceptsFrom (a : ℕ) (n : WithBot ℤ) (s : State) (e : Event) (_ : State) : Prop :=
  ∀ p ∈ s.acceptedBy e, p.1 = a → n ≤ (p.2.counter : WithBot ℤ)

instance (a : ℕ) (n : WithBot ℤ) (s : State) (e : Event) (t : State) :
    Decidable (AcceptsFrom a n s e t) := by
  unfold AcceptsFrom
  infer_instance

structure FloorInv (s : State) : Prop where
  covered : Covered s.toCells
  tasks : ∀ k ∈ s.tasks, TaskFloor k

variable {s t : State}

theorem FloorInv.spawn {ks : List Task} (h : FloorInv s) (hks : ∀ k ∈ ks, TaskFloor k) :
    FloorInv (s.spawn ks) where
  covered := h.covered
  tasks k hk := (List.mem_append.mp hk).elim (hks k) (h.tasks k)

theorem refreshTask_floor (r : Session) (drain : Bool) :
    ∀ k ∈ refreshTask r drain, TaskFloor k := by
  unfold refreshTask
  cases r.refresh with
  | none => cases drain <;> simp [TaskFloor]
  | some g => simp [TaskFloor]

/-- What one event does to the counters. -/
structure FloorStep (s : State) (e : Event) (t : State) : Prop where
  inv : FloorInv t
  keeps : ∀ a, e ≠ .forgetAccount a → s.forgotten a = false →
    s.held a ≤ t.held a ∧ t.forgotten a = false

theorem spawn_floorStep {e : Event} {ks : List Task} (h : FloorInv s)
    (hks : ∀ k ∈ ks, TaskFloor k) : FloorStep s e (s.spawn ks) :=
  ⟨h.spawn hks, fun _ _ hf => ⟨le_rfl, hf⟩⟩

theorem disable_floorStep (h : FloorInv s) : FloorStep s .disable
    { s with record := s.record.map (fun r => { r with syncEnabled := false }) } := by
  cases hr : s.record with
  | none =>
    refine ⟨⟨⟨(fun _ h => by cases h), h.covered.forgotten⟩, h.tasks⟩, fun a _ hf => ⟨?_, hf⟩⟩
    unfold held sessionCounter anchorCounter
    rw [hr]
    exact le_rfl
  | some r =>
    have hf : Fresh s.toCells { r with syncEnabled := false } := ⟨r, hr, rfl, rfl, rfl⟩
    exact ⟨⟨h.covered.storeSession hf, h.tasks⟩,
      fun a _ hfa => ⟨keeps_storeSession hf a hfa, hfa⟩⟩

theorem forgetAccount_floorStep (account : ℕ) (h : FloorInv s) :
    FloorStep s (.forgetAccount account) { s with toCells := s.clearAccountAnchor account } := by
  refine ⟨⟨⟨fun r hr k hk => ?_, fun a hfa => ?_⟩, h.tasks⟩, fun a hne hfa => ?_⟩
  · by_cases he : r.account = account
    · simp [clearAccountAnchor, he] at hk
    · exact h.covered.anchor r hr k (by simpa [clearAccountAnchor, he] using hk)
  · by_cases he : a = account
    · simp [clearAccountAnchor, he]
    · have hfs : s.forgotten a = true := by simpa [clearAccountAnchor, he] using hfa
      simpa [clearAccountAnchor, he] using h.covered.forgotten a hfs
  · have he : a ≠ account := fun he => hne (he ▸ rfl)
    refine ⟨max_le_max le_rfl ?_, by simpa [clearAccountAnchor, he] using hfa⟩
    simp [anchorCounter, clearAccountAnchor, he]

theorem act_floorStep {k : Task} {a : Answer} (h : FloorInv s)
    (hg : Cells.Unraced s.toCells k a) (ht : step s (.act k a) = some t) :
    FloorStep s (.act k a) t := by
  simp only [step] at ht
  split at ht
  · rename_i hk
    obtain ⟨⟨d, ks⟩, hact, rfl⟩ := Option.map_eq_some_iff.mp ht
    have hacts := act_floorActs h.covered (h.tasks k hk) hg hact
    refine ⟨⟨hacts.covered, fun k' hk' => ?_⟩, fun a _ hfa => ?_⟩
    · rcases List.mem_append.mp hk' with hnew | hold
      · exact hacts.tasks k' hnew
      · exact h.tasks k' (List.mem_of_mem_erase hold)
    · exact ⟨hacts.keeps a hfa, hacts.remembers a hfa⟩
  · cases ht

theorem step_floorStep {e : Event} (h : FloorInv s) (hg : Unraced s e t)
    (ht : step s e = some t) : FloorStep s e t := by
  cases e with
  | refreshAccessToken drain =>
    obtain rfl := Option.some.inj ht
    apply spawn_floorStep h
    intro k hk
    obtain ⟨r, -, hk'⟩ := List.mem_flatMap.mp hk
    exact refreshTask_floor r drain k hk'
  | enable =>
    obtain rfl := Option.some.inj ht
    apply spawn_floorStep h
    intro k hk
    obtain ⟨r, -, rfl⟩ := List.mem_map.mp hk
    trivial
  | changeRoster =>
    obtain rfl := Option.some.inj ht
    apply spawn_floorStep h
    intro k hk
    obtain ⟨r, -, rfl⟩ := List.mem_map.mp hk
    trivial
  | login account =>
    obtain rfl := Option.some.inj ht
    apply spawn_floorStep h
    intro k hk
    obtain rfl := List.mem_singleton.mp hk
    trivial
  | recover account =>
    obtain rfl := Option.some.inj ht
    apply spawn_floorStep h
    intro k hk
    obtain rfl := List.mem_singleton.mp hk
    trivial
  | disable => exact Option.some.inj ht ▸ disable_floorStep h
  | signOut =>
    obtain rfl := Option.some.inj ht
    refine ⟨⟨⟨(fun _ h => by cases h), h.covered.forgotten⟩, h.tasks⟩, fun a _ hfa => ⟨?_, hfa⟩⟩
    exact keeps_of_anchors (d := s.clearSession) h.covered hg rfl a hfa
  | forgetAccount account => exact Option.some.inj ht ▸ forgetAccount_floorStep account h
  | act k a => exact act_floorStep h hg ht

theorem step_rosterSafe {e : Event} (h : FloorInv s) (hg : Unraced s e t)
    (ht : step s e = some t) : RosterSafe s e t where
  floor a hne hfa := ((step_floorStep h hg ht).keeps a hne hfa).1
  accepted p hp := by
    cases e with
    | act k a => exact accepts_above h.covered hg hp
    | _ => cases hp

/-- What is held of an account stays the floor of what is accepted until it is forgotten. -/
theorem acceptsFrom_of_held {u : State} {a : ℕ} {n : WithBot ℤ} {es : List Event}
    (h : FloorInv u) (hg : Along step Unraced u es) (hn : n ≤ u.held a)
    (hf : u.forgotten a = false) (hes : ∀ e ∈ es, e ≠ .forgetAccount a) :
    Along step (AcceptsFrom a n) u es := by
  let I := fun s : State => FloorInv s ∧ n ≤ s.held a ∧ s.forgotten a = false
  have hstep : ∀ s e t, I s → (Unraced s e t ∧ e ≠ .forgetAccount a) → step s e = some t →
      I t := by
    rintro s e t ⟨hi, hle, hfa⟩ ⟨hu, hne⟩ ht
    have hs := step_floorStep hi hu ht
    obtain ⟨hkeep, hfa'⟩ := hs.keeps a hne hfa
    exact ⟨hs.inv, hle.trans hkeep, hfa'⟩
  have hout : ∀ s e t, I s → (Unraced s e t ∧ e ≠ .forgetAccount a) → step s e = some t →
      AcceptsFrom a n s e t := by
    rintro s e t ⟨hi, hle, -⟩ ⟨hu, -⟩ ht p hp rfl
    exact hle.trans ((step_rosterSafe hi hu ht).accepted p hp)
  exact along_of_invariant hstep hout ⟨h, hn, hf⟩ (hg.and_events hes)

/-- In a run whose steps meet the condition no floor sinks, and once a counter is held no
roster below it is accepted until the account is forgotten. -/
theorem unraced_rosters_never_sink {s₀ : State} {as : List Event} (hs : Covered s₀.toCells)
    (hk : s₀.tasks = []) (hg : Along step Unraced s₀ as) :
    Along step RosterSafe s₀ as ∧
      ∀ bs es u a n, as = bs ++ es → exec step s₀ bs = some u → n ≤ u.held a →
        u.forgotten a = false → (∀ e ∈ es, e ≠ .forgetAccount a) →
        Along step (AcceptsFrom a n) u es := by
  have hinit : FloorInv s₀ := ⟨hs, by simp [hk]⟩
  have hstep : ∀ s e t, FloorInv s → Unraced s e t → step s e = some t → FloorInv t :=
    fun _ _ _ h hg ht => (step_floorStep h hg ht).inv
  have hout : ∀ s e t, FloorInv s → Unraced s e t → step s e = some t → RosterSafe s e t :=
    fun _ _ _ h hg ht => step_rosterSafe h hg ht
  refine ⟨along_of_invariant hstep hout hinit hg, ?_⟩
  rintro bs es u a n rfl hu hn hf hes
  have hinv : FloorInv u := exec_invariant_along hstep hinit (along_left hg) hu
  exact acceptsFrom_of_held hinv (along_append hg hu) hn hf hes

theorem fresh_covered : Covered fresh.toCells := ⟨(fun _ h => by cases h), (fun _ h => by cases h)⟩

def laterRoster : Roster := ⟨5, 9⟩

def reanchored (r : Roster) : Session :=
  { session 0 0 with rosterCounter := r.counter, rosterFingerprint := some r.fingerprint }

/-- The relay serves a newer roster to a device that is changing it. -/
def ratchetUp : List Event :=
  [.changeRoster, .act (.fetchRoster (session 0 0) true) (.served 5 laterRoster),
    .act (.ratchet (session 0 0) laterRoster true) .go,
    .act (.anchorRatchet (reanchored laterRoster) laterRoster true) .go]

/-- A sign-in, a roster change, a sign-out and a recovery over the anchored roster. -/
def orderlyChange : List Event :=
  signInAs 0 ++ ratchetUp ++
    [.act (.upload (reanchored laterRoster) laterRoster true) (.uploaded 8),
      .act (.mergeUpload (reanchored laterRoster) ⟨6, 8⟩) .go,
      .act (.anchor (reanchored ⟨6, 8⟩)) .go, .signOut, .recover 0,
      .act (.recover 0) (.signed ⟨6, 8⟩),
      .act (.checkRecovered 0 ⟨6, 8⟩) (.selfAdmit false),
      .act (.storeSignedIn 0 6 ⟨6, 8⟩ false) .go]

theorem unraced_rosters_never_sink_orderly :
    (∃ u, exec step fresh orderlyChange = some u ∧ u.held 0 = (6 : ℤ)) ∧
      Along step RosterSafe fresh orderlyChange :=
  ⟨exec_evaluates (by decide +kernel),
    (unraced_rosters_never_sink fresh_covered rfl (by decide +kernel)).1⟩

/-- Enabling reads the session, a roster change anchors a newer roster, and enabling stores
and anchors what it read; a sign-in then takes an older roster. -/
def enableOverRatchet : List Event :=
  signInAs 0 ++ [.enable] ++ ratchetUp ++
    [.act (.storeEnabled (session 0 0)) .go,
      .act (.anchor { session 0 0 with syncEnabled := true }) .go, .login 0,
      .act (.login 0 0) (.signed ⟨1, 1⟩)]

theorem enable_sinks_floor :
    (∃ u, exec step fresh (signInAs 0 ++ [.enable] ++ ratchetUp) = some u ∧
      u.held 0 = (5 : ℤ) ∧ ¬ Along step (AcceptsFrom 0 (5 : ℤ)) u
        [.act (.storeEnabled (session 0 0)) .go,
          .act (.anchor { session 0 0 with syncEnabled := true }) .go, .login 0,
          .act (.login 0 0) (.signed ⟨1, 1⟩)]) ∧
      (∃ u, exec step fresh enableOverRatchet = some u ∧ u.held 0 = (0 : ℤ)) ∧
        ¬ Along step RosterSafe fresh enableOverRatchet := by
  refine ⟨exec_evaluates (by decide +kernel), exec_evaluates (by decide +kernel), fun h => ?_⟩
  have hfloor : Along step (fun s e t => e = .forgetAccount 0 ∨ s.forgotten 0 = true ∨
      s.held 0 ≤ t.held 0) fresh enableOverRatchet := by
    refine h.imp (fun s e t hsafe => ?_)
    by_cases he : e = .forgetAccount 0
    · exact .inl he
    · cases hf : s.forgotten 0 with
      | true => exact .inr (.inl rfl)
      | false => exact .inr (.inr (hsafe.floor 0 he hf))
  revert hfloor
  decide +kernel

end State

end YapStack.Credentials
