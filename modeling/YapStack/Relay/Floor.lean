import YapStack.Foundation.Statements
import YapStack.Relay.TenantSteps

set_option linter.unusedSectionVars false

namespace YapStack.Relay.Tenant

open Capability Sequence Table

section Invariant

variable {Tx Client Hash : Type}

/-- The level in force: the committed one, and 0 for a tenant without a floor row. -/
def inForce (floor : Table Tx Unit Levels) : Int :=
  ((floor.committed ()).map Levels.required).getD 0

/-- The level that a publication declares for its content. -/
def Op.declared : Op Client Hash → Option Int
  | .push _ batchLevel => some batchLevel
  | .publish r => some r.contentLevel
  | .repoint r _ _ => some r.contentLevel
  | _ => none

def Answer.contents : Answer Client Hash → List Int
  | .page r _ => r.changes.map (fun c => c.2.declared)
  | .head (some (_, r)) => [r.declared]
  | _ => []

def Outcome.contents : Outcome Client Hash → List Int
  | .answer a => a.contents
  | .latest _ r => [r.declared]
  | _ => []

/-- No content above the level its caller reports is on its way out. -/
def Readable : Pc Client Hash → Prop
  | .holding c _ (.ready o) => ∀ d ∈ o.contents, d ≤ c.level
  | .between c o => ∀ d ∈ o.contents, d ≤ c.level
  | .answered c a => ∀ d ∈ a.contents, d ≤ c.level
  | _ => True

/-- A new version that is in no window and below no level in which the old one was not. -/
def Tame (old new : Option Device) : Prop :=
  ∀ r, new = some r → ∀ now target, below now target r = true →
    ∃ r', old = some r' ∧ below now target r' = true

/-- Every device that the view shows below `target` was revoked at the scan. -/
def Covered (devices : Table Tx Client Device) (t : Tx) (now target : Int)
    (revoked : List Client) : Prop :=
  ∀ d r, devices.view t d = some r → below now target r = true → d ∈ revoked

/-- A raise that had nothing to raise answers with the levels it found. -/
def Granted (c : Call Client Hash) (l : Levels) : Outcome Client Hash → Prop
  | .answer (.levels r) => r = l ∧ ∀ target, c.op = .raise target → target ≤ l.required
  | _ => True

/-- What a raise knows of the devices and of its own new level. -/
def Surveyed (floor : Table Tx Unit Levels) (devices : Table Tx Client Device) (t : Tx)
    (c : Call Client Hash) (l : Levels) : Work Client Hash → Prop
  | .scanned blockers revoked =>
    ∀ target, c.op = .raise target → blockers = [] → Covered devices t c.now target revoked
  | .raised r revoked =>
    floor.view t () = some r ∧
      ∀ target, c.op = .raise target → target ≤ r.required ∧ Covered devices t c.now target revoked
  | .ready o => Granted c l o
  | _ => True

/-- A publication has passed its check once it is past the lock. -/
def Admitted (c : Call Client Hash) (l : Levels) : Work Client Hash → Prop
  | .locked => True
  | _ => ∀ d ∈ c.op.declared, d ≤ l.required

/-- What a transaction knows of the floor row. -/
def FloorAt (floor : Table Tx Unit Levels) (devices : Table Tx Client Device) (t : Tx) :
    Pc Client Hash → Prop
  | .lock _ =>
    floor.pending t () = none ∨
      floor.pending t () = some (some .initial) ∧ floor.committed () = none
  | .holding c l w =>
    floor.Holds t () ∧ inForce floor = l.required ∧
      (c.op.exclusive = true → floor.owner () = some t) ∧ Admitted c l w ∧
        Surveyed floor devices t c l w
  | .failed _ _ => True
  | _ => floor.pending t () = none

/-- A transaction changes the level or the stamp of a device only under the floor lock. -/
def DevicesAt (floor : Table Tx Unit Levels) (devices : Table Tx Client Device) (t : Tx) : Prop :=
  floor.Holds t () ∨ ∀ d v, devices.pending t d = some v → Tame (devices.committed d) v

def Rising (floor : Table Tx Unit Levels) (t : Tx) : Prop :=
  ∀ v, floor.pending t () = some v → ∃ l, v = some l ∧ inForce floor ≤ l.required

structure FloorInvariant (s : State Tx Client Hash) : Prop where
  rising : ∀ t, Rising s.floor t
  changesets : s.changesets.Every (fun r => r.declared ≤ inForce s.floor)
  snapshots : s.snapshots.Every (fun r => r.declared ≤ inForce s.floor)
  devices : ∀ t, DevicesAt s.floor s.devices t
  floors : ∀ t, FloorAt s.floor s.devices t (s.pc t)
  readable : ∀ t, Readable (s.pc t)

theorem Tame.refl (v : Option Device) : Tame v v := fun r hr _ _ hb => ⟨r, hr, hb⟩

theorem Tame.trans {v w x : Option Device} (h : Tame v w) (h' : Tame w x) : Tame v x := by
  intro r hr now target hb
  obtain ⟨r', hr', hb'⟩ := h' r hr now target hb
  exact h r' hr' now target hb'

theorem tame_edit (label platform : String) (status : Devices.Status) (v : Option Device) :
    Tame v (some (edit label platform status v)) := by
  intro r hr now target hb
  cases v with
  | none =>
    rw [← Option.some.inj hr, below_new] at hb
    cases hb
  | some d =>
    rw [← Option.some.inj hr, below_edit] at hb
    exact ⟨d, rfl, hb⟩

theorem covered_tame {devices devices' : Table Tx Client Device} {t : Tx} {now target : Int}
    {revoked : List Client} (hc : Covered devices t now target revoked)
    (h : ∀ d, Tame (devices.view t d) (devices'.view t d)) :
    Covered devices' t now target revoked := by
  intro d r hr hb
  obtain ⟨r', hr', hb'⟩ := h d r hr now target hb
  exact hc d r' hr' hb'

theorem surveyed_tame {floor floor' : Table Tx Unit Levels}
    {devices devices' : Table Tx Client Device} {t : Tx} {c : Call Client Hash}
    {l : Levels} {w : Work Client Hash} (hs : Surveyed floor devices t c l w)
    (hf : floor'.view t () = floor.view t ())
    (h : c.op.exclusive = true → ∀ d, Tame (devices.view t d) (devices'.view t d)) :
    Surveyed floor' devices' t c l w := by
  have hx : ∀ target, c.op = .raise target → c.op.exclusive = true := fun _ ho => by rw [ho]; rfl
  cases w with
  | scanned blockers revoked =>
    intro target ho hb
    exact covered_tame (hs target ho hb) (h (hx target ho))
  | raised r revoked =>
    refine ⟨hf.trans hs.1, fun target ho => ?_⟩
    obtain ⟨hle, hc⟩ := hs.2 target ho
    exact ⟨hle, covered_tame hc (h (hx target ho))⟩
  | ready o => exact hs
  | _ => trivial

end Invariant

section Others

variable {Tx Client Hash : Type} [DecidableEq Tx] [DecidableEq Client] [DecidableEq Hash]
variable {s s' : State Tx Client Hash} {t u : Tx} {c : Call Client Hash} {l : Levels}
variable {p : Pc Client Hash} {floor floor' : Table Tx Unit Levels}
variable {devices devices' : Table Tx Client Device}

theorem inForce_of_isolated (h : Isolated u floor floor') (hk : floor.Holds u ()) :
    inForce floor' = inForce floor := by
  simp only [inForce, h.committed () hk]

theorem rising_of_isolated (hr : Rising floor u) (h : Isolated u floor floor') :
    Rising floor' u := by
  intro v hv
  rw [h.pending] at hv
  rw [inForce_of_isolated h (holds_of_pending (by simp [hv]))]
  exact hr v hv

theorem devicesAt_of_isolated (hd : DevicesAt floor devices u) (hf : Isolated u floor floor')
    (h : Isolated u devices devices') : DevicesAt floor' devices' u := by
  obtain hh | ht := hd
  · exact Or.inl (hf.holds hh)
  · refine Or.inr (fun d v hv => ?_)
    rw [h.pending] at hv
    rw [h.committed d (holds_of_pending (by simp [hv]))]
    exact ht d v hv

/-- The other transactions keep what `u` knows, as long as they change its devices tamely. -/
theorem floorAt_of_isolated (hl : FloorAt floor devices u p) (hf : Isolated u floor floor')
    (h : floor.owner () = some u → ∀ d, Tame (devices.view u d) (devices'.view u d)) :
    FloorAt floor' devices' u p := by
  cases p with
  | lock c =>
    obtain hn | ⟨hp, hc⟩ := hl
    · exact Or.inl (by rw [hf.pending, hn])
    · refine Or.inr ⟨by rw [hf.pending, hp], ?_⟩
      rw [hf.committed () (holds_of_pending (by simp [hp])), hc]
  | holding c l w =>
    obtain ⟨hh, hb, hx, ha, hs⟩ := hl
    refine ⟨hf.holds hh, (inForce_of_isolated hf hh).trans hb, fun he => hf.owner () (hx he), ha, ?_⟩
    exact surveyed_tame hs (hf.view hh) (fun he => h (hx he))
  | failed c e => trivial
  | idle | caller c | bootstrap c | between c o | answered c a | editing =>
    exact (congrFun hf.pending ()).trans hl

/-- While `t` holds the floor row for itself, no other transaction commits a level below. -/
theorem close_tame (hi : FloorInvariant s) (keep : Bool) (hne : u ≠ t)
    (ho : s.floor.owner () = some u) (d : Client) :
    Tame (s.devices.view u d) ((s.devices.close t keep).view u d) := by
  have hiso := close_isolated s.devices keep hne
  cases hp : s.devices.pending u d with
  | some v =>
    rw [hiso.view (holds_of_pending (by simp [hp]))]
    exact Tame.refl _
  | none =>
    have hp' : (s.devices.close t keep).pending u d = none := by rw [hiso.pending, hp]
    rw [view_of_pending_none hp, view_of_pending_none hp']
    cases keep with
    | false => exact Tame.refl _
    | true =>
      change Tame _ (s.devices.view t d)
      cases hq : s.devices.pending t d with
      | none =>
        rw [view_of_pending_none hq]
        exact Tame.refl _
      | some v =>
        rw [view_of_pending hq]
        obtain hh | ht := hi.devices t
        · exact absurd (Holds.unique ho hh).symm hne
        · exact ht d v hq

theorem inForce_commit (hi : FloorInvariant s) (t : Tx) (keep : Bool) :
    inForce s.floor ≤ inForce (s.floor.close t keep) := by
  cases keep with
  | false => exact Int.le_refl _
  | true =>
    cases hp : s.floor.pending t () with
    | none =>
      have hv : (s.floor.close t true).committed () = s.floor.committed () :=
        view_of_pending_none hp
      simp only [inForce, hv, Int.le_refl]
    | some v =>
      obtain ⟨l, rfl, hle⟩ := hi.rising t v hp
      have hv : (s.floor.close t true).committed () = some l := view_of_pending hp
      have heq : inForce (s.floor.close t true) = l.required := by
        simp only [inForce, hv, Option.map_some, Option.getD_some]
      omega

theorem close_invariant (hi : FloorInvariant s) (keep : Bool) (hp : Readable p)
    (hl : ∀ (floor : Table Tx Unit Levels) devices, floor.pending t () = none →
      FloorAt floor devices t p) :
    FloorInvariant (s.close t keep p) := by
  have hmono := inForce_commit hi t keep
  have hother : ∀ u, u ≠ t → Undisturbed u s (s.close t keep p) :=
    fun u hne => close_undisturbed s keep p hne
  refine ⟨fun u => ?_, ?_, ?_, fun u => ?_, fun u => ?_, fun u => ?_⟩
  · by_cases hu : u = t
    · subst u
      intro v hv
      simp [State.close, close_pending] at hv
    · exact rising_of_isolated (hi.rising u) (hother u hu).floor
  · exact (hi.changesets.close t keep).imp (fun r hr => Int.le_trans hr hmono)
  · exact (hi.snapshots.close t keep).imp (fun r hr => Int.le_trans hr hmono)
  · by_cases hu : u = t
    · subst u
      refine Or.inr (fun d v hv => ?_)
      simp [State.close, close_pending] at hv
    · exact devicesAt_of_isolated (hi.devices u) (hother u hu).floor (hother u hu).devices
  · by_cases hu : u = t
    · subst u
      simp only [State.close, Function.update_self]
      exact hl _ _ (by rw [close_pending])
    · rw [(hother u hu).pc]
      exact floorAt_of_isolated (hi.floors u) (hother u hu).floor
        (fun ho => close_tame hi keep hu ho)
  · by_cases hu : u = t
    · subst u
      simpa only [State.close, Function.update_self] using hp
    · rw [(hother u hu).pc]
      exact hi.readable u

end Others

end YapStack.Relay.Tenant
