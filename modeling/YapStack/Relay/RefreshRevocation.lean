import Mathlib.Algebra.GroupWithZero.Nat
import YapStack.Relay.RefreshSteps

set_option linter.unusedSectionVars false

namespace YapStack.Relay.Refresh

open Table

variable {Tx User Client Family Jti : Type*}
variable [DecidableEq Tx] [DecidableEq User] [DecidableEq Client] [DecidableEq Family]
variable [DecidableEq Jti]
variable {s s' s₁ s₂ : State Tx User Client Family Jti} {t u : Tx} {f : Family}

/-- The snapshot of a revoking statement that has reached its last row. -/
def Pc.revoked : Pc User Client Family Jti → List Jti
  | .revoking _ seen [] => seen
  | _ => []

/-- The families that the commit of `t` revokes. -/
def revokedFamilies (s : State Tx User Client Family Jti) (t : Tx) : List Family :=
  (s.pc t).revoked.filterMap (fun k => (s.tokens.committed k).map Token.familyId)

/-- When a revoking transaction commits, the live committed tokens of its
families are those its statement saw: no rotation of theirs has committed
since the statement began. -/
def Covered (s : State Tx User Client Family Jti) : Action Tx User Client Family Jti → Prop
  | .commit t => ∀ k ∈ s.tokens.keys, ∀ r ∈ s.tokens.committed k, r.spent = false →
      r.familyId ∈ revokedFamilies s t → k ∈ (s.pc t).revoked
  | _ => True

instance decidableCovered (s : State Tx User Client Family Jti) : ∀ a, Decidable (Covered s a)
  | .commit t =>
    inferInstanceAs (Decidable (∀ k ∈ s.tokens.keys, ∀ r ∈ s.tokens.committed k,
      r.spent = false → r.familyId ∈ revokedFamilies s t → k ∈ (s.pc t).revoked))
  | .refresh _ _ => .isTrue trivial
  | .login _ _ _ => .isTrue trivial
  | .putRoster _ _ => .isTrue trivial
  | .changePassword _ _ => .isTrue trivial
  | .read _ => .isTrue trivial
  | .detect _ => .isTrue trivial
  | .rotate _ _ _ => .isTrue trivial
  | .insert _ _ => .isTrue trivial
  | .revokeRow _ _ => .isTrue trivial
  | .rollback _ => .isTrue trivial

/-- The family of a refresh that succeeds with this step. -/
def refreshedFamily (s : State Tx User Client Family Jti) :
    Action Tx User Client Family Jti → Option Family
  | .commit t =>
    match s.pc t with
    | .refreshed _ row _ => some row.familyId
    | _ => none
  | _ => none

/-- No token of the family is live and no open transaction will make one. -/
structure Dead (f : Family) (s : State Tx User Client Family Jti) : Prop where
  known : f ∈ s.families
  spent : ∀ k r, s.tokens.committed k = some r → r.familyId = f → r.spent = true
  living : ∀ t, (s.pc t).living ≠ some f

theorem refreshedFamily_living {a : Action Tx User Client Family Jti}
    (h : refreshedFamily s a = some f) : ∃ t, (s.pc t).living = some f := by
  cases a with
  | commit t =>
    simp only [refreshedFamily] at h
    split at h
    · rename_i hpc
      exact ⟨t, by rw [hpc]; exact h⟩
    · cases h
  | _ => cases h

theorem adds_living {p : Pc User Client Family Jti} {k : Jti} (h : p.adds = some (k, f)) :
    p.living = some f := by
  cases p with
  | refreshed c row new =>
    exact congrArg some (Prod.mk.inj (Option.some.inj h)).2
  | issued new =>
    exact congrArg some (Prod.mk.inj (Option.some.inj h)).2
  | _ => cases h

theorem close_living (hl : ∀ t, (s.pc t).living ≠ some f) (t : Tx) (keep : Bool)
    (issued : List (RefreshClaims User Client Family Jti)) (u : Tx) :
    ((s.close t keep issued).pc u).living ≠ some f := by
  by_cases hu : u = t
  · subst u
    rw [show (s.close t keep issued).pc t = .idle from Function.update_self _ _ _]
    simp [Pc.living]
  · rw [show (s.close t keep issued).pc u = s.pc u from Function.update_of_ne hu _ _]
    exact hl u

theorem dead_step (hi : Invariant s) (hd : Dead f s) (h : Moves s t s') : Dead f s' := by
  cases h with
  | statement p h _ _ hf =>
    refine ⟨h.families f hd.known, fun k r hr => ?_, fun u => ?_⟩
    · exact hd.spent k r (h.tokens.committed ▸ hr)
    · rw [h.pc]
      by_cases hu : u = t
      · subst u
        rw [Function.update_self]
        intro hliv
        obtain hliv' | ⟨k, r, hr, hlive, hrf⟩ | hnew := hf f hliv
        · exact hd.living t hliv'
        · rw [hd.spent k r hr hrf] at hlive
          cases hlive
        · exact hnew hd.known
      · rw [Function.update_of_ne hu]
        exact hd.living u
  | commit issued hp =>
    refine ⟨hd.known, fun k r hr hrf => ?_, close_living hd.living t true issued⟩
    obtain ⟨hc, _⟩ | ⟨_, _, _, hsp⟩ | ⟨_, ha⟩ := view_cases (hi.locals t) hp hr
    · exact hd.spent k r hc hrf
    · exact hsp
    · exact absurd (hrf ▸ adds_living ha) (hd.living t)
  | rollback => exact ⟨hd.known, hd.spent, close_living hd.living t false []⟩

/-- An open transaction that may make a live token of a family holds the live
row it starts from, unless it founds the family. -/
theorem living_row (hl : Local s u) (h : (s.pc u).living = some f) :
    (∃ k r, s.tokens.committed k = some r ∧ r.spent = false ∧ r.familyId = f ∧
      s.tokens.owner k = some u) ∨ ∃ new, s.pc u = .issued new ∧ new.family = f := by
  cases hpc : s.pc u with
  | read c row =>
    rw [hpc] at h
    simp only [Pc.living] at h
    split at h
    · cases h
    · rename_i hlive
      obtain ⟨ho, hc⟩ := hl.read c row hpc
      exact Or.inl ⟨c.jti, row, hc, by simpa using hlive, Option.some.inj h, ho⟩
  | rotated c row n =>
    have he := hl.effect c.jti
    simp only [hpc, TokenEffect, if_true] at he
    obtain ⟨hc, hlive, _, _, hp⟩ := he
    rw [hpc] at h
    exact Or.inl ⟨c.jti, row, hc, hlive, Option.some.inj h, s.tokens.owned u c.jti (by simp [hp])⟩
  | refreshed c row new =>
    have he := hl.effect c.jti
    simp only [hpc, TokenEffect, if_true] at he
    obtain ⟨hc, hlive, _, _, hp⟩ := he
    rw [hpc] at h
    exact Or.inl ⟨c.jti, row, hc, hlive, Option.some.inj h, s.tokens.owned u c.jti (by simp [hp])⟩
  | issued new =>
    rw [hpc] at h
    exact Or.inr ⟨new, rfl, Option.some.inj h⟩
  | _ => simp [hpc, Pc.living] at h

theorem revoked_spent (hl : Local s t) {k : Jti} (hk : k ∈ (s.pc t).revoked) :
    ∃ r, s.tokens.view t k = some r ∧ r.spent = true := by
  cases hpc : s.pc t with
  | revoking g seen remaining =>
    cases remaining with
    | nil =>
      rw [hpc] at hk
      obtain ⟨r, hv, _, hrev⟩ := hl.seen g seen [] hpc k hk
      obtain hm | hrev := hrev
      · cases hm
      · exact ⟨r, hv, by simp [Token.spent, hrev]⟩
    | cons j js => simp [hpc, Pc.revoked] at hk
  | _ => simp [hpc, Pc.revoked] at hk

theorem revoked_commits {p : Pc User Client Family Jti} {k : Jti} (hk : k ∈ p.revoked) :
    p.commits = true ∧ p.adds = none := by
  cases p <;> first
    | exact ⟨rfl, rfl⟩
    | cases hk

theorem commit_dead (hi : Invariant s) (hf : f ∈ revokedFamilies s t)
    (hc : Covered s (.commit t)) (issued : List (RefreshClaims User Client Family Jti)) :
    Dead f (s.close t true issued) := by
  obtain ⟨k₀, hk₀, hrow₀⟩ := List.mem_filterMap.mp hf
  obtain ⟨r₀, hr₀, hf₀⟩ := Option.map_eq_some_iff.mp hrow₀
  obtain ⟨hp, hadds⟩ := revoked_commits hk₀
  have hcov : ∀ k r, s.tokens.committed k = some r → r.spent = false → r.familyId = f →
      k ∈ (s.pc t).revoked := fun k r hr hlive hrf =>
    hc k (s.tokens.listed k (by simp [hr])) r hr hlive (hrf ▸ hf)
  refine ⟨hf₀ ▸ hi.family k₀ r₀ hr₀, fun k r hr hrf => ?_, fun u => ?_⟩
  · by_contra hlive
    obtain ⟨hcom, _⟩ | ⟨_, _, _, hsp⟩ | ⟨_, ha⟩ := view_cases (hi.locals t) hp hr
    · obtain ⟨r', hv, hsp⟩ := revoked_spent (hi.locals t) (hcov k r hcom (by simpa using hlive) hrf)
      rw [show s.tokens.view t k = some r from hr] at hv
      cases hv
      exact hlive hsp
    · exact hlive hsp
    · rw [hadds] at ha
      cases ha
  · by_cases hu : u = t
    · subst u
      rw [show (s.close t true issued).pc t = .idle from Function.update_self _ _ _]
      simp [Pc.living]
    · rw [show (s.close t true issued).pc u = s.pc u from Function.update_of_ne hu _ _]
      intro hliv
      obtain ⟨k, r, hr, hlive, hrf, ho⟩ | ⟨new, hpc, hnf⟩ := living_row (hi.locals u) hliv
      · obtain ⟨r', hv, hsp⟩ := revoked_spent (hi.locals t) (hcov k r hr hlive hrf)
        rw [view_of_pending_none (pending_none_of_owner _ ho (Ne.symm hu)), hr] at hv
        cases hv
        rw [hlive] at hsp
        cases hsp
      · exact ((hi.locals u).founding new hpc).2 k₀ r₀ hr₀ (hf₀.trans hnf.symm)

theorem commit_closes (h : step s (.commit t) = some s') :
    ∃ issued, s' = s.close t true issued := by
  simp only [step] at h
  split at h
  · exact ⟨_, (Option.some.inj h).symm⟩
  · exact ⟨_, (Option.some.inj h).symm⟩
  · exact ⟨_, (Option.some.inj h).symm⟩
  · cases h

/-- After a commit that revokes a family, and whose statement saw all live
tokens of the family, no refresh of that family succeeds in any run. In every
run, a family has at most one live token. -/
theorem revocation_final :
    (∀ (as : List (Action Tx User Client Family Jti)) (s : State Tx User Client Family Jti),
      Runs.exec step State.empty as = some s → OneLive s) ∧
    ∀ (pre post : List (Action Tx User Client Family Jti)) (t : Tx) (f : Family)
      (s₁ s₂ : State Tx User Client Family Jti),
      Runs.exec step State.empty pre = some s₁ → f ∈ revokedFamilies s₁ t →
      Covered s₁ (.commit t) → step s₁ (.commit t) = some s₂ →
        Runs.Along step (fun s a _ => refreshedFamily s a ≠ some f) s₂ post := by
  refine ⟨fun as s hs => (Runs.exec_invariant step_invariant empty_invariant hs).oneLive, ?_⟩
  intro pre post t f s₁ s₂ h₁ hf hc h₂
  have hi := Runs.exec_invariant step_invariant empty_invariant h₁
  obtain ⟨issued, rfl⟩ := commit_closes h₂
  refine Runs.along_of_invariant (I := fun s => Invariant s ∧ Dead f s)
    (fun s a s' h _ hs => ⟨step_invariant s a s' h.1 hs, dead_step h.1 h.2 (step_moves h.1 hs)⟩)
    (fun s a s' h _ _ hfam => ?_)
    ⟨step_invariant s₁ (.commit t) _ hi h₂, commit_dead hi hf hc issued⟩ (Runs.along_true _ _)
  obtain ⟨u, hu⟩ := refreshedFamily_living hfam
  exact h.2.living u hu

section Schedules

theorem neZero_two : NeZero 2 := ⟨by decide⟩

attribute [local instance] neZero_two

abbrev Step := Action (Fin 2) Nat Nat Nat Nat

def token (jti : Nat) : RefreshClaims Nat Nat Nat Nat := ⟨0, some 5, 7, jti⟩

def rotation (t : Fin 2) (old new : Nat) : List Step :=
  [.refresh t (token old), .read t, .rotate t new 0, .insert t 100]

def refreshed (t : Fin 2) (old new : Nat) : List Step := rotation t old new ++ [.commit t]

/-- A sign-in, then a rotation of its token, then the old token again. -/
def reuse : List Step :=
  [.login 0 (token 1) 100, .commit 0] ++ refreshed 0 1 2 ++
    [.refresh 1 (token 1), .read 1, .detect 1, .revokeRow 1 2, .revokeRow 1 1]

theorem revocation_final_reuse :
    ∃ s₁ s₂ : State (Fin 2) Nat Nat Nat Nat, Runs.exec step State.empty reuse = some s₁ ∧
      step s₁ (.commit 1) = some s₂ ∧
      Runs.Along step (fun s a _ => refreshedFamily s a ≠ some 7) s₂
        (refreshed 0 2 3) := by
  obtain ⟨s₁, h₁, hf, hc, hs⟩ := Runs.exec_evaluates
    (P := fun s : State (Fin 2) Nat Nat Nat Nat =>
      7 ∈ revokedFamilies s 1 ∧ Covered s (.commit 1) ∧ (step s (.commit 1)).isSome = true)
    (by decide +kernel : (Runs.exec step State.empty reuse).any _ = true)
  obtain ⟨s₂, h₂⟩ := Option.isSome_iff_exists.mp hs
  exact ⟨s₁, s₂, h₁, h₂,
    revocation_final.2 reuse (refreshed 0 2 3) 1 7 s₁ s₂ h₁ hf hc h₂⟩

/-- The current token 2 is rotated while token 1 is presented again: the
revoking statement begins before the rotation commits and never sees token 3. -/
def overtaken : List Step :=
  [.login 0 (token 1) 100, .commit 0] ++ refreshed 0 1 2 ++ rotation 0 2 3 ++
    [.refresh 1 (token 1), .read 1, .detect 1, .commit 0, .revokeRow 1 1, .revokeRow 1 2]

theorem overtaken_not_final :
    ¬ ∀ (pre post : List Step) (t : Fin 2) (f : Nat) (s₁ s₂ : State (Fin 2) Nat Nat Nat Nat),
      Runs.exec step State.empty pre = some s₁ → f ∈ revokedFamilies s₁ t →
      step s₁ (.commit t) = some s₂ →
        Runs.Along step (fun s a _ => refreshedFamily s a ≠ some f) s₂ post := by
  intro hall
  obtain ⟨s₁, h₁, hf, hs⟩ := Runs.exec_evaluates
    (P := fun s : State (Fin 2) Nat Nat Nat Nat => 7 ∈ revokedFamilies s 1 ∧
      (step s (.commit 1)).any (fun s' => decide ¬ Runs.Along step
        (fun s a _ => refreshedFamily s a ≠ some 7) s' (refreshed 0 3 4)) = true)
    (by decide +kernel : (Runs.exec step State.empty overtaken).any _ = true)
  obtain ⟨s₂, h₂, hn⟩ := (Option.any_eq_true _ _).mp hs
  exact of_decide_eq_true hn (hall overtaken (refreshed 0 3 4) 1 7 s₁ s₂ h₁ hf h₂)

end Schedules

end YapStack.Relay.Refresh
