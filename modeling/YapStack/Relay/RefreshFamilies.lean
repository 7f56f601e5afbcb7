import YapStack.Relay.Refresh

set_option linter.unusedSectionVars false

namespace YapStack.Relay.Refresh

open Table

variable {Tx User Client Family Jti : Type*}
variable [DecidableEq Tx] [DecidableEq User] [DecidableEq Client] [DecidableEq Family]
variable [DecidableEq Jti]
variable {s s' : State Tx User Client Family Jti} {t u : Tx} {k : Jti} {f : Family}
variable {c new : RefreshClaims User Client Family Jti}
variable {row r r' : Token User Client Family Jti} {g : Target Client Family}
variable {pend : Option (Option (Token User Client Family Jti))}
variable {com : Option (Token User Client Family Jti)} {seen remaining : List Jti}

/-- What a committed row may become: no row is unrevoked or changes hands. -/
structure Evolves (r r' : Token User Client Family Jti) : Prop where
  clientId : r'.clientId = r.clientId
  familyId : r'.familyId = r.familyId
  revoked : r.revoked = true → r'.revoked = true
  spent : r.spent = true → r'.spent = true

theorem Evolves.refl (r : Token User Client Family Jti) : Evolves r r :=
  ⟨rfl, rfl, id, id⟩

theorem rotate_evolves (r : Token User Client Family Jti) (now : Int) (n : Jti) :
    Evolves r (r.rotate now n) :=
  ⟨rfl, rfl, id, fun _ => by simp [Token.spent, Token.rotate]⟩

theorem revoke_evolves (r : Token User Client Family Jti) : Evolves r r.revoke :=
  ⟨rfl, rfl, fun _ => rfl, fun _ => rfl⟩

theorem Evolves.covers (h : Evolves r r') : g.covers r' = g.covers r := by
  cases g <;> simp only [Target.covers, h.clientId, h.familyId]

theorem revoke_spent (r : Token User Client Family Jti) : r.revoke.spent = true := rfl

theorem rotate_spent (r : Token User Client Family Jti) (now : Int) (n : Jti) :
    (r.rotate now n).spent = true := by
  simp [Token.spent, Token.rotate]

theorem selects_of_covers (h : g.covers r = true) : g.selects r = true ∨ r.revoked = true := by
  cases g with
  | family f => exact Or.inl h
  | devices cs =>
    simp only [Target.selects, h, Bool.true_and]
    cases r.revoked <;> simp
  | othersThan caller =>
    simp only [Target.selects, h, Bool.true_and]
    cases r.revoked <;> simp

def Rotated (row : Token User Client Family Jti)
    (pend : Option (Option (Token User Client Family Jti)))
    (com : Option (Token User Client Family Jti)) : Prop :=
  com = some row ∧ row.spent = false ∧ ∃ now n, pend = some (some (row.rotate now n))

def Inserted (f : Family) (pend : Option (Option (Token User Client Family Jti)))
    (com : Option (Token User Client Family Jti)) : Prop :=
  com = none ∧ ∃ r, r.familyId = f ∧ pend = some (some r)

def Revoked (pend : Option (Option (Token User Client Family Jti)))
    (com : Option (Token User Client Family Jti)) : Prop :=
  ∃ r, com = some r ∧ pend = some (some r.revoke)

/-- What an open transaction has done to one row. -/
def TokenEffect (k : Jti) (pend : Option (Option (Token User Client Family Jti)))
    (com : Option (Token User Client Family Jti)) : Pc User Client Family Jti → Prop
  | .rotated c row _ => if k = c.jti then Rotated row pend com else pend = none
  | .refreshed c row new =>
    if k = c.jti then Rotated row pend com
    else if k = new.jti then Inserted row.familyId pend com else pend = none
  | .issued new => if k = new.jti then Inserted new.family pend com else pend = none
  | .revoking _ _ _ => pend = none ∨ Revoked pend com
  | .failed => True
  | _ => pend = none

/-- What else an open transaction relies on. -/
structure Local (s : State Tx User Client Family Jti) (t : Tx) : Prop where
  effect : ∀ k, TokenEffect k (s.tokens.pending t k) (s.tokens.committed k) (s.pc t)
  read : ∀ c row, s.pc t = .read c row →
    s.tokens.owner c.jti = some t ∧ s.tokens.committed c.jti = some row
  seen : ∀ g seen remaining, s.pc t = .revoking g seen remaining → ∀ k ∈ seen,
    ∃ r, s.tokens.view t k = some r ∧ g.covers r = true ∧ (k ∈ remaining ∨ r.revoked = true)
  founding : ∀ new, s.pc t = .issued new → new.family ∈ s.families ∧
    ∀ k r, s.tokens.committed k = some r → r.familyId ≠ new.family

/-- At most one committed token of a family is neither rotated nor revoked. -/
def OneLive (s : State Tx User Client Family Jti) : Prop :=
  ∀ k k' r r', s.tokens.committed k = some r → s.tokens.committed k' = some r' →
    r.spent = false → r'.spent = false → r.familyId = r'.familyId → k = k'

structure Invariant (s : State Tx User Client Family Jti) : Prop where
  locals : ∀ t, Local s t
  family : ∀ k r, s.tokens.committed k = some r → r.familyId ∈ s.families
  founders : ∀ t u new new', s.pc t = .issued new → s.pc u = .issued new' →
    new.family = new'.family → t = u
  oneLive : OneLive s

theorem tokenEffect_none (p : Pc User Client Family Jti) (com' : Option (Token User Client Family Jti))
    (h : TokenEffect k none com p) : TokenEffect k none com' p := by
  cases p with
  | rotated c row n =>
    simp only [TokenEffect] at h ⊢
    split at h
    · obtain ⟨_, _, _, _, hp⟩ := h
      cases hp
    · rename_i hk
      rw [if_neg hk]
      trivial
  | refreshed c row new =>
    simp only [TokenEffect] at h ⊢
    split at h
    · obtain ⟨_, _, _, _, hp⟩ := h
      cases hp
    · rename_i hk
      rw [if_neg hk]
      split at h
      · obtain ⟨_, _, _, hp⟩ := h
        cases hp
      · rename_i hk'
        rw [if_neg hk']
        trivial
  | issued new =>
    simp only [TokenEffect] at h ⊢
    split at h
    · obtain ⟨_, _, _, hp⟩ := h
      cases hp
    · rename_i hk
      rw [if_neg hk]
      trivial
  | revoking g seen remaining => exact Or.inl rfl
  | failed => trivial
  | _ => rfl

/-- How a transaction's writes relate to the committed row, wherever it stands. -/
theorem effect_evolves {p : Pc User Client Family Jti} (h : TokenEffect k pend com p)
    (hp : p ≠ .failed) (hr : com = some r) :
    pend = none ∨ ∃ r', pend = some (some r') ∧ Evolves r r' := by
  subst hr
  cases p with
  | rotated c row n =>
    simp only [TokenEffect] at h
    split at h
    · obtain ⟨hc, _, now, m, rfl⟩ := h
      cases hc
      exact Or.inr ⟨_, rfl, rotate_evolves r now m⟩
    · exact Or.inl h
  | refreshed c row new =>
    simp only [TokenEffect] at h
    split at h
    · obtain ⟨hc, _, now, m, rfl⟩ := h
      cases hc
      exact Or.inr ⟨_, rfl, rotate_evolves r now m⟩
    · split at h
      · cases h.1
      · exact Or.inl h
  | issued new =>
    simp only [TokenEffect] at h
    split at h
    · cases h.1
    · exact Or.inl h
  | revoking g seen remaining =>
    obtain hn | ⟨_, hc, rfl⟩ := h
    · exact Or.inl hn
    · cases hc
      exact Or.inr ⟨_, rfl, revoke_evolves r⟩
  | failed => exact absurd rfl hp
  | _ => exact Or.inl h

/-- What the steps of `t` leave alone for another transaction `u`. -/
structure Undisturbed (u : Tx) (s s' : State Tx User Client Family Jti) : Prop where
  pc : s'.pc u = s.pc u
  isolated : Isolated u s.tokens s'.tokens
  families : ∀ f ∈ s.families, f ∈ s'.families
  evolves : ∀ k r, s.tokens.committed k = some r →
    ∃ r', s'.tokens.committed k = some r' ∧ Evolves r r'
  newRows : ∀ new, s.pc u = .issued new → ∀ k r, s'.tokens.committed k = some r →
    r.familyId = new.family → ∃ r', s.tokens.committed k = some r' ∧ r'.familyId = r.familyId

theorem Undisturbed.local (h : Undisturbed u s s') (hl : Local s u) : Local s' u := by
  refine ⟨fun k => ?_, fun c row hpc => ?_, fun g seen remaining hpc k hk => ?_, fun new hpc => ?_⟩
  · rw [h.pc, h.isolated.pending]
    have he := hl.effect k
    by_cases hp : s.tokens.pending u k = none
    · rw [hp] at he ⊢
      exact tokenEffect_none _ _ he
    · rw [h.isolated.committed k (Or.inl (s.tokens.owned u k hp))]
      exact he
  · obtain ⟨ho, hc⟩ := hl.read c row (h.pc ▸ hpc)
    exact ⟨h.isolated.owner _ ho, (h.isolated.committed _ (Or.inl ho)).trans hc⟩
  · obtain ⟨r, hv, hcov, hrev⟩ := hl.seen g seen remaining (h.pc ▸ hpc) k hk
    by_cases hp : s.tokens.pending u k = none
    · rw [view_of_pending_none hp] at hv
      obtain ⟨r', hr', hev⟩ := h.evolves k r hv
      have hp' : s'.tokens.pending u k = none := by rw [h.isolated.pending]; exact hp
      exact ⟨r', by rw [view_of_pending_none hp']; exact hr', hev.covers.trans hcov,
        hrev.imp_right hev.revoked⟩
    · have hc := h.isolated.committed k (Or.inl (s.tokens.owned u k hp))
      refine ⟨r, ?_, hcov, hrev⟩
      simpa only [Table.view, h.isolated.pending, hc] using hv
  · obtain ⟨hf, hrows⟩ := hl.founding new (h.pc ▸ hpc)
    refine ⟨h.families _ hf, fun k r hr hrf => ?_⟩
    obtain ⟨r', hr', hff⟩ := h.newRows new (h.pc ▸ hpc) k r hr hrf
    exact hrows k r' hr' (hff.trans hrf)

/-- One statement of `t`, after which it stands at `p`. -/
structure Statement (s : State Tx User Client Family Jti) (t : Tx) (p : Pc User Client Family Jti)
    (s' : State Tx User Client Family Jti) : Prop where
  tokens : Touched t s.tokens s'.tokens
  pc : s'.pc = Function.update s.pc t p
  families : ∀ f ∈ s.families, f ∈ s'.families

variable {p : Pc User Client Family Jti}

theorem goto_statement (s : State Tx User Client Family Jti) (t : Tx)
    (p : Pc User Client Family Jti) : Statement s t p (s.goto t p) :=
  ⟨.none, rfl, fun _ h => h⟩

theorem tokens_statement {tokens : Table Tx Jti (Token User Client Family Jti)}
    (h : Touched t s.tokens tokens) (p : Pc User Client Family Jti) :
    Statement s t p ({ s with tokens := tokens }.goto t p) :=
  ⟨h, rfl, fun _ h => h⟩

theorem Statement.undisturbed (h : Statement s t p s') (hu : u ≠ t) : Undisturbed u s s' := by
  have hc := h.tokens.committed
  refine ⟨by rw [h.pc, Function.update_of_ne hu], h.tokens.isolated hu, h.families, ?_, ?_⟩
  · intro k r hr
    exact ⟨r, hc ▸ hr, Evolves.refl r⟩
  · intro _ _ k r hr _
    exact ⟨r, hc ▸ hr, rfl⟩

theorem statement_invariant (hi : Invariant s) (h : Statement s t p s') (hl : Local s' t)
    (hp : ∀ new, p = .issued new → new.family ∉ s.families) : Invariant s' := by
  have hc := h.tokens.committed
  refine ⟨fun u => ?_, fun k r hr => ?_, fun u v new new' hu hv hff => ?_, ?_⟩
  · by_cases hu : u = t
    · exact hu ▸ hl
    · exact (h.undisturbed hu).local (hi.locals u)
  · exact h.families _ (hi.family k r (hc ▸ hr))
  · rw [h.pc] at hu hv
    by_cases hut : u = t
    · by_cases hvt : v = t
      · exact hut.trans hvt.symm
      · rw [hut, Function.update_self] at hu
        rw [Function.update_of_ne hvt] at hv
        exact absurd (hff ▸ ((hi.locals v).founding new' hv).1) (hp new hu)
    · rw [Function.update_of_ne hut] at hu
      by_cases hvt : v = t
      · rw [hvt, Function.update_self] at hv
        exact absurd (hff ▸ ((hi.locals u).founding new hu).1) (hp new' hv)
      · rw [Function.update_of_ne hvt] at hv
        exact hi.founders u v new new' hu hv hff
  · intro k k' r r' hr hr'
    rw [hc] at hr hr'
    exact hi.oneLive k k' r r' hr hr'

/-- The row that the commit of a transaction adds. -/
def Pc.adds : Pc User Client Family Jti → Option (Jti × Family)
  | .refreshed _ row new => some (new.jti, row.familyId)
  | .issued new => some (new.jti, new.family)
  | _ => none

def Pc.commits : Pc User Client Family Jti → Bool
  | .refreshed _ _ _ => true
  | .issued _ => true
  | .revoking _ _ _ => true
  | _ => false

/-- Every row after a commit is an old one, a spent successor of one, or the added one. -/
theorem view_cases (hl : Local s t) (hp : (s.pc t).commits = true)
    (h : s.tokens.view t k = some r) :
    s.tokens.committed k = some r ∧ s.tokens.pending t k = none ∨
      (∃ r₀, s.tokens.committed k = some r₀ ∧ Evolves r₀ r ∧ r.spent = true) ∨
      (s.tokens.committed k = none ∧ (s.pc t).adds = some (k, r.familyId)) := by
  have he := hl.effect k
  cases hpc : s.pc t with
  | refreshed c row new =>
    simp only [hpc, TokenEffect] at he
    split at he
    · obtain ⟨hc, _, now, n, hpend⟩ := he
      rw [view_of_pending hpend] at h
      cases h
      exact Or.inr (Or.inl ⟨row, hc, rotate_evolves row now n, rotate_spent row now n⟩)
    · split at he
      · rename_i hk
        obtain ⟨hc, r', hf, hpend⟩ := he
        rw [view_of_pending hpend] at h
        cases h
        exact Or.inr (Or.inr ⟨hc, by simp [Pc.adds, hk, hf]⟩)
      · exact Or.inl ⟨view_of_pending_none he ▸ h, he⟩
  | issued new =>
    simp only [hpc, TokenEffect] at he
    split at he
    · rename_i hk
      obtain ⟨hc, r', hf, hpend⟩ := he
      rw [view_of_pending hpend] at h
      cases h
      exact Or.inr (Or.inr ⟨hc, by simp [Pc.adds, hk, hf]⟩)
    · exact Or.inl ⟨view_of_pending_none he ▸ h, he⟩
  | revoking g seen remaining =>
    simp only [hpc, TokenEffect] at he
    obtain hn | ⟨r₀, hc, hpend⟩ := he
    · exact Or.inl ⟨view_of_pending_none hn ▸ h, hn⟩
    · rw [view_of_pending hpend] at h
      cases h
      exact Or.inr (Or.inl ⟨r₀, hc, revoke_evolves r₀, revoke_spent r₀⟩)
  | _ => simp [hpc, Pc.commits] at hp

theorem view_evolves (hl : Local s t) (hp : (s.pc t).commits = true)
    (h : s.tokens.committed k = some r) :
    ∃ r', s.tokens.view t k = some r' ∧ Evolves r r' := by
  have hne : s.pc t ≠ .failed := by
    intro hf
    rw [hf] at hp
    cases hp
  obtain hn | ⟨r', hr', hev⟩ := effect_evolves (hl.effect k) hne h
  · exact ⟨r, view_of_pending_none hn ▸ h, Evolves.refl r⟩
  · exact ⟨r', view_of_pending hr', hev⟩

/-- A committing transaction adds a row to a family of its own, or to the one
whose live token it rotates. -/
theorem adds_family (hi : Invariant s) {f : Family} (ha : (s.pc t).adds = some (k, f)) :
    (∃ new, s.pc t = .issued new ∧ new.family = f) ∨
      ∃ j row, s.tokens.committed j = some row ∧ row.spent = false ∧ row.familyId = f ∧
        s.tokens.pending t j ≠ none := by
  cases hpc : s.pc t with
  | refreshed c row new =>
    simp only [hpc, Pc.adds, Option.some.injEq, Prod.mk.injEq] at ha
    have he := (hi.locals t).effect c.jti
    simp only [hpc, TokenEffect, if_true] at he
    obtain ⟨hc, hlive, now, n, hpend⟩ := he
    exact Or.inr ⟨c.jti, row, hc, hlive, ha.2, by simp [hpend]⟩
  | issued new =>
    simp only [hpc, Pc.adds, Option.some.injEq, Prod.mk.injEq] at ha
    exact Or.inl ⟨new, rfl, ha.2⟩
  | _ => simp [hpc, Pc.adds] at ha

theorem commit_undisturbed (hi : Invariant s) (hp : (s.pc t).commits = true) (hu : u ≠ t)
    (issued : List (RefreshClaims User Client Family Jti)) :
    Undisturbed u s (s.close t true issued) := by
  refine ⟨Function.update_of_ne hu _ _, close_isolated _ true hu, fun _ h => h, ?_, ?_⟩
  · intro k r hr
    exact view_evolves (hi.locals t) hp hr
  · intro new hpc k r hr hf
    obtain ⟨hc, _⟩ | ⟨r₀, hc, hev, _⟩ | ⟨_, ha⟩ := view_cases (hi.locals t) hp hr
    · exact ⟨r, hc, rfl⟩
    · exact ⟨r₀, hc, hev.familyId.symm⟩
    · obtain ⟨new', hpc', hf'⟩ | ⟨j, row, hj, _, hf', _⟩ := adds_family hi ha
      · exact absurd (hi.founders u t new new' hpc hpc' (hf.symm.trans hf'.symm)) hu
      · exact absurd (hf'.trans hf) (((hi.locals u).founding new hpc).2 j row hj)

theorem commit_oneLive (hi : Invariant s) (hp : (s.pc t).commits = true)
    (issued : List (RefreshClaims User Client Family Jti)) : OneLive (s.close t true issued) := by
  have hadd : ∀ k k' r f, s.tokens.committed k = some r → s.tokens.pending t k = none →
      r.spent = false → (s.pc t).adds = some (k', f) → r.familyId ≠ f := by
    intro k k' r f hc hn hlive ha hf
    obtain ⟨new, hpc, hf'⟩ | ⟨j, row, hj, hrow, hf', hpend⟩ := adds_family hi ha
    · exact ((hi.locals t).founding new hpc).2 k r hc (hf.trans hf'.symm)
    · exact hpend (hi.oneLive k j r row hc hj hlive hrow (hf.trans hf'.symm) ▸ hn)
  intro k k' r r' hr hr' hlive hlive' hf
  obtain ⟨hc, hn⟩ | ⟨_, _, _, hsp⟩ | ⟨_, ha⟩ := view_cases (hi.locals t) hp hr
  · obtain ⟨hc', _⟩ | ⟨_, _, _, hsp⟩ | ⟨_, ha'⟩ := view_cases (hi.locals t) hp hr'
    · exact hi.oneLive k k' r r' hc hc' hlive hlive' hf
    · rw [hlive'] at hsp
      cases hsp
    · exact absurd hf (hadd k k' r _ hc hn hlive ha')
  · rw [hlive] at hsp
    cases hsp
  · obtain ⟨hc', hn'⟩ | ⟨_, _, _, hsp⟩ | ⟨_, ha'⟩ := view_cases (hi.locals t) hp hr'
    · exact absurd hf.symm (hadd k' k r' _ hc' hn' hlive' ha)
    · rw [hlive'] at hsp
      cases hsp
    · exact (Prod.mk.inj (Option.some.inj (ha.symm.trans ha'))).1

theorem close_local (s : State Tx User Client Family Jti) (t : Tx) (keep : Bool)
    (issued : List (RefreshClaims User Client Family Jti)) : Local (s.close t keep issued) t := by
  have hpc : (s.close t keep issued).pc t = .idle := Function.update_self _ _ _
  refine ⟨fun k => ?_, fun c row h => ?_, fun g seen remaining h => ?_, fun new h => ?_⟩
  · rw [hpc]
    simp [State.close, close_pending, TokenEffect]
  all_goals
    rw [hpc] at h
    cases h

theorem close_founders (hi : Invariant s) (t : Tx) (keep : Bool)
    (issued : List (RefreshClaims User Client Family Jti)) :
    ∀ u v new new', (s.close t keep issued).pc u = .issued new →
      (s.close t keep issued).pc v = .issued new' → new.family = new'.family → u = v := by
  intro u v new new' hu hv
  have hne : ∀ w n, (s.close t keep issued).pc w = .issued n → s.pc w = .issued n := by
    intro w n hw
    by_cases hwt : w = t
    · rw [hwt, show (s.close t keep issued).pc t = .idle from Function.update_self _ _ _] at hw
      cases hw
    · exact (Function.update_of_ne hwt _ _).symm.trans hw
  exact hi.founders u v new new' (hne u new hu) (hne v new' hv)

theorem commit_invariant (hi : Invariant s) (hp : (s.pc t).commits = true)
    (issued : List (RefreshClaims User Client Family Jti)) :
    Invariant (s.close t true issued) := by
  refine ⟨fun u => ?_, fun k r hr => ?_, close_founders hi t true issued,
    commit_oneLive hi hp issued⟩
  · by_cases hu : u = t
    · exact hu ▸ close_local s t true issued
    · exact (commit_undisturbed hi hp hu issued).local (hi.locals u)
  · obtain ⟨hc, _⟩ | ⟨r₀, hc, hev, _⟩ | ⟨_, ha⟩ := view_cases (hi.locals t) hp hr
    · exact hi.family k r hc
    · rw [hev.familyId]
      exact hi.family k r₀ hc
    · obtain ⟨new, hpc, hf⟩ | ⟨j, row, hj, _, hf, _⟩ := adds_family hi ha
      · exact hf ▸ ((hi.locals t).founding new hpc).1
      · exact hf ▸ hi.family j row hj

theorem rollback_undisturbed (s : State Tx User Client Family Jti) (hu : u ≠ t) :
    Undisturbed u s (s.close t false []) :=
  ⟨Function.update_of_ne hu _ _, close_isolated _ false hu, fun _ h => h,
    fun _ r hr => ⟨r, hr, Evolves.refl r⟩, fun _ _ _ r hr _ => ⟨r, hr, rfl⟩⟩

theorem rollback_invariant (hi : Invariant s) (t : Tx) : Invariant (s.close t false []) := by
  refine ⟨fun u => ?_, hi.family, close_founders hi t false [], hi.oneLive⟩
  by_cases hu : u = t
  · exact hu ▸ close_local s t false []
  · exact (rollback_undisturbed s hu).local (hi.locals u)

end YapStack.Relay.Refresh
