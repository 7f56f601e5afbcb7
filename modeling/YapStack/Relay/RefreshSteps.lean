import YapStack.Relay.RefreshFamilies

set_option linter.unusedSectionVars false

namespace YapStack.Relay.Refresh

open Table

variable {Tx User Client Family Jti : Type*}
variable [DecidableEq Tx] [DecidableEq User] [DecidableEq Client] [DecidableEq Family]
variable [DecidableEq Jti]
variable {s s' : State Tx User Client Family Jti} {t u : Tx} {k : Jti} {f : Family}
variable {c new : RefreshClaims User Client Family Jti} {p : Pc User Client Family Jti}
variable {row r : Token User Client Family Jti} {g : Target Client Family}
variable {seen remaining : List Jti} {expiresAt : Int}

/-- The family in which an open transaction may still bring a live token about. -/
def Pc.living : Pc User Client Family Jti → Option Family
  | .read _ row => if row.spent then none else some row.familyId
  | .rotated _ row _ => some row.familyId
  | .refreshed _ row _ => some row.familyId
  | .issued new => some new.family
  | _ => none

/-- A transaction comes to a family by an unspent row of it, or founds it. -/
def Reached (s : State Tx User Client Family Jti) (t : Tx) (f : Family) : Prop :=
  (s.pc t).living = some f ∨
    (∃ k r, s.tokens.committed k = some r ∧ r.spent = false ∧ r.familyId = f) ∨ f ∉ s.families

/-- What a step of `t` can do. -/
inductive Moves (s : State Tx User Client Family Jti) (t : Tx) :
    State Tx User Client Family Jti → Prop where
  | statement {s' : State Tx User Client Family Jti} (p : Pc User Client Family Jti)
      (h : Statement s t p s') (hl : Local s' t)
      (hp : ∀ new, p = .issued new → new.family ∉ s.families)
      (hf : ∀ f, p.living = some f → Reached s t f) : Moves s t s'
  | commit (issued : List (RefreshClaims User Client Family Jti))
      (hp : (s.pc t).commits = true) : Moves s t (s.close t true issued)
  | rollback : Moves s t (s.close t false [])

/-- At a place where nothing is written, nothing else has to be kept either. -/
theorem goto_local (hn : ∀ k, s.tokens.pending t k = none)
    (he : ∀ k com, TokenEffect k none com p) (hr : ∀ c row, p ≠ .read c row)
    (hv : ∀ g seen remaining, p = .revoking g seen remaining → ∀ k ∈ seen,
      ∃ r, s.tokens.view t k = some r ∧ g.covers r = true ∧ (k ∈ remaining ∨ r.revoked = true))
    (hi : ∀ new, p ≠ .issued new) : Local (s.goto t p) t := by
  have hpc : (s.goto t p).pc t = p := Function.update_self _ _ _
  refine ⟨fun k => ?_, fun c row h => ?_, fun g seen remaining h => ?_, fun new h => ?_⟩
  · rw [hpc]
    simpa [State.goto, hn k] using he k _
  · exact absurd (hpc.symm.trans h) (hr c row)
  · exact hv g seen remaining (hpc.symm.trans h)
  · exact absurd (hpc.symm.trans h) (hi new)

theorem refresh_moves (hl : Local s t) (hpc : s.pc t = .idle) :
    Moves s t (s.goto t (.presented c)) := by
  have hn : ∀ k, s.tokens.pending t k = none := by
    simpa only [hpc, TokenEffect] using hl.effect
  refine .statement _ (goto_statement s t _) ?_ (fun _ h => by cases h) (fun _ h => by cases h)
  exact goto_local hn (fun _ _ => rfl) (fun _ _ h => by cases h) (fun _ _ _ h => by cases h)
    (fun _ h => by cases h)

theorem beginRevoke_moves (hn : ∀ k, s.tokens.pending t k = none) :
    Moves s t (beginRevoke s t g) := by
  refine .statement _ (goto_statement s t _) ?_ (fun _ h => by cases h) (fun _ h => by cases h)
  refine goto_local hn (fun _ _ => Or.inl rfl) (fun _ _ h => by cases h) ?_ (fun _ h => by cases h)
  intro g' seen remaining h k hk
  simp only [Pc.revoking.injEq] at h
  obtain ⟨rfl, rfl, rfl⟩ := h
  obtain ⟨hkey, hany⟩ := List.mem_filter.mp hk
  obtain ⟨r, hv, hcov⟩ := (Option.any_eq_true _ _).mp hany
  refine ⟨r, hv, hcov, ?_⟩
  obtain hsel | hrev := selects_of_covers hcov
  · exact Or.inl (List.mem_filter.mpr ⟨hkey, by simp [hv, hsel]⟩)
  · exact Or.inr hrev

theorem readToken_moves (hl : Local s t) (hpc : s.pc t = .presented c)
    (h : readToken s t c = some s') : Moves s t s' := by
  have hn : ∀ k, s.tokens.pending t k = none := by
    simpa only [hpc, TokenEffect] using hl.effect
  unfold readToken at h
  split at h
  · cases h
    refine .statement _ (goto_statement s t _) ?_ (fun _ h => by cases h) (fun _ h => by cases h)
    exact goto_local hn (fun _ _ => trivial) (fun _ _ h => by cases h)
      (fun _ _ _ h => by cases h) (fun _ h => by cases h)
  · rename_i r hv
    rw [view_of_pending_none (hn c.jti)] at hv
    obtain ⟨tokens, hlock, rfl⟩ := Option.map_eq_some_iff.mp h
    refine .statement _ (tokens_statement (.lock _ hlock) _) ⟨fun k => ?_, ?_, ?_, ?_⟩
      (fun _ h => by cases h) (fun f hf => ?_)
    · simp only [State.goto, Function.update_self, TokenEffect, lock_pending hlock]
      exact hn k
    · intro c' row' h'
      simp only [State.goto, Function.update_self, Pc.read.injEq] at h'
      obtain ⟨rfl, rfl⟩ := h'
      exact ⟨by simp [State.goto, lock_owner hlock], by simp [State.goto, lock_committed hlock, hv]⟩
    · intro g seen remaining h'
      simp [State.goto] at h'
    · intro new h'
      simp [State.goto] at h'
    · simp only [Pc.living] at hf
      split at hf
      · cases hf
      · rename_i hlive
        exact Or.inr (Or.inl ⟨c.jti, r, hv, by simpa using hlive, Option.some.inj hf⟩)

theorem rotateToken_moves {n : Jti} {now : Int} (hl : Local s t) (hpc : s.pc t = .read c row)
    (hlive : row.spent = false) (h : rotateToken s t c row n now = some s') : Moves s t s' := by
  have hn : ∀ k, s.tokens.pending t k = none := by
    simpa only [hpc, TokenEffect] using hl.effect
  obtain ⟨_, hc⟩ := hl.read c row hpc
  obtain ⟨tokens, hm, rfl⟩ := Option.map_eq_some_iff.mp h
  have hw : s.tokens.write t c.jti (some (row.rotate now n)) = some tokens := by
    simpa [Table.modify, view_of_pending_none (hn c.jti), hc] using hm
  refine .statement _ (tokens_statement (.row _ _ hw) _) ⟨fun k => ?_, ?_, ?_, ?_⟩
    (fun _ h => by cases h) (fun f hf => ?_)
  · simp only [State.goto, Function.update_self, TokenEffect]
    split
    · rename_i hk
      subst k
      exact ⟨by rw [write_committed hw, hc], hlive, now, n, write_pending_self hw⟩
    · rename_i hk
      rw [write_pending_of_ne hw hk]
      exact hn k
  · intro c' row' h'
    simp [State.goto] at h'
  · intro g seen remaining h'
    simp [State.goto] at h'
  · intro new h'
    simp [State.goto] at h'
  · exact Or.inl (by simpa [hpc, Pc.living, hlive] using hf)

theorem failed_moves {tokens : Table Tx Jti (Token User Client Family Jti)}
    {families : List Family} (ht : Touched t s.tokens tokens) (hf : ∀ f ∈ s.families, f ∈ families) :
    Moves s t ({ s with tokens := tokens, families := families }.goto t .failed) := by
  refine .statement .failed ⟨ht, rfl, hf⟩ ⟨fun k => ?_, ?_, ?_, ?_⟩ (fun _ h => by cases h)
    (fun f hf => by cases hf)
  · simp [State.goto, TokenEffect]
  · intro c' row' h'
    simp [State.goto] at h'
  · intro g seen remaining h'
    simp [State.goto] at h'
  · intro new h'
    simp [State.goto] at h'

theorem insertToken_moves {n : Jti} (hl : Local s t) (hpc : s.pc t = .rotated c row n)
    (h : insertToken s t (successor c row n) expiresAt
      (.refreshed c row (successor c row n)) = some s') : Moves s t s' := by
  have he := hl.effect
  simp only [hpc, TokenEffect] at he
  obtain ⟨⟨tokens, new⟩, hi, rfl⟩ := Option.map_eq_some_iff.mp h
  obtain ⟨rfl, rfl, _⟩ | ⟨rfl, hv, hw⟩ := insertIgnore_cases hi
  · exact failed_moves .none (fun _ hf => hf)
  have hne : (successor c row n).jti ≠ c.jti := by
    intro heq
    have hk := he c.jti
    rw [if_pos rfl] at hk
    obtain ⟨_, _, now, m, hp⟩ := hk
    rw [heq, view_of_pending hp] at hv
    cases hv
  have hp := he (successor c row n).jti
  rw [if_neg hne] at hp
  rw [view_of_pending_none hp] at hv
  refine .statement _ (tokens_statement (.row _ _ hw) _) ⟨fun k => ?_, ?_, ?_, ?_⟩
    (fun _ h => by cases h) (fun f hf => ?_)
  · have hk := he k
    simp only [State.goto, Function.update_self, if_true, TokenEffect, write_committed hw]
    by_cases hkc : k = c.jti
    · subst k
      rw [write_pending_of_ne hw (Ne.symm hne), if_pos rfl]
      rwa [if_pos rfl] at hk
    · rw [if_neg hkc] at hk ⊢
      split
      · rename_i hkn
        subst k
        exact ⟨hv, issuedToken (successor c row n) expiresAt, rfl, write_pending_self hw⟩
      · rename_i hkn
        rw [write_pending_of_ne hw hkn]
        exact hk
  · intro c' row' h'
    simp [State.goto] at h'
  · intro g seen remaining h'
    simp [State.goto] at h'
  · intro new h'
    simp [State.goto] at h'
  · exact Or.inl (by simpa [hpc, Pc.living] using hf)

theorem issuePair_moves (hi : Invariant s) (hpc : s.pc t = .idle)
    (h : issuePair s t new expiresAt = some s') : Moves s t s' := by
  have hn : ∀ k, s.tokens.pending t k = none := by
    simpa only [hpc, TokenEffect] using (hi.locals t).effect
  unfold issuePair at h
  split at h
  · cases h
  rename_i hfresh
  obtain ⟨⟨tokens, b⟩, hins, rfl⟩ := Option.map_eq_some_iff.mp h
  obtain ⟨rfl, rfl, _⟩ | ⟨rfl, hv, hw⟩ := insertIgnore_cases hins
  · exact failed_moves .none (fun _ hf => List.mem_cons_of_mem _ hf)
  rw [view_of_pending_none (hn new.jti)] at hv
  refine .statement (.issued new) ⟨.row _ _ hw, rfl, fun _ hf => List.mem_cons_of_mem _ hf⟩
    ⟨fun k => ?_, ?_, ?_, ?_⟩ (fun n hp => ?_) (fun f hf => ?_)
  · simp only [State.goto, Function.update_self, if_true, TokenEffect, write_committed hw]
    split
    · rename_i hk
      subst k
      exact ⟨hv, _, rfl, write_pending_self hw⟩
    · rename_i hk
      rw [write_pending_of_ne hw hk]
      exact hn k
  · intro c' row' h'
    simp [State.goto] at h'
  · intro g seen remaining h'
    simp [State.goto] at h'
  · intro n h'
    simp only [State.goto, Function.update_self, if_true, Pc.issued.injEq] at h'
    subst n
    refine ⟨List.mem_cons_self, fun k r hr hf => hfresh ?_⟩
    exact hf ▸ hi.family k r (write_committed hw ▸ hr)
  · cases hp
    exact hfresh
  · exact Or.inr (Or.inr (Option.some.inj hf ▸ hfresh))

theorem revokeRow_moves (hl : Local s t) (hpc : s.pc t = .revoking g seen remaining)
    (h : revokeRow s t g seen remaining k = some s') : Moves s t s' := by
  have he : ∀ j, s.tokens.pending t j = none ∨
      Revoked (s.tokens.pending t j) (s.tokens.committed j) := by
    simpa only [hpc, TokenEffect] using hl.effect
  have hseen := hl.seen g seen remaining hpc
  unfold revokeRow at h
  split at h
  · obtain ⟨tokens, hm, rfl⟩ := Option.map_eq_some_iff.mp h
    refine .statement _ (tokens_statement (modify_touched hm) _) ⟨fun j => ?_, ?_, ?_, ?_⟩
      (fun _ h => by cases h) (fun f hf => by cases hf)
    · simp only [State.goto, Function.update_self, TokenEffect]
      rw [(modify_touched hm).committed]
      by_cases hj : j = k
      · subst j
        obtain rfl | ⟨r, hv, _, hw⟩ := modify_cases hm
        · exact he k
        · obtain hn | ⟨r₀, hc, hp⟩ := he k
          · rw [view_of_pending_none hn] at hv
            exact Or.inr ⟨r, hv, write_pending_self hw⟩
          · rw [view_of_pending hp] at hv
            cases hv
            exact Or.inr ⟨r₀, hc, write_pending_self hw⟩
      · rw [modify_pending_of_ne hm hj]
        exact he j
    · intro c' row' h'
      simp [State.goto] at h'
    · intro g' seen' remaining' h' j hj
      simp only [State.goto, Function.update_self, Pc.revoking.injEq] at h'
      obtain ⟨rfl, rfl, rfl⟩ := h'
      obtain ⟨r, hv, hcov, hrev⟩ := hseen j hj
      simp only [State.goto]
      by_cases hjk : j = k
      · subst j
        rw [modify_view_self hm hv]
        obtain hsel | hrev' := selects_of_covers hcov
        · exact ⟨r.revoke, by rw [if_pos hsel], (revoke_evolves r).covers.trans hcov, Or.inr rfl⟩
        · split
          · exact ⟨r.revoke, rfl, (revoke_evolves r).covers.trans hcov, Or.inr rfl⟩
          · exact ⟨r, rfl, hcov, Or.inr hrev'⟩
      · rw [modify_view_of_ne hm hjk]
        exact ⟨r, hv, hcov, hrev.imp_left (fun hm => (List.mem_erase_of_ne hjk).mpr hm)⟩
    · intro new h'
      simp [State.goto] at h'
  · cases h

def Action.tx : Action Tx User Client Family Jti → Tx
  | .refresh t _ => t
  | .login t _ _ => t
  | .putRoster t _ => t
  | .changePassword t _ => t
  | .read t => t
  | .detect t => t
  | .rotate t _ _ => t
  | .insert t _ => t
  | .revokeRow t _ => t
  | .commit t => t
  | .rollback t => t

theorem step_moves {a : Action Tx User Client Family Jti} (hi : Invariant s)
    (h : step s a = some s') : Moves s a.tx s' := by
  have hidle : ∀ t, s.pc t = .idle → ∀ k, s.tokens.pending t k = none := by
    intro t hpc
    simpa only [hpc, TokenEffect] using (hi.locals t).effect
  have hread : ∀ t c row, s.pc t = .read c row → ∀ k, s.tokens.pending t k = none := by
    intro t c row hpc
    simpa only [hpc, TokenEffect] using (hi.locals t).effect
  cases a with
  | refresh t c =>
    simp only [step] at h
    split at h
    · rename_i hpc
      obtain ⟨_, rfl⟩ := by simpa using h
      exact refresh_moves (hi.locals t) hpc
    · cases h
  | login t new expiresAt =>
    simp only [step] at h
    split at h
    · rename_i hpc
      exact issuePair_moves hi hpc h
    · cases h
  | putRoster t revokedDevices =>
    simp only [step] at h
    split at h
    · rename_i hpc
      cases h
      exact beginRevoke_moves (hidle t hpc)
    · cases h
  | changePassword t caller =>
    simp only [step] at h
    split at h
    · rename_i hpc
      cases h
      exact beginRevoke_moves (hidle t hpc)
    · cases h
  | read t =>
    simp only [step] at h
    split at h
    · rename_i c hpc
      exact readToken_moves (hi.locals t) hpc h
    · cases h
  | detect t =>
    simp only [step] at h
    split at h
    · rename_i c row hpc
      obtain ⟨_, rfl⟩ := by simpa using h
      exact beginRevoke_moves (hread t c row hpc)
    · cases h
  | rotate t new now =>
    simp only [step] at h
    split at h
    · rename_i c row hpc
      split at h
      · cases h
      · rename_i hlive
        exact rotateToken_moves (hi.locals t) hpc (by simpa using hlive) h
    · cases h
  | insert t expiresAt =>
    simp only [step] at h
    split at h
    · rename_i c row new hpc
      exact insertToken_moves (hi.locals t) hpc h
    · cases h
  | revokeRow t k =>
    simp only [step] at h
    split at h
    · rename_i g seen remaining hpc
      exact revokeRow_moves (hi.locals t) hpc h
    · cases h
  | commit t =>
    simp only [step] at h
    split at h
    · rename_i hpc
      cases h
      exact .commit _ (by simp only [Action.tx, hpc, Pc.commits])
    · rename_i hpc
      cases h
      exact .commit _ (by simp only [Action.tx, hpc, Pc.commits])
    · rename_i hpc
      cases h
      exact .commit _ (by simp only [Action.tx, hpc, Pc.commits])
    · cases h
  | rollback t =>
    simp only [step] at h
    split at h
    · cases h
    · cases h
      exact .rollback

theorem moves_invariant (hi : Invariant s) (h : Moves s t s') : Invariant s' := by
  cases h with
  | statement p h hl hp _ => exact statement_invariant hi h hl hp
  | commit issued hp => exact commit_invariant hi hp issued
  | rollback => exact rollback_invariant hi t

theorem step_invariant (s : State Tx User Client Family Jti) (a : Action Tx User Client Family Jti)
    (s' : State Tx User Client Family Jti) (hi : Invariant s) (h : step s a = some s') :
    Invariant s' :=
  moves_invariant hi (step_moves hi h)

theorem empty_invariant : Invariant (State.empty : State Tx User Client Family Jti) := by
  refine ⟨fun t => ⟨fun k => rfl, ?_, ?_, ?_⟩, ?_, ?_, ?_⟩
  · intro c row h
    cases h
  · intro g seen remaining h
    cases h
  · intro new h
    cases h
  · intro k r h
    cases h
  · intro t u new new' h
    cases h
  · intro k k' r r' h
    cases h

end YapStack.Relay.Refresh
