import YapStack.Foundation.Agreement

namespace YapStack.Regex

variable {α : Type} {r : Re α}

def Match.shift (d : ℕ) (m : Match α) : Match α := ⟨m.start + d, m.stop + d, m.groups⟩

theorem matchesFrom_nil (pos k : ℕ) (b : Option α) : matchesFrom r pos b k [] = [] := by
  cases k <;> rfl

theorem matchesFrom_succ (pos k : ℕ) (b : Option α) (c : α) (t : List α) :
    matchesFrom r pos b (k + 1) (c :: t) = matchesFrom r (pos + 1) (some c) k t := rfl

theorem matchesFrom_none (pos : ℕ) (b : Option α) (c : α) (t : List α)
    (h : exec r ⟨b, c :: t⟩ = none) :
    matchesFrom r pos b 0 (c :: t) = matchesFrom r (pos + 1) (some c) 0 t := by
  rw [matchesFrom, h]

theorem matchesFrom_hit (pos : ℕ) (b : Option α) (c : α) (t : List α) {h : Hit α}
    (hh : exec r ⟨b, c :: t⟩ = some h) :
    matchesFrom r pos b 0 (c :: t) =
      ⟨pos, pos + ((c :: t).length - h.place.after.length), h.groups⟩ ::
        matchesFrom r (pos + 1) (some c) ((c :: t).length - h.place.after.length - 1) t := by
  rw [matchesFrom, hh]

theorem matchesFrom_skip (pos k : ℕ) (b : Option α) (x t : List α) (hx : x.length ≤ k) :
    matchesFrom r pos b k (x ++ t) =
      matchesFrom r (pos + x.length) (lastOf b x) (k - x.length) t := by
  induction x generalizing pos k b with
  | nil => rfl
  | cons c x ih =>
    obtain _ | k := k
    · simp at hx
    · rw [List.cons_append, matchesFrom_succ, ih _ _ _ (by simpa using hx), lastOf_cons]
      congr 1
      · rw [List.length_cons]
        omega
      · rw [List.length_cons]
        omega

theorem matchesFrom_some (hc : Consumes r) (pos : ℕ) (b : Option α) (x t : List α) {h : Hit α}
    (hh : exec r ⟨b, x ++ t⟩ = some h) (hx : h.place.after = t) :
    matchesFrom r pos b 0 (x ++ t) =
      ⟨pos, pos + x.length, h.groups⟩ :: matchesFrom r (pos + x.length) (lastOf b x) 0 t := by
  obtain _ | ⟨c, x⟩ := x
  · have := exec_consumes hc hh
    simp [hx] at this
  · have hh' : exec r ⟨b, c :: (x ++ t)⟩ = some h := hh
    have hused : (c :: (x ++ t)).length - h.place.after.length = x.length + 1 := by
      rw [hx, List.length_cons, List.length_append]
      omega
    have hpos : pos + (x.length + 1) = pos + 1 + x.length := by omega
    rw [List.cons_append, matchesFrom_hit _ _ _ _ hh', hused, Nat.add_sub_cancel]
    rw [matchesFrom_skip _ _ _ _ _ (Nat.le_refl _), Nat.sub_self, lastOf_cons, List.length_cons,
      hpos]

/-- Where nothing matches, what is left of a match before makes no difference. -/
theorem matchesFrom_quiet (pos : ℕ) (b : Option α) (q t : List α)
    (h : ∀ x c y, q = x ++ c :: y → exec r ⟨lastOf b x, c :: y ++ t⟩ = none) :
    matchesFrom r pos b q.length (q ++ t) = matchesFrom r pos b 0 (q ++ t) := by
  induction q generalizing pos b with
  | nil => rfl
  | cons c q ih =>
    have hc : exec r ⟨b, c :: (q ++ t)⟩ = none := h [] c q rfl
    rw [List.length_cons, List.cons_append, matchesFrom_succ, matchesFrom_none _ _ _ _ hc]
    apply ih
    intro x d y hq
    have := h (c :: x) d y (by rw [hq, List.cons_append])
    rwa [lastOf_cons] at this

theorem matchesFrom_shift (d pos : ℕ) (b : Option α) (k : ℕ) (t : List α) :
    matchesFrom r (pos + d) b k t = (matchesFrom r pos b k t).map (·.shift d) := by
  induction t generalizing pos b k with
  | nil => simp [matchesFrom_nil]
  | cons c t ih =>
    cases k with
    | succ k =>
      have := ih (pos + 1) (some c) k
      rw [matchesFrom_succ, matchesFrom_succ, ← this]
      congr 1
      omega
    | zero =>
      cases h : exec r ⟨b, c :: t⟩ with
      | none =>
        rw [matchesFrom_none _ _ _ _ h, matchesFrom_none _ _ _ _ h, ← ih]
        congr 1
        omega
      | some x =>
        have hstart : pos + d + 1 = pos + 1 + d := by omega
        have hstop : ∀ n, pos + d + n = pos + n + d := by omega
        simp only [matchesFrom_hit _ _ _ _ h, List.map_cons, hstart, hstop, ih, Match.shift]

theorem matchesFrom_bounds (hc : Consumes r) (pos : ℕ) (b : Option α) (k : ℕ) (t : List α)
    {m : Match α} (hm : m ∈ matchesFrom r pos b k t) :
    pos + k ≤ m.start ∧ m.start < m.stop ∧ m.stop ≤ pos + t.length := by
  induction t generalizing pos b k with
  | nil => simp [matchesFrom_nil] at hm
  | cons c t ih =>
    rw [List.length_cons]
    cases k with
    | succ k =>
      rw [matchesFrom_succ] at hm
      have := ih _ _ _ hm
      omega
    | zero =>
      cases h : exec r ⟨b, c :: t⟩ with
      | none =>
        rw [matchesFrom_none _ _ _ _ h] at hm
        have := ih _ _ _ hm
        omega
      | some x =>
        have hlt : x.place.after.length < (c :: t).length := exec_consumes hc h
        rw [List.length_cons] at hlt
        rw [matchesFrom_hit _ _ _ _ h, List.mem_cons, List.length_cons] at hm
        obtain rfl | hm := hm
        · simp only
          omega
        · have := ih _ _ _ hm
          omega

/-- Where a match starts, the expression matches. -/
theorem matchesFrom_exec (hc : Consumes r) (pos : ℕ) (b : Option α) (k : ℕ) (t : List α)
    {m : Match α} (hm : m ∈ matchesFrom r pos b k t) :
    ∃ before h, exec r ⟨before, t.drop (m.start - pos)⟩ = some h := by
  have hlater : ∀ (c : α) (t : List α) (pos k : ℕ), m ∈ matchesFrom r (pos + 1) (some c) k t →
      t.drop (m.start - (pos + 1)) = (c :: t).drop (m.start - pos) := by
    intro c t pos k hm
    have hbounds := matchesFrom_bounds hc _ _ _ _ hm
    have hsucc : m.start - pos = m.start - (pos + 1) + 1 := by omega
    rw [hsucc, List.drop_succ_cons]
  induction t generalizing pos b k with
  | nil => simp [matchesFrom_nil] at hm
  | cons c t ih =>
    cases k with
    | succ k =>
      rw [matchesFrom_succ] at hm
      rw [← hlater c t pos k hm]
      exact ih _ _ _ hm
    | zero =>
      cases hexec : exec r ⟨b, c :: t⟩ with
      | none =>
        rw [matchesFrom_none _ _ _ _ hexec] at hm
        rw [← hlater c t pos 0 hm]
        exact ih _ _ _ hm
      | some h =>
        rw [matchesFrom_hit _ _ _ _ hexec] at hm
        obtain rfl | hm := List.mem_cons.mp hm
        · refine ⟨b, h, ?_⟩
          rw [Nat.sub_self, List.drop_zero]
          exact hexec
        · rw [← hlater c t pos _ hm]
          exact ih _ _ _ hm

theorem matchesFrom_pairwise (hc : Consumes r) (pos : ℕ) (b : Option α) (k : ℕ) (t : List α) :
    (matchesFrom r pos b k t).Pairwise fun m n => m.stop ≤ n.start := by
  induction t generalizing pos b k with
  | nil => simp [matchesFrom_nil]
  | cons c t ih =>
    cases k with
    | succ k =>
      rw [matchesFrom_succ]
      exact ih _ _ _
    | zero =>
      cases h : exec r ⟨b, c :: t⟩ with
      | none =>
        rw [matchesFrom_none _ _ _ _ h]
        exact ih _ _ _
      | some x =>
        have hlt : x.place.after.length < (c :: t).length := exec_consumes hc h
        rw [List.length_cons] at hlt
        rw [matchesFrom_hit _ _ _ _ h, List.pairwise_cons]
        simp only [List.length_cons]
        refine ⟨fun n hn => ?_, ih _ _ _⟩
        have := (matchesFrom_bounds hc _ _ _ _ hn).1
        omega

/-- The matches of a text, split at a place: those before it, and those after it once the match
under way is over. -/
theorem matchesFrom_append (hc : Consumes r) (pos : ℕ) (b : Option α) (k : ℕ) (x t : List α) :
    ∃ before left, matchesFrom r pos b k (x ++ t) =
        before ++ matchesFrom r (pos + x.length) (lastOf b x) left t ∧
      (∀ m ∈ before, m.start < pos + x.length) ∧
      (left = 0 ∨ (x.length < k ∧ left = k - x.length) ∨
        ∃ m ∈ before, m.stop = pos + x.length + left) := by
  induction x generalizing pos b k with
  | nil => exact ⟨[], k, rfl, by simp, by simp; omega⟩
  | cons c x ih =>
    have hpos : pos + (c :: x).length = pos + 1 + x.length := by
      rw [List.length_cons]
      omega
    rw [hpos, lastOf_cons, List.length_cons, List.cons_append]
    cases k with
    | succ k =>
      obtain ⟨before, left, heq, hstart, hleft⟩ := ih (pos + 1) (some c) k
      refine ⟨before, left, by rw [matchesFrom_succ, heq], hstart, ?_⟩
      obtain h | h | h := hleft
      · exact Or.inl h
      · exact Or.inr (Or.inl (by omega))
      · exact Or.inr (Or.inr h)
    | zero =>
      cases h : exec r ⟨b, c :: (x ++ t)⟩ with
      | none =>
        obtain ⟨before, left, heq, hstart, hleft⟩ := ih (pos + 1) (some c) 0
        refine ⟨before, left, by rw [matchesFrom_none _ _ _ _ h, heq], hstart, ?_⟩
        obtain h | h | h := hleft
        · exact Or.inl h
        · omega
        · exact Or.inr (Or.inr h)
      | some y =>
        have hlt : y.place.after.length < (c :: (x ++ t)).length := exec_consumes hc h
        rw [List.length_cons, List.length_append] at hlt
        obtain ⟨before, left, heq, hstart, hleft⟩ := ih (pos + 1) (some c)
          ((c :: (x ++ t)).length - y.place.after.length - 1)
        rw [List.length_cons, List.length_append] at hleft
        refine ⟨⟨pos, pos + ((c :: (x ++ t)).length - y.place.after.length), y.groups⟩ :: before,
          left, by rw [matchesFrom_hit _ _ _ _ h, heq, List.cons_append], ?_, ?_⟩
        · intro m hm
          obtain rfl | hm := List.mem_cons.mp hm
          · simp only
            omega
          · exact hstart m hm
        · obtain h | h | ⟨m, hm, h⟩ := hleft
          · exact Or.inl h
          · refine Or.inr (Or.inr ⟨_, List.mem_cons_self, ?_⟩)
            simp only [List.length_cons, List.length_append]
            omega
          · exact Or.inr (Or.inr ⟨m, List.mem_cons_of_mem _ hm, h⟩)

/-- When every match that starts in `g` ends in it and is the match without `v`, the matches of
`g` are those with `v` after it. -/
theorem matchesFrom_cut (hc : Consumes r) (pos : ℕ) (b : Option α) (k : ℕ) (g v : List α)
    (hk : k ≤ g.length)
    (hagree : ∀ x c y, g = x ++ c :: y →
      (∀ h, exec r ⟨lastOf b x, c :: y ++ v⟩ = some h → v.length ≤ h.place.after.length) →
      exec r ⟨lastOf b x, c :: y ++ v⟩ = (exec r ⟨lastOf b x, c :: y⟩).map (·.extend v))
    (hin : ∀ m ∈ matchesFrom r pos b k (g ++ v), m.start < pos + g.length →
      m.stop ≤ pos + g.length) :
    matchesFrom r pos b k (g ++ v) =
      matchesFrom r pos b k g ++ matchesFrom r (pos + g.length) (lastOf b g) 0 v := by
  induction g generalizing pos b k with
  | nil =>
    obtain rfl : k = 0 := Nat.le_zero.mp hk
    rfl
  | cons c g ih =>
    have hpos : pos + (c :: g).length = pos + 1 + g.length := by
      rw [List.length_cons]
      omega
    have hrest : ∀ x d y, g = x ++ d :: y →
        (∀ h, exec r ⟨lastOf (some c) x, d :: y ++ v⟩ = some h →
          v.length ≤ h.place.after.length) →
        exec r ⟨lastOf (some c) x, d :: y ++ v⟩ =
          (exec r ⟨lastOf (some c) x, d :: y⟩).map (·.extend v) := by
      intro x d y hg
      have h := hagree (c :: x) d y (by rw [hg, List.cons_append])
      rwa [lastOf_cons] at h
    have hstep : ∀ j, j ≤ g.length →
        (∀ m ∈ matchesFrom r (pos + 1) (some c) j (g ++ v), m.start < pos + (c :: g).length →
          m.stop ≤ pos + (c :: g).length) →
        matchesFrom r (pos + 1) (some c) j (g ++ v) = matchesFrom r (pos + 1) (some c) j g ++
          matchesFrom r (pos + (c :: g).length) (lastOf b (c :: g)) 0 v := by
      intro j hj hjin
      rw [hpos] at hjin ⊢
      rw [lastOf_cons]
      exact ih _ _ _ hj hrest hjin
    cases k with
    | succ k =>
      rw [List.cons_append, matchesFrom_succ] at hin ⊢
      rw [matchesFrom_succ]
      exact hstep k (by simpa using hk) hin
    | zero =>
      cases h : exec r ⟨b, c :: (g ++ v)⟩ with
      | none =>
        have hnone : exec r ⟨b, c :: g⟩ = none := by
          have := hagree [] c g rfl (fun y hy => by
            rw [lastOf_nil, List.cons_append, h] at hy
            cases hy)
          rw [lastOf_nil, List.cons_append, h] at this
          exact Option.map_eq_none_iff.mp this.symm
        rw [List.cons_append, matchesFrom_none _ _ _ _ h] at hin ⊢
        rw [matchesFrom_none _ _ _ _ hnone]
        exact hstep 0 (Nat.zero_le _) hin
      | some y =>
        have hlt : y.place.after.length < (c :: (g ++ v)).length := exec_consumes hc h
        rw [List.cons_append, matchesFrom_hit _ _ _ _ h] at hin
        have hstop := hin _ List.mem_cons_self (by simp)
        simp only [List.length_cons, List.length_append] at hstop hlt
        have hcut := hagree [] c g rfl (fun z hz => by
          rw [lastOf_nil, List.cons_append, h] at hz
          obtain rfl := Option.some.inj hz
          omega)
        rw [lastOf_nil, List.cons_append, h] at hcut
        obtain ⟨z, hz, rfl⟩ := Option.map_eq_some_iff.mp hcut.symm
        have hused : (c :: (g ++ v)).length - (z.extend v).place.after.length =
            (c :: g).length - z.place.after.length := by
          simp only [Hit.extend, Place.extend, List.length_cons, List.length_append]
          omega
        have hlen : z.place.after.length < (c :: g).length := exec_consumes hc hz
        rw [List.length_cons] at hlen
        rw [hused] at hin
        rw [List.cons_append, matchesFrom_hit _ _ _ _ h, matchesFrom_hit _ _ _ _ hz, hused]
        rw [hstep _ _ fun m hm => hin m (List.mem_cons_of_mem _ hm)]
        · rfl
        · rw [List.length_cons]
          omega

/-- A stretch `g` of a text between a place where no match is under way, unless nothing more
matches while it is, and a place that no match reaches over. -/
theorem matchAll_gap (hc : Consumes r) (x g v : List α)
    (hleft : ∀ m ∈ matchAll r (x ++ (g ++ v)), m.start < x.length → x.length < m.stop →
      m.stop ≤ x.length + g.length ∧ ∀ y c z, g = y ++ c :: z → x.length + y.length < m.stop →
        exec r ⟨lastOf (lastOf none x) y, c :: z ++ v⟩ = none)
    (hin : ∀ m ∈ matchAll r (x ++ (g ++ v)), x.length ≤ m.start →
      m.start < x.length + g.length → m.stop ≤ x.length + g.length)
    (hagree : ∀ y c z, g = y ++ c :: z →
      (∀ h, exec r ⟨lastOf (lastOf none x) y, c :: z ++ v⟩ = some h →
        v.length ≤ h.place.after.length) →
      exec r ⟨lastOf (lastOf none x) y, c :: z ++ v⟩ =
        (exec r ⟨lastOf (lastOf none x) y, c :: z⟩).map (·.extend v))
    (hfirst : exec r ⟨lastOf none x, g⟩ = exec r ⟨none, g⟩) :
    ∃ before after, matchAll r (x ++ (g ++ v)) =
        before ++ ((matchAll r g).map (·.shift x.length) ++ after) ∧
      (∀ m ∈ before, m.start < x.length) ∧ ∀ m ∈ after, x.length + g.length ≤ m.start := by
  obtain ⟨before, left, heq, hstart, hover⟩ := matchesFrom_append hc 0 none 0 x (g ++ v)
  simp only [Nat.zero_add] at heq hstart hover
  have hquiet : matchesFrom r x.length (lastOf none x) left (g ++ v) =
      matchesFrom r x.length (lastOf none x) 0 (g ++ v) := by
    obtain rfl | hover | ⟨m, hm, hstop⟩ := hover
    · rfl
    · omega
    · obtain rfl | hpos := Nat.eq_zero_or_pos left
      · rfl
      obtain ⟨hle, hnone⟩ := hleft m (by rw [matchAll, heq]; exact List.mem_append_left _ hm)
        (hstart m hm) (by omega)
      have hsplit : g.take left ++ (g.drop left ++ v) = g ++ v := by
        rw [← List.append_assoc, List.take_append_drop]
      have hlen : (g.take left).length = left := by
        rw [List.length_take]
        omega
      have h := matchesFrom_quiet (r := r) x.length (lastOf none x) (g.take left)
        (g.drop left ++ v) (fun y c z hy => by
          have hg : g = y ++ c :: (z ++ g.drop left) := by
            conv_lhs => rw [← List.take_append_drop left g, hy, List.append_assoc]
            rfl
          have hlt : y.length < left := by
            rw [← hlen, hy, List.length_append, List.length_cons]
            omega
          have := hnone y c _ hg (by omega)
          rwa [List.cons_append, List.append_assoc] at this)
      rwa [hsplit, hlen] at h
  have hwhole : matchAll r (x ++ (g ++ v)) =
      before ++ matchesFrom r x.length (lastOf none x) 0 (g ++ v) := by
    rw [matchAll, heq, hquiet]
  have hcut := matchesFrom_cut hc x.length (lastOf none x) 0 g v (Nat.zero_le _) hagree
    (fun m hm => hin m (by rw [hwhole]; exact List.mem_append_right _ hm)
      (matchesFrom_bounds hc _ _ _ _ hm).1)
  have hown : matchesFrom r x.length (lastOf none x) 0 g =
      (matchAll r g).map (·.shift x.length) := by
    have hshift := matchesFrom_shift (r := r) x.length 0 none 0 g
    rw [Nat.zero_add] at hshift
    rw [matchAll, ← hshift]
    cases g with
    | nil => rfl
    | cons c g =>
      cases h : exec r ⟨none, c :: g⟩ with
      | none =>
        rw [h] at hfirst
        rw [matchesFrom_none _ _ _ _ h, matchesFrom_none _ _ _ _ hfirst]
      | some y =>
        rw [h] at hfirst
        rw [matchesFrom_hit _ _ _ _ h, matchesFrom_hit _ _ _ _ hfirst]
  refine ⟨before, _, by rw [hwhole, hcut, hown], hstart, fun m hm => ?_⟩
  exact (matchesFrom_bounds hc _ _ _ _ hm).1

end YapStack.Regex
