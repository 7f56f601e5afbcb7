import YapStack.Foundation.Regex

namespace YapStack.Regex

variable {α : Type}

def Place.extend (s : Place α) (v : List α) : Place α := ⟨s.before, s.after ++ v⟩

def Hit.extend (h : Hit α) (v : List α) : Hit α := ⟨h.place.extend v, h.groups⟩

/-- The match leaves at least `k` units unread. -/
def Hit.leaves (k : ℕ) (h : Hit α) : Bool := decide (k ≤ h.place.after.length)

def Hit.following (gs : List (ℕ × List α)) (h : Hit α) : Hit α := ⟨h.place, gs ++ h.groups⟩

def Place.last (s : Place α) : Option α := lastOf s.before s.after

theorem run_seq_following (a b : Re α) (s : Place α) :
    run (.seq a b) s = (run a s).flatMap fun h => (run b h.place).map (·.following h.groups) :=
  rfl

theorem run_last (re : Re α) (s : Place α) {h : Hit α} (hh : h ∈ run re s) :
    h.place.last = s.last := by
  obtain ⟨used, hm, -⟩ := run_moves re s hh
  exact hm.last

/-- At a place an expression has the same matches with `v` after the text as without, in the same
order, as far as they leave `k` units. -/
def Agrees (v : List α) (k : ℕ) (re : Re α) (s : Place α) : Prop :=
  (run re (s.extend v)).filter (·.leaves k) = ((run re s).map (·.extend v)).filter (·.leaves k)

section Agrees

variable {v : List α} {k : ℕ} {s : Place α}

theorem flatMap_filter {β γ : Type} (l : List β) (f : β → List γ) (p : β → Bool)
    (h : ∀ b ∈ l, p b = false → f b = []) : (l.filter p).flatMap f = l.flatMap f := by
  induction l with
  | nil => rfl
  | cons b rest ih =>
    have ih := ih (fun c hc => h c (List.mem_cons_of_mem b hc))
    cases hb : p b with
    | true => rw [List.filter_cons_of_pos hb, List.flatMap_cons, List.flatMap_cons, ih]
    | false =>
      rw [List.filter_cons_of_neg (by simp [hb]), List.flatMap_cons, ih,
        h b List.mem_cons_self hb, List.nil_append]

theorem filter_map_leaves {f : Hit α → Hit α} (hf : ∀ h, (f h).place = h.place)
    (hits : List (Hit α)) :
    (hits.map f).filter (·.leaves k) = (hits.filter (·.leaves k)).map f := by
  rw [List.filter_map]
  congr 1
  apply List.filter_congr
  intro h _
  simp [Hit.leaves, hf h]

theorem filter_short (hits : List (Hit α)) (h : ∀ x ∈ hits, x.place.after.length < k) :
    hits.filter (·.leaves k) = [] := by
  rw [List.filter_eq_nil_iff]
  intro x hx
  have := h x hx
  simp only [Hit.leaves, decide_eq_true_eq]
  omega

theorem Agrees.seq {a b : Re α} (ha : Agrees v k a s)
    (hb : ∀ h ∈ run a s, Agrees v k b h.place) : Agrees v k (.seq a b) s := by
  have hshort : ∀ h : Hit α, h.leaves k = false →
      ((run b h.place).map (·.following h.groups)).filter (·.leaves k) = [] := by
    intro h hh
    apply filter_short
    intro x hx
    obtain ⟨y, hy, rfl⟩ := List.mem_map.mp hx
    have hlen := run_length b h.place (h := y) hy
    have hlt : h.place.after.length < k := by simpa [Hit.leaves] using hh
    exact Nat.lt_of_le_of_lt hlen hlt
  have hstep : ∀ hits : List (Hit α),
      (hits.flatMap fun h => (run b h.place).map (·.following h.groups)).filter (·.leaves k) =
        (hits.filter (·.leaves k)).flatMap fun h =>
          ((run b h.place).map (·.following h.groups)).filter (·.leaves k) := by
    intro hits
    rw [List.filter_flatMap, flatMap_filter _ _ _ (fun h _ => hshort h)]
  have ha : (run a (s.extend v)).filter (·.leaves k) = _ := ha
  rw [Agrees, run_seq_following, run_seq_following, hstep, ha, flatMap_filter _ _ _ (fun h _ => hshort h),
    List.map_flatMap, List.filter_flatMap, List.flatMap_map]
  apply List.flatMap_congr
  intro h hh
  have hbh : (run b (h.place.extend v)).filter (·.leaves k) = _ := hb h hh
  have hswap : ((run b h.place).map (·.following h.groups)).map (·.extend v) =
      ((run b h.place).map (·.extend v)).map (·.following h.groups) := by
    rw [List.map_map, List.map_map]
    rfl
  rw [hswap, filter_map_leaves (f := Hit.following h.groups) (fun _ => rfl), ← hbh]
  exact filter_map_leaves (f := Hit.following h.groups) (fun _ => rfl) _

theorem Agrees.alt {a b : Re α} (ha : Agrees v k a s) (hb : Agrees v k b s) :
    Agrees v k (.alt a b) s := by
  rw [Agrees] at ha hb ⊢
  rw [run_alt, run_alt, List.filter_append, List.map_append, List.filter_append, ha, hb]

theorem agrees_empty : Agrees v k .empty s := rfl

theorem agrees_unit (hk : v.length ≤ k) (p : α → Bool) : Agrees v k (.unit p) s := by
  obtain ⟨b, after⟩ := s
  cases after with
  | nil =>
    have hnone : run (.unit p) (⟨b, []⟩ : Place α) = [] := rfl
    rw [Agrees, hnone, List.map_nil, List.filter_nil]
    apply filter_short
    intro x hx
    have := consumes_unit p _ x hx
    simp only [Place.extend, List.nil_append] at this
    omega
  | cons c rest =>
    by_cases hp : p c = true
    · simp [Agrees, run_unit_cons, hp, Place.extend, Hit.extend]
    · simp [Agrees, run_unit_cons, hp, Place.extend]

theorem repeats_extend (hk : v.length ≤ k) (greedy : Bool) (p : α → Bool) (text : List α) (lo : ℕ) (hi : Option ℕ)
    (b : Option α) :
    ((repeats greedy p (text ++ v) lo hi b).filter fun t => decide (k ≤ t.after.length)) =
      ((repeats greedy p text lo hi b).map (·.extend v)).filter
        fun t => decide (k ≤ t.after.length) := by
  induction text generalizing lo hi b with
  | nil =>
    cases v with
    | nil => simp [repeats_nil, Place.extend]
    | cons c rest =>
      have hmore : ∀ lo hi, ((repeats greedy p rest lo hi (some c)).filter
          fun t => decide (k ≤ t.after.length)) = [] := by
        intro lo hi
        rw [List.filter_eq_nil_iff]
        intro t ht
        obtain ⟨used, hm, -⟩ := repeats_moves greedy p rest lo hi (some c) ht
        have hlen : t.after.length ≤ rest.length := hm.length_le
        rw [List.length_cons] at hk
        simp only [decide_eq_true_eq]
        omega
      have hnone : ((if p c && hi != some 0 then
          repeats greedy p rest (lo - 1) (hi.map (· - 1)) (some c) else []).filter
            fun t => decide (k ≤ t.after.length)) = [] := by
        split
        · exact hmore _ _
        · rfl
      have hstop : (if lo = 0 then [(⟨b, []⟩ : Place α)] else []).map (·.extend (c :: rest)) =
          if lo = 0 then [⟨b, c :: rest⟩] else [] := by
        split <;> rfl
      cases greedy with
      | true =>
        simp only [List.nil_append, repeats_nil, repeats_cons, if_true, List.filter_append, hnone, hstop]
      | false =>
        simp only [List.nil_append, repeats_nil, repeats_cons, Bool.false_eq_true, if_false, List.filter_append,
          hnone, List.append_nil, hstop]
  | cons c rest ih =>
    have hstop : (if lo = 0 then [(⟨b, c :: rest⟩ : Place α)] else []).map (·.extend v) =
        if lo = 0 then [⟨b, c :: (rest ++ v)⟩] else [] := by
      split <;> rfl
    have hmore : ((if p c && hi != some 0 then
          repeats greedy p (rest ++ v) (lo - 1) (hi.map (· - 1)) (some c) else []).filter
            fun t => decide (k ≤ t.after.length)) =
        ((if p c && hi != some 0 then
          repeats greedy p rest (lo - 1) (hi.map (· - 1)) (some c) else []).map
            (·.extend v)).filter fun t => decide (k ≤ t.after.length) := by
      split
      · exact ih _ _ _
      · rfl
    cases greedy with
    | true =>
      simp only [List.cons_append, repeats_cons, if_true, List.filter_append, List.map_append, hmore,
        hstop]
    | false =>
      simp only [List.cons_append, repeats_cons, Bool.false_eq_true, if_false, List.filter_append,
        List.map_append, hmore, hstop]

theorem agrees_many (hk : v.length ≤ k) (greedy : Bool) (lo : ℕ) (hi : Option ℕ) (p : α → Bool) :
    Agrees v k (.many greedy lo hi p) s := by
  have h := congrArg (List.map (fun t => (⟨t, []⟩ : Hit α)))
    (repeats_extend hk greedy p s.after lo hi s.before)
  simp only [Agrees, run_many, List.filter_map, List.map_map, Place.extend] at h ⊢
  exact h

theorem Agrees.group {a : Re α} (ha : Agrees v k a s) (n : ℕ) : Agrees v k (.group n a) s := by
  let mark (text : List α) (h : Hit α) : Hit α :=
    ⟨h.place, (n, text.take (text.length - h.place.after.length)) :: h.groups⟩
  have hrun : ∀ t : Place α, run (.group n a) t = (run a t).map (mark t.after) := fun _ => rfl
  have hmark : ((run a s).map (·.extend v)).map (mark (s.after ++ v)) =
      ((run a s).map (mark s.after)).map (·.extend v) := by
    rw [List.map_map, List.map_map]
    apply List.map_congr_left
    intro h hh
    have hlen := run_length a s hh
    have htake : (s.after ++ v).take ((s.after ++ v).length - (h.place.after ++ v).length) =
        s.after.take (s.after.length - h.place.after.length) := by
      rw [List.length_append, List.length_append, Nat.add_sub_add_right,
        List.take_append_of_le_length (Nat.sub_le _ _)]
    simp [mark, Hit.extend, Place.extend] at htake ⊢
    exact htake
  have hplace : ∀ h, (mark (s.after ++ v) h).place = h.place := fun _ => rfl
  have hext : run (.group n a) (s.extend v) = (run a (s.extend v)).map (mark (s.after ++ v)) := rfl
  rw [Agrees] at ha ⊢
  rw [hext, hrun, filter_map_leaves hplace, ha, ← filter_map_leaves hplace, hmark]

theorem agrees_look {test : Option α → Option α → Bool}
    (h : s.after = [] → v.length < k ∨ test s.before v.head? = test s.before none) :
    Agrees v k (.look test) s := by
  obtain ⟨b, after⟩ := s
  cases after with
  | cons c rest =>
    have hhead : (c :: rest ++ v).head? = (c :: rest).head? := rfl
    simp only [Agrees, run_look, Place.extend, hhead]
    split <;> rfl
  | nil =>
    obtain h | h := h rfl
    · have hnone : ∀ t : Place α, t.after.length ≤ v.length →
          (run (.look test) t).filter (·.leaves k) = [] := by
        intro t ht
        apply filter_short
        intro x hx
        have := run_length (.look test) t hx
        omega
      rw [Agrees, hnone _ (by simp [Place.extend])]
      symm
      apply filter_short
      intro x hx
      obtain ⟨y, hy, rfl⟩ := List.mem_map.mp hx
      have := run_length (.look test) _ hy
      simp only [List.length_nil, Nat.le_zero] at this
      simp only [Hit.extend, Place.extend, List.length_append, this]
      omega
    · have hrun : ∀ t : List α, test b t.head? = test b none →
          run (.look test) (⟨b, t⟩ : Place α) = if test b none then [⟨⟨b, t⟩, []⟩] else [] := by
        intro t ht
        simp only [run_look, ht]
      have hext : (⟨b, []⟩ : Place α).extend v = ⟨b, v⟩ := rfl
      rw [Agrees, hext, hrun v h, hrun [] rfl]
      split <;> rfl

/-- Where the text ends, a test does not matter if something is read after it. -/
theorem Agrees.look_seq (hk : v.length ≤ k) {b : Re α} (hb : Agrees v k b s) (hc : Consumes b)
    (test : Option α → Option α → Bool) : Agrees v k (.seq (.look test) b) s := by
  cases hafter : s.after with
  | cons c rest =>
    refine (agrees_look fun hnil => ?_).seq fun h hh => ?_
    · simp [hafter] at hnil
    · rw [run_look] at hh
      split at hh
      · rw [List.mem_singleton] at hh
        rw [hh]
        exact hb
      · simp at hh
  | nil =>
    have hc' : Consumes (.seq (.look test) b) := hc.seq_right _
    have hnone : run (.seq (.look test) b) s = [] := by
      apply List.eq_nil_iff_forall_not_mem.mpr
      intro x hx
      have := hc' _ x hx
      simp [hafter] at this
    rw [Agrees, hnone, List.map_nil, List.filter_nil]
    apply filter_short
    intro x hx
    have := hc' _ x hx
    simp only [Place.extend, hafter, List.nil_append] at this
    omega

/-- The tests of an expression. -/
def Re.looks : Re α → List (Option α → Option α → Bool)
  | .empty | .unit _ | .many .. => []
  | .seq a b | .alt a b => a.looks ++ b.looks
  | .group _ a => a.looks
  | .look test => [test]

theorem agrees_of_looks (hk : v.length ≤ k) {re : Re α}
    (h : ∀ test ∈ re.looks, v.length < k ∨ ∀ b, test b v.head? = test b none) :
    Agrees v k re s := by
  induction re generalizing s with
  | empty => exact agrees_empty
  | unit p => exact agrees_unit hk p
  | many greedy lo hi p => exact agrees_many hk greedy lo hi p
  | seq a b iha ihb =>
    exact (iha fun t ht => h t (List.mem_append_left _ ht)).seq
      fun _ _ => ihb fun t ht => h t (List.mem_append_right _ ht)
  | alt a b iha ihb =>
    exact (iha fun t ht => h t (List.mem_append_left _ ht)).alt
      (ihb fun t ht => h t (List.mem_append_right _ ht))
  | group n a ih => exact (ih h).group n
  | look test => exact agrees_look fun _ =>
    (h test (List.mem_singleton_self test)).imp id fun h => h s.before

theorem head?_filter_of_head {β : Type} (p : β → Bool) (l : List β)
    (h : ∀ b, l.head? = some b → p b = true) : (l.filter p).head? = l.head? := by
  cases l with
  | nil => rfl
  | cons b rest => rw [List.filter_cons_of_pos (h b rfl)]; rfl

/-- A match that ends before `v` is the match without `v`. -/
theorem Agrees.exec {re : Re α} (h : Agrees v v.length re s)
    (hin : ∀ x, exec re (s.extend v) = some x → v.length ≤ x.place.after.length) :
    exec re (s.extend v) = (exec re s).map (·.extend v) := by
  have hall : ((run re s).map (·.extend v)).filter (·.leaves v.length) =
      (run re s).map (·.extend v) := by
    rw [List.filter_eq_self]
    intro x hx
    obtain ⟨y, -, rfl⟩ := List.mem_map.mp hx
    simp [Hit.leaves, Hit.extend, Place.extend]
  have hlist : (run re (s.extend v)).filter (·.leaves v.length) = _ := h
  rw [hall] at hlist
  have hhead := head?_filter_of_head (·.leaves v.length) (run re (s.extend v))
    (fun x hx => by simpa [Hit.leaves] using hin x hx)
  rw [Regex.exec, Regex.exec, ← hhead, hlist, List.head?_map]

end Agrees

end YapStack.Regex
