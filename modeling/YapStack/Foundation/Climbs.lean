import Mathlib.Data.List.Nodup
import Mathlib.Data.List.Perm.Subperm
import Mathlib.Data.Nat.Notation

namespace YapStack.Climbs

section Climbs

variable {α : Type*} {up : α → Option α} {x a b : α} {as bs nodes : List α} {n m : ℕ}

/-- The element `n` parent links above. -/
def climb (up : α → Option α) : ℕ → α → Option α
  | 0, x => some x
  | n + 1, x => (up x).bind (climb up n)

def Below (up : α → Option α) (x a : α) : Prop := ∃ n, climb up (n + 1) x = some a

def Acyclic (up : α → Option α) : Prop := ∀ x, ¬Below up x x

/-- Climbing from `x` meets exactly `as` and then ends. -/
inductive Above (up : α → Option α) : α → List α → Prop
  | top {x : α} : up x = none → Above up x []
  | link {x a : α} {as : List α} : up x = some a → Above up a as → Above up x (a :: as)

theorem climb_add (x : α) : climb up (n + m) x = (climb up n x).bind (climb up m) := by
  induction n generalizing x with
  | zero => simp [climb]
  | succ n ih =>
    rw [Nat.succ_add]
    cases h : up x with
    | none => simp [climb, h]
    | some a => simpa [climb, h] using ih a

theorem climb_succ_of_up (h : up x = some a) : climb up (n + 1) x = climb up n a := by
  simp [climb, h]

theorem below_of_up (h : up x = some a) : Below up x a := ⟨0, by simp [climb, h]⟩

theorem below_iff (h : up x = some a) : Below up x b ↔ b = a ∨ Below up a b := by
  constructor
  · rintro ⟨n, hn⟩
    rw [climb_succ_of_up h] at hn
    cases n with
    | zero => exact Or.inl (Option.some.inj hn).symm
    | succ n => exact Or.inr ⟨n, hn⟩
  · rintro (rfl | ⟨n, hn⟩)
    · exact below_of_up h
    · exact ⟨n + 1, by rw [climb_succ_of_up h]; exact hn⟩

theorem Below.trans (h : Below up x a) (h' : Below up a b) : Below up x b := by
  obtain ⟨n, hn⟩ := h
  obtain ⟨m, hm⟩ := h'
  refine ⟨n + 1 + m, ?_⟩
  rw [Nat.add_assoc, climb_add, hn]
  exact hm

theorem Below.exists_up (h : Below up x a) : ∃ b, up b = some a := by
  obtain ⟨n, hn⟩ := h
  rw [climb_add, Option.bind_eq_some_iff] at hn
  obtain ⟨b, _, hb⟩ := hn
  exact ⟨b, by simpa [climb] using hb⟩

theorem not_below_top (h : up x = none) : ¬Below up x a := by
  rintro ⟨n, hn⟩
  simp [climb, h] at hn

/-- Every element that a cycle leads to lies on it. -/
theorem below_self_climb (hx : Below up x x) (ha : climb up n x = some a) : Below up a a := by
  induction n generalizing x with
  | zero => exact (Option.some.inj ha) ▸ hx
  | succ n ih =>
    cases hu : up x with
    | none => exact absurd hx (not_below_top hu)
    | some b =>
      rw [climb_succ_of_up hu] at ha
      refine ih ?_ ha
      obtain rfl | hb := (below_iff hu).mp hx
      · exact below_of_up hu
      · exact hb.trans (below_of_up hu)

theorem Above.unique (h : Above up x as) (h' : Above up x bs) : as = bs := by
  induction h generalizing bs with
  | top hu =>
    cases h' with
    | top _ => rfl
    | link hu' _ => simp [hu] at hu'
  | link hu _ ih =>
    cases h' with
    | top hu' => simp [hu] at hu'
    | link hu' ha =>
      obtain rfl := Option.some.inj (hu.symm.trans hu')
      rw [ih ha]

theorem Above.mem_iff (h : Above up x as) : a ∈ as ↔ Below up x a := by
  induction h with
  | top hu => simp [not_below_top hu]
  | link hu _ ih => rw [below_iff hu, List.mem_cons, ih]

theorem Above.of_below (h : Above up x as) (ha : Below up x a) :
    ∃ bs, Above up a bs ∧ bs.length < as.length := by
  induction h with
  | top hu => exact absurd ha (not_below_top hu)
  | @link x b as hu hb ih =>
    obtain rfl | ha := (below_iff hu).mp ha
    · exact ⟨as, hb, Nat.lt_succ_self _⟩
    · obtain ⟨bs, hbs, hlt⟩ := ih ha
      exact ⟨bs, hbs, Nat.lt_succ_of_lt hlt⟩

/-- Where climbing ends there is no cycle, neither here nor above. -/
theorem Above.not_below (h : Above up x as) : ¬Below up x x := by
  intro hx
  obtain ⟨bs, hbs, hlt⟩ := h.of_below hx
  rw [h.unique hbs] at hlt
  exact Nat.lt_irrefl _ hlt

theorem Above.nodup (h : Above up x as) : (x :: as).Nodup := by
  induction h with
  | top _ => simp
  | link hu ha ih =>
    rw [List.nodup_cons]
    refine ⟨fun hx => ?_, ih⟩
    have habove := Above.link hu ha
    exact habove.not_below (habove.mem_iff.mp hx)

theorem exists_above_of_climb (h : climb up n x = none) : ∃ as, Above up x as := by
  induction n generalizing x with
  | zero => simp [climb] at h
  | succ n ih =>
    cases hu : up x with
    | none => exact ⟨[], .top hu⟩
    | some a =>
      rw [climb_succ_of_up hu] at h
      obtain ⟨as, has⟩ := ih h
      exact ⟨a :: as, .link hu has⟩

/-- The first `n` elements met, `x` first. -/
def path (up : α → Option α) : ℕ → α → List α
  | 0, _ => []
  | n + 1, x => x :: ((up x).map (path up n)).getD []

theorem mem_path (h : b ∈ path up n x) : ∃ m, climb up m x = some b := by
  induction n generalizing x with
  | zero => simp [path] at h
  | succ n ih =>
    rw [path, List.mem_cons] at h
    obtain rfl | h := h
    · exact ⟨0, rfl⟩
    · cases hu : up x with
      | none => simp [hu] at h
      | some a =>
        obtain ⟨m, hm⟩ := ih (x := a) (by simpa [hu] using h)
        exact ⟨m + 1, by rw [climb_succ_of_up hu]; exact hm⟩

theorem path_nodup (h : climb up n x = some a) (ha : ¬Below up a a) : (path up n x).Nodup := by
  induction n generalizing x with
  | zero => simp [path]
  | succ n ih =>
    cases hu : up x with
    | none => simp [climb, hu] at h
    | some b =>
      simp only [path, hu, Option.map_some, Option.getD_some, List.nodup_cons]
      refine ⟨fun hx => ?_, ih (by rw [← climb_succ_of_up hu]; exact h)⟩
      obtain ⟨m, hm⟩ := mem_path hx
      have hcycle : Below up x x := ⟨m, by rw [climb_succ_of_up hu]; exact hm⟩
      exact ha (below_self_climb hcycle h)

theorem path_spec (hup : ∀ x a, up x = some a → x ∈ nodes) (h : climb up n x = some a) :
    (path up n x).length = n ∧ path up n x ⊆ nodes := by
  induction n generalizing x with
  | zero => simp [path]
  | succ n ih =>
    cases hu : up x with
    | none => simp [climb, hu] at h
    | some b =>
      obtain ⟨hlen, hsub⟩ := ih (x := b) (by rw [← climb_succ_of_up hu]; exact h)
      simp only [path, hu, Option.map_some, Option.getD_some, List.length_cons, hlen]
      exact ⟨trivial, List.cons_subset.mpr ⟨hup x b hu, hsub⟩⟩

/-- Among finitely many elements, no climb to an element off every cycle is long. -/
theorem climb_le (hup : ∀ x a, up x = some a → x ∈ nodes) (h : climb up n x = some a)
    (ha : ¬Below up a a) : n ≤ nodes.length := by
  obtain ⟨hlen, hsub⟩ := path_spec hup h
  have hle := (List.subperm_of_subset (path_nodup h ha) hsub).length_le
  rwa [hlen] at hle

theorem exists_above (hup : ∀ x a, up x = some a → x ∈ nodes)
    (h : ∀ a n, climb up n x = some a → ¬Below up a a) : ∃ as, Above up x as := by
  refine exists_above_of_climb (n := nodes.length + 1) ?_
  cases hc : climb up (nodes.length + 1) x with
  | none => rfl
  | some a =>
    have hle := climb_le hup hc (h a _ hc)
    omega

theorem acyclic_iff (hup : ∀ x a, up x = some a → x ∈ nodes) :
    Acyclic up ↔ ∀ x, ∃ as, Above up x as := by
  constructor
  · intro h x
    exact exists_above hup (fun a _ _ => h a)
  · intro h x
    obtain ⟨as, has⟩ := h x
    exact has.not_below

/-- The elements `n + 1` links below, by repeatedly taking the children of a row. -/
def level (kids : α → List α) : ℕ → α → List α
  | 0, a => kids a
  | n + 1, a => (level kids n a).flatMap kids

variable {kids : α → List α}

theorem mem_level (hkids : ∀ a x, x ∈ kids a ↔ up x = some a) (x : α) :
    x ∈ level kids n a ↔ climb up (n + 1) x = some a := by
  induction n generalizing x with
  | zero => simp [level, hkids, climb]
  | succ n ih =>
    simp only [level, List.mem_flatMap, hkids, ih]
    constructor
    · rintro ⟨b, hb, hx⟩
      rw [climb_succ_of_up hx]
      exact hb
    · intro h
      cases hu : up x with
      | none => simp [climb, hu] at h
      | some b =>
        rw [climb_succ_of_up hu] at h
        exact ⟨b, h, rfl⟩

theorem level_nodup (hkids : ∀ a x, x ∈ kids a ↔ up x = some a)
    (hnodup : ∀ a, (kids a).Nodup) : (level kids n a).Nodup := by
  induction n with
  | zero => exact hnodup a
  | succ n ih =>
    rw [level, List.nodup_flatMap]
    refine ⟨fun b _ => hnodup b, ih.imp (fun {b c} hne => ?_)⟩
    intro x hb hc
    rw [hkids] at hb hc
    exact hne (Option.some.inj (hb.symm.trans hc))

/-- The rows below `a`, the first `n` of them, one after the other. -/
def rows (kids : α → List α) (n : ℕ) (a : α) : List α :=
  (List.range n).flatMap (fun k => level kids k a)

theorem rows_succ : rows kids (n + 1) a = rows kids n a ++ level kids n a := by
  simp [rows, List.range_succ]

theorem rows_nodup (hkids : ∀ a x, x ∈ kids a ↔ up x = some a)
    (hnodup : ∀ a, (kids a).Nodup) (ha : ¬Below up a a) : (rows kids n a).Nodup := by
  rw [rows, List.nodup_flatMap]
  refine ⟨fun k _ => level_nodup hkids hnodup, ?_⟩
  refine (List.pairwise_lt_range (n := n)).imp (fun {i j} hij => ?_)
  intro x hi hj
  rw [mem_level hkids] at hi hj
  obtain ⟨d, rfl⟩ : ∃ d, j = i + 1 + d := ⟨j - i - 1, by omega⟩
  rw [show i + 1 + d + 1 = i + 1 + (d + 1) by omega, climb_add, hi] at hj
  exact ha ⟨d, hj⟩

theorem level_eq_nil (hup : ∀ x a, up x = some a → x ∈ nodes)
    (hkids : ∀ a x, x ∈ kids a ↔ up x = some a) (ha : ¬Below up a a) :
    level kids nodes.length a = [] := by
  rw [List.eq_nil_iff_forall_not_mem]
  intro x hx
  have hle := climb_le hup ((mem_level hkids x).mp hx) ha
  omega

theorem mem_rows (hup : ∀ x a, up x = some a → x ∈ nodes)
    (hkids : ∀ a x, x ∈ kids a ↔ up x = some a) (ha : ¬Below up a a) :
    x ∈ rows kids nodes.length a ↔ Below up x a := by
  simp only [rows, List.mem_flatMap, List.mem_range, mem_level hkids]
  constructor
  · rintro ⟨n, _, hn⟩
    exact ⟨n, hn⟩
  · rintro ⟨n, hn⟩
    exact ⟨n, climb_le hup hn ha, hn⟩

end Climbs

section Grafts

variable {α : Type*} {up up' : α → Option α} {x a b f p : α}

def AtOrBelow (up : α → Option α) (x a : α) : Prop := x = a ∨ Below up x a

theorem AtOrBelow.trans (h : AtOrBelow up x a) (h' : AtOrBelow up a b) : AtOrBelow up x b := by
  obtain rfl | h := h
  · exact h'
  · obtain rfl | h' := h'
    · exact Or.inr h
    · exact Or.inr (h.trans h')

theorem below_of_up_atOrBelow (h : up x = some a) (ha : AtOrBelow up a b) : Below up x b := by
  rw [below_iff h]
  exact ha.imp_left Eq.symm

/-- Fewer links, fewer elements above. -/
theorem Below.mono (hup : ∀ x a, up' x = some a → up x = some a) (h : Below up' x a) :
    Below up x a := by
  obtain ⟨n, hn⟩ := h
  induction n generalizing x with
  | zero =>
    cases hx : up' x with
    | none => simp [climb, hx] at hn
    | some b =>
      obtain rfl : b = a := by simpa [climb, hx] using hn
      exact below_of_up (hup x b hx)
  | succ n ih =>
    cases hx : up' x with
    | none => simp [climb, hx] at hn
    | some b =>
      rw [climb_succ_of_up hx] at hn
      exact below_of_up_atOrBelow (hup x b hx) (Or.inr (ih hn))

theorem Acyclic.mono (hup : ∀ x a, up' x = some a → up x = some a) (h : Acyclic up) :
    Acyclic up' := fun x hx => h x (hx.mono hup)

/-- The element `f`, with all that is below it, now hangs on `p`. -/
structure Grafted (up up' : α → Option α) (f p : α) : Prop where
  moved : up' f = some p
  others : ∀ x, x ≠ f → up' x = up x

/-- What is above `x` was above it before, or came with the new place of `f`. -/
theorem Grafted.below (h : Grafted up up' f p) (hp : ¬AtOrBelow up p f) (hx : Below up' x a) :
    Below up x a ∨ AtOrBelow up x f ∧ AtOrBelow up p a := by
  obtain ⟨n, hn⟩ := hx
  induction n generalizing x with
  | zero =>
    have hup : up' x = some a := by simpa [climb] using hn
    by_cases hxf : x = f
    · subst hxf
      obtain rfl : p = a := Option.some.inj (h.moved.symm.trans hup)
      exact Or.inr ⟨Or.inl rfl, Or.inl rfl⟩
    · rw [h.others x hxf] at hup
      exact Or.inl (below_of_up hup)
  | succ n ih =>
    by_cases hxf : x = f
    · subst hxf
      rw [climb_succ_of_up h.moved] at hn
      obtain hpa | ⟨hpx, _⟩ := ih hn
      · exact Or.inr ⟨Or.inl rfl, Or.inr hpa⟩
      · exact absurd hpx hp
    · cases hup : up' x with
      | none => simp [climb, hup] at hn
      | some b =>
        rw [climb_succ_of_up hup] at hn
        rw [h.others x hxf] at hup
        obtain hba | ⟨hbf, hpa⟩ := ih hn
        · exact Or.inl (below_of_up_atOrBelow hup (Or.inr hba))
        · exact Or.inr ⟨Or.inr (below_of_up_atOrBelow hup hbf), hpa⟩

theorem Grafted.acyclic (h : Grafted up up' f p) (hp : ¬AtOrBelow up p f) (hacyc : Acyclic up) :
    Acyclic up' := by
  intro x hx
  obtain hx | ⟨hxf, hpx⟩ := h.below hp hx
  · exact hacyc x hx
  · exact hp (hpx.trans hxf)

/-- Climbing from below `f` meets `f` only at its end. -/
theorem Grafted.climb_to (h : Grafted up up' f p) (hacyc : Acyclic up) (hx : AtOrBelow up x f) :
    AtOrBelow up' x f := by
  obtain rfl | ⟨n, hn⟩ := hx
  · exact Or.inl rfl
  · induction n generalizing x with
    | zero =>
      have hup : up x = some f := by simpa [climb] using hn
      have hxf : x ≠ f := by
        rintro rfl
        exact hacyc x (below_of_up hup)
      rw [← h.others x hxf] at hup
      exact Or.inr (below_of_up hup)
    | succ n ih =>
      have hxf : x ≠ f := by
        rintro rfl
        exact hacyc x ⟨n + 1, hn⟩
      cases hup : up x with
      | none => simp [climb, hup] at hn
      | some b =>
        rw [climb_succ_of_up hup] at hn
        rw [← h.others x hxf] at hup
        exact Or.inr (below_of_up_atOrBelow hup (ih hn))

/-- Climbing from an element that is not below `f` is as before. -/
theorem Grafted.climb_beside (h : Grafted up up' f p) (hxf : ¬AtOrBelow up x f)
    (hx : Below up x a) : Below up' x a := by
  obtain ⟨n, hn⟩ := hx
  induction n generalizing x with
  | zero =>
    have hup : up x = some a := by simpa [climb] using hn
    rw [← h.others x (fun heq => hxf (Or.inl heq))] at hup
    exact below_of_up hup
  | succ n ih =>
    cases hup : up x with
    | none => simp [climb, hup] at hn
    | some b =>
      rw [climb_succ_of_up hup] at hn
      have hbf : ¬AtOrBelow up b f := fun hb => hxf (Or.inr (below_of_up_atOrBelow hup hb))
      rw [← h.others x (fun heq => hxf (Or.inl heq))] at hup
      exact below_of_up_atOrBelow hup (Or.inr (ih hbf hn))

theorem Grafted.below_new (h : Grafted up up' f p) (hacyc : Acyclic up)
    (hp : ¬AtOrBelow up p f) (hx : AtOrBelow up x f) (ha : AtOrBelow up p a) :
    Below up' x a := by
  have hpa : AtOrBelow up' p a := ha.imp_right (h.climb_beside hp)
  have hfa : Below up' f a := below_of_up_atOrBelow h.moved hpa
  obtain rfl | hxf := h.climb_to hacyc hx
  · exact hfa
  · exact hxf.trans hfa

end Grafts

end YapStack.Climbs
