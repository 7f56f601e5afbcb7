import Mathlib.Data.Set.Insert

namespace YapStack.Cascade

variable {N : Type*} {rs : List (N → N → Prop)} {r : N → N → Prop} {D : Set N} {n p : N}

/-- The least set that contains `D` and whatever refers to a member by one of the rules. -/
inductive Closure (rs : List (N → N → Prop)) (D : Set N) : N → Prop
  | base {n : N} (h : n ∈ D) : Closure rs D n
  | refers {n p : N} {r : N → N → Prop} (hr : r ∈ rs) (h : r n p) (hp : Closure rs D p) :
    Closure rs D n

/-- One rule, applied once. -/
def sweep (r : N → N → Prop) (D : Set N) : Set N := D ∪ {n | ∃ p ∈ D, r n p}

/-- The rules, each applied once in their order. -/
def pass (rs : List (N → N → Prop)) (D : Set N) : Set N := rs.foldl (fun D r => sweep r D) D

/-- A rule adds nothing that it or an earlier rule reads. -/
structure Ordered (rs : List (N → N → Prop)) : Prop where
  apart : rs.Pairwise (fun r q => ∀ n p m, r n p → ¬q p m)
  single : ∀ r ∈ rs, ∀ n p m, r n p → ¬r p m

theorem mem_sweep : n ∈ sweep r D ↔ n ∈ D ∨ ∃ p ∈ D, r n p := Iff.rfl

theorem Closure.least {E : Set N} (hbase : D ⊆ E)
    (hclosed : ∀ r ∈ rs, ∀ n p, r n p → p ∈ E → n ∈ E) (h : Closure rs D n) : n ∈ E := by
  induction h with
  | base h => exact hbase h
  | refers hr h _ ih => exact hclosed _ hr _ _ h ih

/-- What no rule adds was there from the start. -/
theorem Closure.mem_base (h : Closure rs D p) (hnone : ∀ q ∈ rs, ∀ m, ¬q p m) : p ∈ D := by
  cases h with
  | base h => exact h
  | refers hr h _ => exact absurd h (hnone _ hr _)

theorem closure_sweep (h : Ordered (r :: rs)) :
    Closure rs (sweep r D) n ↔ Closure (r :: rs) D n := by
  constructor
  · intro hn
    apply hn.least (E := {n | Closure (r :: rs) D n})
    · rintro m (hm | ⟨p, hp, hrm⟩)
      · exact .base hm
      · exact .refers List.mem_cons_self hrm (.base hp)
    · exact fun q hq m p hqm hp => .refers (List.mem_cons_of_mem _ hq) hqm hp
  · intro hn
    induction hn with
    | base h => exact .base (Or.inl h)
    | refers hq hqm _ ih =>
      obtain rfl | hq := List.mem_cons.mp hq
      · -- the parent of the first rule is no child of any rule, so it was dead before the pass
        have hlater := ih.mem_base (fun q hq m =>
          (List.pairwise_cons.mp h.apart).1 q hq _ _ m hqm)
        obtain hp | ⟨m, _, hown⟩ := hlater
        · exact .base (Or.inr ⟨_, hp, hqm⟩)
        · exact absurd hown (h.single _ List.mem_cons_self _ _ m hqm)
      · exact .refers hq hqm ih

/-- One pass over ordered rules reaches the closure. -/
theorem pass_eq_closure (h : Ordered rs) : pass rs D = {n | Closure rs D n} := by
  induction rs generalizing D with
  | nil =>
    ext n
    refine ⟨.base, fun hn => ?_⟩
    cases hn with
    | base h => exact h
    | refers hr _ _ => cases hr
  | cons r rs ih =>
    have hrest : Ordered rs := ⟨(List.pairwise_cons.mp h.apart).2,
      fun q hq => h.single q (List.mem_cons_of_mem _ hq)⟩
    rw [pass, List.foldl_cons, ← pass, ih hrest]
    ext n
    exact closure_sweep h

end YapStack.Cascade
