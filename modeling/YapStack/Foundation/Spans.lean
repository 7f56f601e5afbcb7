import Mathlib.Order.Nat
import Mathlib.Data.List.Pairwise

namespace YapStack.Spans

/-- A half-open range of stream positions. -/
structure Span where
  start : Nat
  stop : Nat
  deriving DecidableEq

instance : Membership Nat Span := ⟨fun r x => r.start ≤ x ∧ x < r.stop⟩

theorem mem_iff {r : Span} {x : Nat} : x ∈ r ↔ r.start ≤ x ∧ x < r.stop := Iff.rfl

instance (r : Span) (x : Nat) : Decidable (x ∈ r) :=
  inferInstanceAs (Decidable (r.start ≤ x ∧ x < r.stop))

def Span.length (r : Span) : Nat := r.stop - r.start

/-- Increasing and pairwise disjoint. -/
def Increasing (l : List Span) : Prop := l.Pairwise (fun a b => a.stop ≤ b.start)

instance (l : List Span) : Decidable (Increasing l) :=
  inferInstanceAs (Decidable (l.Pairwise (fun a b => a.stop ≤ b.start)))

theorem increasing_nil : Increasing [] := List.Pairwise.nil

theorem Increasing.append_single {l : List Span} {r : Span} (h : Increasing l)
    (hr : ∀ a ∈ l, a.stop ≤ r.start) : Increasing (l ++ [r]) := by
  refine List.pairwise_append.mpr ⟨h, List.pairwise_singleton _ _, fun a ha b hb => ?_⟩
  obtain rfl := List.mem_singleton.mp hb
  exact hr a ha

/-- Consecutive nonempty spans from one position to another. -/
def Chain : Nat → Nat → List Span → Prop
  | a, b, [] => a = b
  | a, b, r :: l => r.start = a ∧ a < r.stop ∧ Chain r.stop b l

theorem chain_le {a b : Nat} {l : List Span} (h : Chain a b l) : a ≤ b := by
  induction l generalizing a with
  | nil => exact le_of_eq h
  | cons r l ih =>
    obtain ⟨_, hlt, hl⟩ := h
    exact (le_of_lt hlt).trans (ih hl)

/-- All spans of a chain lie inside the range it cuts. -/
theorem Chain.bounds {a b : Nat} {l : List Span} (h : Chain a b l) :
    ∀ r ∈ l, a ≤ r.start ∧ r.start < r.stop ∧ r.stop ≤ b := by
  induction l generalizing a with
  | nil => exact fun r hr => (List.not_mem_nil hr).elim
  | cons q l ih =>
    obtain ⟨hq, hlt, hl⟩ := h
    intro r hr
    rcases List.mem_cons.mp hr with rfl | hr
    · exact ⟨hq.ge, hq ▸ hlt, chain_le hl⟩
    · obtain ⟨h1, h2, h3⟩ := ih hl r hr
      exact ⟨by omega, h2, h3⟩

/-- The positions of a list of spans. -/
def Covers (l : List Span) (x : Nat) : Prop := ∃ r ∈ l, x ∈ r

theorem covers_append {l m : List Span} {x : Nat} :
    Covers (l ++ m) x ↔ Covers l x ∨ Covers m x := by
  simp only [Covers, List.mem_append, or_and_right, exists_or]

theorem covers_cons {l : List Span} {r : Span} {x : Nat} :
    Covers (r :: l) x ↔ x ∈ r ∨ Covers l x := by
  simp only [Covers, List.mem_cons, or_and_right, exists_or, exists_eq_left]

theorem covers_single {r : Span} {x : Nat} : Covers [r] x ↔ x ∈ r := by
  simp only [Covers, List.mem_singleton, exists_eq_left]

/-- A chain covers the range it cuts. -/
theorem Chain.covers_iff {a b x : Nat} {l : List Span} (h : Chain a b l) :
    Covers l x ↔ a ≤ x ∧ x < b := by
  induction l generalizing a with
  | nil =>
    obtain rfl : a = b := h
    constructor
    · rintro ⟨r, hr, _⟩
      exact (List.not_mem_nil hr).elim
    · rintro ⟨hlow, hhigh⟩
      omega
  | cons r l ih =>
    obtain ⟨hstart, hlt, hl⟩ := h
    have hle := chain_le hl
    rw [covers_cons, ih hl, mem_iff, hstart]
    omega

theorem Chain.increasing {a b : Nat} {l : List Span} (h : Chain a b l) : Increasing l := by
  induction l generalizing a with
  | nil => exact increasing_nil
  | cons r l ih =>
    obtain ⟨_, _, hl⟩ := h
    exact List.pairwise_cons.mpr ⟨fun q hq => (hl.bounds q hq).1, ih hl⟩

/-- Nonempty spans in their order, inside the first `total` positions. -/
structure Segments (total : Nat) (l : List Span) : Prop where
  increasing : Increasing l
  nonempty : ∀ r ∈ l, r.start < r.stop
  inside : ∀ r ∈ l, r.stop ≤ total

theorem segments_nil (total : Nat) : Segments total [] :=
  ⟨increasing_nil, fun _ hr => (List.not_mem_nil hr).elim, fun _ hr => (List.not_mem_nil hr).elim⟩

theorem Segments.append_single {total : Nat} {l : List Span} {r : Span} (h : Segments total l)
    (hafter : ∀ a ∈ l, a.stop ≤ r.start) (hr : r.start < r.stop) (hin : r.stop ≤ total) :
    Segments total (l ++ [r]) := by
  refine ⟨h.increasing.append_single hafter, ?_, ?_⟩
  · intro a ha
    obtain ha | ha := List.mem_append.mp ha
    · exact h.nonempty a ha
    · exact List.mem_singleton.mp ha ▸ hr
  · intro a ha
    obtain ha | ha := List.mem_append.mp ha
    · exact h.inside a ha
    · exact List.mem_singleton.mp ha ▸ hin

end YapStack.Spans
