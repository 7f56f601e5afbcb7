import Mathlib.Data.Nat.Notation
import Mathlib.Data.Option.Basic

namespace YapStack.Loops

variable {σ ρ τ : Type*}

/-- A computation that is given fuel yields a result when some fuel is enough for it. -/
def Yields (f : ℕ → Option ρ) (r : ρ) : Prop := ∃ n, f n = some r

def Halts (f : ℕ → Option ρ) : Prop := ∃ r, Yields f r

/-- More fuel changes no result. -/
def Steady (f : ℕ → Option ρ) : Prop := ∀ n m r, n ≤ m → f n = some r → f m = some r

/-- A `while` loop: a turn goes on with a new state or leaves with the result. -/
def run (turn : σ → σ ⊕ ρ) : ℕ → σ → Option ρ
  | 0, _ => none
  | n + 1, s => match turn s with
    | .inl t => run turn n t
    | .inr r => some r

variable {turn : σ → σ ⊕ ρ} {s t : σ} {q r : ρ}

theorem run_next (h : turn s = .inl t) (n : ℕ) : run turn (n + 1) s = run turn n t := by
  simp only [run, h]

theorem run_done (h : turn s = .inr r) (n : ℕ) : run turn (n + 1) s = some r := by
  simp only [run, h]

theorem run_steady (turn : σ → σ ⊕ ρ) (s : σ) : Steady (fun n => run turn n s) := by
  intro n
  induction n generalizing s with
  | zero =>
    intro m r _ h
    simp only [run, reduceCtorEq] at h
  | succ n ih =>
    intro m r hm h
    obtain ⟨k, rfl⟩ : ∃ k, m = k + 1 := ⟨m - 1, by omega⟩
    cases hs : turn s with
    | inl t =>
      simp only [run_next hs] at h ⊢
      exact ih t k r (by omega) h
    | inr q =>
      simp only [run_done hs] at h ⊢
      exact h

theorem Steady.unique {f : ℕ → Option ρ} (hf : Steady f) (hq : Yields f q) (hr : Yields f r) :
    q = r := by
  obtain ⟨n, hn⟩ := hq
  obtain ⟨m, hm⟩ := hr
  have hq' := hf n (max n m) q (Nat.le_max_left n m) hn
  have hr' := hf m (max n m) r (Nat.le_max_right n m) hm
  exact Option.some.inj (hq'.symm.trans hr')

theorem yields_next (h : turn s = .inl t) :
    Yields (fun n => run turn n s) r ↔ Yields (fun n => run turn n t) r := by
  constructor
  · rintro ⟨n, hn⟩
    cases n with
    | zero => simp only [run, reduceCtorEq] at hn
    | succ n => exact ⟨n, by simpa only [run_next h] using hn⟩
  · rintro ⟨n, hn⟩
    exact ⟨n + 1, by simpa only [run_next h] using hn⟩

theorem yields_done (h : turn s = .inr q) : Yields (fun n => run turn n s) r ↔ q = r := by
  constructor
  · intro hr
    exact (run_steady turn s).unique ⟨1, run_done h 0⟩ hr
  · rintro rfl
    exact ⟨1, run_done h 0⟩

theorem halts_next (h : turn s = .inl t) :
    Halts (fun n => run turn n s) ↔ Halts (fun n => run turn n t) :=
  exists_congr (fun _ => yields_next h)

/-- A loop that can always take another turn inside `I` never leaves. -/
theorem not_halts (turn : σ → σ ⊕ ρ) {I : σ → Prop} (hI : ∀ s, I s → ∃ t, turn s = .inl t ∧ I t) (hs : I s) :
    ¬Halts (fun n => run turn n s) := by
  rintro ⟨r, n, hn⟩
  induction n generalizing s with
  | zero => simp only [run, reduceCtorEq] at hn
  | succ n ih =>
    obtain ⟨t, ht, hIt⟩ := hI s hs
    simp only [run_next ht] at hn
    exact ih hIt hn

theorem Steady.yields_bind {f : ℕ → Option ρ} {g : ρ → ℕ → Option τ} (hf : Steady f)
    (hg : ∀ r, Steady (g r)) (u : τ) :
    Yields (fun n => (f n).bind (fun r => g r n)) u ↔ ∃ r, Yields f r ∧ Yields (g r) u := by
  constructor
  · rintro ⟨n, hn⟩
    obtain ⟨r, hr, hu⟩ := Option.bind_eq_some_iff.mp hn
    exact ⟨r, ⟨n, hr⟩, ⟨n, hu⟩⟩
  · rintro ⟨r, ⟨n, hr⟩, ⟨m, hu⟩⟩
    refine ⟨max n m, Option.bind_eq_some_iff.mpr ⟨r, ?_, ?_⟩⟩
    · exact hf n _ r (Nat.le_max_left n m) hr
    · exact hg r m _ u (Nat.le_max_right n m) hu

theorem yields_map {f : ℕ → Option ρ} (g : ρ → τ) (u : τ) :
    Yields (fun n => (f n).map g) u ↔ ∃ r, Yields f r ∧ g r = u := by
  simp only [Yields, Option.map_eq_some_iff]
  constructor
  · rintro ⟨n, r, hr, hu⟩
    exact ⟨r, ⟨n, hr⟩, hu⟩
  · rintro ⟨r, ⟨n, hr⟩, hu⟩
    exact ⟨n, r, hr, hu⟩

theorem halts_map {f : ℕ → Option ρ} (g : ρ → τ) :
    Halts (fun n => (f n).map g) ↔ Halts f := by
  simp only [Halts, yields_map]
  constructor
  · rintro ⟨_, r, hr, _⟩
    exact ⟨r, hr⟩
  · rintro ⟨r, hr⟩
    exact ⟨g r, r, hr, rfl⟩

end YapStack.Loops
