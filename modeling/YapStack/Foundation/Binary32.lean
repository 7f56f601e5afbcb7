import Mathlib.Data.Int.Log
import Mathlib.Data.Rat.Floor
import Mathlib.Tactic.FieldSimp
import Mathlib.Tactic.Linarith
import Mathlib.Tactic.Ring

namespace YapStack.Binary32

/-- The nearest integer, from the middle the even one. -/
def nearestEven (y : ℚ) : ℤ :=
  if y - ⌊y⌋ < 1 / 2 ∨ y - ⌊y⌋ = 1 / 2 ∧ ⌊y⌋ % 2 = 0 then ⌊y⌋ else ⌊y⌋ + 1

/-- The step between neighbouring values of 24 significant bits. -/
def ulp (x : ℚ) : ℚ := 2 ^ (Int.log 2 x - 23)

/-- A number that is not negative, as `f32` has it when the exponent fits. -/
def f32 (x : ℚ) : ℚ := nearestEven (x / ulp x) * ulp x

variable {x y : ℚ}

theorem nearestEven_intCast (n : ℤ) : nearestEven n = n := by
  simp [nearestEven]

theorem abs_nearestEven_sub_le (y : ℚ) : |nearestEven y - y| ≤ 1 / 2 := by
  have hlow := Int.floor_le y
  have hhigh := Int.lt_floor_add_one y
  rw [nearestEven, abs_le]
  split_ifs with h
  · have hhalf : y - ⌊y⌋ ≤ 1 / 2 := h.elim le_of_lt (fun h => h.1.le)
    constructor <;> linarith
  · have hhalf : 1 / 2 ≤ y - ⌊y⌋ := not_lt.mp (fun hlt => h (Or.inl hlt))
    push_cast
    constructor <;> linarith

theorem ulp_pos (x : ℚ) : 0 < ulp x := zpow_pos two_pos _

theorem ulp_le (hx : 0 < x) : ulp x ≤ x / 2 ^ 23 := by
  have hlog : (2 : ℚ) ^ Int.log 2 x ≤ x := Int.zpow_log_le_self Nat.one_lt_two hx
  rw [ulp, zpow_sub₀ two_ne_zero]
  exact div_le_div_of_nonneg_right hlog (by norm_num)

theorem abs_f32_sub_le (x : ℚ) : |f32 x - x| ≤ ulp x / 2 := by
  have hu := ulp_pos x
  have hx : x = x / ulp x * ulp x := (div_mul_cancel₀ x hu.ne').symm
  calc |f32 x - x| = |(nearestEven (x / ulp x) - x / ulp x) * ulp x| := by
        rw [f32, sub_mul, ← hx]
    _ = |nearestEven (x / ulp x) - x / ulp x| * ulp x := by rw [abs_mul, abs_of_pos hu]
    _ ≤ 1 / 2 * ulp x := mul_le_mul_of_nonneg_right (abs_nearestEven_sub_le _) hu.le
    _ = ulp x / 2 := by ring

theorem le_f32 (hx : 0 < x) : x - x / 2 ^ 24 ≤ f32 x := by
  have hnear := (abs_le.mp (abs_f32_sub_le x)).1
  have hulp := ulp_le hx
  linarith

theorem f32_le (hx : 0 < x) : f32 x ≤ x + x / 2 ^ 24 := by
  have hnear := (abs_le.mp (abs_f32_sub_le x)).2
  have hulp := ulp_le hx
  linarith

/-- Whole multiples of the step are kept. -/
theorem f32_of_multiple (k : ℤ) (h : x = k * ulp x) : f32 x = x := by
  have hk : x / ulp x = k := by
    rw [div_eq_iff (ulp_pos x).ne']
    exact h
  rw [f32, hk, nearestEven_intCast, ← h]

theorem f32_natCast {n : ℕ} (h : n < 2 ^ 24) : f32 n = n := by
  have hlog : Int.log 2 (n : ℚ) ≤ 23 := by
    rw [Int.log_natCast]
    have : Nat.log 2 n ≤ 23 := by
      obtain rfl | hn := Nat.eq_zero_or_pos n
      · simp
      · exact Nat.lt_succ_iff.mp (Nat.log_lt_of_lt_pow hn.ne' h)
    exact_mod_cast this
  obtain ⟨k, hk⟩ := Int.le.dest hlog
  have hulp : ulp (n : ℚ) * 2 ^ k = 1 := by
    have hexp : Int.log 2 (n : ℚ) - 23 = -(k : ℤ) := by omega
    rw [ulp, hexp, zpow_neg, zpow_natCast]
    exact inv_mul_cancel₀ (pow_ne_zero k two_ne_zero)
  refine f32_of_multiple (n * 2 ^ k : ℤ) ?_
  push_cast
  rw [mul_assoc, mul_comm (2 ^ k), hulp, mul_one]

end YapStack.Binary32
