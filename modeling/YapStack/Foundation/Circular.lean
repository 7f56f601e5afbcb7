import Mathlib.Data.List.Basic

namespace YapStack.Circular

variable {α : Type*}

/-- Items at neighbouring places. -/
def store (buf : List α) (offset : ℕ) : List α → List α
  | [] => buf
  | x :: xs => store (buf.set offset x) (offset + 1) xs

/-- Items at the places of their positions, around the end of the buffer. -/
def push (cap : ℕ) (buf : List α) (pos : ℕ) : List α → List α
  | [] => buf
  | x :: xs => push cap (buf.set (pos % cap) x) (pos + 1) xs

def load [Inhabited α] (buf : List α) (offset n : ℕ) : List α :=
  (List.range n).map (fun i => buf.getD (offset + i) default)

/-- The buffer has the items of the stream from `lo` on that are not a whole
capacity behind its end. -/
def Keeps (cap lo : ℕ) (buf S : List α) : Prop :=
  ∀ p, lo ≤ p → p < S.length → S.length ≤ p + cap → buf[p % cap]? = S[p]?

variable {cap lo pos offset : ℕ} {buf S xs ys : List α}

theorem length_store (buf : List α) (offset : ℕ) (xs : List α) :
    (store buf offset xs).length = buf.length := by
  induction xs generalizing buf offset with
  | nil => rfl
  | cons x xs ih => rw [store, ih, List.length_set]

theorem length_push (cap pos : ℕ) (buf xs : List α) : (push cap buf pos xs).length = buf.length := by
  induction xs generalizing buf pos with
  | nil => rfl
  | cons x xs ih => rw [push, ih, List.length_set]

theorem push_append (cap pos : ℕ) (buf xs ys : List α) :
    push cap buf pos (xs ++ ys) = push cap (push cap buf pos xs) (pos + xs.length) ys := by
  induction xs generalizing buf pos with
  | nil => rfl
  | cons x xs ih =>
    rw [List.cons_append, push, push, ih, List.length_cons, Nat.add_assoc, Nat.add_comm 1]

/-- Neighbouring places are positions in a row while the buffer does not end. -/
theorem store_eq_push (hcap : pos % cap = offset) (hfit : offset + xs.length ≤ cap) :
    store buf offset xs = push cap buf pos xs := by
  induction xs generalizing buf offset pos with
  | nil => rfl
  | cons x xs ih =>
    rw [List.length_cons] at hfit
    cases xs with
    | nil => rw [store, push, store, push, hcap]
    | cons y ys =>
      rw [List.length_cons] at hfit
      have hnext : (pos + 1) % cap = offset + 1 := by
        rw [Nat.add_mod, hcap, Nat.mod_eq_of_lt (show 1 < cap by omega),
          Nat.mod_eq_of_lt (by omega)]
      rw [store, push, hcap, ih hnext (by rw [List.length_cons]; omega)]

theorem wrap_mod (hcap : 0 < cap) (pos : ℕ) : (pos + (cap - pos % cap)) % cap = 0 := by
  have hoff := Nat.mod_lt pos hcap
  have hdiv := Nat.div_add_mod pos cap
  have hsum : pos + (cap - pos % cap) = cap * (pos / cap + 1) := by
    rw [Nat.mul_succ]
    omega
  rw [hsum, Nat.mul_mod_right]

/-- A block that reaches the end of the buffer goes on at its start. -/
theorem store_wrapped (hcap : 0 < cap) (hlen : xs.length ≤ cap)
    (hlong : cap < pos % cap + xs.length) :
    store (store buf (pos % cap) (xs.take (cap - pos % cap))) 0 (xs.drop (cap - pos % cap)) =
      push cap buf pos xs := by
  have hoff := Nat.mod_lt pos hcap
  have hfirst : (xs.take (cap - pos % cap)).length = cap - pos % cap :=
    List.length_take_of_le (by omega)
  have hwrap := wrap_mod hcap pos
  rw [store_eq_push rfl (by omega),
    store_eq_push hwrap (by rw [List.length_drop]; omega)]
  have happ := push_append cap pos buf (xs.take (cap - pos % cap)) (xs.drop (cap - pos % cap))
  rw [List.take_append_drop, hfirst] at happ
  exact happ.symm

/-- Two positions less than a capacity apart have two places. -/
theorem mod_ne {p q : ℕ} (hlt : p < q) (hnear : q < p + cap) : p % cap ≠ q % cap := by
  intro heq
  have hp := Nat.div_add_mod p cap
  have hq := Nat.div_add_mod q cap
  obtain hgt | hle := Nat.lt_or_ge (p / cap) (q / cap)
  · have hmul := Nat.mul_le_mul_left cap (Nat.succ_le_of_lt hgt)
    rw [Nat.mul_succ] at hmul
    omega
  · have := Nat.mul_le_mul_left cap hle
    omega

theorem Keeps.snoc (hcap : 0 < cap) (hbuf : buf.length = cap) (h : Keeps cap lo buf S) (x : α) :
    Keeps cap lo (buf.set (S.length % cap) x) (S ++ [x]) := by
  intro p hlo hlt hnear
  rw [List.length_append, List.length_singleton] at hlt hnear
  obtain hold | hlast := Nat.lt_or_ge p S.length
  · rw [List.getElem?_set_ne (mod_ne hold (by omega)).symm, List.getElem?_append_left hold]
    exact h p hlo hold (by omega)
  · obtain rfl : p = S.length := by omega
    rw [List.getElem?_set_self (by rw [hbuf]; exact Nat.mod_lt _ hcap),
      List.getElem?_concat_length]

theorem Keeps.push (hcap : 0 < cap) (hbuf : buf.length = cap) (h : Keeps cap lo buf S)
    (xs : List α) : Keeps cap lo (push cap buf S.length xs) (S ++ xs) := by
  induction xs generalizing buf S with
  | nil => rwa [List.append_nil]
  | cons x xs ih =>
    have hnext := ih (by rw [List.length_set, hbuf]) (h.snoc hcap hbuf x)
    rwa [List.length_append, List.length_singleton, List.append_assoc, List.singleton_append]
      at hnext

/-- When a whole capacity has come since `lo`, it does not matter what was before. -/
theorem Keeps.all (h : Keeps cap lo buf S) (hfull : lo + cap ≤ S.length) : Keeps cap 0 buf S :=
  fun _ _ hlt hnear => h _ (by omega) hlt hnear

theorem Keeps.none (cap : ℕ) (buf S : List α) : Keeps cap S.length buf S :=
  fun _ hlo hlt => absurd hlt (Nat.not_lt_of_le hlo)

section Load

variable [Inhabited α] {start n : ℕ}

theorem length_load (buf : List α) (offset n : ℕ) : (load buf offset n).length = n := by
  rw [load, List.length_map, List.length_range]

/-- Neighbouring places hold neighbouring items of the stream. -/
theorem load_eq (h : Keeps cap 0 buf S) (hoff : start % cap = offset)
    (hfit : offset + n ≤ cap) (hnear : S.length ≤ start + cap) (hend : start + n ≤ S.length) :
    load buf offset n = (S.drop start).take n := by
  apply List.ext_getElem?
  intro i
  by_cases hi : i < n
  · have hplace : (start + i) % cap = offset + i := by
      have hdiv := Nat.div_add_mod start cap
      have hsum : start + i = offset + i + cap * (start / cap) := by omega
      rw [hsum, Nat.add_mul_mod_self_left, Nat.mod_eq_of_lt (by omega)]
    have hget := h (start + i) (Nat.zero_le _) (by omega) (by omega)
    rw [hplace] at hget
    rw [load, List.getElem?_map, List.getElem?_range hi, List.getElem?_take_of_lt hi,
      List.getElem?_drop, Option.map_some, List.getD_eq_getElem?_getD, hget,
      List.getElem?_eq_getElem (by omega), Option.getD_some]
  · rw [List.getElem?_eq_none (by rw [length_load]; omega),
      List.getElem?_eq_none (by rw [List.length_take]; omega)]

theorem load_wrapped (h : Keeps cap 0 buf S) (hcap : 0 < cap) (hn : n ≤ cap)
    (hlong : cap < start % cap + n) (hnear : S.length ≤ start + cap)
    (hend : start + n ≤ S.length) :
    load buf (start % cap) (cap - start % cap) ++ load buf 0 (n - (cap - start % cap)) =
      (S.drop start).take n := by
  have hoff := Nat.mod_lt start hcap
  have hwrap := wrap_mod hcap start
  rw [load_eq h rfl (by omega) hnear (by omega),
    load_eq h hwrap (by omega) (by omega) (by omega), ← List.drop_drop, ← List.take_add]
  congr 1
  omega

end Load

end YapStack.Circular
