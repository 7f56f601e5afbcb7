import Mathlib.Data.List.Basic
import YapStack.Foundation.JsMap

namespace YapStack.Firsts

variable {α β κ : Type*} [DecidableEq κ] {key : α → κ} {l m : List α} {a b : α}

/-- The first element of a list for each key. -/
def firsts (key : α → κ) : List α → List α
  | [] => []
  | a :: l => a :: (firsts key l).filter (key · ≠ key a)

theorem firsts_sublist (key : α → κ) (l : List α) : (firsts key l).Sublist l := by
  induction l with
  | nil => exact List.Sublist.refl _
  | cons a l ih => exact (List.filter_sublist.trans ih).cons_cons a

theorem mem_of_mem_firsts (h : a ∈ firsts key l) : a ∈ l := (firsts_sublist key l).subset h

theorem firsts_nodup (key : α → κ) (l : List α) : ((firsts key l).map key).Nodup := by
  induction l with
  | nil => exact List.nodup_nil
  | cons a l ih =>
    refine List.nodup_cons.mpr ⟨fun h => ?_, ih.sublist (List.filter_sublist.map key)⟩
    obtain ⟨b, hb, hkey⟩ := List.mem_map.mp h
    exact of_decide_eq_true (List.mem_filter.mp hb).2 hkey

theorem exists_mem_firsts (key : α → κ) (h : a ∈ l) : ∃ b ∈ firsts key l, key b = key a := by
  induction l with
  | nil => exact absurd h List.not_mem_nil
  | cons c l ih =>
    by_cases hc : key a = key c
    · exact ⟨c, List.mem_cons_self, hc.symm⟩
    · obtain rfl | h := List.mem_cons.mp h
      · exact absurd rfl hc
      · obtain ⟨b, hb, hkey⟩ := ih h
        refine ⟨b, List.mem_cons_of_mem _ (List.mem_filter.mpr ⟨hb, ?_⟩), hkey⟩
        exact decide_eq_true (hkey.trans_ne hc)

/-- The first element of a key is before every other of it. -/
theorem first_before {R : α → α → Prop} (hl : l.Pairwise R) (hb : b ∈ firsts key l) (ha : a ∈ l)
    (hkey : key a = key b) : a = b ∨ R b a := by
  induction l with
  | nil => exact absurd ha List.not_mem_nil
  | cons c l ih =>
    obtain ⟨hc, hl⟩ := List.pairwise_cons.mp hl
    obtain rfl | hb := List.mem_cons.mp hb
    · obtain rfl | ha := List.mem_cons.mp ha
      · exact .inl rfl
      · exact .inr (hc a ha)
    · obtain ⟨hb, hne⟩ := List.mem_filter.mp hb
      obtain rfl | ha := List.mem_cons.mp ha
      · exact absurd hkey.symm (of_decide_eq_true hne)
      · exact ih hl hb ha

theorem firsts_filter (key : α → κ) (p : κ → Bool) (l : List α) :
    firsts key (l.filter (p ∘ key)) = (firsts key l).filter (p ∘ key) := by
  induction l with
  | nil => rfl
  | cons a l ih =>
    by_cases hp : (p ∘ key) a = true
    · rw [List.filter_cons_of_pos hp, firsts, firsts, List.filter_cons_of_pos hp, ih,
        List.filter_comm]
    · rw [List.filter_cons_of_neg hp, firsts, List.filter_cons_of_neg hp, ih, List.filter_filter]
      refine List.filter_congr (fun b _ => ?_)
      by_cases hb : key b = key a
      · simpa [hb] using hp
      · simp [hb]

theorem firsts_map (key : β → κ) (f : α → β) (l : List α) :
    firsts key (l.map f) = (firsts (key ∘ f) l).map f := by
  induction l with
  | nil => rfl
  | cons a l ih =>
    rw [List.map_cons, firsts, ih, firsts, List.map_cons, List.filter_map]
    rfl

theorem firsts_of_nodup (h : (l.map key).Nodup) : firsts key l = l := by
  induction l with
  | nil => rfl
  | cons a l ih =>
    obtain ⟨ha, hl⟩ := List.nodup_cons.mp h
    rw [firsts, ih hl, List.filter_eq_self.mpr]
    intro b hb
    refine decide_eq_true (fun hkey => ha ?_)
    exact List.mem_map.mpr ⟨b, hb, hkey⟩

theorem firsts_append (l m : List α) :
    firsts key (l ++ m) = firsts key l ++ (firsts key m).filter (key · ∉ l.map key) := by
  induction l with
  | nil => simp [firsts]
  | cons a l ih =>
    rw [List.cons_append, firsts, ih, List.filter_append, firsts, List.cons_append,
      List.filter_filter]
    refine congrArg _ (congrArg _ (List.filter_congr (fun b _ => ?_)))
    simp [not_or]

/-- Elements that are not kept matter to the first ones only where they are among them. -/
theorem take_firsts_filter (keep : α → Bool) (n : ℕ)
    (h : ∀ a ∈ (firsts key l).take n, keep a = true) :
    (firsts key (l.filter keep)).take n = (firsts key l).take n := by
  induction hlen : l.length using Nat.strongRecOn generalizing l n with
  | ind len ih =>
    cases l with
    | nil => rfl
    | cons a l =>
      cases n with
      | zero => simp
      | succ n =>
        have ha : keep a = true := h a (by simp [firsts])
        rw [List.filter_cons_of_pos ha, firsts, firsts, List.take_succ_cons, List.take_succ_cons]
        have hrest := firsts_filter key (fun k => decide (k ≠ key a))
        refine congrArg _ ?_
        rw [show (fun b => decide (key b ≠ key a)) = (fun k => decide (k ≠ key a)) ∘ key from rfl,
          ← hrest, ← hrest, List.filter_comm]
        refine ih _ ?_ n (fun b hb => h b ?_) rfl
        · rw [← hlen, List.length_cons]
          exact Nat.lt_succ_of_le (List.length_filter_le _ _)
        · rw [hrest] at hb
          rw [firsts, List.take_succ_cons]
          exact List.mem_cons_of_mem _ hb

/-- `forEach` with `if (map.has(key(x))) return; map.set(key(x), value(x))`. -/
theorem foldl_absent_entries {ι ν : Type*} (key : ι → κ) (value : ι → ν) (xs : List ι)
    (m : JsMap κ ν) :
    (xs.foldl (fun m x => if m.has (key x) then m else m.set (key x) (value x)) m).entries =
      m.entries ++ ((firsts key xs).filter (key · ∉ m.keys)).map (fun x => (key x, value x)) := by
  induction xs generalizing m with
  | nil => simp [firsts]
  | cons x xs ih =>
    rw [List.foldl_cons, firsts]
    by_cases hx : key x ∈ m.keys
    · have hhas : m.has (key x) = true := by
        rw [JsMap.has, Option.isSome_iff_ne_none, ne_eq, JsMap.get_eq_none, not_not]
        exact hx
      rw [if_pos hhas, ih, List.filter_cons_of_neg (by simpa using hx), List.filter_filter]
      refine congrArg _ (congrArg _ (List.filter_congr (fun y _ => ?_)))
      by_cases hy : key y ∈ m.keys
      · simp [hy]
      · have hne : key y ≠ key x := fun h => hy (h ▸ hx)
        simp [hy, hne]
    · have hhas : ¬m.has (key x) = true := by
        rw [JsMap.has, Option.isSome_iff_ne_none, ne_eq, JsMap.get_eq_none, not_not]
        exact hx
      rw [if_neg hhas, ih, JsMap.set_entries_new hx, List.filter_cons_of_pos (by simpa using hx),
        List.filter_filter, List.map_cons, List.append_assoc, List.singleton_append]
      refine congrArg _ (congrArg _ (congrArg _ (List.filter_congr (fun y _ => ?_))))
      rw [JsMap.keys_set, if_neg hx]
      simp [not_or]

end YapStack.Firsts
