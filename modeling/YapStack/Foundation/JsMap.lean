import Mathlib.Data.List.Nodup

namespace YapStack

/-- A JavaScript `Map`: its keys in the order in which they were first set. -/
structure JsMap (κ ν : Type*) where
  entries : List (κ × ν)
  nodup : (entries.map Prod.fst).Nodup

namespace JsMap

variable {κ ν : Type*} [DecidableEq κ] {m : JsMap κ ν} {k j : κ} {v w : ν}

def empty : JsMap κ ν := ⟨[], List.nodup_nil⟩

def keys (m : JsMap κ ν) : List κ := m.entries.map Prod.fst

def values (m : JsMap κ ν) : List ν := m.entries.map Prod.snd

def get (m : JsMap κ ν) (k : κ) : Option ν := (m.entries.find? (·.1 = k)).map Prod.snd

def has (m : JsMap κ ν) (k : κ) : Bool := (m.get k).isSome

omit [DecidableEq κ] in
theorem map_fst_update (es : List (κ × ν)) (p : κ × ν → ν) :
    (es.map (fun e => (e.1, p e))).map Prod.fst = es.map Prod.fst := by
  rw [List.map_map]
  rfl

def set (m : JsMap κ ν) (k : κ) (v : ν) : JsMap κ ν :=
  if h : k ∈ m.keys then
    ⟨m.entries.map (fun e => (e.1, if e.1 = k then v else e.2)), by
      rw [map_fst_update]
      exact m.nodup⟩
  else
    ⟨m.entries ++ [(k, v)], by
      rw [List.map_append, List.map_singleton, List.nodup_append]
      refine ⟨m.nodup, List.nodup_singleton _, ?_⟩
      intro a ha b hb hab
      obtain rfl := List.mem_singleton.mp hb
      exact h (hab ▸ ha)⟩

theorem set_entries_old (h : k ∈ m.keys) : (m.set k v).entries =
    m.entries.map (fun e => (e.1, if e.1 = k then v else e.2)) := by
  simp only [set, h, dite_true]

theorem set_entries_new (h : k ∉ m.keys) : (m.set k v).entries = m.entries ++ [(k, v)] := by
  simp only [set, h, dite_false]

theorem get_eq_some : m.get k = some v ↔ (k, v) ∈ m.entries := by
  obtain ⟨es, hes⟩ := m
  simp only [get]
  induction es with
  | nil => simp
  | cons e es ih =>
    obtain ⟨a, b⟩ := e
    simp only [List.map_cons, List.nodup_cons] at hes
    by_cases hak : a = k
    · subst hak
      simp only [List.find?_cons_of_pos, decide_true, Option.map_some, Option.some.injEq,
        List.mem_cons, Prod.mk.injEq, true_and]
      constructor
      · rintro rfl
        exact Or.inl rfl
      · rintro (rfl | hmem)
        · rfl
        · exact absurd (List.mem_map_of_mem hmem) hes.1
    · simp only [List.find?_cons_of_neg, hak, decide_false, Bool.false_eq_true,
        not_false_eq_true, ih hes.2, List.mem_cons, Prod.mk.injEq]
      constructor
      · exact Or.inr
      · rintro (⟨rfl, _⟩ | hmem)
        · exact absurd rfl hak
        · exact hmem

theorem get_eq_none : m.get k = none ↔ k ∉ m.keys := by
  constructor
  · intro h hk
    obtain ⟨⟨a, v⟩, he, rfl⟩ := List.mem_map.mp hk
    rw [get_eq_some.mpr he] at h
    simp at h
  · intro h
    cases hg : m.get k with
    | none => rfl
    | some v => exact absurd (List.mem_map_of_mem (get_eq_some.mp hg)) h

theorem mem_set : (j, w) ∈ (m.set k v).entries ↔
    j = k ∧ w = v ∨ j ≠ k ∧ (j, w) ∈ m.entries := by
  by_cases h : k ∈ m.keys
  · simp only [set_entries_old h, List.mem_map, Prod.mk.injEq, Prod.exists]
    constructor
    · rintro ⟨a, b, hab, rfl, rfl⟩
      by_cases hak : a = k
      · exact Or.inl ⟨hak, by simp [hak]⟩
      · exact Or.inr ⟨hak, by simpa [hak] using hab⟩
    · rintro (⟨rfl, rfl⟩ | ⟨hne, hmem⟩)
      · obtain ⟨⟨a, b⟩, hab, rfl⟩ := List.mem_map.mp h
        exact ⟨a, b, hab, rfl, by simp⟩
      · exact ⟨j, w, hmem, rfl, by simp [hne]⟩
  · simp only [set_entries_new h, List.mem_append, List.mem_singleton, Prod.mk.injEq]
    constructor
    · rintro (hmem | heq)
      · refine Or.inr ⟨?_, hmem⟩
        rintro rfl
        exact h (List.mem_map_of_mem hmem)
      · exact Or.inl heq
    · rintro (heq | ⟨_, hmem⟩)
      · exact Or.inr heq
      · exact Or.inl hmem

theorem get_set_self : (m.set k v).get k = some v :=
  get_eq_some.mpr (mem_set.mpr (Or.inl ⟨rfl, rfl⟩))

theorem get_set_ne (h : j ≠ k) : (m.set k v).get j = m.get j := by
  ext w
  rw [get_eq_some, get_eq_some, mem_set]
  simp [h]

theorem get_set : (m.set k v).get j = if j = k then some v else m.get j := by
  by_cases h : j = k
  · rw [h, get_set_self, if_pos rfl]
  · rw [get_set_ne h, if_neg h]

theorem keys_set : (m.set k v).keys = if k ∈ m.keys then m.keys else m.keys ++ [k] := by
  by_cases h : k ∈ m.keys
  · rw [if_pos h, keys, set_entries_old h, map_fst_update]
    rfl
  · rw [if_neg h, keys, set_entries_new h, List.map_append, List.map_singleton]
    rfl

/-- `new Map(xs.map((x) => [key(x), value(x)]))`. -/
def ofList {ι : Type*} (key : ι → κ) (value : ι → ν) (xs : List ι) : JsMap κ ν :=
  xs.foldl (fun m x => m.set (key x) (value x)) empty

theorem foldl_set_entries {ι : Type*} (key : ι → κ) (value : ι → ν) {xs : List ι}
    (h : (xs.map key).Nodup) (hnew : ∀ x ∈ xs, key x ∉ m.keys) :
    (xs.foldl (fun m x => m.set (key x) (value x)) m).entries =
      m.entries ++ xs.map (fun x => (key x, value x)) := by
  induction xs generalizing m with
  | nil => simp
  | cons x xs ih =>
    rw [List.map_cons, List.nodup_cons] at h
    have hx := hnew x List.mem_cons_self
    have hentries := set_entries_new (v := value x) hx
    have hfresh : ∀ y ∈ xs, key y ∉ (m.set (key x) (value x)).keys := by
      intro y hy hmem
      rw [keys_set, if_neg hx, List.mem_append, List.mem_singleton] at hmem
      obtain hmem | heq := hmem
      · exact hnew y (List.mem_cons_of_mem x hy) hmem
      · exact h.1 (heq ▸ List.mem_map_of_mem hy)
    rw [List.foldl_cons, ih h.2 hfresh, hentries]
    simp

theorem ofList_entries {ι : Type*} {key : ι → κ} {value : ι → ν} {xs : List ι}
    (h : (xs.map key).Nodup) :
    (ofList key value xs).entries = xs.map (fun x => (key x, value x)) := by
  have hnew : ∀ x ∈ xs, key x ∉ (empty : JsMap κ ν).keys := by simp [keys, empty]
  simpa [ofList, empty] using foldl_set_entries key value h hnew

end JsMap

end YapStack
