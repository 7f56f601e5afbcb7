import YapStack.Relay.DenseSteps

set_option linter.unusedSectionVars false

namespace YapStack.Relay.Tenant

open Capability Sequence Table

section Pages

variable {Tx Client Hash : Type} [DecidableEq Tx] [DecidableEq Client] [DecidableEq Hash]
variable {s s' : State Tx Client Hash} {t : Tx} {st : Store Client}
variable {com com' : Nat → Option (Changeset Client)} {rows rows' : List (Nat × Changeset Client)}
variable {a k n m : Nat}

/-- `rows` are the committed changesets `a + 1 .. a + n`, in order and each once. -/
structure Contiguous (com : Nat → Option (Changeset Client)) (a n : Nat)
    (rows : List (Nat × Changeset Client)) : Prop where
  seqs : rows.map Prod.fst = List.range' (a + 1) n
  stored : ∀ e ∈ rows, com e.1 = some e.2

/-- A page for the cursor `k`, and the last seq at the time it was read. -/
def PageAt (com : Nat → Option (Changeset Client)) (k : Nat) (p : PullResponse Client)
    (tip : Nat) : Prop :=
  ∃ n, Contiguous com k n p.changes ∧ p.nextSeq = (k + n : Nat) ∧
    (p.hasMore = false → k + n = tip)

theorem Contiguous.kept (h : Contiguous com a n rows)
    (hk : ∀ j r, com j = some r → com' j = some r) : Contiguous com' a n rows :=
  ⟨h.seqs, fun e he => hk e.1 e.2 (h.stored e he)⟩

theorem Contiguous.append (h : Contiguous com a n rows) (h' : Contiguous com (a + n) m rows') :
    Contiguous com a (n + m) (rows ++ rows') := by
  refine ⟨?_, fun e he => ?_⟩
  · have hs : a + n + 1 = a + 1 + n := by omega
    rw [List.map_append, h.seqs, h'.seqs, hs, List.range'_append_1]
  · obtain he | he := List.mem_append.mp he
    · exact h.stored e he
    · exact h'.stored e he

theorem Contiguous.take (h : Contiguous com a n rows) (m : Nat) :
    Contiguous com a (min m n) (rows.take m) := by
  refine ⟨?_, fun e he => h.stored e (List.mem_of_mem_take he)⟩
  rw [List.map_take, h.seqs]
  by_cases hm : n ≤ m
  · rw [List.take_range'_of_length_le hm, Nat.min_eq_right hm]
  · rw [List.take_range'_of_length_ge (by omega), Nat.min_eq_left (by omega)]

theorem Contiguous.length (h : Contiguous com a n rows) : rows.length = n := by
  have := congrArg List.length h.seqs
  simpa using this

theorem view_eq_committed (hb : Blank s.changesets t) :
    s.changesets.view t = s.changesets.committed :=
  funext fun k => view_of_pending_none (hb k)

/-- The seqs after the cursor, in order. -/
theorem scan_sorted (hs : Stored s st) (hb : Blank s.changesets t) (hk : k ≤ st.length) :
    (s.changesets.scan t (fun j _ => ((k : Int) < (j : Int)))).insertionSort (· ≤ ·) =
      List.range' (k + 1) (st.length - k) := by
  have hperm : (s.changesets.scan t (fun j _ => ((k : Int) < (j : Int)))).insertionSort (· ≤ ·)
      |>.Perm (List.range' (k + 1) (st.length - k)) := by
    refine (List.perm_insertionSort _ _).trans ?_
    refine (List.perm_ext_iff_of_nodup (s.changesets.nodup.filter _)
      (List.nodup_range' (s := k + 1) (n := st.length - k))).mpr (fun j => ?_)
    have hiff := committed_iff hs j
    change j ∈ s.changesets.scan t (fun (i : Nat) _ => decide ((k : Int) < (i : Int))) ↔ _
    rw [mem_scan]
    rw [view_eq_committed hb, List.mem_range'_1]
    constructor
    · rintro ⟨r, hr, hlt⟩
      have := hiff.mp (by simp [hr])
      have := of_decide_eq_true hlt
      omega
    · intro hj
      obtain ⟨r, hr⟩ := Option.ne_none_iff_exists'.mp (hiff.mpr (by omega))
      exact ⟨r, hr, decide_eq_true (by omega)⟩
  exact hperm.eq_of_pairwise' (List.pairwise_insertionSort _ _) (List.pairwise_le_range' 1)

theorem filterMap_contiguous (f : Nat → Option (Changeset Client))
    (h : ∀ j, a + 1 ≤ j → j < a + 1 + n → f j ≠ none) :
    Contiguous f a n
      ((List.range' (a + 1) n).filterMap (fun j => (f j).map (fun c => (j, c)))) := by
  refine ⟨?_, fun e he => ?_⟩
  · rw [List.map_filterMap]
    have hall : ∀ j ∈ List.range' (a + 1) n,
        ((f j).map (fun c => (j, c))).map Prod.fst = some j := by
      intro j hj
      obtain ⟨r, hr⟩ := Option.ne_none_iff_exists'.mp
        (h j (List.mem_range'_1.mp hj).1 (List.mem_range'_1.mp hj).2)
      rw [hr]
      rfl
    rw [List.filterMap_congr hall, List.filterMap_some]
  · simp only [List.mem_filterMap, Option.map_eq_some_iff] at he
    obtain ⟨j, _, r, hr, rfl⟩ := he
    exact hr

theorem readChanges_contiguous (hs : Stored s st) (hb : Blank s.changesets t)
    (hk : k ≤ st.length) (limit : Nat) :
    Contiguous s.changesets.committed k (min limit (st.length - k))
      (readChanges s.changesets t k limit) := by
  have hsort := scan_sorted hs hb hk
  have htake : (List.range' (k + 1) (st.length - k)).take limit =
      List.range' (k + 1) (min limit (st.length - k)) := by
    by_cases hl : st.length - k ≤ limit
    · rw [List.take_range'_of_length_le hl, Nat.min_eq_right hl]
    · rw [List.take_range'_of_length_ge (by omega), Nat.min_eq_left (by omega)]
  rw [readChanges, hsort, htake, view_eq_committed hb]
  exact filterMap_contiguous _ (fun j h1 h2 => (committed_iff hs j).mpr (by omega))

theorem maxSeq_eq (hs : Stored s st) (hb : Blank s.changesets t) :
    maxSeq s.changesets t = st.length := by
  have hmem : ∀ j, j ∈ s.changesets.scan t (fun _ _ => true) ↔ 1 ≤ j ∧ j ≤ st.length := by
    intro j
    rw [mem_scan, view_eq_committed hb, ← committed_iff hs j]
    simp [Option.ne_none_iff_exists']
  rw [maxSeq]
  by_cases h0 : st.length = 0
  · have hnil : s.changesets.scan t (fun _ _ => true) = [] := by
      refine List.eq_nil_iff_forall_not_mem.mpr (fun j hj => ?_)
      have := (hmem j).mp hj
      omega
    rw [hnil, h0]
    rfl
  · have hmax : (s.changesets.scan t (fun _ _ => true)).max? = some st.length := by
      refine List.max?_eq_some_iff.mpr ⟨(hmem _).mpr ⟨by omega, Nat.le_refl _⟩, fun j hj => ?_⟩
      exact ((hmem j).mp hj).2
    rw [hmax, Option.getD_some]

/-- One row more than the limit tells whether the page reaches the tip. -/
theorem pullResponse_page {limit tip : Nat} {levels : Levels}
    (h : Contiguous com k (min (limit + 1) (tip - k)) rows) (hk : k ≤ tip) :
    PageAt com k (pullResponse k limit levels rows) tip := by
  have hrows := h.take limit
  have hlen := h.length
  refine ⟨_, hrows, ?_, fun hmore => ?_⟩
  · have hlast : (rows.take limit).getLast?.map (fun r => (r.1 : Int)) =
        ((rows.take limit).map Prod.fst).getLast?.map (fun j : Nat => (j : Int)) := by
      rw [List.getLast?_map, Option.map_map]
      rfl
    simp only [pullResponse]
    rw [hlast, hrows.seqs, List.getLast?_range']
    split
    · rename_i h0
      rw [h0]
      rfl
    · simp only [Option.map_some, Option.getD_some]
      omega
  · simp only [pullResponse, decide_eq_false_iff_not] at hmore
    omega

end Pages

end YapStack.Relay.Tenant
