import YapStack.Foundation.Table

namespace YapStack.Table

section Isolation

variable {T K V : Type*} [DecidableEq T] [DecidableEq K]
variable {tb tb' tb'' : Table T K V} {t u : T} {k : K} {v : Option V} {w : V}

/-- What a transaction relies on while it is open: its own versions, its
locks, and the committed version of every row it has locked. -/
structure Isolated (u : T) (tb tb' : Table T K V) : Prop where
  pending : tb'.pending u = tb.pending u
  owner : ∀ k, tb.owner k = some u → tb'.owner k = some u
  sharers : ∀ k, u ∈ tb.sharers k → u ∈ tb'.sharers k
  committed : ∀ k, tb.owner k = some u ∨ u ∈ tb.sharers k → tb'.committed k = tb.committed k

omit [DecidableEq T] [DecidableEq K] in
theorem Isolated.refl (u : T) (tb : Table T K V) : Isolated u tb tb :=
  ⟨rfl, fun _ h => h, fun _ h => h, fun _ _ => rfl⟩

omit [DecidableEq T] [DecidableEq K] in
theorem Isolated.trans (h : Isolated u tb tb') (h' : Isolated u tb' tb'') :
    Isolated u tb tb'' := by
  refine ⟨h'.pending.trans h.pending, fun k ho => h'.owner k (h.owner k ho),
    fun k hs => h'.sharers k (h.sharers k hs), fun k hk => ?_⟩
  exact (h'.committed k (hk.imp (h.owner k) (h.sharers k))).trans (h.committed k hk)

omit [DecidableEq T] [DecidableEq K] in
theorem owner_ne_of_free (h : tb.Free t k) (hne : u ≠ t) : tb.owner k ≠ some u := by
  intro ho
  rcases h.1 with hn | ht
  · rw [hn] at ho; cases ho
  · rw [ht, Option.some.injEq] at ho
    exact hne ho.symm

omit [DecidableEq T] in
theorem acquire_isolated (h : tb.Free t k) (hne : u ≠ t) :
    Isolated u tb (tb.acquire t k h) := by
  refine ⟨rfl, fun j hj => ?_, fun _ hs => hs, fun _ _ => rfl⟩
  have hjk : j ≠ k := by
    rintro rfl
    exact owner_ne_of_free h hne hj
  simpa [acquire, Function.update_of_ne hjk] using hj

theorem lock_isolated (h : tb.lock t k = some tb') (hne : u ≠ t) : Isolated u tb tb' := by
  obtain ⟨hf, rfl⟩ := lock_eq_some.mp h
  exact acquire_isolated hf hne

theorem share_isolated (h : tb.share t k = some tb') : Isolated u tb tb' := by
  obtain ⟨hf, rfl⟩ := share_eq_some.mp h
  refine ⟨rfl, fun _ ho => ho, fun j hs => ?_, fun _ _ => rfl⟩
  by_cases hjk : j = k
  · subst j; simp [acquireShare, hs]
  · simpa [acquireShare, Function.update_of_ne hjk] using hs

theorem write_isolated (h : tb.write t k v = some tb') (hne : u ≠ t) : Isolated u tb tb' := by
  obtain ⟨hf, rfl⟩ := write_eq_some.mp h
  refine (acquire_isolated hf hne).trans ⟨?_, fun _ ho => ho, fun _ hs => hs, fun _ _ => rfl⟩
  exact Function.update_of_ne hne _ _

omit [DecidableEq K] in
theorem close_isolated (tb : Table T K V) (keep : Bool) (hne : u ≠ t) :
    Isolated u tb (tb.close t keep) := by
  refine ⟨Function.update_of_ne hne _ _, fun k ho => ?_, fun k hs => ?_, fun k hk => ?_⟩
  · simpa [close, ho] using hne
  · simpa [close, hne] using hs
  · cases keep with
    | false => rfl
    | true =>
      have hp : tb.pending t k = none := by
        by_contra hp
        have ht := tb.owned t k hp
        rcases hk with ho | hs
        · rw [ht, Option.some.injEq] at ho
          exact hne ho.symm
        · exact hne (tb.exclusive t k ht u hs)
      simp [close, view, hp]

/-- `t` has locked the row, exclusively or shared. -/
def Holds (tb : Table T K V) (t : T) (k : K) : Prop := tb.owner k = some t ∨ t ∈ tb.sharers k

omit [DecidableEq T] [DecidableEq K] in
theorem Isolated.holds (h : Isolated u tb tb') (hk : tb.Holds u k) : tb'.Holds u k :=
  hk.imp (h.owner k) (h.sharers k)

omit [DecidableEq T] [DecidableEq K] in
theorem Isolated.view (h : Isolated u tb tb') (hk : tb.Holds u k) :
    tb'.view u k = tb.view u k := by
  simp only [Table.view, h.pending, h.committed k hk]

omit [DecidableEq T] [DecidableEq K] in
theorem holds_of_pending (h : tb.pending t k ≠ none) : tb.Holds t k := Or.inl (tb.owned t k h)

omit [DecidableEq T] [DecidableEq K] in
theorem Holds.unique (h : tb.owner k = some t) (hu : tb.Holds u k) : u = t := by
  obtain ho | hs := hu
  · rw [h, Option.some.injEq] at ho
    exact ho.symm
  · exact tb.exclusive t k h u hs

theorem lock_holds (h : tb.lock t k = some tb') : tb'.owner k = some t := by
  simp [lock_owner h]

theorem write_holds (h : tb.write t k v = some tb') : tb'.owner k = some t := by
  simp [write_owner h]

theorem share_holds (h : tb.share t k = some tb') : tb'.Holds t k :=
  Or.inr (by simp [share_sharers h])

theorem lock_view (h : tb.lock t k = some tb') (u : T) : tb'.view u = tb.view u := by
  funext j
  simp only [Table.view, lock_pending h, lock_committed h]

theorem share_view (h : tb.share t k = some tb') (u : T) : tb'.view u = tb.view u := by
  funext j
  simp only [Table.view, share_pending h, share_committed h]

end Isolation

section Counting

variable {T K V : Type*} [DecidableEq T] [DecidableEq K]
variable {tb tb' : Table T K V} {t : T} {k : K} {v : Option V} {w : V}

/-- The number of committed rows that satisfy `p`. -/
def count (tb : Table T K V) (p : V → Bool) : Nat :=
  tb.keys.countP (fun k => (tb.committed k).any p)

theorem countP_change {keys : List K} (hn : keys.Nodup) (hk : k ∈ keys) {f g : K → Bool}
    (h : ∀ j, j ≠ k → g j = f j) :
    keys.countP g + (f k).toNat = keys.countP f + (g k).toNat := by
  induction keys with
  | nil => simp at hk
  | cons j keys ih =>
    obtain ⟨hj, hn⟩ := List.nodup_cons.mp hn
    by_cases hjk : j = k
    · subst j
      have hrest : keys.countP g = keys.countP f :=
        List.countP_congr (fun i hi => by rw [h i (fun hik => hj (hik ▸ hi))])
      rw [List.countP_cons, List.countP_cons, hrest]
      cases f k <;> cases g k <;> simp
    · have hk' : k ∈ keys := (List.mem_cons.mp hk).resolve_left (Ne.symm hjk)
      rw [List.countP_cons, List.countP_cons, h j hjk]
      have := ih hn hk'
      omega

theorem lock_count (h : tb.lock t k = some tb') (p : V → Bool) : tb'.count p = tb.count p := by
  obtain ⟨_, rfl⟩ := lock_eq_some.mp h
  rfl

theorem share_count (h : tb.share t k = some tb') (p : V → Bool) :
    tb'.count p = tb.count p := by
  obtain ⟨_, rfl⟩ := share_eq_some.mp h
  rfl

theorem write_count (h : tb.write t k v = some tb') (p : V → Bool) :
    tb'.count p = tb.count p := by
  obtain ⟨_, rfl⟩ := write_eq_some.mp h
  by_cases hk : k ∈ tb.keys
  · simp [count, put, acquire, hk]
  · have hc : tb.committed k = none := by
      by_contra hc
      exact hk (tb.listed k hc)
    simp [count, put, acquire, hk, hc]

omit [DecidableEq K] in
theorem rollback_count (tb : Table T K V) (t : T) (p : V → Bool) :
    (tb.rollback t).count p = tb.count p := rfl

omit [DecidableEq K] in
theorem commit_count_of_none (h : ∀ j, tb.pending t j = none) (p : V → Bool) :
    (tb.commit t).count p = tb.count p := by
  have hv : tb.view t = tb.committed := funext fun j => by simp [view, h j]
  simp only [count, commit, close, hv, if_true]

/-- A transaction that wrote one row moves the count by that row alone. -/
theorem commit_count (hk : k ∈ tb.keys) (h : ∀ j, j ≠ k → tb.pending t j = none)
    (p : V → Bool) :
    (tb.commit t).count p + ((tb.committed k).any p).toNat =
      tb.count p + ((tb.view t k).any p).toNat := by
  refine countP_change tb.nodup hk (f := fun j => (tb.committed j).any p) (fun j hj => ?_)
  simp [commit, close, view, h j hj]

omit [DecidableEq T] [DecidableEq K] in
theorem count_pos (h : tb.committed k = some w) {p : V → Bool} (hp : p w = true) :
    0 < tb.count p := by
  refine List.countP_pos_iff.mpr ⟨k, tb.listed k (by simp [h]), ?_⟩
  simpa [h] using hp

end Counting

section Statements

section Statements

variable {T K V : Type*} [DecidableEq T] [DecidableEq K]

/-- Does the statement's snapshot hold a row at `k` that satisfies `p`? -/
def hits (tb : Table T K V) (t : T) (k : K) (p : V → Bool) : Bool :=
  (tb.view t k).any p

/-- `UPDATE ... WHERE key = k AND p`, or `DELETE` where `f` gives `none`. A row
that the statement does not match is neither awaited nor locked. -/
def modify (tb : Table T K V) (t : T) (k : K) (p : V → Bool) (f : V → Option V) :
    Option (Table T K V) :=
  match tb.view t k with
  | none => some tb
  | some v => if p v then tb.write t k (f v) else some tb

/-- No other open transaction holds an uncommitted version of the row. -/
def Settled (tb : Table T K V) (t : T) (k : K) : Prop :=
  ∀ u ∈ tb.owner k, u = t ∨ (tb.pending u k).isNone

instance (tb : Table T K V) (t : T) (k : K) : Decidable (tb.Settled t k) :=
  match h : tb.owner k with
  | none => .isTrue (by simp [Settled, h])
  | some u => decidable_of_iff (u = t ∨ (tb.pending u k).isNone) (by simp [Settled, h])

/-- `INSERT ... ON CONFLICT DO NOTHING`, with whether the row is new. It waits
for an uncommitted version of another transaction, but not for a mere lock. -/
def insertIgnore (tb : Table T K V) (t : T) (k : K) (v : V) : Option (Table T K V × Bool) :=
  if tb.Settled t k then
    match tb.view t k with
    | none => (tb.write t k (some v)).map (fun tb' => (tb', true))
    | some _ => some (tb, false)
  else none

variable {tb tb' : Table T K V} {t u : T} {k j : K} {p : V → Bool} {f : V → Option V} {v : V}

theorem modify_cases (h : tb.modify t k p f = some tb') :
    tb' = tb ∨ ∃ v, tb.view t k = some v ∧ p v = true ∧ tb.write t k (f v) = some tb' := by
  unfold modify at h
  split at h
  · exact Or.inl (Option.some.inj h).symm
  · rename_i v hv
    split at h
    · exact Or.inr ⟨v, hv, by assumption, h⟩
    · exact Or.inl (Option.some.inj h).symm

theorem insertIgnore_cases {b : Bool} (h : tb.insertIgnore t k v = some (tb', b)) :
    (b = false ∧ tb' = tb ∧ tb.view t k ≠ none) ∨
      (b = true ∧ tb.view t k = none ∧ tb.write t k (some v) = some tb') := by
  unfold insertIgnore at h
  split at h
  · split at h
    · rename_i hv
      simp only [Option.map_eq_some_iff, Prod.mk.injEq] at h
      obtain ⟨tb'', hw, rfl, rfl⟩ := h
      exact Or.inr ⟨rfl, hv, hw⟩
    · rename_i w hv
      simp only [Option.some.injEq, Prod.mk.injEq] at h
      exact Or.inl ⟨h.2.symm, h.1.symm, by simp [hv]⟩
  · cases h

theorem write_pending_self {v : Option V} (h : tb.write t k v = some tb') :
    tb'.pending t k = some v := by
  simp [write_pending h]

theorem write_pending_of_ne {v : Option V} (h : tb.write t k v = some tb') (hj : j ≠ k) :
    tb'.pending t j = tb.pending t j := by
  simp [write_pending h, hj]

theorem modify_pending_of_ne (h : tb.modify t k p f = some tb') (hj : j ≠ k) :
    tb'.pending t j = tb.pending t j := by
  obtain rfl | ⟨_, _, _, hw⟩ := modify_cases h
  · rfl
  · exact write_pending_of_ne hw hj

/-- One statement of `t` locks or writes at most one row. -/
inductive Touched (t : T) (tb : Table T K V) : Table T K V → Prop where
  | none : Touched t tb tb
  | lock {tb' : Table T K V} (k : K) (h : tb.lock t k = some tb') : Touched t tb tb'
  | share {tb' : Table T K V} (k : K) (h : tb.share t k = some tb') : Touched t tb tb'
  | row {tb' : Table T K V} (k : K) (v : Option V) (h : tb.write t k v = some tb') : Touched t tb tb'

theorem modify_touched (h : tb.modify t k p f = some tb') : Touched t tb tb' := by
  obtain rfl | ⟨v, _, _, hw⟩ := modify_cases h
  · exact Touched.none
  · exact Touched.row k (f v) hw

theorem insertIgnore_touched {b : Bool} (h : tb.insertIgnore t k v = some (tb', b)) :
    Touched t tb tb' := by
  obtain ⟨_, rfl, _⟩ | ⟨_, _, hw⟩ := insertIgnore_cases h
  · exact Touched.none
  · exact Touched.row k (some v) hw

theorem Touched.committed (h : Touched t tb tb') : tb'.committed = tb.committed := by
  cases h with
  | none => rfl
  | lock k hl => exact lock_committed hl
  | share k hs => exact share_committed hs
  | row k v hw => exact write_committed hw

theorem Touched.isolated (h : Touched t tb tb') (hne : u ≠ t) : Isolated u tb tb' := by
  cases h with
  | none => exact Isolated.refl u tb
  | lock k hl => exact lock_isolated hl hne
  | share k hs => exact share_isolated hs
  | row k v hw => exact write_isolated hw hne

theorem Touched.count (h : Touched t tb tb') (q : V → Bool) : tb'.count q = tb.count q := by
  cases h with
  | none => rfl
  | lock k hl => exact lock_count hl q
  | share k hs => exact share_count hs q
  | row k v hw => exact write_count hw q

theorem Touched.holds (h : Touched t tb tb') (hk : tb.Holds t k) : tb'.Holds t k := by
  have hup : ∀ j, tb'.owner = Function.update tb.owner j (some t) → tb'.sharers = tb.sharers →
      tb'.Holds t k := by
    intro j ho hs
    refine hk.imp (fun hk => ?_) (fun hk => hs ▸ hk)
    by_cases hj : k = j
    · simp [ho, hj]
    · simp [ho, hj, hk]
  cases h with
  | none => exact hk
  | lock j hl =>
    obtain ⟨_, rfl⟩ := lock_eq_some.mp hl
    exact hup j rfl rfl
  | share j hs =>
    refine hk.imp (fun hk => share_owner hs ▸ hk) (fun hk => ?_)
    rw [share_sharers hs]
    by_cases hj : k = j
    · subst j
      simp
    · simpa [Function.update_of_ne hj] using hk
  | row j v hw =>
    obtain ⟨_, rfl⟩ := write_eq_some.mp hw
    exact hup j rfl rfl

theorem Touched.pending_of_ne (h : Touched t tb tb') (hne : u ≠ t) :
    tb'.pending u = tb.pending u := (h.isolated hne).pending

theorem Touched.view_of_ne (h : Touched t tb tb') (hne : u ≠ t) : tb'.view u = tb.view u := by
  funext j
  simp only [view, h.pending_of_ne hne, h.committed]

omit [DecidableEq T] [DecidableEq K] in
theorem view_of_pending_none (h : tb.pending t k = none) : tb.view t k = tb.committed k := by
  simp [view, h]

omit [DecidableEq T] [DecidableEq K] in
theorem view_of_pending {v : Option V} (h : tb.pending t k = some v) : tb.view t k = v := by
  simp [view, h]

theorem modify_view_self (h : tb.modify t k p f = some tb') (hv : tb.view t k = some v) :
    tb'.view t k = if p v then f v else some v := by
  simp only [modify, hv] at h
  split at h
  · rename_i hp
    rw [if_pos hp]
    exact view_of_pending (write_pending_self h)
  · rename_i hp
    rw [if_neg hp, ← Option.some.inj h, hv]

theorem modify_view_of_ne (h : tb.modify t k p f = some tb') (hj : j ≠ k) :
    tb'.view t j = tb.view t j := by
  simp only [view, modify_pending_of_ne h hj, (modify_touched h).committed]

end Statements

section Versions

variable {T K V : Type*} [DecidableEq T] [DecidableEq K]
variable {tb tb' : Table T K V} {t : T} {k : K} {q q' : V → Prop}

/-- Every version of every row, committed or not, satisfies `q`. -/
structure Every (tb : Table T K V) (q : V → Prop) : Prop where
  committed : ∀ k v, tb.committed k = some v → q v
  pending : ∀ t k v, tb.pending t k = some (some v) → q v

omit [DecidableEq T] [DecidableEq K] in
theorem every_empty (q : V → Prop) : (empty : Table T K V).Every q :=
  ⟨fun _ _ h => (by cases h), fun _ _ _ h => (by cases h)⟩

omit [DecidableEq T] [DecidableEq K] in
theorem Every.imp (h : tb.Every q) (hq : ∀ v, q v → q' v) : tb.Every q' :=
  ⟨fun k v hv => hq v (h.committed k v hv), fun t k v hv => hq v (h.pending t k v hv)⟩

omit [DecidableEq T] [DecidableEq K] in
theorem Every.view (h : tb.Every q) {v : V} (hv : tb.view t k = some v) : q v := by
  cases hp : tb.pending t k with
  | none =>
    rw [view_of_pending_none hp] at hv
    exact h.committed k v hv
  | some w =>
    rw [view_of_pending hp] at hv
    exact h.pending t k v (hv ▸ hp)

theorem Every.write (h : tb.Every q) {v : Option V} (hw : tb.write t k v = some tb')
    (hv : ∀ w, v = some w → q w) : tb'.Every q := by
  refine ⟨fun j w hj => h.committed j w (write_committed hw ▸ hj), fun u j w hj => ?_⟩
  rw [write_pending hw] at hj
  by_cases hu : u = t
  · subst u
    rw [Function.update_self] at hj
    by_cases hk : j = k
    · subst j
      rw [Function.update_self, Option.some.injEq] at hj
      exact hv w hj
    · rw [Function.update_of_ne hk] at hj
      exact h.pending t j w hj
  · rw [Function.update_of_ne hu] at hj
    exact h.pending u j w hj

theorem Every.modify (h : tb.Every q) {p : V → Bool} {f : V → Option V}
    (hm : tb.modify t k p f = some tb') (hf : ∀ v w, q v → f v = some w → q w) : tb'.Every q := by
  obtain rfl | ⟨v, hv, _, hw⟩ := modify_cases hm
  · exact h
  · exact h.write hw (fun w hfw => hf v w (h.view hv) hfw)

omit [DecidableEq K] in
theorem Every.close (h : tb.Every q) (t : T) (keep : Bool) : (tb.close t keep).Every q := by
  refine ⟨fun k v hv => ?_, fun u k v hv => ?_⟩
  · cases keep with
    | false => exact h.committed k v hv
    | true => exact h.view hv
  · by_cases hu : u = t
    · subst u
      rw [close_pending] at hv
      cases hv
    · have hp : (tb.close t keep).pending u = tb.pending u := Function.update_of_ne hu _ _
      exact h.pending u k v (hp ▸ hv)

omit [DecidableEq T] [DecidableEq K] in
theorem mem_keys_of_view {v : V} (h : tb.view t k = some v) : k ∈ tb.keys := by
  cases hp : tb.pending t k with
  | none =>
    rw [view_of_pending_none hp] at h
    exact tb.listed k (by simp [h])
  | some w => exact tb.listed_pending t k (by simp [hp])

omit [DecidableEq T] [DecidableEq K] in
theorem mem_scan {p : K → V → Bool} :
    k ∈ tb.scan t p ↔ ∃ v, tb.view t k = some v ∧ p k v = true := by
  simp only [scan, List.mem_filter, Option.any_eq_true]
  constructor
  · rintro ⟨_, v, hv, hp⟩
    exact ⟨v, hv, hp⟩
  · rintro ⟨v, hv, hp⟩
    exact ⟨mem_keys_of_view hv, v, hv, hp⟩

end Versions

end Statements

end YapStack.Table
