import Mathlib.Data.List.Nodup
import Mathlib.Logic.Function.Basic

namespace YapStack

/-- The rows of one table under READ COMMITTED. A transaction reads the
committed version of a row or its own uncommitted one, and a row it has
written stays locked until it ends. -/
structure Table (T K V : Type*) where
  keys : List K
  committed : K → Option V
  pending : T → K → Option (Option V)
  owner : K → Option T
  sharers : K → List T
  owned : ∀ t k, pending t k ≠ none → owner k = some t
  exclusive : ∀ t k, owner k = some t → ∀ u ∈ sharers k, u = t
  listed : ∀ k, committed k ≠ none → k ∈ keys
  listed_pending : ∀ t k, pending t k ≠ none → k ∈ keys
  nodup : keys.Nodup

namespace Table

variable {T K V : Type*} [DecidableEq T] [DecidableEq K]

omit [DecidableEq T] [DecidableEq K] in
theorem pending_none_of_owner (tb : Table T K V) {t u : T} {k : K}
    (h : tb.owner k = some u) (hne : t ≠ u) : tb.pending t k = none := by
  by_contra hp
  have ht := tb.owned t k hp
  rw [h, Option.some.injEq] at ht
  exact hne ht.symm

def empty : Table T K V where
  keys := []
  committed := fun _ => none
  pending := fun _ _ => none
  owner := fun _ => none
  sharers := fun _ => []
  owned := by simp
  exclusive := by simp
  listed := by simp
  listed_pending := by simp
  nodup := List.nodup_nil

/-- What a statement of `t` reads of one row. -/
def view (tb : Table T K V) (t : T) (k : K) : Option V :=
  (tb.pending t k).getD (tb.committed k)

/-- The keys a statement of `t` finds when its snapshot is taken. -/
def scan (tb : Table T K V) (t : T) (p : K → V → Bool) : List K :=
  tb.keys.filter (fun k => (tb.view t k).any (p k))

/-- No other transaction locks the row, neither exclusively nor shared. -/
def Free (tb : Table T K V) (t : T) (k : K) : Prop :=
  (tb.owner k = none ∨ tb.owner k = some t) ∧ ∀ u ∈ tb.sharers k, u = t

def Shareable (tb : Table T K V) (t : T) (k : K) : Prop :=
  tb.owner k = none ∨ tb.owner k = some t

instance (tb : Table T K V) (t : T) (k : K) : Decidable (tb.Free t k) :=
  inferInstanceAs (Decidable (_ ∧ _))

instance (tb : Table T K V) (t : T) (k : K) : Decidable (tb.Shareable t k) :=
  inferInstanceAs (Decidable (_ ∨ _))

def acquire (tb : Table T K V) (t : T) (k : K) (h : tb.Free t k) : Table T K V where
  keys := tb.keys
  committed := tb.committed
  pending := tb.pending
  owner := Function.update tb.owner k (some t)
  sharers := tb.sharers
  owned := by
    intro u j hu
    have hj := tb.owned u j hu
    by_cases hjk : j = k
    · subst j
      rcases h.1 with hn | ht
      · rw [hn] at hj; cases hj
      · rw [ht] at hj; simpa using hj
    · simpa [Function.update_of_ne hjk] using hj
  exclusive := by
    intro u j hu w hw
    by_cases hjk : j = k
    · subst j
      simp only [Function.update_self, Option.some.injEq] at hu
      exact (h.2 w hw).trans hu
    · rw [Function.update_of_ne hjk] at hu
      exact tb.exclusive u j hu w hw
  listed := tb.listed
  listed_pending := tb.listed_pending
  nodup := tb.nodup

def acquireShare (tb : Table T K V) (t : T) (k : K) (h : tb.Shareable t k) : Table T K V where
  keys := tb.keys
  committed := tb.committed
  pending := tb.pending
  owner := tb.owner
  sharers := Function.update tb.sharers k (t :: tb.sharers k)
  owned := tb.owned
  exclusive := by
    intro u j hu w hw
    by_cases hjk : j = k
    · subst j
      have htu : t = u := by
        rcases h with hn | ht
        · rw [hn] at hu; cases hu
        · rw [ht] at hu; exact Option.some.inj hu
      rw [Function.update_self, List.mem_cons] at hw
      rcases hw with rfl | hw
      · exact htu
      · exact tb.exclusive u k hu w hw
    · rw [Function.update_of_ne hjk] at hw
      exact tb.exclusive u j hu w hw
  listed := tb.listed
  listed_pending := tb.listed_pending
  nodup := tb.nodup

/-- A new uncommitted version (`none` for a deleted row) of a row `t` holds. -/
def put (tb : Table T K V) (t : T) (k : K) (v : Option V) (h : tb.owner k = some t) :
    Table T K V where
  keys := if k ∈ tb.keys then tb.keys else tb.keys ++ [k]
  committed := tb.committed
  pending := Function.update tb.pending t (Function.update (tb.pending t) k (some v))
  owner := tb.owner
  sharers := tb.sharers
  owned := by
    intro u j hu
    by_cases hut : u = t
    · subst u
      by_cases hjk : j = k
      · subst j; exact h
      · rw [Function.update_self, Function.update_of_ne hjk] at hu
        exact tb.owned t j hu
    · rw [Function.update_of_ne hut] at hu
      exact tb.owned u j hu
  exclusive := tb.exclusive
  listed := by
    intro j hj
    have hm := tb.listed j hj
    split
    · exact hm
    · exact List.mem_append_left _ hm
  listed_pending := by
    intro u j hu
    by_cases hc : u = t ∧ j = k
    · obtain ⟨rfl, rfl⟩ := hc
      split
      · assumption
      · simp
    · have hm : j ∈ tb.keys := by
        refine tb.listed_pending u j ?_
        by_cases hut : u = t
        · subst u
          have hjk : j ≠ k := fun hjk => hc ⟨rfl, hjk⟩
          rwa [Function.update_self, Function.update_of_ne hjk] at hu
        · rwa [Function.update_of_ne hut] at hu
      split
      · exact hm
      · exact List.mem_append_left _ hm
  nodup := by
    split
    · exact tb.nodup
    · rename_i hk
      exact List.nodup_append.mpr ⟨tb.nodup, by simp, by simp; exact fun a ha hak => hk (hak ▸ ha)⟩

/-- `SELECT ... FOR UPDATE` on one row; `none` while it has to wait. -/
def lock (tb : Table T K V) (t : T) (k : K) : Option (Table T K V) :=
  if h : tb.Free t k then some (tb.acquire t k h) else none

/-- `SELECT ... FOR SHARE` on one row. -/
def share (tb : Table T K V) (t : T) (k : K) : Option (Table T K V) :=
  if h : tb.Shareable t k then some (tb.acquireShare t k h) else none

/-- Insert, update or delete one row under its lock. -/
def write (tb : Table T K V) (t : T) (k : K) (v : Option V) : Option (Table T K V) :=
  if h : tb.Free t k then
    some ((tb.acquire t k h).put t k v (by simp [acquire]))
  else none

/-- The end of a transaction: its locks go, and `keep` says whether its
versions become the committed ones. -/
def close (tb : Table T K V) (t : T) (keep : Bool) : Table T K V where
  keys := tb.keys
  committed := if keep then tb.view t else tb.committed
  pending := Function.update tb.pending t (fun _ => none)
  owner := fun k => if tb.owner k = some t then none else tb.owner k
  sharers := fun k => (tb.sharers k).filter (fun u => decide (u ≠ t))
  owned := by
    intro u k hu
    by_cases hut : u = t
    · subst u; simp at hu
    · rw [Function.update_of_ne hut] at hu
      have ho := tb.owned u k hu
      rw [ho, if_neg (by simpa using hut)]
  exclusive := by
    intro u k hu w hw
    by_cases ho : tb.owner k = some t
    · simp [ho] at hu
    · rw [if_neg ho] at hu
      exact tb.exclusive u k hu w (List.mem_filter.mp hw).1
  listed := by
    intro k hk
    cases keep with
    | false => exact tb.listed k hk
    | true =>
      by_cases hp : tb.pending t k = none
      · exact tb.listed k (by simpa [view, hp] using hk)
      · exact tb.listed_pending t k hp
  listed_pending := by
    intro u k hu
    by_cases hut : u = t
    · subst u; simp at hu
    · rw [Function.update_of_ne hut] at hu
      exact tb.listed_pending u k hu
  nodup := tb.nodup

def commit (tb : Table T K V) (t : T) : Table T K V := tb.close t true

def rollback (tb : Table T K V) (t : T) : Table T K V := tb.close t false

variable {tb tb' tb'' : Table T K V} {t u : T} {k : K} {v : Option V} {w : V}

theorem lock_eq_some :
    tb.lock t k = some tb' ↔ ∃ h : tb.Free t k, tb.acquire t k h = tb' := by
  unfold lock
  split
  · rename_i h
    simp only [Option.some.injEq, h, exists_true_left]
  · rename_i h
    simp [h]

theorem share_eq_some :
    tb.share t k = some tb' ↔ ∃ h : tb.Shareable t k, tb.acquireShare t k h = tb' := by
  unfold share
  split
  · rename_i h
    simp only [Option.some.injEq, h, exists_true_left]
  · rename_i h
    simp [h]

theorem write_eq_some :
    tb.write t k v = some tb' ↔
      ∃ h : tb.Free t k, (tb.acquire t k h).put t k v (by simp [acquire]) = tb' := by
  unfold write
  split
  · rename_i h
    simp only [Option.some.injEq, h, exists_true_left]
  · rename_i h
    simp [h]

theorem lock_free (h : tb.lock t k = some tb') : tb.Free t k := (lock_eq_some.mp h).1

theorem write_free (h : tb.write t k v = some tb') : tb.Free t k := (write_eq_some.mp h).1

theorem lock_committed (h : tb.lock t k = some tb') : tb'.committed = tb.committed := by
  obtain ⟨_, rfl⟩ := lock_eq_some.mp h
  rfl

theorem lock_pending (h : tb.lock t k = some tb') : tb'.pending = tb.pending := by
  obtain ⟨_, rfl⟩ := lock_eq_some.mp h
  rfl

theorem lock_owner (h : tb.lock t k = some tb') :
    tb'.owner = Function.update tb.owner k (some t) := by
  obtain ⟨_, rfl⟩ := lock_eq_some.mp h
  rfl

theorem share_committed (h : tb.share t k = some tb') : tb'.committed = tb.committed := by
  obtain ⟨_, rfl⟩ := share_eq_some.mp h
  rfl

theorem share_pending (h : tb.share t k = some tb') : tb'.pending = tb.pending := by
  obtain ⟨_, rfl⟩ := share_eq_some.mp h
  rfl

theorem share_owner (h : tb.share t k = some tb') : tb'.owner = tb.owner := by
  obtain ⟨_, rfl⟩ := share_eq_some.mp h
  rfl

theorem share_sharers (h : tb.share t k = some tb') :
    tb'.sharers = Function.update tb.sharers k (t :: tb.sharers k) := by
  obtain ⟨_, rfl⟩ := share_eq_some.mp h
  rfl

theorem write_committed (h : tb.write t k v = some tb') : tb'.committed = tb.committed := by
  obtain ⟨_, rfl⟩ := write_eq_some.mp h
  rfl

theorem write_pending (h : tb.write t k v = some tb') :
    tb'.pending = Function.update tb.pending t (Function.update (tb.pending t) k (some v)) := by
  obtain ⟨_, rfl⟩ := write_eq_some.mp h
  rfl

theorem write_owner (h : tb.write t k v = some tb') :
    tb'.owner = Function.update tb.owner k (some t) := by
  obtain ⟨_, rfl⟩ := write_eq_some.mp h
  rfl

omit [DecidableEq K] in
theorem commit_committed (tb : Table T K V) (t : T) : (tb.commit t).committed = tb.view t := rfl

omit [DecidableEq K] in
theorem rollback_committed (tb : Table T K V) (t : T) :
    (tb.rollback t).committed = tb.committed := rfl

omit [DecidableEq K] in
theorem close_pending (tb : Table T K V) (t : T) (keep : Bool) :
    (tb.close t keep).pending t = fun _ => none := by
  simp [close]

end Table
end YapStack
