import Mathlib.Data.Finset.Max
import Mathlib.Data.String.Basic
import YapStack.Sync.Crr

set_option linter.unusedSectionVars false

namespace YapStack.Sync.TagMerge

open Crr

/-- The columns of `tags` besides its primary key. -/
inductive TagColumn where
  | name
  | color
  | createdAt
  deriving DecidableEq

/-- The columns of `session_tags` besides its primary key `(session_id, tag_id)`. -/
inductive AssocColumn where
  | source
  | confidence
  | createdAt
  deriving DecidableEq

/-- What the collation `NOCASE` compares: ASCII letters without case up to the first NUL, and the
length in bytes. -/
def nocase (name : String) : List Char × Nat :=
  ((name.toList.takeWhile (fun c => c ≠ '\x00')).map Char.toLower, name.utf8ByteSize)

variable {I S V : Type} [LinearOrder I] [DecidableEq S] [LinearOrder V]

structure State (I S V : Type) where
  tags : Replica I TagColumn String
  sessionTags : Replica (S × I) AssocColumn V

/-- The name of a live tag is a proven merged value. -/
def proven (cells : TagColumn → Cell String) : Bool := (cells .name).version.isSome

/-- The name class of a live tag with a proven name. -/
def classOf (s : State I S V) (i : I) : Option (List Char × Nat) :=
  (s.tags.row i).cells.bind (fun cells =>
    if proven cells then some (nocase (cells .name).value) else none)

/-- `SELECT m.id FROM tags m WHERE m.name = t.name COLLATE NOCASE .. ORDER BY m.id LIMIT 1` -/
def winner (s : State I S V) (c : List Char × Nat) : Option I :=
  (s.tags.keys.filter (fun m => classOf s m = some c)).min

/-- A tag that is not the winner of its class, with that winner. -/
def pairOf (s : State I S V) (i : I) : Option (I × I) :=
  (classOf s i).bind (fun c => (winner s c).bind (fun w => if i = w then none else some (i, w)))

def Live (s : State I S V) (i : I) : Prop := (s.tags.row i).cells.isSome = true

instance (s : State I S V) (i : I) : Decidable (Live s i) := inferInstanceAs (Decidable (_ = true))

def Tagged (s : State I S V) (session : S) (i : I) : Prop :=
  (s.sessionTags.row (session, i)).cells.isSome = true

/-- The order in which a query returns the rows of `tags`. -/
structure Scan (s : State I S V) where
  ids : List I
  nodup : ids.Nodup
  mem_ids : ∀ i, i ∈ ids ↔ Live s i

/-- The row that an `INSERT` of these values makes, also where the key was deleted before. -/
def inserted (row : Row AssocColumn V) (values : AssocColumn → Cell V) : Row AssocColumn V :=
  ⟨row.cl + 1, some (fun c => ⟨(values c).value, some 1⟩)⟩

/-- `INSERT INTO session_tags .. SELECT .. WHERE tag_id = loser AND session_id NOT IN ..` -/
def insertMissing (t : Replica (S × I) AssocColumn V) (winner loser : I) :
    Replica (S × I) AssocColumn V where
  keys := t.keys ∪ (t.keys.filter (fun k => k.2 = loser)).image (fun k => (k.1, winner))
  row k :=
    match (t.row (k.1, loser)).cells, (t.row k).cells with
    | some cells, none => if k.2 = winner then inserted (t.row k) cells else t.row k
    | _, _ => t.row k
  known k hk := by
    rw [Finset.mem_union, not_or] at hk
    have habsent := t.known k hk.1
    cases hloser : (t.row (k.1, loser)).cells with
    | none => simpa only [hloser] using habsent
    | some cells =>
      have hmem : (k.1, loser) ∈ t.keys := by
        by_contra hnot
        rw [t.known _ hnot] at hloser
        cases hloser
      have hne : k.2 ≠ winner := by
        intro heq
        apply hk.2
        rw [Finset.mem_image]
        exact ⟨(k.1, loser), Finset.mem_filter.mpr ⟨hmem, rfl⟩, by rw [← heq]⟩
      simp only [habsent, Row.absent, hne, if_false]

/-- `DELETE FROM session_tags WHERE tag_id = loser` -/
def deleteAssociations (t : Replica (S × I) AssocColumn V) (loser : I) :
    Replica (S × I) AssocColumn V :=
  t.deleteWhere (fun k => (t.row k).cells.isSome && decide (k.2 = loser)) (by
    intro k hk
    by_contra hnot
    rw [t.known k hnot] at hk
    cases hk)

/-- `DELETE FROM tags WHERE id = loser` -/
def deleteTag (t : Replica I TagColumn String) (loser : I) : Replica I TagColumn String :=
  t.deleteWhere (fun i => (t.row i).cells.isSome && decide (i = loser)) (by
    intro i hi
    by_contra hnot
    rw [t.known i hnot] at hi
    cases hi)

def mergePair (acc : State I S V × Nat) (pair : I × I) : State I S V × Nat :=
  let (loser, winner) := pair
  (⟨deleteTag acc.1.tags loser,
      deleteAssociations (insertMissing acc.1.sessionTags winner loser) loser⟩,
    acc.2 + if Live acc.1 loser then 1 else 0)

def dedupTags (s : State I S V) (scan : Scan s) : State I S V × Nat :=
  (scan.ids.filterMap (pairOf s)).foldl mergePair (s, 0)

section Pair

variable {s : State I S V} {n : Nat} {loser w i : I} {session : S}

theorem mergePair_tags (s : State I S V) (n : Nat) (loser w i : I) :
    (mergePair (s, n) (loser, w)).1.tags.row i =
      if i = loser ∧ Live s i then (s.tags.row i).deleted else s.tags.row i := by
  simp only [mergePair, deleteTag, Replica.deleteWhere, Bool.and_eq_true, decide_eq_true_eq]
  by_cases h : i = loser ∧ Live s i
  · rw [if_pos h, if_pos ⟨h.2, h.1⟩]
  · rw [if_neg h, if_neg (fun hc => h ⟨hc.2, hc.1⟩)]

theorem insertMissing_tagged (t : Replica (S × I) AssocColumn V) (loser w i : I) (session : S) :
    (((insertMissing t w loser).row (session, i)).cells.isSome = true) ↔
      (t.row (session, i)).cells.isSome = true ∨
        i = w ∧ (t.row (session, loser)).cells.isSome = true := by
  simp only [insertMissing]
  split
  · rename_i cells hloser hrow
    by_cases hi : i = w
    · simp [hi, inserted, hloser]
    · simp [hi, hrow]
  · rename_i hother
    refine ⟨Or.inl, fun h => h.elim (fun h => h) ?_⟩
    rintro ⟨_, hl⟩
    obtain ⟨cells, hcells⟩ := Option.isSome_iff_exists.mp hl
    by_contra hnone
    exact hother cells hcells (Option.not_isSome_iff_eq_none.mp hnone)

/-- The loser's associations move to the winner. -/
theorem mergePair_tagged (hne : w ≠ loser) :
    Tagged (mergePair (s, n) (loser, w)).1 session i ↔
      i ≠ loser ∧ (Tagged s session i ∨ i = w ∧ Tagged s session loser) := by
  simp only [Tagged, mergePair, deleteAssociations, Replica.deleteWhere]
  have hins := insertMissing_tagged s.sessionTags loser w i session
  by_cases hi : i = loser
  · subst hi
    simp only [decide_true, Bool.and_true, ne_eq, not_true_eq_false, false_and, iff_false]
    split
    · simp [Row.deleted]
    · assumption
  · simp only [hi, decide_false, Bool.and_false, Bool.false_eq_true, if_false, ne_eq,
      not_false_eq_true, true_and]
    exact hins

theorem mergePair_frame (hi : i ≠ loser) (hw : i ≠ w) (session : S) :
    (mergePair (s, n) (loser, w)).1.sessionTags.row (session, i) =
      s.sessionTags.row (session, i) := by
  simp only [mergePair, deleteAssociations, Replica.deleteWhere, hi, decide_false, Bool.and_false,
    Bool.false_eq_true, if_false, insertMissing, hw]
  split <;> rfl

end Pair

section Pairs

variable {pairs : List (I × I)} {s : State I S V} {n : Nat} {i : I} {session : S}

/-- Every loser has one winner, and no winner loses. -/
structure Apart (pairs : List (I × I)) : Prop where
  losers : (pairs.map Prod.fst).Nodup
  winners : ∀ p ∈ pairs, p.2 ∉ pairs.map Prod.fst

theorem Apart.tail {p : I × I} (h : Apart (p :: pairs)) : Apart pairs := by
  have hlosers := h.losers
  rw [List.map_cons, List.nodup_cons] at hlosers
  refine ⟨hlosers.2, fun q hq hin => h.winners q (List.mem_cons_of_mem _ hq) ?_⟩
  exact List.mem_cons_of_mem _ hin

theorem foldl_tags (s : State I S V) (n : Nat) (h : Apart pairs) (i : I) :
    (pairs.foldl mergePair (s, n)).1.tags.row i =
      if i ∈ pairs.map Prod.fst ∧ Live s i then (s.tags.row i).deleted else s.tags.row i := by
  induction pairs generalizing s n with
  | nil => simp
  | cons p pairs ih =>
    obtain ⟨loser, w⟩ := p
    have hrow := mergePair_tags s n loser w i
    have hlosers := h.losers
    rw [List.map_cons, List.nodup_cons] at hlosers
    rw [List.foldl_cons, ih _ _ h.tail]
    by_cases hi : i = loser
    · subst hi
      simp only [hlosers.1, false_and, if_false, List.map_cons, List.mem_cons, true_or, hrow]
    · rw [if_neg (fun hc => hi hc.1)] at hrow
      have hlive : Live (mergePair (s, n) (loser, w)).1 i ↔ Live s i := by rw [Live, Live, hrow]
      simp only [hrow, hlive, List.map_cons, List.mem_cons, hi, false_or]

/-- Every association of a loser is one of its winner in the end. -/
theorem foldl_tagged (s : State I S V) (n : Nat) (h : Apart pairs) (i : I) (session : S) :
    Tagged (pairs.foldl mergePair (s, n)).1 session i ↔
      i ∉ pairs.map Prod.fst ∧
        (Tagged s session i ∨ ∃ loser, (loser, i) ∈ pairs ∧ Tagged s session loser) := by
  induction pairs generalizing s n with
  | nil => simp
  | cons p pairs ih =>
    obtain ⟨loser, w⟩ := p
    have hlosers := h.losers
    rw [List.map_cons, List.nodup_cons] at hlosers
    have hwinner : w ∉ loser :: pairs.map Prod.fst := h.winners (loser, w) List.mem_cons_self
    rw [List.mem_cons, not_or] at hwinner
    have hne : w ≠ loser := hwinner.1
    have hlater : (∃ l, (l, i) ∈ pairs ∧ Tagged (mergePair (s, n) (loser, w)).1 session l) ↔
        ∃ l, (l, i) ∈ pairs ∧ Tagged s session l := by
      apply exists_congr
      intro l
      apply and_congr_right
      intro hl
      have hmem : l ∈ pairs.map Prod.fst := List.mem_map_of_mem (f := Prod.fst) hl
      have hl₁ : l ≠ loser := fun heq => hlosers.1 (heq ▸ hmem)
      have hl₂ : l ≠ w := fun heq => hwinner.2 (heq ▸ hmem)
      rw [mergePair_tagged hne]
      simp only [ne_eq, hl₁, not_false_eq_true, hl₂, false_and, or_false, true_and]
    have hcons : (∃ l, (l, i) ∈ (loser, w) :: pairs ∧ Tagged s session l) ↔
        (i = w ∧ Tagged s session loser) ∨ ∃ l, (l, i) ∈ pairs ∧ Tagged s session l := by
      simp only [List.mem_cons, Prod.mk.injEq, or_and_right, exists_or]
      apply or_congr_left
      constructor
      · rintro ⟨l, ⟨hl, hi⟩, ht⟩
        exact ⟨hi, hl ▸ ht⟩
      · rintro ⟨hi, ht⟩
        exact ⟨loser, ⟨rfl, hi⟩, ht⟩
    rw [List.foldl_cons, ih _ _ h.tail, hlater, hcons, mergePair_tagged hne, List.map_cons,
      List.mem_cons, not_or]
    by_cases hi : i = loser
    · have hnone : ¬∃ l, (l, i) ∈ pairs ∧ Tagged s session l := by
        rintro ⟨l, hl, _⟩
        exact h.winners (l, i) (List.mem_cons_of_mem _ hl) (by simp [hi])
      simp only [hi, ne_eq, not_true_eq_false, false_and, false_or, iff_false, not_and]
      exact fun _ => hi ▸ hnone
    · simp only [ne_eq, hi, not_false_eq_true, true_and, or_assoc]

theorem foldl_frame (s : State I S V) (n : Nat) (hi : i ∉ pairs.map Prod.fst)
    (hw : i ∉ pairs.map Prod.snd) (session : S) :
    (pairs.foldl mergePair (s, n)).1.sessionTags.row (session, i) =
      s.sessionTags.row (session, i) := by
  induction pairs generalizing s n with
  | nil => rfl
  | cons p pairs ih =>
    rw [List.map_cons, List.mem_cons, not_or] at hi hw
    rw [List.foldl_cons, ih _ _ hi.2 hw.2, mergePair_frame hi.1 hw.1]

end Pairs

section Classes

variable {s : State I S V} {c : List Char × Nat} {i j w : I} {session : S} {scan : Scan s}

/-- The proven tag of the class with the lowest `id`. -/
def IsWinner (s : State I S V) (c : List Char × Nat) (w : I) : Prop :=
  classOf s w = some c ∧ ∀ i, classOf s i = some c → w ≤ i

theorem IsWinner.unique (h : IsWinner s c w) (h' : IsWinner s c j) : j = w :=
  le_antisymm (h'.2 w h.1) (h.2 j h'.1)

theorem cells_of_class (h : classOf s i = some c) : ∃ cells, (s.tags.row i).cells = some cells := by
  obtain ⟨cells, hcells, _⟩ := Option.bind_eq_some_iff.mp h
  exact ⟨cells, hcells⟩

theorem mem_candidates :
    i ∈ s.tags.keys.filter (fun m => classOf s m = some c) ↔ classOf s i = some c := by
  rw [Finset.mem_filter, and_iff_right_iff_imp]
  intro h
  by_contra hnot
  obtain ⟨cells, hcells⟩ := cells_of_class h
  rw [s.tags.known i hnot] at hcells
  cases hcells

theorem winner_eq_some : winner s c = some w ↔ IsWinner s c w := by
  constructor
  · intro h
    have hmin : (s.tags.keys.filter (fun m => classOf s m = some c)).min = (w : WithTop I) := h
    exact ⟨mem_candidates.mp (Finset.mem_of_min hmin), fun i hi =>
      Finset.min_le_of_eq (mem_candidates.mpr hi) hmin⟩
  · intro h
    obtain ⟨b, hb⟩ := Finset.min_of_mem (mem_candidates.mpr h.1)
    have hwinner : IsWinner s c b := ⟨mem_candidates.mp (Finset.mem_of_min hb), fun i hi =>
      Finset.min_le_of_eq (mem_candidates.mpr hi) hb⟩
    rw [winner, hb, hwinner.unique h]
    rfl

theorem exists_winner (h : classOf s i = some c) : ∃ w, IsWinner s c w := by
  obtain ⟨w, hw⟩ := Finset.min_of_mem (mem_candidates.mpr h)
  exact ⟨w, winner_eq_some.mp hw⟩

theorem pairOf_eq_some {p : I × I} : pairOf s i = some p ↔
    ∃ c, classOf s i = some c ∧ IsWinner s c p.2 ∧ i ≠ p.2 ∧ p.1 = i := by
  simp only [pairOf, Option.bind_eq_some_iff, winner_eq_some]
  constructor
  · rintro ⟨c, hc, w, hw, hp⟩
    split at hp
    · cases hp
    · rename_i hne
      cases hp
      exact ⟨c, hc, hw, hne, rfl⟩
  · rintro ⟨c, hc, hw, hne, rfl⟩
    exact ⟨c, hc, p.2, hw, if_neg hne⟩

theorem mem_pairs : (i, w) ∈ scan.ids.filterMap (pairOf s) ↔
    ∃ c, classOf s i = some c ∧ IsWinner s c w ∧ i ≠ w := by
  simp only [List.mem_filterMap, pairOf_eq_some]
  constructor
  · rintro ⟨j, _, c, hc, hw, hne, rfl⟩
    exact ⟨c, hc, hw, hne⟩
  · rintro ⟨c, hc, hw, hne⟩
    obtain ⟨cells, hcells⟩ := cells_of_class hc
    exact ⟨i, (scan.mem_ids i).mpr (by rw [Live, hcells]; rfl), c, hc, hw, hne, rfl⟩

theorem mem_losers : i ∈ (scan.ids.filterMap (pairOf s)).map Prod.fst ↔
    ∃ c w, classOf s i = some c ∧ IsWinner s c w ∧ i ≠ w := by
  constructor
  · intro h
    obtain ⟨⟨l, w⟩, hp, rfl⟩ := List.mem_map.mp h
    obtain ⟨c, hrest⟩ := mem_pairs.mp hp
    exact ⟨c, w, hrest⟩
  · rintro ⟨c, w, hrest⟩
    exact List.mem_map.mpr ⟨(i, w), mem_pairs.mpr ⟨c, hrest⟩, rfl⟩

theorem losers_sublist (ids : List I) :
    List.Sublist ((ids.filterMap (pairOf s)).map Prod.fst) ids := by
  induction ids with
  | nil => exact List.Sublist.refl []
  | cons i ids ih =>
    rw [List.filterMap_cons]
    split
    · exact ih.cons i
    · rename_i p hp
      obtain ⟨_, _, _, _, rfl⟩ := pairOf_eq_some.mp hp
      exact ih.cons_cons p.1

theorem pairs_apart (scan : Scan s) : Apart (scan.ids.filterMap (pairOf s)) := by
  refine ⟨scan.nodup.sublist (losers_sublist scan.ids), ?_⟩
  rintro ⟨i, w⟩ hp hloser
  obtain ⟨c, _, hw, _⟩ := mem_pairs.mp hp
  obtain ⟨c', w', hc', hw', hne⟩ := mem_losers.mp hloser
  rw [hw.1, Option.some.injEq] at hc'
  subst hc'
  exact hne (hw'.unique hw)

theorem not_loser (h : IsWinner s c w) :
    w ∉ (scan.ids.filterMap (pairOf s)).map Prod.fst := by
  intro hloser
  obtain ⟨c', w', hc', hw', hne⟩ := mem_losers.mp hloser
  rw [h.1, Option.some.injEq] at hc'
  subst hc'
  exact hne (hw'.unique h)

theorem tags_dedupTags (scan : Scan s) (i : I) : (dedupTags s scan).1.tags.row i =
    if i ∈ (scan.ids.filterMap (pairOf s)).map Prod.fst then (s.tags.row i).deleted
    else s.tags.row i := by
  rw [dedupTags, foldl_tags s 0 (pairs_apart scan)]
  by_cases hi : i ∈ (scan.ids.filterMap (pairOf s)).map Prod.fst
  · obtain ⟨c, _, hc, _⟩ := mem_losers.mp hi
    obtain ⟨cells, hcells⟩ := cells_of_class hc
    rw [if_pos hi, if_pos ⟨hi, by rw [Live, hcells]; rfl⟩]
  · rw [if_neg hi, if_neg (fun h => hi h.1)]

/-- The proven tags that are left are the winners. -/
theorem classOf_dedupTags : classOf (dedupTags s scan).1 i = some c ↔ IsWinner s c i := by
  rw [classOf, tags_dedupTags]
  by_cases hi : i ∈ (scan.ids.filterMap (pairOf s)).map Prod.fst
  · rw [if_pos hi]
    exact iff_of_false (by simp [Row.deleted]) (fun h => not_loser h hi)
  · rw [if_neg hi, ← classOf]
    refine ⟨fun hc => ?_, fun h => h.1⟩
    obtain ⟨w, hw⟩ := exists_winner hc
    by_cases hne : i = w
    · rwa [hne]
    · exact absurd (mem_losers.mpr ⟨c, w, hc, hw, hne⟩) hi

theorem tagged_dedupTags (hw : IsWinner s c w) :
    Tagged (dedupTags s scan).1 session w ↔ ∃ i, classOf s i = some c ∧ Tagged s session i := by
  rw [dedupTags, foldl_tagged s 0 (pairs_apart scan), and_iff_right (not_loser hw)]
  constructor
  · rintro (h | ⟨i, hp, h⟩)
    · exact ⟨w, hw.1, h⟩
    · obtain ⟨c', hc', hw', _⟩ := mem_pairs.mp hp
      rw [← hw'.1, hw.1] at hc'
      exact ⟨i, hc', h⟩
  · rintro ⟨i, hc, h⟩
    by_cases hne : i = w
    · exact Or.inl (hne ▸ h)
    · exact Or.inr ⟨i, mem_pairs.mpr ⟨c, hc, hw, hne⟩, h⟩

theorem loser_dedupTags (hc : classOf s i = some c) (hi : ¬IsWinner s c i) :
    ¬Live (dedupTags s scan).1 i ∧ ∀ session, ¬Tagged (dedupTags s scan).1 session i := by
  obtain ⟨w, hw⟩ := exists_winner hc
  have hloser : i ∈ (scan.ids.filterMap (pairOf s)).map Prod.fst :=
    mem_losers.mpr ⟨c, w, hc, hw, fun heq => hi (heq ▸ hw)⟩
  refine ⟨?_, fun session h => ?_⟩
  · rw [Live, tags_dedupTags, if_pos hloser]
    simp [Row.deleted]
  · rw [dedupTags, foldl_tagged s 0 (pairs_apart scan)] at h
    exact h.1 hloser

/-- A tag without a proven name, or alone in its class, keeps its row and its associations. -/
theorem unchanged_dedupTags (h : ∀ c, classOf s i = some c → ∀ j, classOf s j = some c → j = i) :
    (dedupTags s scan).1.tags.row i = s.tags.row i ∧
      ∀ session, (dedupTags s scan).1.sessionTags.row (session, i) =
        s.sessionTags.row (session, i) := by
  have hloser : i ∉ (scan.ids.filterMap (pairOf s)).map Prod.fst := by
    intro hi
    obtain ⟨c, w, hc, hw, hne⟩ := mem_losers.mp hi
    exact hne (h c hc w hw.1).symm
  have hwinner : i ∉ (scan.ids.filterMap (pairOf s)).map Prod.snd := by
    intro hi
    obtain ⟨⟨j, w⟩, hp, rfl⟩ := List.mem_map.mp hi
    obtain ⟨c, hc, hw, hne⟩ := mem_pairs.mp hp
    exact hne (h c hw.1 j hc)
  refine ⟨by rw [tags_dedupTags, if_neg hloser], fun session => ?_⟩
  exact foldl_frame s 0 hloser hwinner session

theorem dedupTags_again (scan : Scan s) (again : Scan (dedupTags s scan).1) :
    dedupTags (dedupTags s scan).1 again = ((dedupTags s scan).1, 0) := by
  have hnone : ∀ i ∈ again.ids, pairOf (dedupTags s scan).1 i = none := by
    intro i _
    rw [Option.eq_none_iff_forall_ne_some]
    intro p hp
    obtain ⟨c, hc, hw, hne, _⟩ := pairOf_eq_some.mp hp
    exact hne ((classOf_dedupTags.mp hw.1).unique (classOf_dedupTags.mp hc))
  have hpairs := List.filterMap_eq_nil_iff.mpr hnone
  rw [dedupTags, hpairs, List.foldl_nil]

/-- Tag merging leaves of every class its lowest proven tag, which has all the associations of the
class, touches no other tag, and has nothing left to do. -/
theorem dedupTags_merges (s : State I S V) (scan : Scan s) :
    (∀ c i, classOf s i = some c → ∃ w, IsWinner s c w ∧
      ∀ j, classOf (dedupTags s scan).1 j = some c ↔ j = w) ∧
    (∀ c w session, IsWinner s c w →
      (Tagged (dedupTags s scan).1 session w ↔
        ∃ i, classOf s i = some c ∧ Tagged s session i)) ∧
    (∀ c i, classOf s i = some c → ¬IsWinner s c i →
      ¬Live (dedupTags s scan).1 i ∧ ∀ session, ¬Tagged (dedupTags s scan).1 session i) ∧
    (∀ i, (∀ c, classOf s i = some c → ∀ j, classOf s j = some c → j = i) →
      (dedupTags s scan).1.tags.row i = s.tags.row i ∧
        ∀ session, (dedupTags s scan).1.sessionTags.row (session, i) =
          s.sessionTags.row (session, i)) ∧
    ∀ again : Scan (dedupTags s scan).1,
      dedupTags (dedupTags s scan).1 again = ((dedupTags s scan).1, 0) := by
  refine ⟨fun c i hc => ?_, fun c w session hw => tagged_dedupTags hw,
    fun c i hc hi => loser_dedupTags hc hi, fun i h => unchanged_dedupTags h,
    fun again => dedupTags_again scan again⟩
  obtain ⟨w, hw⟩ := exists_winner hc
  refine ⟨w, hw, fun j => ?_⟩
  rw [classOf_dedupTags]
  exact ⟨fun hj => hw.unique hj, fun heq => heq ▸ hw⟩

end Classes

end YapStack.Sync.TagMerge
