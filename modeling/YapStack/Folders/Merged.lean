import YapStack.Folders.Forest

set_option linter.unusedSectionVars false

namespace YapStack.Folders

open Loops Climbs

variable {folders : List DbFolder} {f : DbFolder} {id a b : String} {as : List String}

/-- Every walk of the folder tree that starts at `id` ends. -/
structure Ends (folders : List DbFolder) (id : String) : Prop where
  path : Halts (getFolderPath folders id)
  root : Halts (getRootFolder folders id)
  descendant : ∀ ancestorId, Halts (isDescendantOf folders id ancestorId)
  ancestors : Halts (getAncestorIds folders id)
  descendants : Halts (getDescendantIds folders id)
  conflicts : ∀ sessionFolderIds, Halts (findBranchConflicts folders sessionFolderIds id)

/-- The three functions that can say that `a` is above `b` say the same. -/
def Agree (folders : List DbFolder) (a b : String) : Prop :=
  ∃ ancestors descendants below, Yields (getAncestorIds folders b) ancestors ∧
    Yields (getDescendantIds folders a) descendants ∧ Yields (isDescendantOf folders b a) below ∧
    (a ∈ ancestors ↔ b ∈ descendants) ∧ (b ∈ descendants ↔ below = true)

/-- The breadcrumb of `b` is its ancestors, outermost first, and then `b`. -/
def PathOfAncestors (folders : List DbFolder) (b : String) : Prop :=
  ∃ path ancestors, Yields (getFolderPath folders b) path ∧
    Yields (getAncestorIds folders b) ancestors ∧
    path.map DbFolder.id = ancestors.reverse ++ [b]

structure WellBehaved (folders : List DbFolder) : Prop where
  ends : ∀ id, Ends folders id
  distinct : ∀ id descendants, Yields (getDescendantIds folders id) descendants →
    descendants.Nodup
  placed : ∀ f ∈ folders, ∃! position, (buildFolderTree folders).at? position = some f
  agree : Acyclic (link folders) → ∀ a ∈ folders.map DbFolder.id, ∀ b, Agree folders a b
  path : Acyclic (link folders) → ∀ b ∈ folders.map DbFolder.id, PathOfAncestors folders b

/-- Some folder names the empty string, which the walks take for no parent. -/
def NamesEmpty (folders : List DbFolder) : Prop := ∃ f ∈ folders, f.parent_id = some ""

theorem ends_of_above (hids : Keyed folders) (has : Above (link folders) id as) :
    Ends folders id where
  path := ⟨_, getFolderPath_yields has⟩
  root := getRootFolder_halts has
  descendant := fun anc => by
    obtain ⟨r, hr, _⟩ := descendant_yields anc has
    exact ⟨r, hr⟩
  ancestors := ⟨_, getAncestorIds_yields hids has⟩
  descendants := ⟨_, getDescendantIds_yields hids has.not_below⟩
  conflicts := fun sessionFolderIds => ⟨_, (findBranchConflicts_yields sessionFolderIds id _).mpr
    ⟨_, _, getAncestorIds_yields hids has, getDescendantIds_yields hids has.not_below, rfl⟩⟩

theorem acyclic_iff_above (hids : Keyed folders) :
    Acyclic (link folders) ↔ ∀ id, ∃ as, Above (link folders) id as :=
  acyclic_iff (link_nodes hids)

theorem distinct_descendants (hids : Keyed folders) (hacyc : Acyclic (link folders))
    {descendants : List String} (h : Yields (getDescendantIds folders id) descendants) :
    descendants.Nodup := by
  have heq := (getDescendantIds_steady folders id).unique h
    (getDescendantIds_yields hids (hacyc id))
  rw [heq]
  exact rows_nodup (mem_childIds hids) (childIds_nodup hids) (hacyc id)

theorem isDescendantOf_steady (id anc : String) : Steady (isDescendantOf folders id anc) :=
  run_steady _ _

theorem not_below_empty (hids : Keyed folders) : ¬Below (link folders) b "" := by
  intro h
  obtain ⟨x, hx⟩ := h.exists_up
  obtain ⟨f, _, _, hp⟩ := (link_eq_some hids).mp hx
  exact (truthy_eq_some.mp hp).2 rfl

/-- The functions agree on `a` and `b` unless `a` is a parent that is no folder, or the empty
string. -/
theorem agree_iff (hids : Keyed folders) (hacyc : Acyclic (link folders))
    (has : Above (link folders) b as) : Agree folders a b ↔
      (Below (link folders) b a → a ∈ folders.map DbFolder.id) ∧
      (a = "" → ¬Names folders "" (b :: as)) := by
  have hancs := getAncestorIds_yields hids has
  have hdescs := getDescendantIds_yields hids (hacyc a)
  obtain ⟨below, hbelow, hnames⟩ := descendant_yields a has
  have hmem : a ∈ as.filter (fun a => ((byId folders).get a).isSome) ↔
      Below (link folders) b a ∧ a ∈ folders.map DbFolder.id := by
    rw [List.mem_filter, has.mem_iff, get_byId_isSome hids]
  have hdesc := mem_descendants hids (hacyc a) b
  have hagree : Agree folders a b ↔
      (Below (link folders) b a ∧ a ∈ folders.map DbFolder.id ↔ Below (link folders) b a) ∧
      (Below (link folders) b a ↔ Names folders a (b :: as)) := by
    constructor
    · rintro ⟨ancestors, descendants, r, ha, hd, hr, h1, h2⟩
      rw [(getAncestorIds_steady folders b).unique ha hancs, hmem] at h1
      rw [(getDescendantIds_steady folders a).unique hd hdescs, hdesc] at h1 h2
      rw [(isDescendantOf_steady b a).unique hr hbelow, hnames] at h2
      exact ⟨h1, h2⟩
    · rintro ⟨h1, h2⟩
      refine ⟨_, _, below, hancs, hdescs, hbelow, ?_, ?_⟩
      · rw [hmem, hdesc]
        exact h1
      · rw [hdesc, hnames]
        exact h2
  rw [hagree]
  by_cases ha : a = ""
  · subst ha
    simp [not_below_empty hids]
  · simp [names_iff has ha, ha]

theorem pathOfAncestors (hids : Keyed folders) (hacyc : Acyclic (link folders))
    (hb : b ∈ folders.map DbFolder.id) : PathOfAncestors folders b := by
  obtain ⟨as, has⟩ := (acyclic_iff_above hids).mp hacyc b
  refine ⟨_, _, getFolderPath_yields has, getAncestorIds_yields hids has, ?_⟩
  have hmap : ∀ ids : List String, (ids.filterMap (byId folders).get).map DbFolder.id =
      ids.filter (fun a => ((byId folders).get a).isSome) := by
    intro ids
    induction ids with
    | nil => rfl
    | cons x ids ih =>
      cases hx : (byId folders).get x with
      | none => simp [hx, ih]
      | some g => simp [hx, ih, ((get_byId hids).mp hx).2]
  have hknown := (get_byId_isSome hids).mpr hb
  rw [List.map_reverse, hmap]
  simp [hknown]

theorem names_empty (hids : Keyed folders) {ids : List String}
    (h : Names folders "" ids) : NamesEmpty folders := by
  obtain ⟨x, _, f, hget, hp⟩ := h
  exact ⟨f, ((get_byId hids).mp hget).1, hp⟩

theorem wellBehaved_of_acyclic (hids : Keyed folders) (hacyc : Acyclic (link folders))
    (hempty : "" ∈ folders.map DbFolder.id → ¬NamesEmpty folders) : WellBehaved folders where
  ends := fun id => by
    obtain ⟨as, has⟩ := (acyclic_iff_above hids).mp hacyc id
    exact ends_of_above hids has
  distinct := fun _ _ h => distinct_descendants hids hacyc h
  placed := fun f hf => by
    obtain ⟨as, has⟩ := (acyclic_iff_above hids).mp hacyc f.id
    exact placed_once hids (buildFolderTree_placed hids) has hf
  agree := fun _ a ha b => by
    obtain ⟨as, has⟩ := (acyclic_iff_above hids).mp hacyc b
    refine (agree_iff hids hacyc has).mpr ⟨fun _ => ha, ?_⟩
    rintro rfl hnames
    exact hempty ha (names_empty hids hnames)
  path := fun _ b hb => pathOfAncestors hids hacyc hb

theorem acyclic_of_ends (hids : Keyed folders) (h : ∀ id, Ends folders id) :
    Acyclic (link folders) :=
  (acyclic_iff_above hids).mpr (fun id => above_of_halts (h id).path)

theorem agree_parent (hids : Keyed folders) (hacyc : Acyclic (link folders)) (hf : f ∈ folders)
    {p : String} (hp : f.parent_id = some p) (h : Agree folders p f.id) :
    p ≠ "" ∧ p ∈ folders.map DbFolder.id := by
  obtain ⟨as, has⟩ := (acyclic_iff_above hids).mp hacyc f.id
  obtain ⟨hknown, hnames⟩ := (agree_iff hids hacyc has).mp h
  have hne : p ≠ "" := by
    rintro rfl
    exact hnames rfl ⟨f.id, List.mem_cons_self, f, (get_byId hids).mpr ⟨hf, rfl⟩, hp⟩
  have hlink := (link_eq_some hids).mpr ⟨f, hf, rfl, truthy_eq_some.mpr ⟨hp, hne⟩⟩
  exact ⟨hne, hknown (below_of_up hlink)⟩

/-- Over folders with distinct ids the tree functions behave exactly when no folder is its own
ancestor, and they agree about every id exactly when each parent is also a folder. -/
theorem wellBehaved_iff_acyclic (hids : Keyed folders) :
    (WellBehaved folders ↔ Acyclic (link folders) ∧
      ("" ∈ folders.map DbFolder.id → ¬NamesEmpty folders)) ∧
    (WellBehaved folders ∧ (∀ a b, Agree folders a b) ↔ Acyclic (link folders) ∧
      ∀ f ∈ folders, ∀ p, f.parent_id = some p → p ≠ "" ∧ p ∈ folders.map DbFolder.id) := by
  constructor
  · constructor
    · intro h
      have hacyc := acyclic_of_ends hids h.ends
      refine ⟨hacyc, ?_⟩
      rintro hmem ⟨f, hf, hp⟩
      exact (agree_parent hids hacyc hf hp (h.agree hacyc "" hmem f.id)).1 rfl
    · rintro ⟨hacyc, hempty⟩
      exact wellBehaved_of_acyclic hids hacyc hempty
  · constructor
    · rintro ⟨h, hagree⟩
      have hacyc := acyclic_of_ends hids h.ends
      exact ⟨hacyc, fun f hf p hp => agree_parent hids hacyc hf hp (hagree p f.id)⟩
    · rintro ⟨hacyc, hknown⟩
      have hnone : ¬NamesEmpty folders := by
        rintro ⟨f, hf, hp⟩
        exact (hknown f hf "" hp).1 rfl
      refine ⟨wellBehaved_of_acyclic hids hacyc (fun _ => hnone), fun a b => ?_⟩
      obtain ⟨as, has⟩ := (acyclic_iff_above hids).mp hacyc b
      refine (agree_iff hids hacyc has).mpr ⟨fun hbelow => ?_, ?_⟩
      · obtain ⟨x, hx⟩ := hbelow.exists_up
        obtain ⟨f, hf, _, hp⟩ := (link_eq_some hids).mp hx
        exact (hknown f hf a (truthy_eq_some.mp hp).1).2
      · exact fun _ hnames => hnone (names_empty hids hnames)

def nested : List DbFolder := [⟨"A", none⟩, ⟨"B", some "A"⟩]

theorem nested_wellBehaved : WellBehaved nested := by
  have hids : Keyed nested := by unfold Keyed; decide
  refine (wellBehaved_iff_acyclic hids).1.mpr ⟨(acyclic_iff_above hids).mpr (fun id => ?_), ?_⟩
  · have htop : link nested "A" = none := by decide
    by_cases hB : id = "B"
    · subst hB
      exact ⟨["A"], .link (by decide) (.top htop)⟩
    · refine ⟨[], .top (Option.eq_none_iff_forall_ne_some.mpr (fun a ha => ?_))⟩
      obtain ⟨f, hf, rfl, hp⟩ := (link_eq_some hids).mp ha
      simp only [nested, List.mem_cons, List.not_mem_nil, or_false] at hf
      obtain rfl | rfl := hf
      · simp [truthy] at hp
      · exact hB rfl
  · intro h
    simp [nested] at h

/-- `A` was moved into `B` on one device while `B` was moved into `A` on another. -/
def crossedMoves : List DbFolder := [⟨"A", some "B"⟩, ⟨"B", some "A"⟩]

/-- No walk up from a folder on the cycle ends, and the forest has no place for it. -/
theorem crossedMoves_not_wellBehaved : ¬WellBehaved crossedMoves ∧
    ¬Halts (getFolderPath crossedMoves "A") ∧ (buildFolderTree crossedMoves).roots = [] := by
  have hlinkA : link crossedMoves "A" = some "B" := by decide
  have hlinkB : link crossedMoves "B" = some "A" := by decide
  have hcycle : Below (link crossedMoves) "A" "A" := ⟨1, by simp [climb, hlinkA, hlinkB]⟩
  have hpath : ¬Halts (getFolderPath crossedMoves "A") := by
    intro h
    obtain ⟨as, has⟩ := above_of_halts h
    exact has.not_below hcycle
  exact ⟨fun h => hpath (h.ends "A").path, hpath, by decide⟩

end YapStack.Folders
