import YapStack.Folders.Walks

set_option linter.unusedSectionVars false

namespace YapStack.Folders

section Descent

open Loops Climbs

variable {folders : List DbFolder} {f : DbFolder} {id a p : String} {n : ℕ}

def childIds (folders : List DbFolder) (p : String) : List String :=
  (folders.filter (fun f => truthy f.parent_id = some p)).map DbFolder.id

theorem addChild_get (childMap : JsMap String (List String)) (f : DbFolder) (p : String) :
    ((addChild childMap f).get p).getD [] =
      (childMap.get p).getD [] ++ if truthy f.parent_id = some p then [f.id] else [] := by
  cases h : truthy f.parent_id with
  | none => simp [addChild, h]
  | some q =>
    simp only [addChild, h, JsMap.get_set, Option.some.injEq]
    by_cases hpq : p = q
    · simp [hpq]
    · simp [hpq, Ne.symm hpq]

theorem foldl_addChild_get (childMap : JsMap String (List String)) (folders : List DbFolder)
    (p : String) : ((folders.foldl addChild childMap).get p).getD [] =
      (childMap.get p).getD [] ++ childIds folders p := by
  induction folders generalizing childMap with
  | nil => simp [childIds]
  | cons f folders ih =>
    rw [List.foldl_cons, ih, addChild_get, List.append_assoc]
    by_cases h : truthy f.parent_id = some p
    · simp [childIds, h]
    · simp [childIds, h]

theorem buildChildMap_get (folders : List DbFolder) (p : String) :
    ((buildChildMap folders).get p).getD [] = childIds folders p := by
  rw [buildChildMap, foldl_addChild_get]
  simp [JsMap.empty, JsMap.get]

theorem mem_childIds (hids : Keyed folders) (p x : String) :
    x ∈ childIds folders p ↔ link folders x = some p := by
  rw [link_eq_some hids]
  simp only [childIds, List.mem_map, List.mem_filter, decide_eq_true_eq]
  constructor
  · rintro ⟨f, ⟨hf, hp⟩, hid⟩
    exact ⟨f, hf, hid, hp⟩
  · rintro ⟨f, hf, hid, hp⟩
    exact ⟨f, ⟨hf, hp⟩, hid⟩

theorem childIds_nodup (hids : Keyed folders) (p : String) : (childIds folders p).Nodup :=
  List.Nodup.sublist (List.filter_sublist.map _) hids

theorem childTurn_nil (map : JsMap String (List String)) (descendants : List String) :
    childTurn map ([], descendants) = .inr descendants := rfl

theorem childTurn_cons (id : String) (queue descendants : List String) :
    childTurn (buildChildMap folders) (id :: queue, descendants) =
      .inl (queue ++ childIds folders id, descendants ++ [id]) := by
  rw [← buildChildMap_get]
  rfl

variable (folders) in
/-- The queue is worked off row by row of the tree. -/
theorem queue_yields (row rest descendants : List String) (r : List String) :
    Yields (fun n => run (childTurn (buildChildMap folders)) n (row ++ rest, descendants)) r ↔
      Yields (fun n => run (childTurn (buildChildMap folders)) n
        (rest ++ row.flatMap (childIds folders), descendants ++ row)) r := by
  induction row generalizing rest descendants with
  | nil => simp
  | cons id row ih =>
    rw [List.cons_append, yields_next (childTurn_cons id _ _), List.append_assoc, ih]
    simp [List.append_assoc]

theorem level_yields (id : String) (r : List String) (n : ℕ) :
    Yields (getDescendantIds folders id) r ↔
      Yields (fun k => run (childTurn (buildChildMap folders)) k
        (level (childIds folders) n id, rows (childIds folders) n id)) r := by
  induction n with
  | zero =>
    have hstart : getDescendantIds folders id = fun k =>
        run (childTurn (buildChildMap folders)) k (childIds folders id, []) := by
      funext k
      rw [getDescendantIds, buildChildMap_get]
    rw [hstart]
    rfl
  | succ n ih =>
    have h := queue_yields folders (level (childIds folders) n id) []
      (rows (childIds folders) n id) r
    rw [List.append_nil, List.nil_append] at h
    rw [ih, h, rows_succ]
    rfl

theorem getDescendantIds_yields (hids : Keyed folders)
    (hid : ¬Below (link folders) id id) :
    Yields (getDescendantIds folders id) (rows (childIds folders) folders.length id) := by
  rw [level_yields id _ folders.length]
  have hnil := level_eq_nil (link_nodes hids) (mem_childIds hids) hid
  rw [List.length_map] at hnil
  rw [hnil, yields_done (childTurn_nil _ _)]

theorem mem_descendants (hids : Keyed folders) (hid : ¬Below (link folders) id id) (x : String) :
    x ∈ rows (childIds folders) folders.length id ↔ Below (link folders) x id := by
  have h := mem_rows (link_nodes hids) (mem_childIds hids) hid (x := x)
  rwa [List.length_map] at h

variable (folders) in
theorem getDescendantIds_steady (id : String) : Steady (getDescendantIds folders id) :=
  run_steady _ _

variable (folders) in
theorem getAncestorIds_steady (id : String) : Steady (getAncestorIds folders id) :=
  run_steady _ _

theorem findBranchConflicts_yields (sessionFolderIds : List String) (target : String)
    (r : List String) :
    Yields (findBranchConflicts folders sessionFolderIds target) r ↔
      ∃ ancestors descendants, Yields (getAncestorIds folders target) ancestors ∧
        Yields (getDescendantIds folders target) descendants ∧
        sessionFolderIds.filter (fun id =>
          id ≠ target ∧ (id ∈ ancestors ∨ id ∈ descendants)) = r := by
  have hmap : ∀ ancestors : List String, Steady (fun n =>
      (getDescendantIds folders target n).map (fun descendants =>
        sessionFolderIds.filter (fun id =>
          id ≠ target ∧ (id ∈ ancestors ∨ id ∈ descendants)))) := by
    intro ancestors n m q hnm hq
    obtain ⟨ds, hds, rfl⟩ := Option.map_eq_some_iff.mp hq
    exact Option.map_eq_some_iff.mpr ⟨ds, getDescendantIds_steady folders target n m ds hnm hds, rfl⟩
  have h := (getAncestorIds_steady folders target).yields_bind hmap r
  simp only [yields_map] at h
  refine h.trans ?_
  simp only [exists_and_left]

end Descent

section Forest

open Climbs

variable {folders placed : List DbFolder} {f g : DbFolder} {id a : String} {as : List String}

def rootIds (folders : List DbFolder) : List String :=
  (folders.filter (fun f => (parentOf (byId folders) f).isNone)).map DbFolder.id

/-- The forest while it is built: the folders of `placed` hang where they belong. -/
structure Placed (folders placed : List DbFolder) (forest : Forest) : Prop where
  nodes : ∀ p, forest.nodes.get p =
    ((byId folders).get p).map (fun g => ⟨g, childIds placed p⟩)
  roots : forest.roots =
    (placed.filter (fun f => (parentOf (byId folders) f).isNone)).map DbFolder.id

theorem childIds_append (placed : List DbFolder) (f : DbFolder) (p : String) :
    childIds (placed ++ [f]) p =
      childIds placed p ++ if truthy f.parent_id = some p then [f.id] else [] := by
  by_cases h : truthy f.parent_id = some p
  · simp [childIds, h]
  · simp [childIds, h]

theorem placed_place {forest : Forest} (h : Placed folders placed forest) (f : DbFolder) :
    Placed folders (placed ++ [f]) (place forest f) := by
  have hroot : parentOf (byId folders) f = none → truthy f.parent_id = none ∨
      (∃ p, truthy f.parent_id = some p ∧ (byId folders).get p = none) := by
    intro hnone
    cases ht : truthy f.parent_id with
    | none => exact Or.inl rfl
    | some p => exact Or.inr ⟨p, rfl, by simpa [parentOf, ht] using hnone⟩
  cases hparent : parentOf (byId folders) f with
  | none =>
    have hplace : place forest f = { forest with roots := forest.roots ++ [f.id] } := by
      obtain ht | ⟨p, ht, hp⟩ := hroot hparent
      · simp only [place, ht]
      · simp only [place, ht, h.nodes, hp, Option.map_none]
    rw [hplace]
    refine ⟨fun p => ?_, ?_⟩
    · rw [h.nodes p]
      cases hp : (byId folders).get p with
      | none => rfl
      | some g =>
        have hne : truthy f.parent_id ≠ some p := by
          obtain ht | ⟨q, ht, hq⟩ := hroot hparent
          · simp [ht]
          · rintro heq
            obtain rfl := Option.some.inj (ht.symm.trans heq)
            simp [hp] at hq
        rw [childIds_append, if_neg hne, List.append_nil]
    · simp [h.roots, hparent]
  | some g =>
    obtain ⟨p, ht, hp⟩ := Option.bind_eq_some_iff.mp hparent
    have hplace : place forest f = { forest with
        nodes := forest.nodes.set p ⟨g, childIds placed p ++ [f.id]⟩ } := by
      simp only [place, ht, h.nodes, hp, Option.map_some]
    rw [hplace]
    refine ⟨fun q => ?_, ?_⟩
    · simp only [JsMap.get_set, h.nodes, childIds_append, ht, Option.some.injEq]
      by_cases hqp : q = p
      · simp [hqp, hp]
      · simp [hqp, Ne.symm hqp]
    · simp [h.roots, hparent]

theorem foldl_placed {forest : Forest} (h : Placed folders placed forest)
    (rest : List DbFolder) : Placed folders (placed ++ rest) (rest.foldl place forest) := by
  induction rest generalizing placed forest with
  | nil => rwa [List.append_nil]
  | cons f rest ih =>
    have h' := ih (placed_place h f)
    rwa [List.append_assoc] at h'

theorem buildFolderTree_placed (hids : Keyed folders) :
    Placed folders folders (buildFolderTree folders) := by
  let map : JsMap String FolderTreeNode :=
    JsMap.ofList DbFolder.id (fun folder => ⟨folder, []⟩) folders
  have hentries : map.entries = folders.map (fun f => (f.id, ⟨f, []⟩)) :=
    JsMap.ofList_entries hids
  have hvalues : map.values.map FolderTreeNode.folder = folders := by
    simp [JsMap.values, hentries, Function.comp_def]
  have hstart : Placed folders [] ⟨map, []⟩ := by
    refine ⟨fun p => ?_, rfl⟩
    ext node
    rw [JsMap.get_eq_some, hentries, Option.map_eq_some_iff]
    simp only [List.mem_map, Prod.mk.injEq, get_byId hids, childIds, List.filter_nil,
      List.map_nil]
    constructor
    · rintro ⟨g, hg, rfl, rfl⟩
      exact ⟨g, ⟨hg, rfl⟩, rfl⟩
    · rintro ⟨g, ⟨hg, rfl⟩, rfl⟩
      exact ⟨g, hg, rfl, rfl⟩
  have h := foldl_placed hstart folders
  rw [List.nil_append] at h
  have heq : buildFolderTree folders = folders.foldl place ⟨map, []⟩ := by
    show (map.values.map FolderTreeNode.folder).foldl place ⟨map, []⟩ = _
    rw [hvalues]
  rwa [heq]

variable {forest : Forest} {position : List ℕ} {refs : List String} {i : ℕ}

theorem follow_single (forest : Forest) (refs : List String) (i : ℕ) :
    forest.follow refs [i] = (refs[i]?.bind forest.nodes.get).map FolderTreeNode.folder := by
  rw [Option.map_eq_bind]
  simp only [Forest.follow, if_true]
  exact congrArg (Option.bind _) (funext fun _ => rfl)

theorem Placed.follow_single (h : Placed folders folders forest) (refs : List String) (i : ℕ) :
    forest.follow refs [i] = refs[i]?.bind (byId folders).get := by
  rw [Folders.follow_single]
  cases refs[i]? with
  | none => rfl
  | some r =>
    simp only [Option.bind_some, h.nodes, Option.map_map]
    cases (byId folders).get r <;> rfl

theorem Placed.follow_snoc (hids : Keyed folders) (h : Placed folders folders forest)
    (refs : List String) (hne : position ≠ []) (i : ℕ) :
    forest.follow refs (position ++ [i]) = (forest.follow refs position).bind
      (fun g => forest.follow (childIds folders g.id) [i]) := by
  induction position generalizing refs with
  | nil => exact absurd rfl hne
  | cons j position ih =>
    rw [List.cons_append, Forest.follow, Forest.follow, Option.bind_assoc]
    cases hj : refs[j]? with
    | none => rfl
    | some r =>
      simp only [Option.bind_some, h.nodes]
      cases hr : (byId folders).get r with
      | none => rfl
      | some g =>
        obtain rfl := ((get_byId hids).mp hr).2
        have hsnoc : position ++ [i] ≠ [] := by simp
        simp only [Option.map_some, Option.bind_some, if_neg hsnoc]
        by_cases hp : position = []
        · simp [hp]
        · rw [if_neg hp]
          exact ih _ hp

theorem Placed.at_single (h : Placed folders folders forest) (i : ℕ) :
    forest.at? [i] = (rootIds folders)[i]?.bind (byId folders).get := by
  rw [Forest.at?, h.follow_single, h.roots, rootIds]

theorem Placed.at_snoc (hids : Keyed folders) (h : Placed folders folders forest)
    (hne : position ≠ []) (i : ℕ) : forest.at? (position ++ [i]) =
      (forest.at? position).bind
        (fun g => (childIds folders g.id)[i]?.bind (byId folders).get) := by
  rw [Forest.at?, h.follow_snoc hids _ hne]
  exact congrArg (Option.bind _) (funext fun g => h.follow_single _ i)

theorem getElem_bind_get (hids : Keyed folders) (refs : List String) (i : ℕ) :
    refs[i]?.bind (byId folders).get = some f ↔ refs[i]? = some f.id ∧ f ∈ folders := by
  simp only [Option.bind_eq_some_iff, get_byId hids]
  constructor
  · rintro ⟨r, hr, hf, rfl⟩
    exact ⟨hr, hf⟩
  · rintro ⟨hr, hf⟩
    exact ⟨f.id, hr, hf, rfl⟩

theorem mem_rootIds (hids : Keyed folders) (hf : f ∈ folders) :
    f.id ∈ rootIds folders ↔ parentOf (byId folders) f = none := by
  simp only [rootIds, List.mem_map, List.mem_filter, Option.isNone_iff_eq_none]
  constructor
  · rintro ⟨g, ⟨hg, hnone⟩, heq⟩
    rwa [List.inj_on_of_nodup_map hids hf hg heq.symm]
  · intro hnone
    exact ⟨f, ⟨hf, hnone⟩, rfl⟩

theorem rootIds_nodup (hids : Keyed folders) : (rootIds folders).Nodup :=
  List.Nodup.sublist (List.filter_sublist.map _) hids

theorem at_empty (forest : Forest) : forest.at? [] = none := by
  rw [Forest.at?, Forest.follow]

/-- What stands at a position is a root, or the child of what stands before. -/
theorem Placed.at_cases (hids : Keyed folders) (h : Placed folders folders forest)
    (hat : forest.at? position = some f) : f ∈ folders ∧
      ((∃ i, position = [i] ∧ (rootIds folders)[i]? = some f.id) ∨
        ∃ q i g, position = q ++ [i] ∧ forest.at? q = some g ∧
          (childIds folders g.id)[i]? = some f.id) := by
  obtain rfl | ⟨q, i, rfl⟩ := position.eq_nil_or_concat'
  · simp [at_empty] at hat
  · by_cases hq : q = []
    · subst hq
      rw [List.nil_append, h.at_single, getElem_bind_get hids] at hat
      exact ⟨hat.2, Or.inl ⟨i, rfl, hat.1⟩⟩
    · rw [h.at_snoc hids hq] at hat
      obtain ⟨g, hg, hf⟩ := Option.bind_eq_some_iff.mp hat
      rw [getElem_bind_get hids] at hf
      exact ⟨hf.2, Or.inr ⟨q, i, g, rfl, hg, hf.1⟩⟩

theorem exists_index {ids : List String} (hids : ids.Nodup) (h : id ∈ ids) :
    ∃ i : ℕ, ids[i]? = some id ∧ ∀ j : ℕ, ids[j]? = some id → j = i := by
  obtain ⟨i, hi⟩ := List.mem_iff_getElem?.mp h
  refine ⟨i, hi, fun j hj => ?_⟩
  obtain ⟨hlt, _⟩ := List.getElem?_eq_some_iff.mp hj
  exact (List.getElem?_inj hlt hids).mp (hj.trans hi.symm)

theorem parentOf_eq_some (hids : Keyed folders) (hf : f ∈ folders) :
    parentOf (byId folders) f = some g ↔ link folders f.id = some g.id ∧ g ∈ folders := by
  have hget := (get_byId hids).mpr ⟨hf, rfl⟩
  simp only [link_of_get hget, parentOf, Option.bind_eq_some_iff, get_byId hids]
  constructor
  · rintro ⟨p, hp, hg, rfl⟩
    exact ⟨hp, hg⟩
  · rintro ⟨hp, hg⟩
    exact ⟨g.id, hp, hg, rfl⟩

theorem root_once (hids : Keyed folders) (h : Placed folders folders forest) (hf : f ∈ folders)
    (hroot : parentOf (byId folders) f = none) :
    ∃! position, forest.at? position = some f := by
  obtain ⟨i, hi, honly⟩ := exists_index (rootIds_nodup hids) ((mem_rootIds hids hf).mpr hroot)
  refine ⟨[i], ?_, fun position hat => ?_⟩
  · show forest.at? [i] = some f
    rw [h.at_single, getElem_bind_get hids]
    exact ⟨hi, hf⟩
  · obtain ⟨_, ⟨j, rfl, hj⟩ | ⟨q, j, g, rfl, hg, hj⟩⟩ := h.at_cases hids hat
    · rw [honly j hj]
    · have hlink := (mem_childIds hids g.id f.id).mp (List.mem_of_getElem? hj)
      have hparent := (parentOf_eq_some hids hf).mpr ⟨hlink, (h.at_cases hids hg).1⟩
      simp [hroot] at hparent

theorem child_once (hids : Keyed folders) (h : Placed folders folders forest) (hf : f ∈ folders)
    (hparent : parentOf (byId folders) f = some g)
    (hg : ∃! position, forest.at? position = some g) :
    ∃! position, forest.at? position = some f := by
  obtain ⟨hlink, hmem⟩ := (parentOf_eq_some hids hf).mp hparent
  obtain ⟨i, hi, honly⟩ := exists_index (childIds_nodup hids g.id)
    ((mem_childIds hids g.id f.id).mpr hlink)
  obtain ⟨q, hq, hqonly⟩ := hg
  have hne : q ≠ [] := by
    rintro rfl
    simp [at_empty] at hq
  refine ⟨q ++ [i], ?_, fun position hat => ?_⟩
  · show forest.at? (q ++ [i]) = some f
    rw [h.at_snoc hids hne, hq, Option.bind_some, getElem_bind_get hids]
    exact ⟨hi, hf⟩
  · obtain ⟨_, ⟨j, rfl, hj⟩ | ⟨q', j, g', rfl, hg', hj⟩⟩ := h.at_cases hids hat
    · have hroot := (mem_rootIds hids hf).mp (List.mem_of_getElem? hj)
      simp [hroot] at hparent
    · have hlink' := (mem_childIds hids g'.id f.id).mp (List.mem_of_getElem? hj)
      have heq : g' = g := by
        have hid := Option.some.inj (hlink'.symm.trans hlink)
        exact List.inj_on_of_nodup_map hids (h.at_cases hids hg').1 hmem hid
      subst heq
      rw [hqonly q' hg', honly j hj]

/-- Where the parent links of a folder end, it has exactly one place in the forest. -/
theorem placed_once (hids : Keyed folders) (h : Placed folders folders forest)
    (has : Above (link folders) f.id as) (hf : f ∈ folders) :
    ∃! position, forest.at? position = some f := by
  obtain ⟨id, hid⟩ : ∃ id, id = f.id := ⟨_, rfl⟩
  rw [← hid] at has
  induction has generalizing f with
  | @top id hlink =>
    refine root_once hids h hf (Option.eq_none_iff_forall_ne_some.mpr (fun g hg => ?_))
    have hlink' := ((parentOf_eq_some hids hf).mp hg).1
    simp [← hid, hlink] at hlink'
  | @link id a as hlink _ ih =>
    cases hparent : parentOf (byId folders) f with
    | none => exact root_once hids h hf hparent
    | some g =>
      obtain ⟨hlink', hg⟩ := (parentOf_eq_some hids hf).mp hparent
      rw [← hid, hlink] at hlink'
      exact child_once hids h hf hparent (ih hg (Option.some.inj hlink'))

end Forest

end YapStack.Folders
