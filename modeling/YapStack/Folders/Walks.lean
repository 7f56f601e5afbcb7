import YapStack.Foundation.Climbs
import YapStack.Foundation.JsMap
import YapStack.Foundation.Loops

set_option linter.unusedSectionVars false

namespace YapStack.Folders

section Tree

open Loops

structure DbFolder where
  id : String
  parent_id : Option String
  deriving DecidableEq, Repr

abbrev FolderMap := JsMap String DbFolder

/-- `new Map(folders.map((f) => [f.id, f]))`. -/
def byId (folders : List DbFolder) : FolderMap := JsMap.ofList DbFolder.id id folders

/-- A `parent_id` that JavaScript takes for true: neither `null` nor the empty string. -/
def truthy (parent_id : Option String) : Option String := parent_id.filter (· ≠ "")

/-- `current.parent_id ? map.get(current.parent_id) : undefined`. -/
def parentOf (map : FolderMap) (current : DbFolder) : Option DbFolder :=
  (truthy current.parent_id).bind map.get

/-- A node of the tree. Its children are references into the map it was built in. -/
structure FolderTreeNode where
  folder : DbFolder
  children : List String

structure Forest where
  nodes : JsMap String FolderTreeNode
  roots : List String

def place (forest : Forest) (folder : DbFolder) : Forest :=
  match truthy folder.parent_id with
  | none => { forest with roots := forest.roots ++ [folder.id] }
  | some p =>
    match forest.nodes.get p with
    | none => { forest with roots := forest.roots ++ [folder.id] }
    | some parent =>
      { forest with
        nodes := forest.nodes.set p { parent with children := parent.children ++ [folder.id] } }

def buildFolderTree (folders : List DbFolder) : Forest :=
  let map := JsMap.ofList DbFolder.id (fun folder => ⟨folder, []⟩) folders
  (map.values.map FolderTreeNode.folder).foldl place ⟨map, []⟩

/-- What stands at a position of the forest: which root, then which child, and so on. -/
def Forest.follow (forest : Forest) : List String → List ℕ → Option DbFolder
  | _, [] => none
  | refs, i :: position =>
    (refs[i]?.bind forest.nodes.get).bind (fun node =>
      if position = [] then some node.folder else forest.follow node.children position)

def Forest.at? (forest : Forest) (position : List ℕ) : Option DbFolder :=
  forest.follow forest.roots position

def pathTurn (map : FolderMap) :
    Option DbFolder × List DbFolder → (Option DbFolder × List DbFolder) ⊕ List DbFolder
  | (none, path) => .inr path
  | (some current, path) => .inl (parentOf map current, current :: path)

def getFolderPath (folders : List DbFolder) (folderId : String) (fuel : ℕ) :
    Option (List DbFolder) :=
  run (pathTurn (byId folders)) fuel ((byId folders).get folderId, [])

def rootTurn (map : FolderMap) (current : DbFolder) : DbFolder ⊕ DbFolder :=
  match truthy current.parent_id with
  | none => .inr current
  | some p =>
    match map.get p with
    | none => .inr current
    | some parent => .inl parent

def getRootFolder (folders : List DbFolder) (folderId : String) (fuel : ℕ) :
    Option (Option DbFolder) :=
  match (byId folders).get folderId with
  | none => some none
  | some current => (run (rootTurn (byId folders)) fuel current).map some

def descendantTurn (map : FolderMap) (ancestorId : String) :
    Option DbFolder → Option DbFolder ⊕ Bool
  | none => .inr false
  | some current =>
    if current.parent_id = some ancestorId then .inr true else .inl (parentOf map current)

def isDescendantOf (folders : List DbFolder) (candidateDescendantId ancestorId : String)
    (fuel : ℕ) : Option Bool :=
  run (descendantTurn (byId folders) ancestorId) fuel ((byId folders).get candidateDescendantId)

def ancestorTurn (map : FolderMap) :
    Option DbFolder × List String → (Option DbFolder × List String) ⊕ List String
  | (none, ancestors) => .inr ancestors
  | (some current, ancestors) =>
    match truthy current.parent_id with
    | none => .inr ancestors
    | some p =>
      match map.get p with
      | none => .inr ancestors
      | some parent => .inl (some parent, ancestors ++ [parent.id])

def getAncestorIds (folders : List DbFolder) (folderId : String) (fuel : ℕ) :
    Option (List String) :=
  run (ancestorTurn (byId folders)) fuel ((byId folders).get folderId, [])

def addChild (childMap : JsMap String (List String)) (f : DbFolder) :
    JsMap String (List String) :=
  match truthy f.parent_id with
  | none => childMap
  | some p => childMap.set p ((childMap.get p).getD [] ++ [f.id])

def buildChildMap (folders : List DbFolder) : JsMap String (List String) :=
  folders.foldl addChild JsMap.empty

def childTurn (map : JsMap String (List String)) :
    List String × List String → (List String × List String) ⊕ List String
  | ([], descendants) => .inr descendants
  | (id :: queue, descendants) =>
    .inl (queue ++ (map.get id).getD [], descendants ++ [id])

def getDescendantIds (folders : List DbFolder) (folderId : String) (fuel : ℕ) :
    Option (List String) :=
  let map := buildChildMap folders
  run (childTurn map) fuel ((map.get folderId).getD [], [])

def findBranchConflicts (folders : List DbFolder) (sessionFolderIds : List String)
    (targetFolderId : String) (fuel : ℕ) : Option (List String) :=
  (getAncestorIds folders targetFolderId fuel).bind (fun ancestors =>
    (getDescendantIds folders targetFolderId fuel).map (fun descendants =>
      sessionFolderIds.filter (fun id =>
        id ≠ targetFolderId ∧ (id ∈ ancestors ∨ id ∈ descendants))))

end Tree

section Walks

open Loops Climbs

variable {folders : List DbFolder} {f g : DbFolder} {id a : String} {as : List String}

theorem truthy_eq_some {parent_id : Option String} :
    truthy parent_id = some a ↔ parent_id = some a ∧ a ≠ "" := by
  simp [truthy, Option.filter_eq_some_iff]

/-- The parent that a folder names, whether or not there is such a folder. -/
def link (folders : List DbFolder) (id : String) : Option String :=
  ((byId folders).get id).bind (fun f => truthy f.parent_id)

/-- No two rows of `folders` have the same primary key. -/
def Keyed (folders : List DbFolder) : Prop := (folders.map DbFolder.id).Nodup

theorem get_byId (hids : Keyed folders) :
    (byId folders).get id = some f ↔ f ∈ folders ∧ f.id = id := by
  rw [JsMap.get_eq_some, byId, JsMap.ofList_entries hids, List.mem_map]
  constructor
  · rintro ⟨g, hg, heq⟩
    obtain ⟨rfl, rfl⟩ := Prod.mk.inj heq
    exact ⟨hg, rfl⟩
  · rintro ⟨hf, rfl⟩
    exact ⟨f, hf, rfl⟩

theorem get_byId_isSome (hids : Keyed folders) :
    ((byId folders).get id).isSome ↔ id ∈ folders.map DbFolder.id := by
  simp only [Option.isSome_iff_exists, get_byId hids, List.mem_map]

theorem link_eq_some (hids : Keyed folders) :
    link folders id = some a ↔ ∃ f ∈ folders, f.id = id ∧ truthy f.parent_id = some a := by
  simp only [link, Option.bind_eq_some_iff, get_byId hids, and_assoc]

theorem link_nodes (hids : Keyed folders) (x a : String) (h : link folders x = some a) :
    x ∈ folders.map DbFolder.id := by
  obtain ⟨f, hf, hid, _⟩ := (link_eq_some hids).mp h
  exact List.mem_map.mpr ⟨f, hf, hid⟩

theorem link_of_get (h : (byId folders).get id = some f) :
    link folders id = truthy f.parent_id := by
  simp only [link, h, Option.bind_some]

theorem link_unknown (h : (byId folders).get id = none) : link folders id = none := by
  simp only [link, h, Option.bind_none]

theorem get_of_link (h : link folders id = some a) :
    ∃ f, (byId folders).get id = some f ∧ truthy f.parent_id = some a :=
  Option.bind_eq_some_iff.mp h

theorem above_unknown (h : (byId folders).get id = none) (has : Above (link folders) id as) :
    as = [] :=
  has.unique (.top (link_unknown h))

theorem pathTurn_none (map : FolderMap) (path : List DbFolder) :
    pathTurn map (none, path) = .inr path := rfl

theorem pathTurn_some (map : FolderMap) (f : DbFolder) (path : List DbFolder) :
    pathTurn map (some f, path) = .inl (parentOf map f, f :: path) := rfl

theorem ancestorTurn_none (map : FolderMap) (ancestors : List String) :
    ancestorTurn map (none, ancestors) = .inr ancestors := rfl

theorem descendantTurn_none (map : FolderMap) (anc : String) :
    descendantTurn map anc none = .inr false := rfl

theorem path_yields (has : Above (link folders) id as) (path : List DbFolder) :
    Yields (fun n => run (pathTurn (byId folders)) n ((byId folders).get id, path))
      (((id :: as).filterMap (byId folders).get).reverse ++ path) := by
  induction has generalizing path with
  | @top id hlink =>
    cases hget : (byId folders).get id with
    | none =>
      rw [yields_done (pathTurn_none _ _)]
      simp [hget]
    | some f =>
      have hparent : parentOf (byId folders) f = none := by
        rw [parentOf, ← link_of_get hget, hlink, Option.bind_none]
      rw [yields_next (pathTurn_some _ _ _), hparent, yields_done (pathTurn_none _ _)]
      simp [hget]
  | @link id a as hlink _ ih =>
    obtain ⟨f, hget, hp⟩ := get_of_link hlink
    have hparent : parentOf (byId folders) f = (byId folders).get a := by
      rw [parentOf, hp, Option.bind_some]
    rw [hget, yields_next (pathTurn_some _ _ _), hparent]
    simpa [hget] using ih (f :: path)

theorem getFolderPath_yields (has : Above (link folders) id as) :
    Yields (getFolderPath folders id) ((id :: as).filterMap (byId folders).get).reverse := by
  have h := path_yields has []
  rwa [List.append_nil] at h

/-- A folder whose parent links never end keeps the walk going. -/
theorem above_of_halts (h : Halts (getFolderPath folders id)) :
    ∃ as, Above (link folders) id as := by
  by_contra hnone
  let I : Option DbFolder × List DbFolder → Prop := fun s =>
    ∃ x, s.1 = (byId folders).get x ∧ ¬∃ as, Above (link folders) x as
  refine not_halts (pathTurn (byId folders)) (I := I) ?_ ⟨id, rfl, hnone⟩ h
  rintro ⟨current, path⟩ ⟨x, hx, hendless⟩
  cases hlink : link folders x with
  | none => exact absurd ⟨[], .top hlink⟩ hendless
  | some a =>
    obtain ⟨f, hget, hp⟩ := get_of_link hlink
    obtain rfl : current = some f := hx.trans hget
    refine ⟨_, rfl, a, ?_, ?_⟩
    · rw [parentOf, hp, Option.bind_some]
    · rintro ⟨as, has⟩
      exact hendless ⟨a :: as, .link hlink has⟩

theorem root_halts (has : Above (link folders) id as) (hget : (byId folders).get id = some f) :
    Halts (fun n => run (rootTurn (byId folders)) n f) := by
  induction has generalizing f with
  | top hlink =>
    rw [link_of_get hget] at hlink
    exact ⟨f, (yields_done (by simp [rootTurn, hlink])).mpr rfl⟩
  | @link id a as hlink _ ih =>
    rw [link_of_get hget] at hlink
    cases hparent : (byId folders).get a with
    | none => exact ⟨f, (yields_done (by simp [rootTurn, hlink, hparent])).mpr rfl⟩
    | some g =>
      have hturn : rootTurn (byId folders) f = .inl g := by simp [rootTurn, hlink, hparent]
      rw [halts_next hturn]
      exact ih hparent

theorem getRootFolder_halts (has : Above (link folders) id as) :
    Halts (getRootFolder folders id) := by
  cases hget : (byId folders).get id with
  | none => exact ⟨none, 0, by simp [getRootFolder, hget]⟩
  | some f =>
    have heq : getRootFolder folders id =
        fun n => (run (rootTurn (byId folders)) n f).map some := by
      funext n
      simp only [getRootFolder, hget]
    rw [heq, halts_map]
    exact root_halts has hget

theorem ancestors_yields (has : Above (link folders) id as) (ancestors : List String)
    (hids : Keyed folders) :
    Yields (fun n => run (ancestorTurn (byId folders)) n ((byId folders).get id, ancestors))
      (ancestors ++ as.filter (fun a => ((byId folders).get a).isSome)) := by
  induction has generalizing ancestors with
  | @top id hlink =>
    cases hget : (byId folders).get id with
    | none =>
      rw [yields_done (ancestorTurn_none _ _)]
      simp
    | some f =>
      rw [link_of_get hget] at hlink
      rw [yields_done (q := ancestors) (by simp [ancestorTurn, hlink])]
      simp
  | @link id a as hlink habove ih =>
    obtain ⟨f, hget, hp⟩ := get_of_link hlink
    cases hparent : (byId folders).get a with
    | none =>
      rw [hget, yields_done (q := ancestors) (by simp [ancestorTurn, hp, hparent])]
      rw [above_unknown hparent habove]
      simp [hparent]
    | some g =>
      have hg := ((get_byId hids).mp hparent).2
      rw [hget, yields_next (t := (some g, ancestors ++ [g.id]))
        (by simp [ancestorTurn, hp, hparent])]
      have h := ih (ancestors ++ [g.id])
      rw [hparent] at h
      simpa [hparent, hg] using h

theorem getAncestorIds_yields (hids : Keyed folders) (has : Above (link folders) id as) :
    Yields (getAncestorIds folders id)
      (as.filter (fun a => ((byId folders).get a).isSome)) := by
  have h := ancestors_yields has [] hids
  rwa [List.nil_append] at h

/-- Some folder from `id` up names `anc` as its parent. -/
def Names (folders : List DbFolder) (anc : String) (ids : List String) : Prop :=
  ∃ x ∈ ids, ∃ f, (byId folders).get x = some f ∧ f.parent_id = some anc

theorem descendant_yields (anc : String) (has : Above (link folders) id as) :
    ∃ r, Yields (fun n => run (descendantTurn (byId folders) anc) n ((byId folders).get id)) r ∧
      (r = true ↔ Names folders anc (id :: as)) := by
  induction has with
  | @top id hlink =>
    cases hget : (byId folders).get id with
    | none =>
      refine ⟨false, (yields_done (descendantTurn_none _ _)).mpr rfl, ?_⟩
      simp [Names, hget]
    | some f =>
      by_cases hnamed : f.parent_id = some anc
      · refine ⟨true, (yields_done (by simp [descendantTurn, hnamed])).mpr rfl, ?_⟩
        simp [Names, hget, hnamed]
      · have hturn : descendantTurn (byId folders) anc (some f) = .inl none := by
          rw [link_of_get hget] at hlink
          simp [descendantTurn, hnamed, parentOf, hlink]
        refine ⟨false, ?_, ?_⟩
        · rw [yields_next hturn, yields_done (descendantTurn_none _ _)]
        · simp [Names, hget, hnamed]
  | @link id a as hlink _ ih =>
    obtain ⟨f, hget, hp⟩ := get_of_link hlink
    by_cases hnamed : f.parent_id = some anc
    · rw [hget]
      refine ⟨true, (yields_done (by simp [descendantTurn, hnamed])).mpr rfl, ?_⟩
      simp [Names, hget, hnamed]
    · have hturn : descendantTurn (byId folders) anc (some f) = .inl ((byId folders).get a) := by
        simp [descendantTurn, hnamed, parentOf, hp]
      obtain ⟨r, hr, hiff⟩ := ih
      refine ⟨r, by rw [hget]; exact (yields_next hturn).mpr hr, hiff.trans ?_⟩
      constructor
      · rintro ⟨x, hx, hnames⟩
        exact ⟨x, List.mem_cons_of_mem id hx, hnames⟩
      · rintro ⟨x, hx, g, hg, hnames⟩
        obtain rfl | hx := List.mem_cons.mp hx
        · obtain rfl := Option.some.inj (hget.symm.trans hg)
          exact absurd hnames hnamed
        · exact ⟨x, hx, g, hg, hnames⟩

theorem names_iff (has : Above (link folders) id as) (ha : a ≠ "") :
    Names folders a (id :: as) ↔ Below (link folders) id a := by
  have hlink : ∀ x, (∃ f, (byId folders).get x = some f ∧ f.parent_id = some a) ↔
      link folders x = some a := by
    intro x
    simp only [link, Option.bind_eq_some_iff, truthy_eq_some, ha, ne_eq, not_false_eq_true,
      and_true]
  simp only [Names, hlink]
  clear hlink
  induction has with
  | top hu => simp [hu, not_below_top hu]
  | link hu _ ih =>
    rw [below_iff hu]
    refine Iff.trans ?_ (or_congr Iff.rfl ih)
    simp only [List.mem_cons, exists_eq_or_imp, hu, Option.some.injEq]
    exact or_congr ⟨Eq.symm, Eq.symm⟩ Iff.rfl

end Walks

end YapStack.Folders
