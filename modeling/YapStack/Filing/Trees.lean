import YapStack.Filing.Library

set_option linter.unusedSectionVars false

namespace YapStack.Filing

section Trees

open Folders Climbs Loops

variable {folders : List DbFolder} {f : DbFolder} {id folderId x a p : String}
  {parentId newParentId : Option String}

/-- A folder table whose keys hold and whose parent links all end. -/
structure Tree (folders : List DbFolder) : Prop where
  keyed : Keyed folders
  named : "" ∉ folders.map DbFolder.id
  parents : ∀ f ∈ folders, HasParent folders f.parent_id
  acyclic : Acyclic (link folders)

theorem tree_nil : Tree [] where
  keyed := List.nodup_nil
  named := List.not_mem_nil
  parents := fun _ hf => absurd hf List.not_mem_nil
  acyclic := fun _ hx => not_below_top rfl hx

/-- In such a table the walks take every parent for one. -/
theorem link_iff (hkeyed : Keyed folders) (hnamed : "" ∉ folders.map DbFolder.id)
    (hparents : ∀ f ∈ folders, HasParent folders f.parent_id) :
    link folders x = some a ↔ ∃ f ∈ folders, f.id = x ∧ f.parent_id = some a := by
  rw [link_eq_some hkeyed]
  constructor
  · rintro ⟨f, hf, hid, hp⟩
    exact ⟨f, hf, hid, (truthy_eq_some.mp hp).1⟩
  · rintro ⟨f, hf, hid, hp⟩
    refine ⟨f, hf, hid, truthy_eq_some.mpr ⟨hp, ?_⟩⟩
    rintro rfl
    exact hnamed (hparents f hf "" hp)

theorem Tree.link_iff (h : Tree folders) :
    link folders x = some a ↔ ∃ f ∈ folders, f.id = x ∧ f.parent_id = some a :=
  Filing.link_iff h.keyed h.named h.parents

theorem Tree.mem_of_below (h : Tree folders) (hx : Below (link folders) x a) :
    a ∈ folders.map DbFolder.id := by
  obtain ⟨b, hb⟩ := hx.exists_up
  obtain ⟨f, hf, _, hp⟩ := h.link_iff.mp hb
  exact h.parents f hf a hp

theorem below_mem (hx : Below (link folders) x a) (hkeyed : Keyed folders) :
    x ∈ folders.map DbFolder.id := by
  cases hup : link folders x with
  | none => exact absurd hx (not_below_top hup)
  | some b => exact link_nodes hkeyed x b hup

/-- The links after a row came or changed: those of one folder, or fewer. -/
inductive Relinked (up up' : String → Option String) (id : String) : Option String → Prop
  | free : (∀ x a, up' x = some a → up x = some a) → Relinked up up' id none
  | hung {p : String} : Grafted up up' id p → Relinked up up' id (some p)

theorem Relinked.acyclic {up up' : String → Option String} (h : Relinked up up' id parentId)
    (hp : ∀ p ∈ parentId, ¬AtOrBelow up p id) (hacyc : Acyclic up) : Acyclic up' := by
  cases h with
  | free hup => exact hacyc.mono hup
  | hung hgraft => exact hgraft.acyclic (hp _ rfl) hacyc

theorem Relinked.below {up up' : String → Option String} (h : Relinked up up' id parentId)
    (hp : ∀ p ∈ parentId, ¬AtOrBelow up p id) (hx : Below up' x a) :
    Below up x a ∨ ∃ p ∈ parentId, AtOrBelow up x id ∧ AtOrBelow up p a := by
  cases h with
  | free hup => exact Or.inl (hx.mono hup)
  | @hung p hgraft => exact (hgraft.below (hp p rfl) hx).imp_right (fun h => ⟨p, rfl, h⟩)

theorem relinked_of_eq {up up' : String → Option String}
    (h : ∀ x, up' x = if x = id then parentId else up x) : Relinked up up' id parentId := by
  cases parentId with
  | none =>
    refine .free (fun x a hx => ?_)
    rw [h] at hx
    by_cases hxid : x = id
    · simp [hxid] at hx
    · rwa [if_neg hxid] at hx
  | some p =>
    refine .hung ⟨?_, fun x hx => ?_⟩
    · rw [h, if_pos rfl]
    · rw [h, if_neg hx]

theorem Tree.created (h : Tree folders) (hid : id ≠ "") (hnew : id ∉ folders.map DbFolder.id)
    (hparent : HasParent folders parentId) :
    Tree (folders ++ [⟨id, parentId⟩]) ∧
      (∀ x a, Below (link (folders ++ [⟨id, parentId⟩])) x a →
        Below (link folders) x a ∨ x = id) := by
  have hids : (folders ++ [(⟨id, parentId⟩ : DbFolder)]).map DbFolder.id =
      folders.map DbFolder.id ++ [id] := List.map_append
  have hkeyed : Keyed (folders ++ [⟨id, parentId⟩]) := by
    rw [Keyed, hids]
    exact List.Nodup.append h.keyed (List.nodup_singleton id)
      (List.disjoint_singleton.mpr hnew)
  have hnamed : "" ∉ (folders ++ [(⟨id, parentId⟩ : DbFolder)]).map DbFolder.id := by
    rw [hids, List.mem_append, List.mem_singleton]
    rintro (hmem | heq)
    · exact h.named hmem
    · exact hid heq.symm
  have hparents : ∀ f ∈ folders ++ [(⟨id, parentId⟩ : DbFolder)],
      HasParent (folders ++ [⟨id, parentId⟩]) f.parent_id := by
    intro f hf p hp
    rw [hids]
    obtain hf | hf := List.mem_append.mp hf
    · exact List.mem_append_left _ (h.parents f hf p hp)
    · rw [List.mem_singleton.mp hf] at hp
      exact List.mem_append_left _ (hparent p hp)
  have hlink : ∀ x, link (folders ++ [⟨id, parentId⟩]) x =
      if x = id then parentId else link folders x := by
    intro x
    apply Option.ext
    intro a
    rw [Filing.link_iff hkeyed hnamed hparents]
    by_cases hx : x = id
    · subst hx
      rw [if_pos rfl]
      constructor
      · rintro ⟨f, hf, hfid, hp⟩
        obtain hf | hf := List.mem_append.mp hf
        · exact absurd (List.mem_map.mpr ⟨f, hf, hfid⟩) hnew
        · rw [List.mem_singleton.mp hf] at hp
          exact hp
      · intro hp
        exact ⟨_, List.mem_append_right _ List.mem_cons_self, rfl, hp⟩
    · rw [if_neg hx, h.link_iff]
      constructor
      · rintro ⟨f, hf, hfid, hp⟩
        obtain hf | hf := List.mem_append.mp hf
        · exact ⟨f, hf, hfid, hp⟩
        · rw [List.mem_singleton.mp hf] at hfid
          exact absurd hfid.symm hx
      · rintro ⟨f, hf, hfid, hp⟩
        exact ⟨f, List.mem_append_left _ hf, hfid, hp⟩
  have hrel := relinked_of_eq hlink
  have hleaf : ∀ y, ¬Below (link folders) y id := fun y hy => hnew (h.mem_of_below hy)
  have hbeside : ∀ p ∈ parentId, ¬AtOrBelow (link folders) p id := by
    rintro p hp (rfl | hbelow)
    · exact hnew (hparent p hp)
    · exact hleaf p hbelow
  refine ⟨⟨hkeyed, hnamed, hparents, hrel.acyclic hbeside h.acyclic⟩, fun x a hx => ?_⟩
  refine (hrel.below hbeside hx).imp_right ?_
  rintro ⟨p, _, rfl | hbelow, _⟩
  · rfl
  · exact absurd hbelow (hleaf x)

theorem map_setParent_id (folders : List DbFolder) (folderId : String)
    (newParentId : Option String) :
    (folders.map (Library.setParent folderId newParentId)).map DbFolder.id =
      folders.map DbFolder.id := by
  rw [List.map_map]
  apply List.map_congr_left
  intro f _
  simp only [Function.comp_apply, Library.setParent]
  split
  · rfl
  · rfl

/-- A moved folder and its new parent. -/
theorem Tree.moved (h : Tree folders) (hmem : folderId ∈ folders.map DbFolder.id)
    (hparent : HasParent folders newParentId) :
    (∀ x, link (folders.map (Library.setParent folderId newParentId)) x =
      if x = folderId then newParentId else link folders x) ∧
    ((∀ p ∈ newParentId, ¬AtOrBelow (link folders) p folderId) →
      Tree (folders.map (Library.setParent folderId newParentId))) := by
  have hids := map_setParent_id folders folderId newParentId
  have hkeyed : Keyed (folders.map (Library.setParent folderId newParentId)) := by
    rw [Keyed, hids]
    exact h.keyed
  have hnamed : "" ∉ (folders.map (Library.setParent folderId newParentId)).map DbFolder.id := by
    rw [hids]
    exact h.named
  have hparents : ∀ f ∈ folders.map (Library.setParent folderId newParentId),
      HasParent (folders.map (Library.setParent folderId newParentId)) f.parent_id := by
    intro f hf p hp
    rw [hids]
    obtain ⟨g, hg, rfl⟩ := List.mem_map.mp hf
    by_cases hgid : g.id = folderId
    · rw [Library.setParent, if_pos hgid] at hp
      exact hparent p hp
    · rw [Library.setParent, if_neg hgid] at hp
      exact h.parents g hg p hp
  have hlink : ∀ x, link (folders.map (Library.setParent folderId newParentId)) x =
      if x = folderId then newParentId else link folders x := by
    intro x
    apply Option.ext
    intro a
    rw [Filing.link_iff hkeyed hnamed hparents]
    by_cases hx : x = folderId
    · subst hx
      rw [if_pos rfl]
      constructor
      · rintro ⟨f, hf, hfid, hp⟩
        obtain ⟨g, hg, rfl⟩ := List.mem_map.mp hf
        by_cases hgid : g.id = x
        · rwa [Library.setParent, if_pos hgid] at hp
        · rw [Library.setParent, if_neg hgid] at hfid
          exact absurd hfid hgid
      · intro hp
        obtain ⟨g, hg, hgid⟩ := List.mem_map.mp hmem
        refine ⟨_, List.mem_map.mpr ⟨g, hg, rfl⟩, ?_, ?_⟩
        · rw [Library.setParent, if_pos hgid]
          exact hgid
        · rw [Library.setParent, if_pos hgid]
          exact hp
    · rw [if_neg hx, h.link_iff]
      constructor
      · rintro ⟨f, hf, hfid, hp⟩
        obtain ⟨g, hg, rfl⟩ := List.mem_map.mp hf
        by_cases hgid : g.id = folderId
        · rw [Library.setParent, if_pos hgid] at hfid
          exact absurd (hfid.symm.trans hgid) hx
        · rw [Library.setParent, if_neg hgid] at hfid hp
          exact ⟨g, hg, hfid, hp⟩
      · rintro ⟨f, hf, hfid, hp⟩
        refine ⟨f, List.mem_map.mpr ⟨f, hf, ?_⟩, hfid, hp⟩
        rw [Library.setParent, if_neg]
        rw [hfid]
        exact hx
  exact ⟨hlink, fun hbeside => ⟨hkeyed, hnamed, hparents,
    (relinked_of_eq hlink).acyclic hbeside h.acyclic⟩⟩

theorem orphan_id (id : String) (f : DbFolder) : (Library.orphan id f).id = f.id := by
  rw [Library.orphan]
  split
  · rfl
  · rfl

theorem Tree.deleted (h : Tree folders) (id : String) :
    Tree ((folders.filter (fun f => f.id ≠ id)).map (Library.orphan id)) ∧
      ∀ x a, Below (link ((folders.filter (fun f => f.id ≠ id)).map (Library.orphan id))) x a →
        Below (link folders) x a := by
  have hids : ((folders.filter (fun f => f.id ≠ id)).map (Library.orphan id)).map DbFolder.id =
      (folders.filter (fun f => f.id ≠ id)).map DbFolder.id := by
    rw [List.map_map]
    exact List.map_congr_left (fun f _ => orphan_id id f)
  have hsub : ((folders.filter (fun f => f.id ≠ id)).map (Library.orphan id)).map DbFolder.id ⊆
      folders.map DbFolder.id := by
    rw [hids]
    exact List.map_subset _ (List.filter_subset_self folders)
  have hkeyed : Keyed ((folders.filter (fun f => f.id ≠ id)).map (Library.orphan id)) := by
    rw [Keyed, hids]
    exact List.Nodup.sublist (List.filter_sublist.map _) h.keyed
  have hparent : ∀ g ∈ (folders.filter (fun f => f.id ≠ id)).map (Library.orphan id),
      ∃ f ∈ folders, f.id = g.id ∧ ∀ a, g.parent_id = some a → f.parent_id = some a ∧ a ≠ id := by
    intro g hg
    obtain ⟨f, hf, rfl⟩ := List.mem_map.mp hg
    refine ⟨f, (List.mem_filter.mp hf).1, (orphan_id id f).symm, fun a ha => ?_⟩
    by_cases hp : f.parent_id = some id
    · simp [Library.orphan, hp] at ha
    · rw [Library.orphan, if_neg hp] at ha
      refine ⟨ha, ?_⟩
      rintro rfl
      exact hp ha
  have hnamed := fun hmem => h.named (hsub hmem)
  have hparents : ∀ g ∈ (folders.filter (fun f => f.id ≠ id)).map (Library.orphan id),
      HasParent ((folders.filter (fun f => f.id ≠ id)).map (Library.orphan id)) g.parent_id := by
    intro g hg p hp
    obtain ⟨f, hf, _, hpar⟩ := hparent g hg
    obtain ⟨hfp, hpid⟩ := hpar p hp
    obtain ⟨b, hb, hbid⟩ := List.mem_map.mp (h.parents f hf p hfp)
    rw [hids]
    refine List.mem_map.mpr ⟨b, List.mem_filter.mpr ⟨hb, ?_⟩, hbid⟩
    simpa [hbid] using hpid
  have hup : ∀ x a, link ((folders.filter (fun f => f.id ≠ id)).map (Library.orphan id)) x =
      some a → link folders x = some a := by
    intro x a hx
    obtain ⟨g, hg, hgid, hp⟩ := (Filing.link_iff hkeyed hnamed hparents).mp hx
    obtain ⟨f, hf, hfid, hpar⟩ := hparent g hg
    exact h.link_iff.mpr ⟨f, hf, hfid.trans hgid, (hpar a hp).1⟩
  exact ⟨⟨hkeyed, hnamed, hparents, h.acyclic.mono hup⟩, fun x a hx => hx.mono hup⟩

/-- The conflicts are the folders of the session that share a branch with the target. -/
theorem Tree.mem_conflicts (h : Tree folders) {sessionFolderIds conflicts : List String}
    {target : String} {fuel : ℕ}
    (hc : findBranchConflicts folders sessionFolderIds target fuel = some conflicts) (c : String) :
    c ∈ conflicts ↔ c ∈ sessionFolderIds ∧
      (Below (link folders) target c ∨ Below (link folders) c target) := by
  obtain ⟨ancestors, descendants, hancs, hdescs, rfl⟩ :=
    (findBranchConflicts_yields sessionFolderIds target conflicts).mp ⟨fuel, hc⟩
  obtain ⟨as, has⟩ := (acyclic_iff (link_nodes h.keyed)).mp h.acyclic target
  have heqAncs := (getAncestorIds_steady folders target).unique hancs
    (getAncestorIds_yields h.keyed has)
  have heqDescs := (getDescendantIds_steady folders target).unique hdescs
    (getDescendantIds_yields h.keyed (h.acyclic target))
  have hanc : c ∈ ancestors ↔ Below (link folders) target c := by
    rw [heqAncs, List.mem_filter, has.mem_iff, get_byId_isSome h.keyed]
    exact ⟨And.left, fun hc => ⟨hc, h.mem_of_below hc⟩⟩
  have hdesc : c ∈ descendants ↔ Below (link folders) c target := by
    rw [heqDescs]
    exact mem_descendants h.keyed (h.acyclic target) c
  rw [List.mem_filter, decide_eq_true_eq, hanc, hdesc]
  refine and_congr_right (fun _ => ⟨And.right, fun hbranch => ⟨?_, hbranch⟩⟩)
  rintro rfl
  exact hbranch.elim (h.acyclic c) (h.acyclic c)

/-- On such a table the search for conflicts ends. -/
theorem Tree.conflicts_halts (h : Tree folders) (sessionFolderIds : List String)
    (target : String) : Halts (findBranchConflicts folders sessionFolderIds target) := by
  obtain ⟨as, has⟩ := (acyclic_iff (link_nodes h.keyed)).mp h.acyclic target
  exact ⟨_, (findBranchConflicts_yields sessionFolderIds target _).mpr
    ⟨_, _, getAncestorIds_yields h.keyed has, getDescendantIds_yields h.keyed (h.acyclic target),
      rfl⟩⟩

end Trees

section Branches

open Folders Climbs Loops

variable {s t : State} {db : Library} {sessionId folderId sid fid : String}
  {conflicts : List String} {fuel : ℕ}

/-- The tables keep their keys, and the store has what the tables have. -/
structure Sound (s : State) : Prop where
  tree : Tree s.db.folders
  rows : ∀ sid fid, (sid, fid) ∈ s.db.session_folders →
    sid ∈ s.db.sessions ∧ fid ∈ s.db.folders.map DbFolder.id
  listed : s.folders = s.db.folders
  loaded : ∀ sid fid, fid ∈ (s.sessionFolderMap sid).getD [] ↔ (sid, fid) ∈ s.db.session_folders

/-- No session is both in a folder and in one above it. -/
def Once (db : Library) : Prop :=
  ∀ sid f g, (sid, f) ∈ db.session_folders → (sid, g) ∈ db.session_folders →
    ¬Below (link db.folders) f g

theorem Once.mono {db' : Library} (h : Once db)
    (hrows : ∀ row ∈ db'.session_folders, row ∈ db.session_folders)
    (hbelow : ∀ f g, Below (link db'.folders) f g → Below (link db.folders) f g) : Once db' :=
  fun sid f g hf hg hfg => h sid f g (hrows _ hf) (hrows _ hg) (hbelow f g hfg)

theorem mem_groupBySession (rows : List (String × String)) (sid fid : String) :
    fid ∈ (groupBySession rows sid).getD [] ↔ (sid, fid) ∈ rows := by
  have hfold : ∀ map : SessionFolderMap, fid ∈ ((rows.foldl groupRow map) sid).getD [] ↔
      fid ∈ (map sid).getD [] ∨ (sid, fid) ∈ rows := by
    induction rows with
    | nil => simp
    | cons row rows ih =>
      intro map
      rw [List.foldl_cons, ih, List.mem_cons, ← or_assoc]
      refine or_congr_left ?_
      by_cases hsid : sid = row.1
      · subst hsid
        simp [groupRow, Prod.ext_iff]
      · simp [groupRow, Prod.ext_iff, hsid]
  simpa [groupBySession] using hfold (fun _ => none)

theorem mem_updateSessionFolderMap (map : SessionFolderMap) (sessionId : String)
    (add remove : List String) (sid fid : String) :
    fid ∈ (updateSessionFolderMap map sessionId add remove sid).getD [] ↔
      fid ∈ (map sid).getD [] ∧ ¬(sid = sessionId ∧ fid ∈ remove) ∨
        sid = sessionId ∧ fid ∈ add := by
  have hadd : ∀ ids : List String,
      fid ∈ add.foldl (fun ids id => if id ∈ ids then ids else ids ++ [id]) ids ↔
        fid ∈ ids ∨ fid ∈ add := by
    induction add with
    | nil => simp
    | cons id add ih =>
      intro ids
      rw [List.foldl_cons, ih, List.mem_cons, ← or_assoc]
      refine or_congr_left ?_
      by_cases hid : id ∈ ids
      · rw [if_pos hid]
        refine ⟨Or.inl, ?_⟩
        rintro (h | rfl)
        · exact h
        · exact hid
      · rw [if_neg hid, List.mem_append, List.mem_singleton]
  by_cases hsid : sid = sessionId
  · subst hsid
    simp only [updateSessionFolderMap, Function.update_self, true_and]
    have hnone : ∀ ids : List String, fid ∈ (if ids = [] then none else some ids).getD [] ↔
        fid ∈ ids := by
      intro ids
      by_cases hids : ids = []
      · simp [hids]
      · simp [hids]
    rw [hnone, hadd]
    simp
  · simp [updateSessionFolderMap, hsid]

theorem cleared_spec (db : Library) (sessionId : String) (conflicts : List String) :
    let cleared := conflicts.foldl (fun db cId => db.removeSessionFromFolder sessionId cId) db
    cleared.folders = db.folders ∧ cleared.sessions = db.sessions ∧
      ∀ sid fid, (sid, fid) ∈ cleared.session_folders ↔
        (sid, fid) ∈ db.session_folders ∧ ¬(sid = sessionId ∧ fid ∈ conflicts) := by
  induction conflicts generalizing db with
  | nil => simp
  | cons c conflicts ih =>
    obtain ⟨hf, hs, hrows⟩ := ih (db.removeSessionFromFolder sessionId c)
    refine ⟨hf, hs, fun sid fid => ?_⟩
    rw [List.foldl_cons, hrows]
    simp only [Library.removeSessionFromFolder, List.mem_filter, decide_eq_true_eq, ne_eq,
      Prod.mk.injEq, List.mem_cons]
    constructor
    · rintro ⟨⟨hrow, hc⟩, hrest⟩
      refine ⟨hrow, ?_⟩
      rintro ⟨hsid, hfid⟩
      exact hfid.elim (fun h => hc ⟨hsid, h⟩) (fun h => hrest ⟨hsid, h⟩)
    · rintro ⟨hrow, hall⟩
      exact ⟨⟨hrow, fun h => hall ⟨h.1, Or.inl h.2⟩⟩, fun h => hall ⟨h.1, Or.inr h.2⟩⟩

/-- What adding a session to a folder leaves of the tables. -/
structure Added (db : Library) (sessionId folderId : String) (db' : Library) : Prop where
  folders : db'.folders = db.folders
  sessions : db'.sessions = db.sessions
  known : sessionId ∈ db.sessions ∧ folderId ∈ db.folders.map DbFolder.id
  rows : ∀ sid fid, (sid, fid) ∈ db'.session_folders ↔
    (sid, fid) ∈ db.session_folders ∧ ¬(sid = sessionId ∧ (Below (link db.folders) folderId fid ∨
      Below (link db.folders) fid folderId)) ∨ sid = sessionId ∧ fid = folderId

/-- If the folder cannot be added, there was nothing to clear. -/
theorem added_or_kept (h : Sound s) {current : List String}
    (hcurrent : ∀ fid, fid ∈ current ↔ (sessionId, fid) ∈ s.db.session_folders)
    (hc : findBranchConflicts s.db.folders current folderId fuel = some conflicts) :
    (∃ db, addSessionToFolderWithConflicts s.db sessionId folderId conflicts = (db, true) ∧
      Added s.db sessionId folderId db) ∨
    addSessionToFolderWithConflicts s.db sessionId folderId conflicts = (s.db, false) := by
  have hmem : ∀ c, c ∈ conflicts ↔ (sessionId, c) ∈ s.db.session_folders ∧
      (Below (link s.db.folders) folderId c ∨ Below (link s.db.folders) c folderId) := by
    intro c
    rw [h.tree.mem_conflicts hc, hcurrent]
  obtain ⟨hfolders, hsessions, hrows⟩ := cleared_spec s.db sessionId conflicts
  simp only [addSessionToFolderWithConflicts]
  generalize hcleared : conflicts.foldl
    (fun db cId => db.removeSessionFromFolder sessionId cId) s.db = cleared at *
  have hkeeps : ∀ sid fid, (sid, fid) ∈ cleared.session_folders ↔
      (sid, fid) ∈ s.db.session_folders ∧ ¬(sid = sessionId ∧
        (Below (link s.db.folders) folderId fid ∨ Below (link s.db.folders) fid folderId)) := by
    intro sid fid
    rw [hrows, hmem]
    refine and_congr_right (fun hrow => not_congr (and_congr_right (fun hsid => ?_)))
    exact ⟨And.right, fun hbranch => ⟨hsid ▸ hrow, hbranch⟩⟩
  by_cases hin : (sessionId, folderId) ∈ cleared.session_folders
  · refine Or.inl ⟨cleared, by simp [Library.addSessionToFolder, hin], hfolders, hsessions,
      h.rows _ _ ((hkeeps _ _).mp hin).1, fun sid fid => ?_⟩
    rw [hkeeps]
    refine ⟨Or.inl, ?_⟩
    rintro (hold | ⟨rfl, rfl⟩)
    · exact hold
    · exact (hkeeps _ _).mp hin
  · by_cases hknown : sessionId ∈ s.db.sessions ∧ folderId ∈ s.db.folders.map DbFolder.id
    · refine Or.inl ⟨{ cleared with
        session_folders := cleared.session_folders ++ [(sessionId, folderId)] }, ?_, hfolders,
        hsessions, hknown, fun sid fid => ?_⟩
      · simp [Library.addSessionToFolder, hin, hsessions, hfolders, hknown]
      · rw [List.mem_append, hkeeps, List.mem_singleton, Prod.mk.injEq]
    · have hnone : conflicts = [] := by
        rw [List.eq_nil_iff_forall_not_mem]
        intro c hcc
        obtain ⟨hrow, hbranch⟩ := (hmem c).mp hcc
        refine hknown ⟨(h.rows _ _ hrow).1, ?_⟩
        obtain hbelow | hbelow := hbranch
        · exact below_mem hbelow h.tree.keyed
        · exact h.tree.mem_of_below hbelow
      obtain rfl : cleared = s.db := by
        rw [← hcleared, hnone]
        rfl
      refine Or.inr ?_
      simp only [Library.addSessionToFolder, if_neg hin, if_neg hknown]

theorem Added.once {db' : Library} (h : Added db sessionId folderId db')
    (hacyc : Acyclic (link db.folders)) (honce : Once db) : Once db' := by
  intro sid f g hf hg hfg
  rw [h.folders] at hfg
  obtain ⟨hf, hfbranch⟩ | ⟨rfl, rfl⟩ := (h.rows sid f).mp hf
  · obtain ⟨hg, hgbranch⟩ | ⟨rfl, rfl⟩ := (h.rows sid g).mp hg
    · exact honce sid f g hf hg hfg
    · exact hfbranch ⟨rfl, Or.inr hfg⟩
  · obtain ⟨hg, hgbranch⟩ | ⟨_, rfl⟩ := (h.rows sid g).mp hg
    · exact hgbranch ⟨rfl, Or.inl hfg⟩
    · exact hacyc _ hfg

theorem Added.keys {db' : Library} (h : Added db sessionId folderId db')
    (hrows : ∀ sid fid, (sid, fid) ∈ db.session_folders →
      sid ∈ db.sessions ∧ fid ∈ db.folders.map DbFolder.id) (sid fid : String)
    (hrow : (sid, fid) ∈ db'.session_folders) :
    sid ∈ db'.sessions ∧ fid ∈ db'.folders.map DbFolder.id := by
  rw [h.sessions, h.folders]
  obtain ⟨hrow, _⟩ | ⟨rfl, rfl⟩ := (h.rows sid fid).mp hrow
  · exact hrows sid fid hrow
  · exact h.known

end Branches

end YapStack.Filing
