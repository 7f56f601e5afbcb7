import YapStack.Filing.Trees

set_option linter.unusedSectionVars false

namespace YapStack.Filing

open Folders Climbs Loops Runs

variable {s t : State} {db : Library} {sessionId folderId sid fid : String} {fuel : ℕ}

/-- A move goes beside the folder's own branch, and takes no session of the branch to a branch
that it is filed in as well. -/
def Fits (db : Library) : Event → Prop
  | .moveFolder folderId (some p) =>
    folderId ∈ db.folders.map DbFolder.id → p ∈ db.folders.map DbFolder.id →
      ¬AtOrBelow (link db.folders) p folderId ∧
      ∀ sid f g, (sid, f) ∈ db.session_folders → (sid, g) ∈ db.session_folders →
        AtOrBelow (link db.folders) f folderId → ¬AtOrBelow (link db.folders) p g
  | _ => True

/-- The operations on a session, and on a folder, that may end this membership. -/
def Event.Concerns (db : Library) (sid fid : String) : Event → Prop
  | .addSessionToFolder sessionId folderId | .aiAddSessionToFolder sessionId folderId =>
    sessionId = sid ∧ (Below (link db.folders) folderId fid ∨ Below (link db.folders) fid folderId)
  | .toggleSessionFolder sessionId folderId => sessionId = sid ∧ (folderId = fid ∨
      Below (link db.folders) folderId fid ∨ Below (link db.folders) fid folderId)
  | .removeSessionFromAllFolders sessionId => sessionId = sid
  | .deleteFolder id => id = fid
  | .createSession _ | .createFolder _ _ | .moveFolder _ _ => False

/-- What one operation does. -/
structure Files (s : State) (e : Event) (t : State) : Prop where
  sound : Sound t
  once : Once s.db → Once t.db
  kept : ∀ sid fid, (sid, fid) ∈ s.db.session_folders → (sid, fid) ∉ t.db.session_folders →
    e.Concerns s.db sid fid

/-- An operation that changes nothing. -/
theorem files_refl (h : Sound s) (e : Event) : Files s e s :=
  ⟨h, id, fun _ _ hrow hgone => absurd hrow hgone⟩

theorem createSession_files (h : Sound s) (id : String) : Files s (.createSession id)
    { s with db := { s.db with sessions := id :: s.db.sessions } } := by
  refine ⟨⟨h.tree, fun sid fid hrow => ?_, h.listed, h.loaded⟩, fun honce => honce,
    fun _ _ hrow hgone => absurd hrow hgone⟩
  exact (h.rows sid fid hrow).imp_left (List.mem_cons_of_mem id)

/-- The folder table changes, the memberships do not. -/
theorem listed_files (h : Sound s) {e : Event} {folders : List DbFolder} (htree : Tree folders)
    (hids : ∀ id ∈ s.db.folders.map DbFolder.id, id ∈ folders.map DbFolder.id)
    (honce : Once s.db → Once { s.db with folders := folders }) :
    Files s e (s.listed { s.db with folders := folders }) := by
  refine ⟨⟨htree, fun sid fid hrow => ?_, rfl, h.loaded⟩, honce,
    fun _ _ hrow hgone => absurd hrow hgone⟩
  exact (h.rows sid fid hrow).imp_right (hids fid)

theorem createFolder_files (h : Sound s) (id : FreshId) (parentId : Option String) :
    Files s (.createFolder id parentId) (createFolder s id parentId) := by
  by_cases hok : id.val ∉ s.db.folders.map DbFolder.id ∧ HasParent s.db.folders parentId
  · obtain ⟨htree, hbelow⟩ := h.tree.created id.property hok.1 hok.2
    simp only [createFolder, Library.createFolder, if_pos hok]
    refine listed_files h htree (fun x hx => ?_) (fun honce sid f g hf hg hfg => ?_)
    · rw [List.map_append]
      exact List.mem_append_left _ hx
    · obtain hold | rfl := hbelow f g hfg
      · exact honce sid f g hf hg hold
      · exact hok.1 (h.rows sid _ hf).2
  · simp only [createFolder, Library.createFolder, if_neg hok]
    exact files_refl h _

theorem map_setParent_unknown {folders : List DbFolder}
    (hmem : folderId ∉ folders.map DbFolder.id) (newParentId : Option String) :
    folders.map (Library.setParent folderId newParentId) = folders := by
  conv_rhs => rw [← List.map_id folders]
  apply List.map_congr_left
  intro f hf
  rw [Library.setParent, if_neg, id_eq]
  exact fun hid => hmem (List.mem_map.mpr ⟨f, hf, hid⟩)

theorem moveFolder_files (h : Sound s) (newParentId : Option String)
    (hfits : Fits s.db (.moveFolder folderId newParentId)) :
    Files s (.moveFolder folderId newParentId) (moveFolder s folderId newParentId) := by
  by_cases hmem : folderId ∈ s.db.folders.map DbFolder.id
  · by_cases hparent : HasParent s.db.folders newParentId
    · have hok : ¬(folderId ∈ s.db.folders.map DbFolder.id ∧
          ¬HasParent s.db.folders newParentId) := fun hno => hno.2 hparent
      obtain ⟨hlink, htree⟩ := h.tree.moved hmem hparent
      have hrel := relinked_of_eq hlink
      have hbeside : ∀ p ∈ newParentId, ¬AtOrBelow (link s.db.folders) p folderId := by
        rintro p rfl
        exact (hfits hmem (hparent p rfl)).1
      simp only [moveFolder, Library.updateFolderParent, if_neg hok]
      refine listed_files h (htree hbeside) (fun x hx => ?_) (fun honce sid f g hf hg hfg => ?_)
      · rwa [map_setParent_id]
      · obtain hold | ⟨p, rfl, hff, hpg⟩ := hrel.below hbeside hfg
        · exact honce sid f g hf hg hold
        · exact (hfits hmem (hparent p rfl)).2 sid f g hf hg hff hpg
    · simp only [moveFolder, Library.updateFolderParent, hmem, hparent, not_false_eq_true,
        and_self, if_true]
      exact files_refl h _
  · have hok : ¬(folderId ∈ s.db.folders.map DbFolder.id ∧
        ¬HasParent s.db.folders newParentId) := fun hno => hmem hno.1
    simp only [moveFolder, Library.updateFolderParent, if_neg hok,
      map_setParent_unknown hmem newParentId]
    exact listed_files h h.tree (fun x hx => hx) id

theorem deleteFolder_files (h : Sound s) (id : String) :
    Files s (.deleteFolder id) (s.listed (s.db.deleteFolder id)).loadSessionFolders := by
  obtain ⟨htree, hbelow⟩ := h.tree.deleted id
  have hrows : ∀ sid fid, (sid, fid) ∈ (s.db.deleteFolder id).session_folders ↔
      (sid, fid) ∈ s.db.session_folders ∧ fid ≠ id := by
    intro sid fid
    simp [Library.deleteFolder]
  refine ⟨⟨htree, fun sid fid hrow => ?_, rfl, fun sid fid => mem_groupBySession _ sid fid⟩,
    fun honce => ?_, fun sid fid hrow hgone => ?_⟩
  · obtain ⟨hrow, hne⟩ := (hrows sid fid).mp hrow
    obtain ⟨hsession, hfolder⟩ := h.rows sid fid hrow
    obtain ⟨f, hf, hfid⟩ := List.mem_map.mp hfolder
    refine ⟨hsession, List.mem_map.mpr ⟨Library.orphan id f, List.mem_map.mpr ⟨f, ?_, rfl⟩, ?_⟩⟩
    · exact List.mem_filter.mpr ⟨hf, by simpa [hfid] using hne⟩
    · rw [orphan_id, hfid]
  · refine honce.mono (fun row hrow => ?_) hbelow
    exact ((hrows row.1 row.2).mp hrow).1
  · by_contra hne
    exact hgone ((hrows sid fid).mpr ⟨hrow, fun heq => hne heq.symm⟩)

theorem addSessionToFolder_files (h : Sound s)
    (hadd : addSessionToFolder fuel s sessionId folderId = some t) :
    Files s (.addSessionToFolder sessionId folderId) t := by
  obtain ⟨conflicts, hc, rfl⟩ := Option.map_eq_some_iff.mp hadd
  rw [h.listed] at hc
  obtain ⟨db, heq, hadded⟩ | heq := added_or_kept h (fun fid => h.loaded sessionId fid) hc
  · rw [heq]
    have htree := h.tree
    rw [← hadded.folders] at htree
    refine ⟨⟨htree, hadded.keys h.rows, h.listed.trans hadded.folders.symm, fun sid fid => ?_⟩,
      hadded.once h.tree.acyclic, fun sid fid hrow hgone => ?_⟩
    · rw [mem_updateSessionFolderMap, hadded.rows, h.loaded, List.mem_singleton]
      refine or_congr_left (and_congr_right (fun hrow => not_congr (and_congr_right ?_)))
      rintro rfl
      rw [h.tree.mem_conflicts hc, h.loaded]
      exact and_iff_right hrow
    · by_contra hkeep
      refine hgone ((hadded.rows sid fid).mpr (Or.inl ⟨hrow, ?_⟩))
      rintro ⟨rfl, hbranch⟩
      exact hkeep ⟨rfl, hbranch⟩
  · rw [heq]
    exact files_refl h _

theorem toggleSessionFolder_files (h : Sound s)
    (htoggle : toggleSessionFolder fuel s sessionId folderId = some t) :
    Files s (.toggleSessionFolder sessionId folderId) t := by
  by_cases hin : folderId ∈ (s.sessionFolderMap sessionId).getD []
  · rw [toggleSessionFolder, if_pos hin, Option.some.injEq] at htoggle
    subst htoggle
    have hrows : ∀ sid fid, (sid, fid) ∈
        (s.db.removeSessionFromFolder sessionId folderId).session_folders ↔
        (sid, fid) ∈ s.db.session_folders ∧ ¬(sid = sessionId ∧ fid = folderId) := by
      intro sid fid
      simp only [Library.removeSessionFromFolder, List.mem_filter, decide_eq_true_eq, ne_eq,
        Prod.mk.injEq]
    refine ⟨⟨h.tree, fun sid fid hrow => ?_, h.listed, fun sid fid => ?_⟩, fun honce => ?_,
      fun sid fid hrow hgone => ?_⟩
    · exact h.rows sid fid ((hrows sid fid).mp hrow).1
    · rw [mem_updateSessionFolderMap, hrows, h.loaded]
      simp
    · refine honce.mono (fun row hrow => ?_) (fun f g hfg => hfg)
      exact ((hrows row.1 row.2).mp hrow).1
    · by_contra hkeep
      refine hgone ((hrows sid fid).mpr ⟨hrow, ?_⟩)
      rintro ⟨rfl, rfl⟩
      exact hkeep ⟨rfl, Or.inl rfl⟩
  · rw [toggleSessionFolder, if_neg hin] at htoggle
    obtain ⟨hsound, honce, hkept⟩ := addSessionToFolder_files h htoggle
    refine ⟨hsound, honce, fun sid fid hrow hgone => ?_⟩
    exact (hkept sid fid hrow hgone).imp_right Or.inr

theorem aiAddSessionToFolder_files (h : Sound s)
    (hadd : aiAddSessionToFolder fuel s sessionId folderId = some t) :
    Files s (.aiAddSessionToFolder sessionId folderId) t := by
  have hids : ∀ fid, fid ∈ s.db.folderIds sessionId ↔
      (sessionId, fid) ∈ s.db.session_folders := by
    intro fid
    simp [Library.folderIds]
  by_cases hskip : folderId ∉ s.db.folders.map DbFolder.id ∨ folderId ∈ s.db.folderIds sessionId
  · rw [aiAddSessionToFolder, if_pos hskip, Option.some.injEq] at hadd
    subst hadd
    exact files_refl h _
  · rw [aiAddSessionToFolder, if_neg hskip] at hadd
    obtain ⟨conflicts, hc, rfl⟩ := Option.map_eq_some_iff.mp hadd
    obtain ⟨db, heq, hadded⟩ | heq := added_or_kept h hids hc
    · rw [heq]
      have htree := h.tree
      rw [← hadded.folders] at htree
      refine ⟨⟨htree, hadded.keys h.rows, h.listed.trans hadded.folders.symm,
        fun sid fid => mem_groupBySession _ sid fid⟩, hadded.once h.tree.acyclic,
        fun sid fid hrow hgone => ?_⟩
      by_contra hkeep
      refine hgone ((hadded.rows sid fid).mpr (Or.inl ⟨hrow, ?_⟩))
      rintro ⟨rfl, hbranch⟩
      exact hkeep ⟨rfl, hbranch⟩
    · rw [heq]
      exact files_refl h _

theorem removeSessionFromAllFolders_files (h : Sound s) (sessionId : String) :
    Files s (.removeSessionFromAllFolders sessionId) (removeSessionFromAllFolders s sessionId) := by
  have hrows : ∀ sid fid, (sid, fid) ∈
      (s.db.removeSessionFromAllFolders sessionId).session_folders ↔
      (sid, fid) ∈ s.db.session_folders ∧ sid ≠ sessionId := by
    intro sid fid
    simp [Library.removeSessionFromAllFolders]
  refine ⟨⟨h.tree, fun sid fid hrow => ?_, h.listed, fun sid fid => ?_⟩, fun honce => ?_,
    fun sid fid hrow hgone => ?_⟩
  · exact h.rows sid fid ((hrows sid fid).mp hrow).1
  · simp only [removeSessionFromAllFolders]
    rw [hrows]
    by_cases hsid : sid = sessionId
    · simp [hsid]
    · rw [Function.update_of_ne hsid, h.loaded]
      simp [hsid]
  · refine honce.mono (fun row hrow => ?_) (fun f g hfg => hfg)
    exact ((hrows row.1 row.2).mp hrow).1
  · by_contra hkeep
    exact hgone ((hrows sid fid).mpr ⟨hrow, fun heq => hkeep heq.symm⟩)

theorem step_files (h : Sound s) {e : Event} (hfits : Fits s.db e)
    (hstep : step fuel s e = some t) : Files s e t := by
  cases e with
  | createSession id => exact Option.some.inj hstep ▸ createSession_files h id
  | createFolder id parentId => exact Option.some.inj hstep ▸ createFolder_files h id parentId
  | moveFolder f p => exact Option.some.inj hstep ▸ moveFolder_files h p hfits
  | deleteFolder id => exact Option.some.inj hstep ▸ deleteFolder_files h id
  | addSessionToFolder sid f => exact addSessionToFolder_files h hstep
  | toggleSessionFolder sid f => exact toggleSessionFolder_files h hstep
  | aiAddSessionToFolder sid f => exact aiAddSessionToFolder_files h hstep
  | removeSessionFromAllFolders sid =>
    exact Option.some.inj hstep ▸ removeSessionFromAllFolders_files h sid

theorem start_sound : Sound start where
  tree := tree_nil
  rows := fun sid fid hrow => absurd hrow List.not_mem_nil
  listed := rfl
  loaded := fun sid fid => by simp [start]

theorem start_once : Once start.db := fun _ _ _ hf => absurd hf List.not_mem_nil

/-- A move to a place beside the folder's branch keeps the rule only if it fits. -/
theorem fits_of_once (h : Sound s) {p : String} (hmem : folderId ∈ s.db.folders.map DbFolder.id)
    (hp : p ∈ s.db.folders.map DbFolder.id) (hbeside : ¬AtOrBelow (link s.db.folders) p folderId)
    (honce : Once (moveFolder s folderId (some p)).db) : Fits s.db (.moveFolder folderId (some p)) := by
  have hparent : HasParent s.db.folders (some p) := fun q hq => Option.some.inj hq ▸ hp
  have hok : ¬(folderId ∈ s.db.folders.map DbFolder.id ∧ ¬HasParent s.db.folders (some p)) :=
    fun hno => hno.2 hparent
  obtain ⟨hlink, _⟩ := h.tree.moved hmem hparent
  have hgraft : Grafted (link s.db.folders)
      (link (s.db.folders.map (Library.setParent folderId (some p)))) folderId p :=
    ⟨by rw [hlink, if_pos rfl], fun x hx => by rw [hlink, if_neg hx]⟩
  simp only [moveFolder, Library.updateFolderParent, if_neg hok, State.listed] at honce
  refine fun _ _ => ⟨hbeside, fun sid f g hf hg hff hpg => ?_⟩
  exact honce sid f g hf hg (hgraft.below_new h.tree.acyclic hbeside hff hpg)

/-- In every run in which the moves fit no session is in a folder and in one above it, and a
membership ends only by an operation on its session, on the branch of its folder, or on the
folder. A further move to a place beside the folder's own branch keeps the rule exactly if it
fits. -/
theorem filed_once_per_branch {es : List Event} {u : State}
    (hrun : exec (step fuel) start es = some u)
    (hfits : Along (step fuel) (fun s e _ => Fits s.db e) start es) :
    Once u.db ∧
    Along (step fuel) (fun s e t => ∀ sid fid, (sid, fid) ∈ s.db.session_folders →
      (sid, fid) ∉ t.db.session_folders → e.Concerns s.db sid fid) start es ∧
    (∀ sessionFolderIds target,
      Halts (findBranchConflicts u.folders sessionFolderIds target)) ∧
    ∀ folderId p t, step fuel u (.moveFolder folderId (some p)) = some t →
      folderId ∈ u.db.folders.map DbFolder.id → p ∈ u.db.folders.map DbFolder.id →
      ¬AtOrBelow (link u.db.folders) p folderId →
      (Once t.db ↔ Fits u.db (.moveFolder folderId (some p))) := by
  have hstep : ∀ s e t, Sound s ∧ Once s.db → Fits s.db e → step fuel s e = some t →
      Sound t ∧ Once t.db := by
    rintro s e t ⟨hsound, honce⟩ hf hst
    have hfiles := step_files hsound hf hst
    exact ⟨hfiles.sound, hfiles.once honce⟩
  obtain ⟨hsound, honce⟩ := exec_invariant_along hstep ⟨start_sound, start_once⟩ hfits hrun
  refine ⟨honce, ?_, ?_, ?_⟩
  · exact along_of_invariant hstep (fun s e t h hf hst => (step_files h.1 hf hst).kept)
      ⟨start_sound, start_once⟩ hfits
  · rw [hsound.listed]
    exact hsound.tree.conflicts_halts
  · intro folderId p t hst hmem hp hbeside
    obtain rfl := Option.some.inj hst
    exact ⟨fits_of_once hsound hmem hp hbeside,
      fun hf => (moveFolder_files hsound (some p) hf).once honce⟩

/-- A session is filed in `A`, and `B` is moved into `A` after that. -/
def nestingRun : List Event :=
  [.createSession "s", .createFolder ⟨"A", by decide⟩ none, .createFolder ⟨"B", by decide⟩ none,
    .addSessionToFolder "s" "A"]

theorem filed_once_per_branch_nestingRun :
    ∃ u, exec (step 4) start (nestingRun ++ [.moveFolder "B" (some "A")]) = some u ∧
      u.db = ⟨["s"], [⟨"A", none⟩, ⟨"B", some "A"⟩], [("s", "A")]⟩ ∧ Once u.db := by
  obtain ⟨t, ht, hdb⟩ : ∃ t, exec (step 4) start nestingRun = some t ∧
      t.db = ⟨["s"], [⟨"A", none⟩, ⟨"B", none⟩], [("s", "A")]⟩ :=
    exec_evaluates (by decide +kernel)
  obtain ⟨u, hu, hudb⟩ : ∃ u, exec (step 4) start (nestingRun ++ [.moveFolder "B" (some "A")]) =
      some u ∧ u.db = ⟨["s"], [⟨"A", none⟩, ⟨"B", some "A"⟩], [("s", "A")]⟩ :=
    exec_evaluates (by decide +kernel)
  have hfront : Along (step 4) (fun s e _ => Fits s.db e) start nestingRun := by
    have hstill : ∀ e ∈ nestingRun, ∀ db, Fits db e := by
      simp [nestingRun, Fits]
    exact ((along_true start nestingRun).and_events hstill).imp (fun s e t h => h.2 s.db)
  refine ⟨u, hu, hudb, (filed_once_per_branch hu (along_join hfront fun v hv => ?_)).1⟩
  obtain rfl := Option.some.inj (ht.symm.trans hv)
  refine fun w _ => ⟨fun _ _ => ⟨?_, fun sid f g hf _ hff => ?_⟩, trivial⟩
  · have htop : link t.db.folders "A" = none := by
      rw [hdb]
      decide
    rintro (heq | hbelow)
    · simp at heq
    · exact not_below_top htop hbelow
  · have htop : link t.db.folders "A" = none := by
      rw [hdb]
      decide
    have hrow : sid = "s" ∧ f = "A" := by
      rw [hdb] at hf
      simpa using hf
    obtain rfl := hrow.2
    obtain heq | hbelow := hff
    · simp at heq
    · exact absurd hbelow (not_below_top htop)

/-- The session is in both folders when `B` is moved into `A`, and stays in both. -/
theorem moveFolder_nests_filed_folders :
    ∃ u, exec (step 4) start (nestingRun ++ [.addSessionToFolder "s" "B",
        .moveFolder "B" (some "A")]) = some u ∧
      (("s", "A") ∈ u.db.session_folders ∧ ("s", "B") ∈ u.db.session_folders ∧
        climb (link u.db.folders) 1 "B" = some "A") :=
  exec_evaluates (by decide +kernel)

end YapStack.Filing
