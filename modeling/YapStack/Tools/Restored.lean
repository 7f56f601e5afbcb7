import YapStack.Tools.Undone

set_option linter.unusedSectionVars false

namespace YapStack.Tools

open Folders Scripts

variable {env : Env} {db : Db} {fuel : ℕ}

theorem removeEach_run (conflicts : List String) (db : Db) :
    (removeEach conflicts).run db =
      ((), conflicts.foldl (fun db folderId => db.deleteSessionFolder folderId) db) := by
  induction conflicts generalizing db with
  | nil => rfl
  | cons cId conflicts ih => exact ih _

theorem foldl_deleteSessionFolder (conflicts : List String) (db : Db) :
    ∃ ids, conflicts.foldl (fun db folderId => db.deleteSessionFolder folderId) db =
      { db with folderIds := ids } ∧ ∀ id, id ∈ ids ↔ id ∈ db.folderIds ∧ id ∉ conflicts := by
  induction conflicts generalizing db with
  | nil => exact ⟨db.folderIds, rfl, by simp⟩
  | cons cId conflicts ih =>
    obtain ⟨ids, heq, hids⟩ := ih (db.deleteSessionFolder cId)
    refine ⟨ids, heq, fun id => ?_⟩
    rw [hids, mem_deleteSessionFolder, List.mem_cons, not_or, and_assoc]

theorem foldl_insertSessionFolder (conflicts : List String) (db : Db) :
    ∃ ids, conflicts.foldl (fun db folderId => db.insertSessionFolder folderId) db =
      { db with folderIds := ids } ∧ ∀ id, id ∈ ids ↔ id ∈ db.folderIds ∨ id ∈ conflicts := by
  induction conflicts generalizing db with
  | nil => exact ⟨db.folderIds, rfl, by simp⟩
  | cons cId conflicts ih =>
    obtain ⟨ids, heq, hids⟩ := ih (db.insertSessionFolder cId)
    refine ⟨ids, heq, fun id => ?_⟩
    rw [hids, mem_insertSessionFolder, List.mem_cons, or_assoc]

theorem conflicts_subset {folders : List DbFolder} {ids conflicts : List String} {target : String}
    (hc : findBranchConflicts folders ids target fuel = some conflicts) : conflicts ⊆ ids := by
  simp only [findBranchConflicts, Option.bind_eq_some_iff, Option.map_eq_some_iff] at hc
  obtain ⟨ancestors, -, descendants, -, rfl⟩ := hc
  exact List.filter_subset_self ids

theorem fileSession_undoes {folderId : String} {conflicts : List String}
    (hnew : folderId ∉ db.folderIds) (hsub : conflicts ⊆ db.folderIds) :
    Undoes db ((fileSession folderId conflicts).run db) := by
  obtain ⟨kept, hkept, hmem⟩ := foldl_deleteSessionFolder conflicts db
  have hrun : (fileSession folderId conflicts).run db =
      (some ⟨"add_session_to_folder", some (.folder folderId conflicts)⟩,
        ({ db with folderIds := kept } : Db).insertSessionFolder folderId) := by
    simp only [fileSession, Script.bind_eq, Script.run_bind, listFolders, Script.run_read,
      removeEach_run, hkept, dbAddSessionToFolder, Script.run_write]
    rfl
  obtain ⟨ids, hids, hback⟩ := foldl_insertSessionFolder conflicts
    ((({ db with folderIds := kept } : Db).insertSessionFolder folderId).deleteSessionFolder
      folderId)
  rw [hrun]
  show Same db (undo (.folder folderId conflicts) _)
  rw [undo, hids]
  refine ⟨rfl, rfl, rfl, rfl, fun id => ?_, rfl⟩
  rw [hback, mem_deleteSessionFolder, mem_insertSessionFolder, hmem]
  constructor
  · intro hid
    by_cases hc : id ∈ conflicts
    · exact Or.inr hc
    · refine Or.inl ⟨Or.inl ⟨hid, hc⟩, ?_⟩
      rintro rfl
      exact hnew hid
  · rintro (⟨⟨hid, -⟩ | rfl, hne⟩ | hc)
    · exact hid
    · exact absurd rfl hne
    · exact hsub hc

theorem addSessionToFolder_undoes {folderId : String} {tool : Tool}
    (h : addSessionToFolder fuel folderId db.toolContext db.folders = some tool) :
    Undoes db (tool.run db) := by
  simp only [addSessionToFolder] at h
  split at h
  · obtain rfl := Option.some.inj h
    exact Same.refl db
  · next hskip =>
    obtain ⟨conflicts, hc, rfl⟩ := Option.map_eq_some_iff.mp h
    exact fileSession_undoes (fun hmem => hskip (Or.inr hmem)) (conflicts_subset hc)

theorem editEach_run (plans : List EditPlan) (db : Db) :
    (editEach plans).run db =
      ((), plans.foldl (fun db p => db.setSegmentText p.segmentId p.newText) db) := by
  induction plans generalizing db with
  | nil => rfl
  | cons p plans ih => exact ih _

/-- What a list of edits makes of one text. -/
def editText (edits : List (String × String)) (row : String × String) : String × String :=
  (row.1, edits.foldl (fun text edit => if row.1 = edit.1 then edit.2 else text) row.2)

theorem foldl_setSegmentText (edits : List (String × String)) (db : Db) :
    ∃ table, edits.foldl (fun db edit => db.setSegmentText edit.1 edit.2) db =
      { db with segments := table } ∧ table.val.map (fun seg => (seg.id, seg.text)) =
        (db.segments.val.map (fun seg => (seg.id, seg.text))).map (editText edits) := by
  induction edits generalizing db with
  | nil =>
    refine ⟨db.segments, rfl, ?_⟩
    have hid : editText [] = id := rfl
    rw [hid, List.map_id]
  | cons edit edits ih =>
    obtain ⟨table, heq, htexts⟩ := ih (db.setSegmentText edit.1 edit.2)
    refine ⟨table, heq, ?_⟩
    rw [htexts, texts_setSegmentText, List.map_map]
    rfl

theorem editText_of_unique {edits : List (String × String)} {row : String × String} {text : String}
    (h : ∀ edit ∈ edits, edit.1 = row.1 → edit.2 = text) :
    editText edits row = (row.1, if row.1 ∈ edits.map Prod.fst then text else row.2) := by
  obtain ⟨id, old⟩ := row
  induction edits generalizing old with
  | nil => rfl
  | cons edit edits ih =>
    have htail := fun e he => h e (List.mem_cons_of_mem edit he)
    have hstep : editText (edit :: edits) (id, old) =
        editText edits (id, if id = edit.1 then edit.2 else old) := rfl
    have hih := ih (if id = edit.1 then edit.2 else old) htail
    rw [hstep, hih]
    by_cases hid : id = edit.1
    · have htext := h edit List.mem_cons_self hid.symm
      simp [hid, htext]
    · simp only [hid, if_false, List.map_cons, List.mem_cons, false_or]

theorem editText_of_not_mem {edits : List (String × String)} {row : String × String}
    (h : row.1 ∉ edits.map Prod.fst) : editText edits row = row := by
  have hnone : ∀ edit ∈ edits, edit.1 = row.1 → edit.2 = row.2 :=
    fun edit hedit hid => absurd (List.mem_map.mpr ⟨edit, hedit, hid⟩) h
  rw [editText_of_unique hnone, if_neg h]

theorem editText_editText {edits back : List (String × String)} {row : String × String}
    (hids : back.map Prod.fst = edits.map Prod.fst)
    (hback : ∀ edit ∈ back, edit.1 = row.1 → edit.2 = row.2) :
    editText back (editText edits row) = row := by
  by_cases hmem : row.1 ∈ edits.map Prod.fst
  · have hfst : (editText edits row).1 = row.1 := rfl
    rw [editText_of_unique (fun edit hedit hid => hback edit hedit (hid.trans hfst)), hfst, hids,
      if_pos hmem]
  · rw [editText_of_not_mem hmem]
    rw [← hids] at hmem
    exact editText_of_not_mem hmem

/-- The plans are about different segments, with the texts that these have. -/
structure Planned (db : Db) (plans : List EditPlan) : Prop where
  previous : ∀ p ∈ plans, ∃ seg ∈ db.segments.val, seg.id = p.segmentId ∧ seg.text = p.previousText
  changed : ∀ p ∈ plans, p.newText ≠ p.previousText
  distinct : (plans.map EditPlan.segmentId).Nodup

theorem planEdit_some {find replace : String} {caseSensitive : Bool} {seg : Segment} {p : EditPlan}
    (h : planEdit env find replace caseSensitive seg = some p) :
    p.segmentId = seg.id ∧ p.previousText = seg.text ∧ p.newText ≠ p.previousText := by
  simp only [planEdit] at h
  split at h
  · simp at h
  · split at h
    · simp at h
    · next newText _ =>
      split at h
      · simp at h
      · next hne =>
        obtain rfl := Option.some.inj h
        exact ⟨rfl, rfl, hne⟩

theorem planned (env : Env) (db : Db) (find replace : String) (caseSensitive : Bool) : Planned db
    (db.toolContext.segments.filterMap (planEdit env find replace caseSensitive)) := by
  have hsub : db.toolContext.segments.Sublist db.segments.val := List.filter_sublist
  refine ⟨fun p hp => ?_, fun p hp => ?_, ?_⟩
  · obtain ⟨seg, hseg, hplan⟩ := List.mem_filterMap.mp hp
    obtain ⟨hid, htext, -⟩ := planEdit_some hplan
    exact ⟨seg, hsub.subset hseg, hid.symm, htext.symm⟩
  · obtain ⟨seg, hseg, hplan⟩ := List.mem_filterMap.mp hp
    exact (planEdit_some hplan).2.2
  · have hids : ∀ segments : List Segment, ((segments.filterMap
        (planEdit env find replace caseSensitive)).map EditPlan.segmentId).Sublist
        (segments.map Segment.id) := by
      intro segments
      induction segments with
      | nil => exact List.Sublist.refl _
      | cons seg segments ih =>
        cases hplan : planEdit env find replace caseSensitive seg with
        | none =>
          rw [List.filterMap_cons_none hplan, List.map_cons]
          exact ih.cons _
        | some p =>
          rw [List.filterMap_cons_some hplan, List.map_cons, List.map_cons,
            (planEdit_some hplan).1]
          exact ih.cons_cons _
    exact ((hids _).trans (hsub.map _)).nodup db.segments.property

theorem Planned.unique {plans : List EditPlan} (h : Planned db plans) {seg : Segment}
    (hseg : seg ∈ db.segments.val) {p : EditPlan} (hp : p ∈ plans) (hid : p.segmentId = seg.id) :
    p.previousText = seg.text := by
  obtain ⟨old, hold, holdid, htext⟩ := h.previous p hp
  obtain rfl : old = seg :=
    List.inj_on_of_nodup_map db.segments.property hold hseg (holdid.trans hid)
  exact htext.symm

theorem Planned.undone {plans : List EditPlan} (h : Planned db plans) :
    Same db (undo (.segments (plans.map fun p => (p.segmentId, p.previousText)))
      (plans.foldl (fun db p => db.setSegmentText p.segmentId p.newText) db)) := by
  obtain ⟨table, htable, htexts⟩ :=
    foldl_setSegmentText (plans.map fun p => (p.segmentId, p.newText)) db
  rw [List.foldl_map] at htable
  obtain ⟨back, hback, hbacks⟩ := foldl_setSegmentText
    (plans.map fun p => (p.segmentId, p.previousText)) { db with segments := table }
  rw [undo, htable, hback]
  refine ⟨rfl, rfl, rfl, rfl, fun _ => Iff.rfl, ?_⟩
  rw [hbacks, htexts, List.map_map, List.map_map]
  apply List.map_congr_left
  intro seg hseg
  have hprevious : ∀ edit ∈ plans.map (fun p => (p.segmentId, p.previousText)),
      edit.1 = seg.id → edit.2 = seg.text := by
    intro edit hedit hid
    obtain ⟨p, hp, rfl⟩ := List.mem_map.mp hedit
    exact h.unique hseg hp hid
  have hids : (plans.map fun p => (p.segmentId, p.previousText)).map Prod.fst =
      (plans.map fun p => (p.segmentId, p.newText)).map Prod.fst := by
    rw [List.map_map, List.map_map]
    rfl
  exact (editText_editText hids hprevious).symm

theorem replaceInTranscript_undoes (find replace : String) (caseSensitive : Bool) (db : Db) :
    Undoes db ((replaceInTranscript env find replace caseSensitive db.toolContext).run db) := by
  have hplanned := planned env db find replace caseSensitive
  simp only [replaceInTranscript]
  generalize db.toolContext.segments.filterMap (planEdit env find replace caseSensitive) = plans
    at *
  split
  · exact Same.refl db
  · split
    · exact Same.refl db
    · simp only [Script.bind_eq, Script.run_bind, editEach_run]
      exact hplanned.undone

/-- A call that goes through can be taken back. -/
theorem execute_undoes {call : Call} {tool : Tool} (h : execute env fuel call db = some tool) :
    Undoes db (tool.run db) := by
  cases call with
  | updateTitle title => exact Option.some.inj h ▸ updateTitle_undoes title db
  | saveToNotes mode content find => exact Option.some.inj h ▸ saveToNotes_undoes mode content find db
  | pinSession pinned => exact Option.some.inj h ▸ pinSession_undoes pinned db
  | tagSession add remove => exact Option.some.inj h ▸ tagSession_undoes add remove db
  | addSessionToFolder folderId => exact addSessionToFolder_undoes h
  | replaceInTranscript find replace caseSensitive =>
    exact Option.some.inj h ▸ replaceInTranscript_undoes find replace caseSensitive db

end YapStack.Tools
