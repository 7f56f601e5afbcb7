import YapStack.Tools.Execute

set_option linter.unusedSectionVars false

namespace YapStack.Tools

section Undone

open Folders Scripts

variable {env : Env} {db a b : Db} {tool : Tool}

/-- The rows that a user sees agree, an absent note counting as an empty one. -/
structure Same (a b : Db) : Prop where
  title : a.title = b.title
  note : a.note.getD "<p></p>" = b.note.getD "<p></p>"
  isPinned : a.isPinned = b.isPinned
  sessionTags : a.sessionTags = b.sessionTags
  folderIds : ∀ id, id ∈ a.folderIds ↔ id ∈ b.folderIds
  texts : a.segments.val.map (fun seg => (seg.id, seg.text)) =
    b.segments.val.map (fun seg => (seg.id, seg.text))

theorem Same.refl (a : Db) : Same a a := ⟨rfl, rfl, rfl, rfl, fun _ => Iff.rfl, rfl⟩

theorem Same.trans {c : Db} (h : Same a b) (h' : Same b c) : Same a c :=
  ⟨h.title.trans h'.title, h.note.trans h'.note, h.isPinned.trans h'.isPinned,
    h.sessionTags.trans h'.sessionTags, fun id => (h.folderIds id).trans (h'.folderIds id),
    h.texts.trans h'.texts⟩

theorem Same.symm (h : Same a b) : Same b a :=
  ⟨h.title.symm, h.note.symm, h.isPinned.symm, h.sessionTags.symm,
    fun id => (h.folderIds id).symm, h.texts.symm⟩

theorem mem_insertSessionFolder (db : Db) (folderId id : String) :
    id ∈ (db.insertSessionFolder folderId).folderIds ↔ id ∈ db.folderIds ∨ id = folderId := by
  by_cases h : folderId ∈ db.folderIds
  · simp only [Db.insertSessionFolder, if_pos h]
    refine ⟨Or.inl, ?_⟩
    rintro (hid | rfl)
    · exact hid
    · exact h
  · simp only [Db.insertSessionFolder, if_neg h, List.mem_append, List.mem_singleton]

theorem mem_deleteSessionFolder (db : Db) (folderId id : String) :
    id ∈ (db.deleteSessionFolder folderId).folderIds ↔ id ∈ db.folderIds ∧ id ≠ folderId := by
  simp [Db.deleteSessionFolder]

theorem texts_editRow (id newText : String) (seg : Segment) :
    ((editRow id newText seg).id, (editRow id newText seg).text) =
      (seg.id, if seg.id = id then newText else seg.text) := by
  rw [editRow]
  split
  · rfl
  · rfl

theorem texts_setSegmentText (db : Db) (id newText : String) :
    (db.setSegmentText id newText).segments.val.map (fun seg => (seg.id, seg.text)) =
      (db.segments.val.map (fun seg => (seg.id, seg.text))).map
        (fun row => (row.1, if row.1 = id then newText else row.2)) := by
  simp only [Db.setSegmentText, SegmentTable.updateText, List.map_map]
  apply List.map_congr_left
  intro seg _
  exact texts_editRow id newText seg

theorem Same.setTitle (h : Same a b) (title : String) :
    Same (a.setTitle title) (b.setTitle title) :=
  ⟨rfl, h.note, h.isPinned, h.sessionTags, h.folderIds, h.texts⟩

theorem Same.setNote (h : Same a b) (content : String) :
    Same (a.setNote content) (b.setNote content) :=
  ⟨h.title, rfl, h.isPinned, h.sessionTags, h.folderIds, h.texts⟩

theorem Same.setPinned (h : Same a b) (pinned : Bool) :
    Same (a.setPinned pinned) (b.setPinned pinned) :=
  ⟨h.title, h.note, rfl, h.sessionTags, h.folderIds, h.texts⟩

theorem Same.insertSessionTag (h : Same a b) (tagId : String) (source : TagSource) :
    Same (a.insertSessionTag tagId source) (b.insertSessionTag tagId source) :=
  ⟨h.title, h.note, h.isPinned, by simp only [Db.insertSessionTag, h.sessionTags], h.folderIds,
    h.texts⟩

theorem Same.deleteSessionTag (h : Same a b) (tagId : String) :
    Same (a.deleteSessionTag tagId) (b.deleteSessionTag tagId) :=
  ⟨h.title, h.note, h.isPinned, by simp only [Db.deleteSessionTag, h.sessionTags], h.folderIds,
    h.texts⟩

theorem Same.insertSessionFolder (h : Same a b) (folderId : String) :
    Same (a.insertSessionFolder folderId) (b.insertSessionFolder folderId) := by
  refine ⟨h.title, h.note, h.isPinned, h.sessionTags, fun id => ?_, h.texts⟩
  rw [mem_insertSessionFolder, mem_insertSessionFolder, h.folderIds]

theorem Same.deleteSessionFolder (h : Same a b) (folderId : String) :
    Same (a.deleteSessionFolder folderId) (b.deleteSessionFolder folderId) := by
  refine ⟨h.title, h.note, h.isPinned, h.sessionTags, fun id => ?_, h.texts⟩
  rw [mem_deleteSessionFolder, mem_deleteSessionFolder, h.folderIds]

theorem Same.setSegmentText (h : Same a b) (id newText : String) :
    Same (a.setSegmentText id newText) (b.setSegmentText id newText) := by
  refine ⟨h.title, h.note, h.isPinned, h.sessionTags, h.folderIds, ?_⟩
  rw [texts_setSegmentText, texts_setSegmentText, h.texts]

/-- The same change on the same rows, item by item. -/
theorem Same.foldl {ι : Type} {f : Db → ι → Db} (hf : ∀ a b i, Same a b → Same (f a i) (f b i))
    (h : Same a b) (items : List ι) : Same (items.foldl f a) (items.foldl f b) := by
  induction items generalizing a b with
  | nil => exact h
  | cons i items ih => exact ih (hf a b i h)

theorem undo_congr (u : UndoData) (a b : Db) (h : Same a b) : Same (undo u a) (undo u b) := by
  cases u with
  | title previous => exact h.setTitle previous
  | note previous => exact h.setNote _
  | pinned wasPinned =>
    simp only [undo, h.isPinned]
    split
    · exact h
    · exact h.setPinned _
  | tags added removed =>
    apply Same.foldl (fun a b tag h => h.insertSessionTag tag.1 tag.2)
    exact h.foldl (fun a b tagId h => h.deleteSessionTag tagId) added
  | folder added conflicts =>
    apply Same.foldl (fun a b folderId h => h.insertSessionFolder folderId)
    exact h.deleteSessionFolder added
  | segments edits => exact h.foldl (fun a b edit h => h.setSegmentText edit.1 edit.2) edits

/-- What a call records takes it back, and a call that records nothing changes nothing. -/
def Undoes (db : Db) (result : Option ExecutedTool × Db) : Prop :=
  match result.1.bind ExecutedTool.undoData with
  | some u => Same db (undo u result.2)
  | none => Same db result.2

theorem updateTitle_undoes (title : String) (db : Db) :
    Undoes db ((updateTitle env title db.toolContext).run db) := by
  simp only [updateTitle]
  split
  · exact Same.refl db
  · exact ⟨rfl, rfl, rfl, rfl, fun _ => Iff.rfl, rfl⟩

theorem snapshotNote_same (ctx : ToolContext) (db : Db) :
    ((snapshotNote ctx).run db).2 = { db with noteVersions :=
      ((snapshotNote ctx).run db).2.noteVersions } := by
  cases h : ctx.currentNote with
  | none => simp [snapshotNote, h]
  | some content =>
    by_cases hc : content = ""
    · simp [snapshotNote, h, hc]
    · simp [snapshotNote, h, hc, createNoteVersion]

theorem saveToNotes_undoes (mode content find : String) (db : Db) :
    Undoes db ((saveToNotes env mode content find db.toolContext).run db) := by
  have hsnap := snapshotNote_same db.toolContext db
  simp only [saveToNotes, Script.bind_eq, Script.run_bind]
  generalize ((snapshotNote db.toolContext).run db).2 = snapped at *
  rw [hsnap]
  cases mergedHtml env mode content find db.toolContext with
  | none => exact ⟨rfl, rfl, rfl, rfl, fun _ => Iff.rfl, rfl⟩
  | some html =>
    refine ⟨rfl, ?_, rfl, rfl, fun _ => Iff.rfl, rfl⟩
    simp [Db.setNote, Db.toolContext, undo]

theorem undo_pinned (db : Db) :
    undo (.pinned db.isPinned) (db.setPinned (!db.isPinned)) = db := by
  obtain ⟨title, note, versions, isPinned, rest⟩ := db
  cases isPinned
  · rfl
  · rfl

theorem pinSession_undoes (wantPinned : Bool) (db : Db) :
    Undoes db ((pinSession wantPinned db.toolContext).run db) := by
  by_cases h : wantPinned = db.isPinned
  · have hpin : pinSession wantPinned db.toolContext = pure (some ⟨"pin_session", none⟩) :=
      if_pos h
    rw [hpin]
    exact Same.refl db
  · have hpin : pinSession wantPinned db.toolContext = (do
        togglePin
        return some ⟨"pin_session", some (.pinned db.isPinned)⟩) := if_neg h
    rw [hpin]
    show Same db (undo (.pinned db.isPinned) (db.setPinned (!db.isPinned)))
    rw [undo_pinned]
    exact Same.refl db

end Undone

section Tagging

open Folders Scripts

variable {env : Env} {db : Db}

/-- Which tags the session has while `tag_session` runs: the new ones, those before it without the
ones taken off, and no others. -/
structure Tagging (before : String → Option TagSource) (db : Db) (added : List String)
    (removed : List (String × TagSource)) (now : Db) : Prop where
  rest : ∃ tags, now = { db with sessionTags := now.sessionTags, tags := tags }
  added_new : ∀ id ∈ added, before id = none
  removed_old : ∀ tag ∈ removed, before tag.1 = some tag.2
  tag_of : ∀ id, now.sessionTags id =
    if id ∈ added then some .ai else if id ∈ removed.map Prod.fst then none else before id

variable {before : String → Option TagSource} {added : List String}
  {removed : List (String × TagSource)} {now : Db}

theorem findOrCreateTag_tagging (env : Env) (h : Tagging before db added removed now) (name : String)
    (drawn : ℕ) :
    Tagging before db added removed ((findOrCreateTag env name drawn).run now).2 := by
  simp only [findOrCreateTag, Script.bind_eq, Script.run_bind, getTagByName, Script.run_read]
  cases (now.tags.find? (fun tag => sameName tag.2 name)).map Prod.fst with
  | some id => exact h
  | none =>
    obtain ⟨tags, hrest⟩ := h.rest
    refine ⟨⟨now.tags ++ [(env.randomUUID drawn, name)], ?_⟩, h.added_new, h.removed_old, h.tag_of⟩
    rw [hrest]
    rfl

theorem Tagging.add (h : Tagging before db added [] now) {id : String} (hid : before id = none) :
    Tagging before db (added ++ [id]) [] (now.insertSessionTag id .ai) := by
  obtain ⟨tags, hrest⟩ := h.rest
  refine ⟨⟨tags, ?_⟩, fun i hi => ?_, h.removed_old, fun i => ?_⟩
  · rw [hrest]
    rfl
  · obtain hi | hi := List.mem_append.mp hi
    · exact h.added_new i hi
    · rw [List.mem_singleton.mp hi]
      exact hid
  · have hold := h.tag_of i
    by_cases hi : i = id
    · subst hi
      simp only [Db.insertSessionTag, Function.update_self, hold, hid]
      by_cases hmem : i ∈ added <;> simp [hmem]
    · simp only [Db.insertSessionTag, Function.update_of_ne hi, hold, List.mem_append,
        List.mem_singleton, hi, or_false]

theorem addTags_tagging (env : Env) (h : Tagging before db added [] now) (toAdd : List String) (drawn : ℕ) :
    Tagging before db ((addTags env before toAdd drawn added).run now).1 []
      ((addTags env before toAdd drawn added).run now).2 := by
  induction toAdd generalizing now drawn added with
  | nil => exact h
  | cons name toAdd ih =>
    rw [addTags]
    split
    · exact ih h drawn
    · have hfound := findOrCreateTag_tagging env h (trim name) drawn
      simp only [Script.bind_eq, Script.run_bind]
      generalize (findOrCreateTag env (trim name) drawn).run now = found at *
      cases hid : before found.1.1 with
      | some source =>
        simp only [Option.isSome_some, if_true]
        exact ih hfound _
      | none =>
        simp only [Option.isSome_none, Bool.false_eq_true, if_false, Script.run_bind]
        exact ih (hfound.add hid) _

theorem Tagging.remove (h : Tagging before db added removed now) {id : String}
    {source : TagSource} (hid : before id = some source) :
    Tagging before db added (removed ++ [(id, source)]) (now.deleteSessionTag id) := by
  obtain ⟨tags, hrest⟩ := h.rest
  refine ⟨⟨tags, ?_⟩, h.added_new, fun tag htag => ?_, fun i => ?_⟩
  · rw [hrest]
    rfl
  · obtain htag | htag := List.mem_append.mp htag
    · exact h.removed_old tag htag
    · rw [List.mem_singleton.mp htag]
      exact hid
  · have hold := h.tag_of i
    by_cases hi : i = id
    · subst hi
      have hnew : i ∉ added := fun hmem => by simp [h.added_new i hmem] at hid
      simp [Db.deleteSessionTag, hnew]
    · simp only [Db.deleteSessionTag, Function.update_of_ne hi, hold, List.map_append,
        List.map_cons, List.map_nil, List.mem_append, List.mem_singleton, hi, or_false]

theorem removeTags_tagging (h : Tagging before db added removed now) (toRemove : List String) :
    Tagging before db added ((removeTags before toRemove removed).run now).1
      ((removeTags before toRemove removed).run now).2 := by
  induction toRemove generalizing now removed with
  | nil => exact h
  | cons name toRemove ih =>
    rw [removeTags]
    split
    · exact ih h
    · simp only [Script.bind_eq, Script.run_bind, getTagByName, Script.run_read]
      cases (now.tags.find? (fun tag => sameName tag.2 (trim name))).map Prod.fst with
      | none => exact ih h
      | some id =>
        cases hid : before id with
        | none =>
          simp only [hid]
          exact ih h
        | some source =>
          simp only [hid, Script.run_bind]
          exact ih (h.remove hid)

theorem foldl_deleteSessionTag (added : List String) (now : Db) :
    added.foldl (fun db tagId => db.deleteSessionTag tagId) now =
      { now with sessionTags := fun id => if id ∈ added then none else now.sessionTags id } := by
  induction added generalizing now with
  | nil => simp
  | cons tagId added ih =>
    rw [List.foldl_cons, ih]
    simp only [Db.deleteSessionTag]
    congr 1
    funext id
    by_cases hid : id = tagId
    · simp [hid]
    · simp [hid]

theorem foldl_insertSessionTag (removed : List (String × TagSource)) (now : Db)
    (hold : ∀ tag ∈ removed, before tag.1 = some tag.2)
    (hnow : ∀ id, now.sessionTags id = none ∨ now.sessionTags id = before id) :
    removed.foldl (fun db tag => db.insertSessionTag tag.1 tag.2) now =
      { now with sessionTags := fun id =>
        if id ∈ removed.map Prod.fst then before id else now.sessionTags id } := by
  induction removed generalizing now with
  | nil => simp
  | cons tag removed ih =>
    have htag := hold tag List.mem_cons_self
    have hself : (now.sessionTags tag.1).getD tag.2 = tag.2 := by
      obtain h | h := hnow tag.1
      · simp [h]
      · simp [h, htag]
    rw [List.foldl_cons, ih]
    · simp only [Db.insertSessionTag, hself]
      congr 1
      funext id
      by_cases hid : id = tag.1
      · simp [hid, htag]
      · simp only [Function.update_of_ne hid, List.map_cons, List.mem_cons, hid, false_or]
    · exact fun t ht => hold t (List.mem_cons_of_mem tag ht)
    · intro id
      by_cases hid : id = tag.1
      · simp [Db.insertSessionTag, hid, hself, htag]
      · simpa [Db.insertSessionTag, hid] using hnow id

/-- Taking back what `tag_session` records gives the tags of before. -/
theorem Tagging.undone (h : Tagging db.sessionTags db added removed now) :
    Same db (undo (.tags added removed) now) := by
  obtain ⟨tags, hrest⟩ := h.rest
  have hcleared : ∀ id, (if id ∈ added then none else now.sessionTags id) = none ∨
      (if id ∈ added then none else now.sessionTags id) = db.sessionTags id := by
    intro id
    by_cases hid : id ∈ added
    · simp [hid]
    · rw [if_neg hid, h.tag_of, if_neg hid]
      split
      · exact Or.inl rfl
      · exact Or.inr rfl
  rw [undo, foldl_deleteSessionTag, foldl_insertSessionTag removed _ h.removed_old hcleared, hrest]
  refine ⟨rfl, rfl, rfl, ?_, fun _ => Iff.rfl, rfl⟩
  funext id
  simp only
  by_cases hremoved : id ∈ removed.map Prod.fst
  · rw [if_pos hremoved]
  · rw [if_neg hremoved]
    by_cases hadded : id ∈ added
    · rw [if_pos hadded, h.added_new id hadded]
    · rw [if_neg hadded, h.tag_of, if_neg hadded, if_neg hremoved]

theorem tagSession_undoes (toAdd toRemove : List String) (db : Db) :
    Undoes db ((tagSession env toAdd toRemove).run db) := by
  have hstart : Tagging db.sessionTags db [] [] db :=
    ⟨⟨db.tags, rfl⟩, by simp, by simp, by simp⟩
  have hadd := addTags_tagging env hstart toAdd 0
  have hremove := removeTags_tagging hadd toRemove
  simp only [tagSession, Script.bind_eq, Script.run_bind, getSessionTagRows, Script.run_read]
  generalize (addTags env db.sessionTags toAdd 0 []).run db = r at *
  generalize (removeTags db.sessionTags toRemove []).run r.2 = r' at *
  by_cases hnone : r.1 = [] ∧ r'.1 = []
  · simp only [Undoes, hnone, and_self, if_true, Script.pure_eq, Script.run_done, Option.bind_some]
    have hundone := hremove.undone
    rwa [hnone.1, hnone.2] at hundone
  · simp only [Undoes, hnone, if_false, Script.pure_eq, Script.run_done, Option.bind_some]
    exact hremove.undone

end Tagging

end YapStack.Tools
