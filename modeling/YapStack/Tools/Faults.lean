import YapStack.Foundation.Runs
import YapStack.Tools.Restored

set_option linter.unusedSectionVars false

namespace YapStack.Tools

section Faults

open Folders Scripts

variable {env : Env} {db now : Db} {fuel : ℕ} {α : Type}

/-- Before every statement, the rows are as they were exactly if nothing was written. -/
def Marked (db : Db) (dirty : Bool) (p : Script Db α) (now : Db) : Prop :=
  p.Tracks (Same db) (fun s => ¬Same db s) dirty now

theorem Marked.throws {p : Script Db α} {n : ℕ} (h : Marked db false p db)
    (hthrow : (p.runUntil n db).1 = none) :
    Same db (p.runUntil n db).2 ↔ p.wrote n db = false := by
  have hstate := Script.Tracks.throws h hthrow
  rw [Bool.false_or] at hstate
  cases hwrote : p.wrote n db with
  | false =>
    rw [hwrote] at hstate
    simpa using hstate
  | true =>
    rw [hwrote] at hstate
    simpa using hstate

/-- What is known of the rows between two statements. -/
def Knows (db : Db) (dirty : Bool) (now : Db) : Prop := if dirty then ¬Same db now else Same db now

theorem knows_true : Knows db true now ↔ ¬Same db now := Iff.rfl

theorem knows_false : Knows db false now ↔ Same db now := Iff.rfl

theorem knows_refl (db : Db) : Knows db false db := Same.refl db

theorem marked_done (dirty : Bool) (a : α) : Marked db dirty (Script.done a) now := trivial

theorem marked_read {β : Type} {dirty : Bool} {g : Db → β} {next : β → Script Db α}
    (h : Knows db dirty now) (hnext : Marked db dirty (next (g now)) now) :
    Marked db dirty ((Script.read g).bind next) now := by
  refine ⟨h, ?_⟩
  rw [Bool.or_false]
  exact hnext

theorem marked_aside {dirty : Bool} {f : Db → Db} {next : Unit → Script Db α}
    (h : Knows db dirty now) (hnext : Marked db dirty (next ()) (f now)) :
    Marked db dirty ((Script.aside f).bind next) now := by
  refine ⟨h, ?_⟩
  rw [Bool.or_false]
  exact hnext

theorem marked_write {dirty : Bool} {f : Db → Db} {next : Unit → Script Db α}
    (h : Knows db dirty now) (hnext : Marked db true (next ()) (f now)) :
    Marked db dirty ((Script.write f).bind next) now := by
  refine ⟨h, ?_⟩
  rw [Bool.or_true]
  exact hnext

theorem updateTitle_marked (title : String) :
    Marked db false (updateTitle env title db.toolContext) db := by
  simp only [updateTitle]
  split
  · exact marked_done _ _
  · exact marked_write (Same.refl db) (marked_done _ _)

theorem saveNote_marked {html : String} {result : α} (h : Same db now) :
    Marked db false ((saveNote html).bind fun _ => Script.done result) now :=
  marked_read h (marked_write h (marked_done _ _))

theorem snapshotNote_marked (ctx : ToolContext) {next : Unit → Script Db α}
    (hnext : ∀ now, Same db now → Marked db false (next ()) now) :
    Marked db false ((snapshotNote ctx).bind next) db := by
  rw [snapshotNote]
  split
  · split
    · exact hnext db (Same.refl db)
    · exact marked_aside (Same.refl db) (hnext _ ⟨rfl, rfl, rfl, rfl, fun _ => Iff.rfl, rfl⟩)
  · exact hnext db (Same.refl db)

theorem saveToNotes_marked (mode content find : String) :
    Marked db false (saveToNotes env mode content find db.toolContext) db := by
  apply snapshotNote_marked
  intro now hnow
  cases mergedHtml env mode content find db.toolContext with
  | none => exact marked_done _ _
  | some html => exact saveNote_marked hnow

theorem pinSession_marked (wantPinned : Bool) :
    Marked db false (pinSession wantPinned db.toolContext) db := by
  rw [pinSession]
  split
  · exact marked_done _ _
  · simp only [togglePin, Script.bind_eq, Script.bind_assoc]
    apply marked_read (knows_refl db)
    apply marked_write (knows_refl db)
    exact marked_done _ _

section Tags

variable {before : String → Option TagSource} {added : List String}
  {removed : List (String × TagSource)} {dirty : Bool}

theorem Tagging.same_iff (h : Tagging db.sessionTags db added removed now) :
    Same db now ↔ added = [] ∧ removed = [] := by
  constructor
  · intro hsame
    have hid : ∀ id, now.sessionTags id = db.sessionTags id :=
      fun id => congrFun hsame.sessionTags.symm id
    constructor
    · apply List.eq_nil_iff_forall_not_mem.mpr
      intro id hadded
      have hnow := h.tag_of id
      rw [if_pos hadded, hid, h.added_new id hadded] at hnow
      simp at hnow
    · apply List.eq_nil_iff_forall_not_mem.mpr
      intro tag hremoved
      have hold := h.removed_old tag hremoved
      have hnew : tag.1 ∉ added := fun hmem => by simp [h.added_new tag.1 hmem] at hold
      have hnow := h.tag_of tag.1
      rw [if_neg hnew, if_pos (List.mem_map_of_mem hremoved), hid, hold] at hnow
      simp at hnow
  · rintro ⟨rfl, rfl⟩
    obtain ⟨tags, hrest⟩ := h.rest
    rw [hrest]
    refine ⟨rfl, rfl, rfl, ?_, fun _ => Iff.rfl, rfl⟩
    funext id
    simpa using (h.tag_of id).symm

theorem Tagging.knows_congr {now' : Db} (h : Tagging db.sessionTags db added removed now)
    (h' : Tagging db.sessionTags db added removed now') (hknows : Knows db dirty now) :
    Knows db dirty now' := by
  rw [Knows, h.same_iff] at hknows
  rwa [Knows, h'.same_iff]

theorem findOrCreateTag_marked (h : Tagging db.sessionTags db added removed now)
    (hknows : Knows db dirty now) (name : String) (drawn : ℕ) {next : String × ℕ → Script Db α}
    (hnext : ∀ found now, Tagging db.sessionTags db added removed now → Knows db dirty now →
      Marked db dirty (next found) now) :
    Marked db dirty ((findOrCreateTag env name drawn).bind next) now := by
  have hfound := findOrCreateTag_tagging env h name drawn
  simp only [findOrCreateTag, Script.bind_eq, Script.bind_assoc, Script.run_bind, getTagByName,
    Script.run_read] at hfound ⊢
  apply marked_read hknows
  generalize (now.tags.find? (fun tag => sameName tag.2 name)).map Prod.fst = found at *
  cases found with
  | some id => exact hnext _ _ h hknows
  | none =>
    simp only [createTag, Script.bind_assoc]
    apply marked_aside hknows
    exact hnext _ _ hfound (h.knows_congr hfound hknows)

theorem addTags_marked (h : Tagging db.sessionTags db added [] now) (hknows : Knows db dirty now)
    (toAdd : List String) (drawn : ℕ) {next : List String → Script Db α}
    (hnext : ∀ added now dirty, Tagging db.sessionTags db added [] now → Knows db dirty now →
      Marked db dirty (next added) now) :
    Marked db dirty ((addTags env db.sessionTags toAdd drawn added).bind next) now := by
  induction toAdd generalizing now drawn added dirty with
  | nil => exact hnext added now dirty h hknows
  | cons name toAdd ih =>
    rw [addTags]
    split
    · exact ih h hknows drawn
    · simp only [Script.bind_eq, Script.bind_assoc]
      apply findOrCreateTag_marked h hknows
      intro found now hfound hknows
      cases hid : db.sessionTags found.1 with
      | some source =>
        simp only [Option.isSome_some, if_true]
        exact ih hfound hknows found.2
      | none =>
        have hadded := hfound.add hid
        simp only [Option.isSome_none, Bool.false_eq_true, if_false, Script.bind_assoc]
        refine marked_write hknows (ih hadded ?_ found.2)
        rw [knows_true, hadded.same_iff]
        simp

theorem removeTags_marked (h : Tagging db.sessionTags db added removed now)
    (hknows : Knows db dirty now) (toRemove : List String)
    {next : List (String × TagSource) → Script Db α}
    (hnext : ∀ removed now dirty, Marked db dirty (next removed) now) :
    Marked db dirty ((removeTags db.sessionTags toRemove removed).bind next) now := by
  induction toRemove generalizing now removed dirty with
  | nil => exact hnext removed now dirty
  | cons name toRemove ih =>
    rw [removeTags]
    split
    · exact ih h hknows
    · simp only [Script.bind_eq, Script.bind_assoc, getTagByName]
      apply marked_read hknows
      cases (now.tags.find? (fun tag => sameName tag.2 (trim name))).map Prod.fst with
      | none => exact ih h hknows
      | some id =>
        cases hid : db.sessionTags id with
        | none =>
          simp only [hid]
          exact ih h hknows
        | some source =>
          have hremoved := h.remove hid
          simp only [hid, Script.bind_assoc]
          refine marked_write hknows (ih hremoved ?_)
          rw [knows_true, hremoved.same_iff]
          simp

theorem tagSession_marked (toAdd toRemove : List String) :
    Marked db false (tagSession env toAdd toRemove) db := by
  have hstart : Tagging db.sessionTags db [] [] db :=
    ⟨⟨db.tags, rfl⟩, by simp, by simp, by simp⟩
  apply marked_read (knows_refl db)
  apply addTags_marked hstart (knows_refl db)
  intro added now dirty hadded hknows
  apply removeTags_marked hadded hknows
  exact fun removed now dirty => marked_done _ _

end Tags

section Folders

variable {dirty : Bool} {conflicts : List String} {folderId : String}

/-- A membership that was taken off shows until the end. -/
theorem removeEach_marked (hknows : Knows db dirty now) (hsub : conflicts ⊆ db.folderIds)
    (hgone : dirty = true → ∃ id ∈ db.folderIds, id ∉ now.folderIds) {next : Unit → Script Db α}
    (hnext : ∀ now dirty, Knows db dirty now → Marked db dirty (next ()) now) :
    Marked db dirty ((removeEach conflicts).bind next) now := by
  induction conflicts generalizing now dirty with
  | nil => exact hnext now dirty hknows
  | cons cId conflicts ih =>
    have hmissing : ∃ id ∈ db.folderIds, id ∉ (now.deleteSessionFolder cId).folderIds := by
      refine ⟨cId, hsub List.mem_cons_self, fun hmem => ?_⟩
      exact ((mem_deleteSessionFolder now cId cId).mp hmem).2 rfl
    simp only [removeEach, dbRemoveSessionFromFolder, Script.bind_eq, Script.bind_assoc]
    apply marked_write hknows
    refine ih ?_ ?_ fun _ => hmissing
    · rw [knows_true]
      intro hsame
      obtain ⟨id, hid, hnot⟩ := hmissing
      exact hnot ((hsame.folderIds id).mp hid)
    · exact fun id hid => hsub (List.mem_cons_of_mem cId hid)

theorem fileSession_marked (hsub : conflicts ⊆ db.folderIds) :
    Marked db false (fileSession folderId conflicts) db := by
  simp only [fileSession, listFolders, Script.bind_eq]
  apply marked_read (knows_refl db)
  apply removeEach_marked (knows_refl db) hsub (fun h => by simp at h)
  intro now dirty hknows
  exact marked_write hknows (marked_done _ _)

theorem addSessionToFolder_marked {tool : Tool}
    (h : addSessionToFolder fuel folderId db.toolContext db.folders = some tool) :
    Marked db false tool db := by
  simp only [addSessionToFolder] at h
  split at h
  · obtain rfl := Option.some.inj h
    exact marked_read (knows_refl db) (marked_done _ _)
  · obtain ⟨conflicts, hc, rfl⟩ := Option.map_eq_some_iff.mp h
    exact fileSession_marked (conflicts_subset hc)

end Folders

section Segments

theorem Planned.left {plans rest : List EditPlan} (h : Planned db (plans ++ rest)) :
    Planned db plans := by
  refine ⟨fun p hp => h.previous p (List.mem_append_left _ hp),
    fun p hp => h.changed p (List.mem_append_left _ hp), ?_⟩
  have hdistinct := h.distinct
  rw [List.map_append] at hdistinct
  exact hdistinct.of_append_left

/-- Each edit shows in the texts, as no other one is about the same segment. -/
theorem Planned.differs {plans : List EditPlan} (h : Planned db plans) (hne : plans ≠ []) :
    ¬Same db (plans.foldl (fun db p => db.setSegmentText p.segmentId p.newText) db) := by
  intro hsame
  obtain ⟨p, hp⟩ := List.exists_mem_of_ne_nil plans hne
  obtain ⟨seg, hseg, hid, htext⟩ := h.previous p hp
  obtain ⟨table, htable, htexts⟩ :=
    foldl_setSegmentText (plans.map fun p => (p.segmentId, p.newText)) db
  rw [List.foldl_map] at htable
  have hrows := hsame.texts
  rw [htable, htexts] at hrows
  have hrow := List.map_eq_map_iff.mp ((List.map_id _).trans hrows) (seg.id, seg.text)
    (List.mem_map.mpr ⟨seg, hseg, rfl⟩)
  have hunique : ∀ edit ∈ plans.map (fun p => (p.segmentId, p.newText)),
      edit.1 = seg.id → edit.2 = p.newText := by
    intro edit hedit heq
    obtain ⟨q, hq, rfl⟩ := List.mem_map.mp hedit
    obtain rfl : q = p := List.inj_on_of_nodup_map h.distinct hq hp (heq.trans hid)
    rfl
  have hmem : seg.id ∈ (plans.map fun p => (p.segmentId, p.newText)).map Prod.fst := by
    rw [List.map_map]
    exact List.mem_map.mpr ⟨p, hp, hid.symm⟩
  rw [editText_of_unique hunique, if_pos hmem] at hrow
  exact h.changed p hp ((Prod.mk.inj hrow).2.symm.trans htext)

theorem editEach_marked (plans : List EditPlan) {rest : List EditPlan} {dirty : Bool}
    (h : Planned db (plans ++ rest))
    (hknows : Knows db dirty (plans.foldl (fun db p => db.setSegmentText p.segmentId p.newText) db))
    {next : Unit → Script Db α} (hnext : ∀ now dirty, Marked db dirty (next ()) now) :
    Marked db dirty ((editEach rest).bind next)
      (plans.foldl (fun db p => db.setSegmentText p.segmentId p.newText) db) := by
  induction rest generalizing plans dirty with
  | nil => exact hnext _ dirty
  | cons p rest ih =>
    rw [List.append_cons] at h
    have hdiffers := h.left.differs (by simp)
    simp only [editEach, updateSegmentText, Script.bind_eq, Script.bind_assoc]
    apply marked_write hknows
    have htail := ih (plans ++ [p]) h (knows_true.mpr hdiffers)
    rwa [List.foldl_append] at htail

theorem replaceInTranscript_marked (find replace : String) (caseSensitive : Bool) :
    Marked db false (replaceInTranscript env find replace caseSensitive db.toolContext) db := by
  have hplanned := planned env db find replace caseSensitive
  simp only [replaceInTranscript]
  split
  · exact marked_done _ _
  · split
    · exact marked_done _ _
    · exact editEach_marked [] hplanned (knows_refl db) (fun now dirty => marked_done _ _)

end Segments

/-- A call that throws leaves the rows as they were exactly if it wrote nothing. -/
theorem execute_marked {call : Call} {tool : Tool} (h : execute env fuel call db = some tool) :
    Marked db false tool db := by
  cases call with
  | updateTitle title => exact Option.some.inj h ▸ updateTitle_marked title
  | saveToNotes mode content find => exact Option.some.inj h ▸ saveToNotes_marked mode content find
  | pinSession pinned => exact Option.some.inj h ▸ pinSession_marked pinned
  | tagSession add remove => exact Option.some.inj h ▸ tagSession_marked add remove
  | addSessionToFolder folderId => exact addSessionToFolder_marked h
  | replaceInTranscript find replace caseSensitive =>
    exact Option.some.inj h ▸ replaceInTranscript_marked find replace caseSensitive

end Faults

section Sends

open Runs Scripts

/-- A send on one session: the tables, and `executedTools` of the hook. -/
structure Send where
  db : Db
  executedTools : List ExecutedTool

/-- A call of the model, and after how many of its statements the database fails, if it does. -/
structure ToolCall where
  call : Call
  fault : Option ℕ

def Send.start (db : Db) : Send := ⟨db, []⟩

/-- Only a call that returned something to undo is recorded. -/
def record (executed : List ExecutedTool) : Option ExecutedTool → List ExecutedTool
  | none => executed
  | some result => if result.undoData.isSome then executed ++ [result] else executed

/-- A call up to its end, or to the statement that throws. -/
def outcome (fault : Option ℕ) (tool : Tool) (db : Db) : Option (Option ExecutedTool) × Db :=
  match fault with
  | none => (some (tool.run db).1, (tool.run db).2)
  | some n => tool.runUntil n db

def step (env : Env) (fuel : ℕ) (s : Send) (e : ToolCall) : Option Send :=
  (execute env fuel e.call s.db).map fun tool =>
    match outcome e.fault tool s.db with
    | (none, db) => { s with db := db }
    | (some result, db) => ⟨db, record s.executedTools result⟩

/-- A call that throws leaves the rows of the session as they were. -/
def Unharmed (env : Env) (fuel : ℕ) (s : Send) (e : ToolCall) (t : Send) : Prop :=
  ∀ tool ∈ execute env fuel e.call s.db, (outcome e.fault tool s.db).1 = none → Same s.db t.db

/-- A call that throws does so before its first write. -/
def BeforeWrites (env : Env) (fuel : ℕ) (s : Send) (e : ToolCall) (_ : Send) : Prop :=
  ∀ tool ∈ execute env fuel e.call s.db, ∀ n ∈ e.fault,
    (tool.runUntil n s.db).1 = none → tool.wrote n s.db = false

variable {env : Env} {fuel : ℕ} {db : Db} {s t : Send} {e : ToolCall} {tool : Tool}

/-- A call either throws after some statements, or runs to its end and is recorded. -/
inductive Called (s : Send) (e : ToolCall) (tool : Tool) : Send → Prop
  | thrown (n : ℕ) (hn : e.fault = some n) (hthrow : (tool.runUntil n s.db).1 = none) :
    Called s e tool { s with db := (tool.runUntil n s.db).2 }
  | finished (hend : ∀ n ∈ e.fault, (tool.runUntil n s.db).1 ≠ none) :
    Called s e tool ⟨(tool.run s.db).2, record s.executedTools (tool.run s.db).1⟩

theorem step_called (h : step env fuel s e = some t) :
    ∃ tool, execute env fuel e.call s.db = some tool ∧ Called s e tool t := by
  obtain ⟨tool, htool, rfl⟩ := Option.map_eq_some_iff.mp h
  refine ⟨tool, htool, ?_⟩
  cases hfault : e.fault with
  | none => exact Called.finished (fun n hn => by simp [hfault] at hn)
  | some n =>
    simp only [outcome]
    cases hend : (tool.runUntil n s.db).1 with
    | none =>
      have hpair : tool.runUntil n s.db = (none, (tool.runUntil n s.db).2) := by rw [← hend]
      rw [hpair]
      exact Called.thrown n hfault hend
    | some result =>
      rw [Script.run_of_runUntil hend]
      refine Called.finished (fun m hm => ?_)
      obtain rfl : n = m := Option.some.inj (hfault.symm.trans hm)
      simp [hend]

theorem undoToolCalls_record {start : Db} {executed : List ExecutedTool}
    {result : Option ExecutedTool × Db} (h : Same start (undoToolCalls executed db))
    (hundoes : Undoes db result) :
    Same start (undoToolCalls (record executed result.1) result.2) := by
  have hcongr : ∀ {a b : Db}, Same a b →
      Same (undoToolCalls executed a) (undoToolCalls executed b) :=
    fun hab => undoAll_congr undo_congr _ hab
  obtain ⟨made, after⟩ := result
  cases made with
  | none => exact h.trans (hcongr hundoes)
  | some made =>
    obtain ⟨name, undoData⟩ := made
    cases undoData with
    | none => exact h.trans (hcongr hundoes)
    | some u =>
      have hback : undoToolCalls (executed ++ [⟨name, some u⟩]) after =
          undoToolCalls executed (undo u after) := by
        rw [undoToolCalls, List.filterMap_append]
        exact undoAll_snoc undo _ u after
      show Same start (undoToolCalls (executed ++ [⟨name, some u⟩]) after)
      rw [hback]
      exact h.trans (hcongr hundoes)

/-- A call that throws leaves the rows alone exactly if it throws before its first write. -/
theorem unharmed_iff (h : step env fuel s e = some t) :
    Unharmed env fuel s e t ↔ BeforeWrites env fuel s e t := by
  obtain ⟨tool, htool, hcalled⟩ := step_called h
  cases hcalled with
  | thrown n hn hthrow =>
    have hmarked := (execute_marked htool).throws hthrow
    simp only [Unharmed, BeforeWrites, htool, hn, Option.mem_some_iff, forall_eq', outcome, hthrow,
      forall_const, hmarked]
  | finished hend =>
    refine iff_of_true (fun found hfound hnone => ?_) (fun found hfound n hn hnone => ?_)
    · obtain rfl : tool = found := Option.some.inj (htool.symm.trans hfound)
      cases hfault : e.fault with
      | none => simp [outcome, hfault] at hnone
      | some n =>
        simp only [outcome, hfault] at hnone
        exact absurd hnone (hend n hfault)
    · obtain rfl : tool = found := Option.some.inj (htool.symm.trans hfound)
      exact absurd hnone (hend n hn)

/-- The recorded calls, undone, lead back to the start. -/
theorem step_undone {start : Db} (h : Same start (undoToolCalls s.executedTools s.db))
    (hunharmed : Unharmed env fuel s e t) (hstep : step env fuel s e = some t) :
    Same start (undoToolCalls t.executedTools t.db) := by
  obtain ⟨tool, htool, hcalled⟩ := step_called hstep
  cases hcalled with
  | thrown n hn hthrow =>
    have hsame := hunharmed tool htool (by simpa only [outcome, hn] using hthrow)
    exact h.trans (undoAll_congr undo_congr _ hsame)
  | finished hend => exact undoToolCalls_record h (execute_undoes htool)

theorem beforeWrites_of_no_fault {events : List ToolCall} (h : ∀ e ∈ events, e.fault = none)
    (s : Send) : Along (step env fuel) (BeforeWrites env fuel) s events := by
  refine ((along_true s events).and_events h).imp ?_
  intro s e t hnone tool htool n hn
  rw [hnone.2] at hn
  simp at hn

/-- Undoing the calls of a send gives the rows from before it, and every call that failed left them
alone, in exactly the sends where no call fails after one of its writes. -/
theorem send_undone {events : List ToolCall}
    (h : exec (step env fuel) (Send.start db) events = some s) :
    (Same db (undoToolCalls s.executedTools s.db) ∧
      Along (step env fuel) (Unharmed env fuel) (Send.start db) events) ↔
    Along (step env fuel) (BeforeWrites env fuel) (Send.start db) events := by
  have hiff : Along (step env fuel) (Unharmed env fuel) (Send.start db) events ↔
      Along (step env fuel) (BeforeWrites env fuel) (Send.start db) events := by
    constructor
    · exact along_of_invariant (I := fun _ => True) (fun _ _ _ _ _ _ => trivial)
        (fun s e t _ hg hstep => (unharmed_iff hstep).mp hg) trivial
    · exact along_of_invariant (I := fun _ => True) (fun _ _ _ _ _ _ => trivial)
        (fun s e t _ hg hstep => (unharmed_iff hstep).mpr hg) trivial
  have hstart : Same db (undoToolCalls (Send.start db).executedTools (Send.start db).db) :=
    Same.refl db
  have hkept : ∀ s e t, Same db (undoToolCalls s.executedTools s.db) →
      Unharmed env fuel s e t → step env fuel s e = some t →
      Same db (undoToolCalls t.executedTools t.db) :=
    fun s e t hs hg hstep => step_undone hs hg hstep
  rw [← hiff, and_iff_right_iff_imp]
  exact fun hunharmed => exec_invariant_along hkept hstart hunharmed h

/-- A session without a note or tags, and one segment. -/
def standup : Db where
  title := "Standup"
  note := none
  noteVersions := []
  isPinned := false
  sessionTags := fun _ => none
  tags := [("t1", "work")]
  folderIds := []
  folders := []
  segments := ⟨[⟨"s1", "good morning", none, false, false⟩], by decide⟩

/-- Plain texts, in which nothing is found. -/
def plainEnv : Env where
  slice s n := String.ofList (s.toList.take n)
  markdownToBasicHtml s := "<p>" ++ s ++ "</p>"
  convertCitationsToSegmentRefs html _ := html
  replaceTextInHtml html _ _ := (html, 0)
  replacePattern _ _ _ _ := none
  randomUUID n := "new-" ++ toString n

theorem send_undone_standup : ∃ s, exec (step plainEnv 0) (Send.start standup)
    [⟨.updateTitle "Planning", none⟩, ⟨.saveToNotes "replace" "Ship it" "", none⟩,
      ⟨.tagSession ["work", "plan"] [], none⟩, ⟨.tagSession [] ["WORK"], none⟩] = some s ∧
    s.executedTools.length = 4 ∧ Same standup (undoToolCalls s.executedTools s.db) := by
  have hexec : (exec (step plainEnv 0) (Send.start standup)
      [⟨.updateTitle "Planning", none⟩, ⟨.saveToNotes "replace" "Ship it" "", none⟩,
        ⟨.tagSession ["work", "plan"] [], none⟩, ⟨.tagSession [] ["WORK"], none⟩]).any
      (fun s => decide (s.executedTools.length = 4)) = true := by decide +kernel
  obtain ⟨s, hs, hlen⟩ := (Option.any_eq_true _ _).mp hexec
  exact ⟨s, hs, of_decide_eq_true hlen,
    ((send_undone hs).mpr (beforeWrites_of_no_fault (by simp) _)).1⟩

/-- The database fails at the second tag: the first stays, and nothing is recorded. -/
theorem tagSession_half_done : ∃ s, exec (step plainEnv 0) (Send.start standup)
    [⟨.tagSession ["work", "plan"] [], some 4⟩] = some s ∧ s.executedTools = [] ∧
    ¬Same standup s.db ∧ ¬Same standup (undoToolCalls s.executedTools s.db) := by
  have hdiffers : ¬Same standup (standup.insertSessionTag "t1" .ai) := by
    intro hsame
    have htag := congrFun hsame.sessionTags "t1"
    simp [standup, Db.insertSessionTag] at htag
  refine ⟨⟨standup.insertSessionTag "t1" .ai, []⟩, ?_, rfl, hdiffers, hdiffers⟩
  rfl

end Sends

end YapStack.Tools
