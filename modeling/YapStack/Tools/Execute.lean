import YapStack.Tools.Session

namespace YapStack.Tools

open Folders Scripts

/-- What the tools use of the browser: strings cut by code units, the note's HTML, regular
expressions, and random ids. -/
structure Env where
  slice : String → ℕ → String
  markdownToBasicHtml : String → String
  convertCitationsToSegmentRefs : String → List Segment → String
  replaceTextInHtml : String → String → String → String × ℕ
  replacePattern : String → String → Bool → String → Option String
  randomUUID : ℕ → String

inductive UndoData
  | title (previousTitle : String)
  | note (previousContent : Option String)
  | pinned (wasPinned : Bool)
  | tags (addedTagIds : List String) (removedTags : List (String × TagSource))
  | folder (addedFolderId : String) (removedConflicts : List String)
  | segments (edits : List (String × String))
  deriving DecidableEq

/-- What a tool returns, without the texts for the model and the user. -/
structure ExecutedTool where
  name : String
  undoData : Option UndoData
  deriving DecidableEq

inductive Call
  | updateTitle (title : String)
  | saveToNotes (mode content find : String)
  | pinSession (pinned : Bool)
  | tagSession (add remove : List String)
  | addSessionToFolder (folderId : String)
  | replaceInTranscript (find replace : String) (caseSensitive : Bool)

abbrev Tool := Script Db (Option ExecutedTool)

variable (env : Env)

def updateTitle (args : String) (ctx : ToolContext) : Tool :=
  let title := env.slice args 80
  if title = ctx.currentTitle then return none
  else do
    updateSessionTitle title
    return some ⟨"update_title", some (.title ctx.currentTitle)⟩

def hasExisting (previousContent : Option String) : Bool :=
  previousContent.any (fun content => content ≠ "" ∧ content ≠ "<p></p>")

/-- The new content of the note, or none where the tool reports an error. -/
def mergedHtml (mode content find : String) (ctx : ToolContext) : Option String :=
  let previous := ctx.currentNote.getD ""
  if mode = "find_replace" then
    if trim find = "" then none
    else if !hasExisting ctx.currentNote then none
    else
      let (nextHtml, replacedCount) := env.replaceTextInHtml previous find content
      if replacedCount = 0 then none else some nextHtml
  else
    let basic := env.markdownToBasicHtml content
    let html :=
      if ctx.segments = [] then basic else env.convertCitationsToSegmentRefs basic ctx.segments
    if mode = "append" ∧ hasExisting ctx.currentNote then some (previous ++ "<hr>" ++ html)
    else if mode = "prepend" ∧ hasExisting ctx.currentNote then some (html ++ "<hr>" ++ previous)
    else some html

def snapshotNote (ctx : ToolContext) : Script Db Unit :=
  match ctx.currentNote with
  | some content => if content = "" then return else createNoteVersion content
  | none => return

def saveToNotes (mode content find : String) (ctx : ToolContext) : Tool := do
  snapshotNote ctx
  match mergedHtml env mode content find ctx with
  | none => return some ⟨"save_to_notes", none⟩
  | some html => do
    saveNote html
    return some ⟨"save_to_notes", some (.note ctx.currentNote)⟩

def pinSession (wantPinned : Bool) (ctx : ToolContext) : Tool :=
  if wantPinned = ctx.isPinned then return some ⟨"pin_session", none⟩
  else do
    togglePin
    return some ⟨"pin_session", some (.pinned ctx.isPinned)⟩

/-- The tag of this name, created if there is none, and the number of ids drawn so far. -/
def findOrCreateTag (name : String) (drawn : ℕ) : Script Db (String × ℕ) := do
  match ← getTagByName name with
  | some id => return (id, drawn)
  | none => do
    createTag (env.randomUUID drawn) name
    return (env.randomUUID drawn, drawn + 1)

def addTags (before : String → Option TagSource) :
    List String → ℕ → List String → Script Db (List String)
  | [], _, addedTagIds => return addedTagIds
  | name :: toAdd, drawn, addedTagIds =>
    if trim name = "" then addTags before toAdd drawn addedTagIds
    else do
      let (id, drawn) ← findOrCreateTag env (trim name) drawn
      if (before id).isSome then addTags before toAdd drawn addedTagIds
      else do
        addSessionTag id .ai
        addTags before toAdd drawn (addedTagIds ++ [id])

def removeTags (before : String → Option TagSource) :
    List String → List (String × TagSource) → Script Db (List (String × TagSource))
  | [], removedTags => return removedTags
  | name :: toRemove, removedTags =>
    if trim name = "" then removeTags before toRemove removedTags
    else do
      match ← getTagByName (trim name) with
      | none => removeTags before toRemove removedTags
      | some id =>
        match before id with
        | none => removeTags before toRemove removedTags
        | some previousSource => do
          removeSessionTag id
          removeTags before toRemove (removedTags ++ [(id, previousSource)])

def tagSession (toAdd toRemove : List String) : Tool := do
  let before ← getSessionTagRows
  let addedTagIds ← addTags env before toAdd 0 []
  let removedTags ← removeTags before toRemove []
  return some ⟨"tag_session",
    if addedTagIds = [] ∧ removedTags = [] then none else some (.tags addedTagIds removedTags)⟩

def removeEach : List String → Script Db Unit
  | [] => return
  | cId :: conflicts => do
    dbRemoveSessionFromFolder cId
    removeEach conflicts

def fileSession (folderId : String) (conflicts : List String) : Tool := do
  let _ ← listFolders
  removeEach conflicts
  dbAddSessionToFolder folderId
  return some ⟨"add_session_to_folder", some (.folder folderId conflicts)⟩

/-- `folders` is what `listFolders` finds. There is no result while the walks of the tree need more
fuel. -/
def addSessionToFolder (fuel : ℕ) (args : String) (ctx : ToolContext) (folders : List DbFolder) :
    Option Tool :=
  let folderId := trim args
  if folderId ∉ folders.map DbFolder.id ∨ folderId ∈ ctx.folderIds then
    some (do
      let _ ← listFolders
      return some ⟨"add_session_to_folder", none⟩)
  else (findBranchConflicts folders ctx.folderIds folderId fuel).map (fileSession folderId)

structure EditPlan where
  segmentId : String
  previousText : String
  newText : String
  deriving DecidableEq

def planEdit (find replace : String) (caseSensitive : Bool) (seg : Segment) : Option EditPlan :=
  if seg.hidden ∨ seg.deleted then none
  else
    match env.replacePattern find replace caseSensitive seg.text with
    | none => none
    | some newText => if newText = seg.text then none else some ⟨seg.id, seg.text, newText⟩

def editEach : List EditPlan → Script Db Unit
  | [] => return
  | p :: plans => do
    updateSegmentText p.segmentId p.newText
    editEach plans

def replaceInTranscript (find replace : String) (caseSensitive : Bool) (ctx : ToolContext) :
    Tool :=
  if find = "" ∨ find = replace ∨ ctx.segments = [] then
    return some ⟨"replace_in_transcript", none⟩
  else
    let plans := ctx.segments.filterMap (planEdit env find replace caseSensitive)
    if plans.length > 50 ∨ plans = [] then return some ⟨"replace_in_transcript", none⟩
    else do
      editEach plans
      return some ⟨"replace_in_transcript",
        some (.segments (plans.map fun p => (p.segmentId, p.previousText)))⟩

/-- A call with the context as the tables have it. -/
def execute (fuel : ℕ) (call : Call) (db : Db) : Option Tool :=
  let ctx := db.toolContext
  match call with
  | .updateTitle title => some (updateTitle env title ctx)
  | .saveToNotes mode content find => some (saveToNotes env mode content find ctx)
  | .pinSession pinned => some (pinSession pinned ctx)
  | .tagSession add remove => some (tagSession env add remove)
  | .addSessionToFolder folderId => addSessionToFolder fuel folderId ctx db.folders
  | .replaceInTranscript find replace caseSensitive =>
    some (replaceInTranscript env find replace caseSensitive ctx)

/-- What a tool's `undo` does with its own data. -/
def undo : UndoData → Db → Db
  | .title previousTitle, db => db.setTitle previousTitle
  | .note previousContent, db => db.setNote (previousContent.getD "<p></p>")
  | .pinned wasPinned, db => if wasPinned = db.isPinned then db else db.setPinned (!db.isPinned)
  | .tags addedTagIds removedTags, db =>
    removedTags.foldl (fun db tag => db.insertSessionTag tag.1 tag.2)
      (addedTagIds.foldl (fun db tagId => db.deleteSessionTag tagId) db)
  | .folder addedFolderId removedConflicts, db =>
    removedConflicts.foldl (fun db folderId => db.insertSessionFolder folderId)
      (db.deleteSessionFolder addedFolderId)
  | .segments edits, db => edits.foldl (fun db edit => db.setSegmentText edit.1 edit.2) db

def undoToolCalls (executed : List ExecutedTool) (db : Db) : Db :=
  undoAll undo (executed.filterMap ExecutedTool.undoData) db

end YapStack.Tools
