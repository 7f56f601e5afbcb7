import Mathlib.Data.List.Nodup
import Mathlib.Logic.Function.Basic
import YapStack.Folders.Walks
import YapStack.Foundation.Scripts

namespace YapStack.Tools

open Folders Scripts

inductive TagSource
  | manual
  | auto
  | ai
  deriving DecidableEq

structure Segment where
  id : String
  text : String
  original_text : Option String
  hidden : Bool
  deleted : Bool
  deriving DecidableEq

/-- The segments of a session, by their primary key. -/
abbrev SegmentTable := { rows : List Segment // (rows.map Segment.id).Nodup }

/-- The rows of one session and the tables that it shares. A session has at most one row for a
tag, and the first row of `tags` with a name is the one that is found. -/
structure Db where
  title : String
  note : Option String
  noteVersions : List String
  isPinned : Bool
  sessionTags : String → Option TagSource
  tags : List (String × String)
  folderIds : List String
  folders : List DbFolder
  segments : SegmentTable

/-- `SessionToolContext`, as `getToolContext` reads it. -/
structure ToolContext where
  currentTitle : String
  currentNote : Option String
  isPinned : Bool
  segments : List Segment
  folderIds : List String

def Db.toolContext (db : Db) : ToolContext where
  currentTitle := db.title
  currentNote := db.note
  isPinned := db.isPinned
  segments := db.segments.val.filter (fun seg => !seg.deleted)
  folderIds := db.folderIds

def editRow (id newText : String) (seg : Segment) : Segment :=
  if seg.id = id then
    { seg with text := newText, original_text := some (seg.original_text.getD seg.text) }
  else seg

theorem editRow_id (id newText : String) (seg : Segment) : (editRow id newText seg).id = seg.id := by
  rw [editRow]
  split
  · rfl
  · rfl

def SegmentTable.updateText (table : SegmentTable) (id newText : String) : SegmentTable :=
  ⟨table.val.map (editRow id newText), by
    rw [List.map_map]
    have hid : Segment.id ∘ editRow id newText = Segment.id := by
      funext seg
      exact editRow_id id newText seg
    rw [hid]
    exact table.property⟩

namespace Db

def setTitle (title : String) (db : Db) : Db := { db with title := title }

def setNote (content : String) (db : Db) : Db := { db with note := some content }

def setPinned (pinned : Bool) (db : Db) : Db := { db with isPinned := pinned }

/-- `INSERT OR IGNORE`. -/
def insertSessionTag (tagId : String) (source : TagSource) (db : Db) : Db :=
  { db with
    sessionTags := Function.update db.sessionTags tagId
      (some ((db.sessionTags tagId).getD source)) }

def deleteSessionTag (tagId : String) (db : Db) : Db :=
  { db with sessionTags := Function.update db.sessionTags tagId none }

/-- `INSERT OR IGNORE`. -/
def insertSessionFolder (folderId : String) (db : Db) : Db :=
  { db with
    folderIds := if folderId ∈ db.folderIds then db.folderIds else db.folderIds ++ [folderId] }

def deleteSessionFolder (folderId : String) (db : Db) : Db :=
  { db with folderIds := db.folderIds.filter (fun id => id ≠ folderId) }

def setSegmentText (id newText : String) (db : Db) : Db :=
  { db with segments := db.segments.updateText id newText }

end Db

def updateSessionTitle (title : String) : Script Db Unit := Script.write (Db.setTitle title)

def saveNote (content : String) : Script Db Unit := do
  let _ ← Script.read Db.note
  Script.write (Db.setNote content)

def createNoteVersion (content : String) : Script Db Unit :=
  Script.aside (fun db => { db with noteVersions := db.noteVersions ++ [content] })

def togglePin : Script Db Unit := do
  let pinned ← Script.read Db.isPinned
  Script.write (Db.setPinned (!pinned))

def getSessionTagRows : Script Db (String → Option TagSource) := Script.read Db.sessionTags

/-- `COLLATE NOCASE` folds the letters of ASCII. -/
def sameName (a b : String) : Bool := a.toList.map Char.toLower == b.toList.map Char.toLower

def getTagByName (name : String) : Script Db (Option String) :=
  Script.read (fun db => (db.tags.find? (fun tag => sameName tag.2 name)).map Prod.fst)

def createTag (id name : String) : Script Db Unit :=
  Script.aside (fun db => { db with tags := db.tags ++ [(id, name)] })

def addSessionTag (tagId : String) (source : TagSource) : Script Db Unit :=
  Script.write (Db.insertSessionTag tagId source)

def removeSessionTag (tagId : String) : Script Db Unit := Script.write (Db.deleteSessionTag tagId)

def listFolders : Script Db (List DbFolder) := Script.read Db.folders

def dbAddSessionToFolder (folderId : String) : Script Db Unit :=
  Script.write (Db.insertSessionFolder folderId)

def dbRemoveSessionFromFolder (folderId : String) : Script Db Unit :=
  Script.write (Db.deleteSessionFolder folderId)

def updateSegmentText (id newText : String) : Script Db Unit :=
  Script.write (Db.setSegmentText id newText)

/-- White space and line ends, as `trim` takes them. -/
def isSpace (c : Char) : Bool :=
  c.toNat ∈ [9, 10, 11, 12, 13, 32, 160, 5760, 8232, 8233, 8239, 8287, 12288, 65279] ||
    (8192 ≤ c.toNat && c.toNat ≤ 8202)

def trim (s : String) : String :=
  String.ofList ((s.toList.dropWhile isSpace).reverse.dropWhile isSpace).reverse

end YapStack.Tools
