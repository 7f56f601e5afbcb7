import YapStack.Folders.Forest
import YapStack.Foundation.Climbs
import YapStack.Foundation.Runs
import Mathlib.Logic.Function.Basic

set_option linter.unusedSectionVars false

namespace YapStack.Filing

open Folders

/-- The tables. -/
structure Library where
  sessions : List String
  folders : List DbFolder
  session_folders : List (String × String)
  deriving DecidableEq

abbrev SessionFolderMap := String → Option (List String)

/-- The tables, and what the store has loaded of them. -/
structure State where
  db : Library
  folders : List DbFolder
  sessionFolderMap : SessionFolderMap

/-- The foreign key of `parent_id`. -/
def HasParent (folders : List DbFolder) (parentId : Option String) : Prop :=
  ∀ p ∈ parentId, p ∈ folders.map DbFolder.id

instance (folders : List DbFolder) (parentId : Option String) :
    Decidable (HasParent folders parentId) :=
  inferInstanceAs (Decidable (∀ p ∈ parentId, p ∈ folders.map DbFolder.id))

namespace Library

def createFolder (db : Library) (id : String) (parentId : Option String) : Option Library :=
  if id ∉ db.folders.map DbFolder.id ∧ HasParent db.folders parentId then
    some { db with folders := db.folders ++ [⟨id, parentId⟩] }
  else none

def setParent (folderId : String) (newParentId : Option String) (f : DbFolder) : DbFolder :=
  if f.id = folderId then { f with parent_id := newParentId } else f

def updateFolderParent (db : Library) (folderId : String) (newParentId : Option String) :
    Option Library :=
  if folderId ∈ db.folders.map DbFolder.id ∧ ¬HasParent db.folders newParentId then none
  else some { db with folders := db.folders.map (setParent folderId newParentId) }

def orphan (id : String) (f : DbFolder) : DbFolder :=
  if f.parent_id = some id then { f with parent_id := none } else f

/-- The row goes, its memberships with it, and its children lose their parent. -/
def deleteFolder (db : Library) (id : String) : Library :=
  { db with
    folders := (db.folders.filter (fun f => f.id ≠ id)).map (orphan id)
    session_folders := db.session_folders.filter (fun row => row.2 ≠ id) }

/-- `INSERT OR IGNORE`, which does not ignore a missing session or folder. -/
def addSessionToFolder (db : Library) (sessionId folderId : String) : Option Library :=
  if (sessionId, folderId) ∈ db.session_folders then some db
  else if sessionId ∈ db.sessions ∧ folderId ∈ db.folders.map DbFolder.id then
    some { db with session_folders := db.session_folders ++ [(sessionId, folderId)] }
  else none

def removeSessionFromFolder (db : Library) (sessionId folderId : String) : Library :=
  { db with session_folders := db.session_folders.filter (fun row => row ≠ (sessionId, folderId)) }

def removeSessionFromAllFolders (db : Library) (sessionId : String) : Library :=
  { db with session_folders := db.session_folders.filter (fun row => row.1 ≠ sessionId) }

/-- The folders of a session, as `listAllSessionFolders` has them. -/
def folderIds (db : Library) (sessionId : String) : List String :=
  (db.session_folders.filter (fun row => row.1 = sessionId)).map Prod.snd

end Library

def groupRow (map : SessionFolderMap) (row : String × String) : SessionFolderMap :=
  Function.update map row.1 (some ((map row.1).getD [] ++ [row.2]))

/-- One entry for each session that has any rows. -/
def groupBySession (rows : List (String × String)) : SessionFolderMap :=
  rows.foldl groupRow (fun _ => none)

def updateSessionFolderMap (current : SessionFolderMap) (sessionId : String)
    (add remove : List String) : SessionFolderMap :=
  let kept := ((current sessionId).getD []).filter (fun id => id ∉ remove)
  let ids := add.foldl (fun ids id => if id ∈ ids then ids else ids ++ [id]) kept
  Function.update current sessionId (if ids = [] then none else some ids)

/-- The conflicts go first, one by one, and stay away if the folder cannot be added. -/
def addSessionToFolderWithConflicts (db : Library) (sessionId folderId : String)
    (conflicts : List String) : Library × Bool :=
  let cleared := conflicts.foldl (fun db cId => db.removeSessionFromFolder sessionId cId) db
  match cleared.addSessionToFolder sessionId folderId with
  | some added => (added, true)
  | none => (cleared, false)

/-- A folder id of `crypto.randomUUID`, which is never empty. -/
abbrev FreshId := { id : String // id ≠ "" }

inductive Event
  | createSession (id : String)
  | createFolder (id : FreshId) (parentId : Option String)
  | moveFolder (folderId : String) (newParentId : Option String)
  | deleteFolder (id : String)
  | addSessionToFolder (sessionId folderId : String)
  | toggleSessionFolder (sessionId folderId : String)
  | aiAddSessionToFolder (sessionId folderId : String)
  | removeSessionFromAllFolders (sessionId : String)

/-- The folders are loaded anew. -/
def State.listed (s : State) (db : Library) : State := { s with db := db, folders := db.folders }

/-- The memberships are loaded anew. -/
def State.loadSessionFolders (s : State) : State :=
  { s with sessionFolderMap := groupBySession s.db.session_folders }

/-- A call that fails is reported and leaves the store as it was. -/
def moveFolder (s : State) (folderId : String) (newParentId : Option String) : State :=
  match s.db.updateFolderParent folderId newParentId with
  | some db => s.listed db
  | none => s

def createFolder (s : State) (id : FreshId) (parentId : Option String) : State :=
  match s.db.createFolder id parentId with
  | some db => s.listed db
  | none => s

def addSessionToFolder (fuel : ℕ) (s : State) (sessionId folderId : String) : Option State :=
  let current := (s.sessionFolderMap sessionId).getD []
  (findBranchConflicts s.folders current folderId fuel).map fun conflicts =>
    match addSessionToFolderWithConflicts s.db sessionId folderId conflicts with
    | (db, true) =>
      { s with
        db := db
        sessionFolderMap :=
          updateSessionFolderMap s.sessionFolderMap sessionId [folderId] conflicts }
    | (db, false) => { s with db := db }

def toggleSessionFolder (fuel : ℕ) (s : State) (sessionId folderId : String) : Option State :=
  if folderId ∈ (s.sessionFolderMap sessionId).getD [] then
    some { s with
      db := s.db.removeSessionFromFolder sessionId folderId
      sessionFolderMap := updateSessionFolderMap s.sessionFolderMap sessionId [] [folderId] }
  else addSessionToFolder fuel s sessionId folderId

/-- The tool reads the tables, not the store, and the chat loads the memberships anew after it. -/
def aiAddSessionToFolder (fuel : ℕ) (s : State) (sessionId folderId : String) : Option State :=
  let currentFolderIds := s.db.folderIds sessionId
  if folderId ∉ s.db.folders.map DbFolder.id ∨ folderId ∈ currentFolderIds then some s
  else
    (findBranchConflicts s.db.folders currentFolderIds folderId fuel).map fun conflicts =>
      match addSessionToFolderWithConflicts s.db sessionId folderId conflicts with
      | (db, true) => { s with db := db }.loadSessionFolders
      | (db, false) => { s with db := db }

def removeSessionFromAllFolders (s : State) (sessionId : String) : State :=
  { s with
    db := s.db.removeSessionFromAllFolders sessionId
    sessionFolderMap := Function.update s.sessionFolderMap sessionId none }

/-- Each call runs to its end, if `fuel` is enough for the walks of the tree. -/
def step (fuel : ℕ) (s : State) : Event → Option State
  | .createSession id => some { s with db := { s.db with sessions := id :: s.db.sessions } }
  | .createFolder id parentId => some (createFolder s id parentId)
  | .moveFolder folderId newParentId => some (moveFolder s folderId newParentId)
  | .deleteFolder id => some (s.listed (s.db.deleteFolder id)).loadSessionFolders
  | .addSessionToFolder sessionId folderId => addSessionToFolder fuel s sessionId folderId
  | .toggleSessionFolder sessionId folderId => toggleSessionFolder fuel s sessionId folderId
  | .aiAddSessionToFolder sessionId folderId => aiAddSessionToFolder fuel s sessionId folderId
  | .removeSessionFromAllFolders sessionId => some (removeSessionFromAllFolders s sessionId)

def start : State where
  db := ⟨[], [], []⟩
  folders := []
  sessionFolderMap := fun _ => none

end YapStack.Filing
