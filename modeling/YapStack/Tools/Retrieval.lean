import Mathlib.Data.List.Sort
import Mathlib.Data.Rat.Floor
import YapStack.Foundation.Firsts
import YapStack.Foundation.JsMap
import YapStack.Foundation.Texts
import YapStack.Tools.Session

namespace YapStack.Tools.Retrieval

open Firsts

structure SessionRow where
  id : String
  title : String
  created_at : String
  is_pinned : ℤ
  deriving DecidableEq

structure NoteRow where
  id : String
  session_id : String
  content : String
  deriving DecidableEq

inductive Source where
  | mic
  | system
  deriving DecidableEq

structure SegmentRow where
  id : String
  session_id : String
  text : String
  source : Source
  speaker_id : Option ℤ
  audio_offset_seconds : ℚ
  deleted_at : Option String
  hidden : Option ℤ
  deriving DecidableEq

structure SessionFolderRow where
  session_id : String
  folder_id : String
  deriving DecidableEq

/-- The rows that retrieval reads. A full-text index gives the ids of the rows that match an
expression, in the order of `bm25`; a session has one title in its index. -/
structure Db (F N : Type) where
  sessions : List SessionRow
  notes : List NoteRow
  segments : List SegmentRow
  folders : F
  sessionFolders : List SessionFolderRow
  /-- The settings' names of a session's speakers. -/
  speakerNames : String → N
  sessionsFts : List Char → List String
  notesFts : List Char → List String
  segmentsFts : List Char → List String
  sessionsFts_nodup : ∀ m, (sessionsFts m).Nodup

/-- How rows are put into words. -/
structure Wording (F N : Type) where
  folderPathString : F → String → String
  formatSegmentSpeaker : Source → Option ℤ → N → String
  stripHtml : String → String
  formatTime : ℚ → String
  slice : ℕ → String → String

/-- The characters that `toFts5Match` takes out of a token. -/
def isFtsSpecial (c : Char) : Bool :=
  c ∈ ['"', '(', ')', '*', '^', '+', '-', ':', ',']

def toFts5Match (query : List Char) : Option (List Char) :=
  -- `split(/\s+/)`: the empty pieces between two spaces are dropped with the empty tokens
  let pieces := (Texts.trim isSpace query).splitOnP isSpace
  let tokens := (pieces.map (fun t => Texts.trim isSpace (t.filter (!isFtsSpecial ·)))).filter
    (fun t => !t.isEmpty)
  if tokens = [] then none
  else some ([' '].intercalate (tokens.map (fun t => '"' :: t ++ ['"', '*'])))

structure SearchResult where
  sessionId : String
  sessionTitle : String
  snippet : String
  source : Option Source
  speakerId : Option ℤ
  deriving DecidableEq

def orUntitled (title : String) : String := if title = "" then "Untitled" else title

variable {F N : Type} (w : Wording F N) (db : Db F N)

def sessionById (id : String) : Option SessionRow := db.sessions.find? (·.id = id)

/-- `hidden = 0 OR hidden IS NULL`. -/
def SegmentRow.shown (seg : SegmentRow) : Bool := seg.hidden = some 0 || seg.hidden = none

/-- The rows of a query before its `LIMIT`. -/
def titleRows (m : List Char) : List SearchResult :=
  (db.sessionsFts m).filterMap fun id => (sessionById db id).map fun s =>
    ⟨s.id, orUntitled s.title, "", none, none⟩

def noteRows (m : List Char) : List SearchResult :=
  (db.notesFts m).filterMap fun id => (db.notes.find? (·.id = id)).bind fun n =>
    (sessionById db n.session_id).map fun s =>
      ⟨n.session_id, orUntitled s.title, w.stripHtml n.content, none, none⟩

def segmentRows (m : List Char) : List SearchResult :=
  (db.segmentsFts m).filterMap fun id => (db.segments.find? (·.id = id)).bind fun seg =>
    if seg.deleted_at = none && seg.shown then
      (sessionById db seg.session_id).map fun s =>
        ⟨seg.session_id, orUntitled s.title, seg.text, some seg.source, seg.speaker_id⟩
    else none

/-- The row limits of the three queries. -/
def titleLimit : ℕ := 20

def noteLimit : ℕ := 50

def segmentLimit : ℕ := 50

def searchSessionsByTitle (query : List Char) : List SearchResult :=
  match toFts5Match query with
  | none => []
  | some m => (titleRows db m).take titleLimit

def searchNotes (query : List Char) : List SearchResult :=
  match toFts5Match query with
  | none => []
  | some m => (noteRows w db m).take noteLimit

def searchSegments (query : List Char) : List SearchResult :=
  match toFts5Match query with
  | none => []
  | some m => (segmentRows db m).take segmentLimit

inductive SourceType where
  | title
  | note
  | segment
  deriving DecidableEq

def SourceType.tier : SourceType → ℕ
  | .title => 0
  | .note => 1
  | .segment => 2

structure SessionSearchCandidate where
  session_id : String
  title : String
  date : String
  folder_path : Option String
  snippet : String
  source_type : SourceType
  score : ℤ
  deriving DecidableEq

def score (rank tier : ℕ) : ℤ := max 0 (1000 - tier * 100 - rank)

/-- What a hit puts into the map, by the query that it comes from. -/
def candidateOf (tier : SourceType) (hit : SearchResult) (i : ℕ) : SessionSearchCandidate where
  session_id := hit.sessionId
  title := hit.sessionTitle
  date := ""
  folder_path := none
  snippet := match tier with
    | .title => hit.sessionTitle
    | .note => w.slice 240 hit.snippet
    | .segment =>
      let label := w.formatSegmentSpeaker (hit.source.getD .system) hit.speakerId
        (db.speakerNames hit.sessionId)
      "(" ++ label ++ ") " ++ w.slice 240 hit.snippet
  source_type := tier
  score := score i tier.tier

abbrev Candidates := JsMap String SessionSearchCandidate

/-- `forEach` over the title hits: each hit is set. -/
def addTitles (inScope : String → Bool) (hits : List SearchResult) (bySessionId : Candidates) :
    Candidates :=
  hits.zipIdx.foldl (fun m x =>
    if inScope x.1.sessionId then m.set x.1.sessionId (candidateOf w db .title x.1 x.2) else m)
    bySessionId

/-- `forEach` over the hits of a later tier: a session that the map has is left. -/
def addHits (tier : SourceType) (inScope : String → Bool) (hits : List SearchResult)
    (bySessionId : Candidates) : Candidates :=
  hits.zipIdx.foldl (fun m x =>
    if !inScope x.1.sessionId || m.has x.1.sessionId then m
    else m.set x.1.sessionId (candidateOf w db tier x.1 x.2)) bySessionId

structure Filters where
  folder_id : Option String
  pinned : Option Bool

def getSessionsByIds (ids : List String) : List SessionRow := db.sessions.filter (·.id ∈ ids)

/-- The folder and pin filters of one session. -/
def passesFilters (filters : Option Filters) (s : SessionRow) : Bool :=
  ((filters.bind (·.pinned)).all fun pinned => decide (s.is_pinned = 1) == pinned) &&
    ((filters.bind (·.folder_id)).all fun folder_id => folder_id = "" ||
      db.sessionFolders.any fun sf => sf.session_id = s.id && sf.folder_id = folder_id)

/-- The date and the folder of a candidate, `none` when it is left out. -/
def enrich (filters : Option Filters) (sessions : List SessionRow) (c : SessionSearchCandidate) :
    Option SessionSearchCandidate :=
  match sessions.find? (·.id = c.session_id) with
  | none => none
  | some s =>
    if passesFilters db filters s then
      let folderIds := (db.sessionFolders.filter (·.session_id = c.session_id)).map (·.folder_id)
      some { c with
        date := s.created_at
        folder_path := folderIds.head?.map (w.folderPathString db.folders) }
    else none

/-- The limit that the model asks for, ten without one, twenty-five at most. -/
def limitOf (limitArg : Option ℚ) : ℚ :=
  min (match limitArg with
    | some limit => if 0 < limit then limit else 10
    | none => 10) 25

def inScope (allowedSessionIds : Option (List String)) (sessionId : String) : Bool :=
  allowedSessionIds.all (sessionId ∈ ·)

/-- The candidates that `search_sessions` writes out. -/
def searchSessions (allowedSessionIds : Option (List String)) (arg : List Char)
    (filters : Option Filters) (limitArg : Option ℚ) :
    Except String (List SessionSearchCandidate) :=
  let query := Texts.trim isSpace arg
  if query = [] then .error "Error: search_sessions requires a non-empty query."
  else
    let inScope := inScope allowedSessionIds
    let bySessionId := addHits w db .segment inScope (searchSegments db query)
      (addHits w db .note inScope (searchNotes w db query)
        (addTitles w db inScope (searchSessionsByTitle db query) JsMap.empty))
    let sessions := getSessionsByIds db bySessionId.keys
    let enriched := bySessionId.values.filterMap (enrich w db filters sessions)
    -- `sort((a, b) => b.score - a.score)`, which is stable
    let sorted := enriched.insertionSort (fun a b => b.score ≤ a.score)
    .ok (sorted.take ⌊limitOf limitArg⌋₊)

/-- A transcript line with the segment that it cites. -/
structure ContextLine where
  segmentId : String
  time : String
  label : String
  text : String
  audioOffsetSeconds : ℚ
  deriving DecidableEq

/-- What one session contributes; a part that was not asked for is `none`. -/
structure ContextBlock where
  title : String
  date : String
  notes : Option (Option String)
  transcript : Option (List ContextLine × ℕ)
  summary : Bool
  deriving DecidableEq

def getNote (sessionId : String) : Option NoteRow := db.notes.find? (·.session_id = sessionId)

def getSessionSegments (sessionId : String) : List SegmentRow :=
  (db.segments.filter fun seg => seg.session_id = sessionId && seg.deleted_at = none).insertionSort
    (fun a b => a.audio_offset_seconds ≤ b.audio_offset_seconds)

def isVisibleSegment (seg : SegmentRow) : Bool :=
  seg.hidden ≠ some 1 && (seg.deleted_at.all (· = ""))

def maxSessionIds : ℕ := 5

def contextLine (sessionId : String) (seg : SegmentRow) : ContextLine where
  segmentId := seg.id
  time := w.formatTime (max 0 seg.audio_offset_seconds)
  label := w.formatSegmentSpeaker seg.source seg.speaker_id (db.speakerNames sessionId)
  text := seg.text
  audioOffsetSeconds := seg.audio_offset_seconds

/-- One turn of the loop over the ids: `none` is the block of a session that is not found. -/
def contextBlock (scope : String) (sessions : List SessionRow) (sid : String) :
    Option ContextBlock :=
  (sessions.find? (·.id = sid)).map fun s =>
    let live := (getSessionSegments db sid).filter isVisibleSegment
    { title := orUntitled s.title
      date := w.slice 10 s.created_at
      notes := if scope = "notes" ∨ scope = "all" then
          some (((getNote db sid).filter (·.content ≠ "")).map (w.stripHtml ·.content))
        else none
      transcript := if scope = "segments" ∨ scope = "all" then
          some ((live.take 200).map (contextLine w db sid), live.length - 200)
        else none
      summary := scope = "summary" }

inductive ContextError where
  | noSessionIds
  | tooMany (count : ℕ)
  | outOfScope (ids : List String)
  deriving DecidableEq

/-- The blocks that `get_session_context` writes out. -/
def getSessionContext (allowedSessionIds : Option (List String)) (sessionIds : List String)
    (scope : String) : Except ContextError (List (String × Option ContextBlock)) :=
  if sessionIds = [] then .error .noSessionIds
  else if maxSessionIds < sessionIds.length then .error (.tooMany sessionIds.length)
  else
    let outOfScope := sessionIds.filter (fun id => !inScope allowedSessionIds id)
    if outOfScope ≠ [] then .error (.outOfScope outOfScope)
    else
      let sessions := getSessionsByIds db sessionIds
      .ok (sessionIds.map fun sid => (sid, contextBlock w db scope sessions sid))

end YapStack.Tools.Retrieval
