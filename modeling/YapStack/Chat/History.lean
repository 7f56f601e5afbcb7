import Mathlib.Data.List.Basic

namespace YapStack.Chat

/-- A value that `JSON.parse` returns. -/
inductive Json where
  | null
  | bool (b : Bool)
  | number
  | string (s : String)
  | array (elements : List Json)
  | object (fields : List (String × Json))

/-- `value?.name`, when it is a string. -/
def Json.stringField (name : String) : Json → Option String
  | .object fields =>
    match fields.find? (·.1 = name) with
    | some (_, .string s) => some s
    | _ => none
  | _ => none

structure PersistedToolCall where
  id : String
  name : String
  arguments : String
  deriving DecidableEq, Repr

inductive Role where
  | user
  | assistant
  | tool
  deriving DecidableEq, Repr

/-- A row of `chat_messages`, as far as the request is built from it. -/
structure DbChatMessage where
  role : Role
  content : String
  tool_calls : Option String
  tool_call_id : Option String
  deriving DecidableEq, Repr

/-- A `ChatCompletionMessageParam`. -/
inductive Message where
  | system (content : String)
  | user (content : String)
  | assistant (content : Option String) (tool_calls : List PersistedToolCall)
  | tool (tool_call_id content : String)
  deriving DecidableEq, Repr

variable (parse : String → Option Json)

/-- An entry with string `id`, `name` and `arguments`. -/
def persistedEntry (e : Json) : Option PersistedToolCall :=
  match e.stringField "id", e.stringField "name", e.stringField "arguments" with
  | some id, some name, some arguments => some ⟨id, name, arguments⟩
  | _, _, _ => none

def parsePersistedToolCalls (json : Option String) : Option (List PersistedToolCall) :=
  match json with
  | none => none
  | some text =>
    if text = "" then none
    else match parse text with
      | some (.array elements) => if elements = [] then none else elements.mapM persistedEntry
      | _ => none

/-- A string that JavaScript takes for true. -/
def prose (content : String) : Option String := if content = "" then none else some content

/-- The message that one row contributes, if any. -/
def messageOf (row : DbChatMessage) : Option Message :=
  match row.role with
  | .user => (prose row.content).map .user
  | .tool => (row.tool_call_id.bind prose).map (.tool · row.content)
  | .assistant =>
    match parsePersistedToolCalls parse row.tool_calls with
    | some (call :: calls) => some (.assistant (prose row.content) (call :: calls))
    | _ => (prose row.content).map (fun content => .assistant (some content) [])

namespace Message

def isTool : Message → Bool
  | .tool _ _ => true
  | _ => false

def calls : Message → List PersistedToolCall
  | .assistant _ tool_calls => tool_calls
  | _ => []

def callIds (m : Message) : List String := m.calls.map PersistedToolCall.id

def resultId : Message → Option String
  | .tool tool_call_id _ => some tool_call_id
  | _ => none

end Message

/-- Where a message of the output comes from: it is kept, it is the tool message at `j` given to
the assistant message at `i`, or it stands for a result that is missing. -/
inductive Origin where
  | kept (i : ℕ)
  | result (i j : ℕ)
  | missing (i : ℕ)
  deriving DecidableEq, Repr

abbrev Pushed := Message × Origin

def placeholder (call : PersistedToolCall) : Message := .tool call.id "(result missing)"

/-- The tool messages pushed for the calls of the assistant message at `i`, and the indices that
are consumed after them. `rest` is what follows that message. -/
def answers (i : ℕ) (rest : List (Message × ℕ)) :
    List ℕ → List PersistedToolCall → List Pushed × List ℕ
  | consumed, [] => ([], consumed)
  | consumed, call :: calls =>
    match rest.find? (fun cand => cand.2 ∉ consumed ∧ cand.1.resultId = some call.id) with
    | some (m, j) =>
      let next := answers i rest (j :: consumed) calls
      ((m, .result i j) :: next.1, next.2)
    | none =>
      let next := answers i rest consumed calls
      ((placeholder call, .missing i) :: next.1, next.2)

def scan : List ℕ → List (Message × ℕ) → List Pushed
  | _, [] => []
  | consumed, (m, i) :: rest =>
    if i ∈ consumed then scan consumed rest
    else if m.isTool then scan consumed rest
    else
      let next := answers i rest consumed m.calls
      (m, .kept i) :: next.1 ++ scan next.2 rest

/-- The output of the guard, each message with its origin. -/
def pushed (msgs : List Message) : List Pushed := scan [] msgs.zipIdx

def ensureToolResultsFollowToolUse (msgs : List Message) : List Message :=
  (pushed msgs).map Prod.fst

def assembleHistoryForRequest (rows : List DbChatMessage) : List Message :=
  ensureToolResultsFollowToolUse (rows.filterMap (messageOf parse))

end YapStack.Chat
