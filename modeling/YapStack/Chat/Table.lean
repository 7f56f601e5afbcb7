import Mathlib.Data.List.Sort
import YapStack.Chat.History
import YapStack.Tools.Session

set_option linter.unusedSectionVars false

namespace YapStack.Chat

/-- A row of `chat_messages`. -/
structure ChatRow extends DbChatMessage where
  id : String
  context_key : String
  created_at : ℕ
  send_id : Option String
  sequence : Option ℕ
  status : Option String
  deriving DecidableEq

/-- `ORDER BY created_at ASC, COALESCE(sequence, 0) ASC`. -/
def ChatRow.le (a b : ChatRow) : Prop :=
  a.created_at < b.created_at ∨
    a.created_at = b.created_at ∧ a.sequence.getD 0 ≤ b.sequence.getD 0

instance (a b : ChatRow) : Decidable (a.le b) :=
  inferInstanceAs (Decidable (_ ∨ _))

/-- The database stamps the row, in whole seconds. -/
def insertChatMessage (msg : ChatRow) (now : ℕ) (table : List ChatRow) : List ChatRow :=
  table ++ [{ msg with created_at := now }]

/-- What the query may return: rows with equal keys come in any order. -/
structure Selected (contextKey : String) (table rows : List ChatRow) : Prop where
  perm : rows.Perm (table.filter (fun row => row.context_key = contextKey))
  sorted : rows.Pairwise ChatRow.le

/-- The query, with rows of equal keys in the order of their inserts. -/
def getChatMessages (contextKey : String) (table : List ChatRow) : List ChatRow :=
  (table.filter (fun row => row.context_key = contextKey)).insertionSort ChatRow.le

def updateChatMessageContent (id content : String) (toolCalls : Option String)
    (table : List ChatRow) : List ChatRow :=
  table.map (fun row =>
    if row.id = id then { row with content := content, tool_calls := toolCalls } else row)

def undoneContent : String := "(undone by user)"

def undoResult (contextKey sendId cid : String) (row : ChatRow) : ChatRow :=
  if row.context_key = contextKey ∧ row.send_id = some sendId ∧ row.role = .tool ∧
      row.tool_call_id = some cid then
    { row with content := undoneContent, status := some "undone" }
  else row

/-- `p.id ?? ""` of an object. -/
def Json.idOrEmpty : Json → Option String
  | .object fields =>
    match fields.find? (·.1 = "id") with
    | none => some ""
    | some (_, .null) => some ""
    | some (_, .string s) => some s
    | some _ => none
  | .array _ => some ""
  | _ => none

/-- The fields that a spread copies. -/
def Json.ownFields : Json → List (String × Json)
  | .object fields => fields
  | .array elements => elements.zipIdx.map (fun e => (toString e.2, e.1))
  | _ => []

def setField (name : String) (value : Json) (fields : List (String × Json)) :
    List (String × Json) :=
  if name ∈ fields.map Prod.fst then
    fields.map (fun field => if field.1 = name then (name, value) else field)
  else fields ++ [(name, value)]

def isUndone (callIds : List String) (p : Json) : Bool := p.idOrEmpty.any (· ∈ callIds)

def stampUndone (callIds : List String) (p : Json) : Json :=
  if isUndone callIds p then .object (setField "undone" (.bool true) p.ownFields) else p

section Json

variable (parse : String → Option Json) (stringify : Json → String)

def stampCalls (contextKey sendId : String) (callIds : List String) (row : ChatRow) : ChatRow :=
  if row.context_key = contextKey ∧ row.send_id = some sendId ∧ row.role = .assistant then
    match row.tool_calls.bind prose with
    | none => row
    | some text =>
      match parse text with
      | some (.array parsed) =>
        if parsed.any (isUndone callIds) then
          { row with tool_calls := some (stringify (.array (parsed.map (stampUndone callIds)))) }
        else row
      | _ => row
  else row

def markToolCallsAsUndone (contextKey sendId : String) (callIds : List String)
    (table : List ChatRow) : List ChatRow :=
  if callIds = [] then table
  else
    let results := callIds.foldl (fun rows cid => rows.map (undoResult contextKey sendId cid)) table
    results.map (stampCalls parse stringify contextKey sendId callIds)

end Json

/-- `/^\[tool:\w+\]/`. -/
def isBadge (line : List Char) : Bool :=
  let opening := "[tool:".toList
  let rest := (line.drop opening.length)
  let word := rest.takeWhile (fun c => c.isAlphanum || c == '_')
  opening.isPrefixOf line && !word.isEmpty && (rest.drop word.length).head? == some ']'

def cleanToolBadges (content : String) : String :=
  let kept := (content.toList.splitOn '\n').filter (fun line => !isBadge line)
  String.ofList ((['\n'].intercalate kept).dropWhile Tools.isSpace)

theorem ChatRow.le_total (a b : ChatRow) : a.le b ∨ b.le a := by
  obtain h | h | h := Nat.lt_trichotomy a.created_at b.created_at
  · exact Or.inl (Or.inl h)
  · obtain h' | h' := Nat.le_total (a.sequence.getD 0) (b.sequence.getD 0)
    · exact Or.inl (Or.inr ⟨h, h'⟩)
    · exact Or.inr (Or.inr ⟨h.symm, h'⟩)
  · exact Or.inr (Or.inl h)

theorem ChatRow.le_trans {a b c : ChatRow} (hab : a.le b) (hbc : b.le c) : a.le c := by
  simp only [ChatRow.le] at *
  omega

instance : Std.Total ChatRow.le := ⟨ChatRow.le_total⟩

instance : IsTrans ChatRow ChatRow.le := ⟨fun _ _ _ hab hbc => ChatRow.le_trans hab hbc⟩

/-- One answer of the query is the one with ties in the order of the inserts. -/
theorem getChatMessages_selected (contextKey : String) (table : List ChatRow) :
    Selected contextKey table (getChatMessages contextKey table) :=
  ⟨List.perm_insertionSort _ _, List.pairwise_insertionSort _ _⟩

end YapStack.Chat
