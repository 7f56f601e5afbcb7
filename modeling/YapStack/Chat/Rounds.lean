import YapStack.Chat.Table

set_option linter.unusedSectionVars false

namespace YapStack.Chat

/-- An entry of `roundRecord.toolCalls`. -/
structure StoredCall where
  call : PersistedToolCall
  label : String
  status : String
  detail : Option String
  undone : Bool
  deriving DecidableEq

def StoredCall.json (stored : StoredCall) : Json :=
  .object ([("id", .string stored.call.id), ("name", .string stored.call.name),
    ("arguments", .string stored.call.arguments), ("label", .string stored.label),
    ("status", .string stored.status)] ++
    (stored.detail.map (fun detail => ("detail", Json.string detail))).toList ++
    if stored.undone then [("undone", .bool true)] else [])

/-- A call of a round, with its entry in `roundRecord.toolResults`. -/
structure ToolRun where
  stored : StoredCall
  rowId : String
  content : String
  status : String
  deriving DecidableEq

def ToolRun.callId (run : ToolRun) : String := run.stored.call.id

structure Round where
  assistantRowId : String
  content : String
  toolRuns : List ToolRun
  deriving DecidableEq

/-- A send whose rounds have all come back: the rounds with calls, and the text of the last one. -/
structure Send where
  sendId : String
  userId : String
  assistantId : String
  userText : String
  rounds : List Round
  final : String
  sendId_ne : sendId ≠ ""
  userText_ne : userText ≠ ""
  rounds_ne : ∀ round ∈ rounds, round.toolRuns ≠ []
  deriving DecidableEq

namespace Send

def toolRuns (send : Send) : List ToolRun := send.rounds.flatMap Round.toolRuns

def callIds (send : Send) : List String := send.toolRuns.map ToolRun.callId

/-- The ids of the rows that the send writes. -/
def rowIds (send : Send) : List String :=
  send.userId :: send.rounds.flatMap (fun round =>
    round.assistantRowId :: round.toolRuns.map ToolRun.rowId) ++ [send.assistantId]

/-- The text that the bubble holds when the rounds are over. -/
def accumulated (send : Send) : String := String.join (send.rounds.map Round.content) ++ send.final

end Send

def Round.messages (round : Round) : List Message :=
  .assistant (prose round.content) (round.toolRuns.map (fun run => run.stored.call)) ::
    round.toolRuns.map (fun run => .tool run.callId run.content)

/-- What the user and the model said, without an empty last text. -/
def Send.exchange (send : Send) : List Message :=
  .user send.userText :: send.rounds.flatMap Round.messages ++
    (prose send.final).toList.map (fun content => .assistant (some content) [])

section Rows

variable (stringify : Json → String) (contextKey sendId : String)

def userRow (id content : String) : ChatRow where
  role := .user
  content := content
  tool_calls := none
  tool_call_id := none
  id := id
  context_key := contextKey
  created_at := 0
  send_id := some sendId
  sequence := some 0
  status := none

def assistantRow (id content : String) (toolCalls : List StoredCall) (nextSeq : ℕ) : ChatRow where
  role := .assistant
  content := content
  tool_calls :=
    if toolCalls = [] then none else some (stringify (.array (toolCalls.map StoredCall.json)))
  tool_call_id := none
  id := id
  context_key := contextKey
  created_at := 0
  send_id := some sendId
  sequence := some nextSeq
  status := none

def toolRow (run : ToolRun) (nextSeq : ℕ) : ChatRow where
  role := .tool
  content := run.content
  tool_calls := none
  tool_call_id := some run.callId
  id := run.rowId
  context_key := contextKey
  created_at := 0
  send_id := some sendId
  sequence := some nextSeq
  status := some run.status

def toolRows : List ToolRun → ℕ → List ChatRow
  | [], _ => []
  | run :: runs, nextSeq => toolRow contextKey sendId run nextSeq :: toolRows runs (nextSeq + 1)

/-- The rows of the rounds, and the row of the last text under the id of the bubble. -/
def roundRows (assistantId final : String) : List Round → ℕ → List ChatRow
  | [], nextSeq => [assistantRow stringify contextKey sendId assistantId final [] nextSeq]
  | round :: rounds, nextSeq =>
    assistantRow stringify contextKey sendId round.assistantRowId round.content
        (round.toolRuns.map ToolRun.stored) nextSeq ::
      toolRows contextKey sendId round.toolRuns (nextSeq + 1) ++
        roundRows assistantId final rounds (nextSeq + 1 + round.toolRuns.length)

end Rows

namespace Send

variable (stringify : Json → String) (contextKey : String)

def firstRow (send : Send) : ChatRow := userRow contextKey send.sendId send.userId send.userText

/-- The `writes` of the one `Promise.all`. -/
def writes (send : Send) : List ChatRow :=
  roundRows stringify contextKey send.sendId send.assistantId send.final send.rounds 1

def rows (send : Send) : List ChatRow :=
  send.firstRow contextKey :: send.writes stringify contextKey

end Send

section Sequence

variable (stringify : Json → String) (contextKey sendId : String)

theorem toolRows_sequence (runs : List ToolRun) (nextSeq : ℕ) :
    (toolRows contextKey sendId runs nextSeq).map ChatRow.sequence =
      (List.range' nextSeq runs.length).map some := by
  induction runs generalizing nextSeq with
  | nil => rfl
  | cons run runs ih =>
    rw [toolRows, List.map_cons, ih, List.length_cons, List.range'_succ, List.map_cons]
    rfl

theorem roundRows_sequence (assistantId final : String) (rounds : List Round) (nextSeq : ℕ) :
    (roundRows stringify contextKey sendId assistantId final rounds nextSeq).map ChatRow.sequence =
      (List.range' nextSeq (roundRows stringify contextKey sendId assistantId final rounds
        nextSeq).length).map some := by
  induction rounds generalizing nextSeq with
  | nil => rfl
  | cons round rounds ih =>
    have hlen : (toolRows contextKey sendId round.toolRuns (nextSeq + 1)).length =
        round.toolRuns.length := by
      have h := congrArg List.length
        (toolRows_sequence contextKey sendId round.toolRuns (nextSeq + 1))
      simpa using h
    have hassistant : (assistantRow stringify contextKey sendId round.assistantRowId round.content
        (round.toolRuns.map ToolRun.stored) nextSeq).sequence = some nextSeq := rfl
    simp only [roundRows, List.cons_append, List.map_cons, List.map_append, List.length_cons,
      List.length_append, toolRows_sequence, ih, hlen, hassistant, List.range'_succ,
      ← List.range'_append_1]

/-- The rows are numbered as they were said. -/
theorem rows_sequence (send : Send) : (send.rows stringify contextKey).map ChatRow.sequence =
    (List.range (send.rows stringify contextKey).length).map some := by
  have hfirst : (send.firstRow contextKey).sequence = some 0 := rfl
  rw [Send.rows, List.map_cons, Send.writes, roundRows_sequence, List.length_cons,
    List.range_eq_range', List.range'_succ, List.map_cons, hfirst]

theorem rows_increasing (send : Send) : (send.rows stringify contextKey).Pairwise
    (fun a b => a.sequence.getD 0 < b.sequence.getD 0) := by
  have h : ((send.rows stringify contextKey).map (fun row => row.sequence.getD 0)) =
      List.range (send.rows stringify contextKey).length := by
    have hseq := congrArg (List.map (fun n : Option ℕ => n.getD 0))
      (rows_sequence stringify contextKey send)
    simpa [Function.comp_def] using hseq
  have hlt := List.pairwise_lt_range (n := (send.rows stringify contextKey).length)
  rw [← h, List.pairwise_map] at hlt
  exact hlt

end Sequence

end YapStack.Chat
