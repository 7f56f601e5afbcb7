import YapStack.Chat.Replay
import YapStack.Chat.Stored
import YapStack.Foundation.Runs

set_option linter.unusedSectionVars false

namespace YapStack.Chat

section Hook

/-- What the list of messages in memory holds for the bubble of a send: nothing, the text that was
streamed, or what the last reload made of its row. -/
inductive Shown
  | absent
  | streamed
  | reloaded
  deriving DecidableEq

/-- The chat of one context, with the sends that were begun and the calls that were undone. -/
structure State where
  now : ℕ
  table : List ChatRow
  sends : List Send
  sending : Option (Send × List ChatRow)
  undone : List String
  deriving DecidableEq

inductive Event
  | tick
  | start (send : Send)
  | land (i : ℕ)
  | finish
  | undo (sendId : String) (executed : List String) (shown : Shown)
  | other (row : ChatRow)

/-- The row has nothing to do with these calls. -/
def Strange (parse : String → Option Json) (row : ChatRow) (callIds : List String) : Prop :=
  (∀ id ∈ issuedBy parse row.toDbChatMessage, id ∉ callIds) ∧
    ∀ id ∈ answeredBy row.toDbChatMessage, id ∉ callIds

instance (parse : String → Option Json) (row : ChatRow) (callIds : List String) :
    Decidable (Strange parse row callIds) := inferInstanceAs (Decidable (_ ∧ _))

/-- Two sends share no ids. -/
def Apart (a b : Send) : Prop :=
  a.sendId ≠ b.sendId ∧ (∀ id ∈ a.rowIds, id ∉ b.rowIds) ∧ ∀ id ∈ a.callIds, id ∉ b.callIds

instance (a b : Send) : Decidable (Apart a b) := inferInstanceAs (Decidable (_ ∧ _))

/-- A row from elsewhere shares no ids with the send. -/
def Foreign (parse : String → Option Json) (contextKey : String) (row : ChatRow) (send : Send) :
    Prop :=
  row.id ∉ send.rowIds ∧ row.send_id ≠ some send.sendId ∧
    (row.context_key = contextKey → Strange parse row send.callIds)

instance (parse : String → Option Json) (contextKey : String) (row : ChatRow) (send : Send) :
    Decidable (Foreign parse contextKey row send) := inferInstanceAs (Decidable (_ ∧ _))

def shownContent (send : Send) (shown : Shown) (table : List ChatRow) : Option String :=
  match shown with
  | .absent => none
  | .streamed => some send.accumulated
  | .reloaded => (table.find? (fun row => row.id = send.assistantId)).map
      (fun row => cleanToolBadges row.content)

section Hook

variable (parse : String → Option Json) (stringify : Json → String) (contextKey : String)

def markUndone (send : Send) (callIds : List String) (table : List ChatRow) : List ChatRow :=
  match table.find? (fun row => row.id = send.assistantId) with
  | none => table
  | some ref =>
    match ref.send_id.bind prose with
    | none => table
    | some sendId => markToolCallsAsUndone parse stringify ref.context_key sendId callIds table

def handleUndo (send : Send) (callIds : List String) (shown : Shown) (table : List ChatRow) :
    List ChatRow :=
  let marked := markUndone parse stringify send callIds table
  match shownContent send shown table with
  | none => marked
  | some content => updateChatMessageContent send.assistantId (cleanToolBadges content) none marked

/-- Ids are drawn fresh, and the calls have ids that the chat does not know. -/
def Fresh (s : State) (send : Send) : Prop :=
  send.rowIds.Nodup ∧ send.callIds.Nodup ∧ (∀ old ∈ s.sends, Apart old send) ∧
    ∀ row ∈ s.table, Foreign parse contextKey row send

instance (s : State) (send : Send) : Decidable (Fresh parse contextKey s send) :=
  inferInstanceAs (Decidable (_ ∧ _))

/-- One statement of the hook, or of the others who write to the table. -/
def step (s : State) : Event → Option State
  | .tick => some { s with now := s.now + 1 }
  | .start send =>
    if s.sending = none ∧ Fresh parse contextKey s send then
      some { s with
        table := insertChatMessage (send.firstRow contextKey) s.now s.table
        sends := s.sends ++ [send]
        sending := some (send, send.writes stringify contextKey) }
    else none
  | .land i =>
    match s.sending with
    | none => none
    | some (send, pending) =>
      match pending[i]? with
      | none => none
      | some row => some { s with
          table := insertChatMessage row s.now s.table
          sending := some (send, pending.eraseIdx i) }
  | .finish =>
    match s.sending with
    | some (_, []) => some { s with sending := none }
    | _ => none
  | .undo sendId executed shown =>
    match s.sends.find? (fun send => send.sendId = sendId) with
    | none => none
    | some send =>
      let callIds := executed.filter (· ≠ "")
      if s.sending.all (fun active => active.1.sendId ≠ sendId) ∧ executed ⊆ send.callIds then
        some { s with
          table := handleUndo parse stringify send callIds shown s.table
          undone := s.undone ++ callIds }
      else none
  | .other row =>
    if row.id ∉ s.table.map ChatRow.id ∧ ∀ send ∈ s.sends, Foreign parse contextKey row send then
      some { s with table := s.table ++ [row] }
    else none

end Hook

def State.start (now : ℕ) : State := ⟨now, [], [], none, []⟩

/-- The send has been begun, and its rows have landed. -/
def Completed (s : State) (send : Send) : Prop :=
  send ∈ s.sends ∧ ∀ active ∈ s.sending, active.1.sendId ≠ send.sendId

end Hook

section Owned

variable {parse : String → Option Json} {stringify : Json → String} {contextKey : String}
variable {send other : Send} {callIds : List String} {row : ChatRow}

/-- The send as it reads when its last row has this text. -/
def Send.withFinal (send : Send) (text : String) : Send := { send with final := text }

theorem toolRows_cases {sendId : String} {runs : List ToolRun} {nextSeq : ℕ}
    (h : row ∈ toolRows contextKey sendId runs nextSeq) :
    ∃ run ∈ runs, ∃ n, row = toolRow contextKey sendId run n := by
  induction runs generalizing nextSeq with
  | nil => simp [toolRows] at h
  | cons run runs ih =>
    obtain rfl | h := List.mem_cons.mp h
    · exact ⟨run, List.mem_cons_self, nextSeq, rfl⟩
    · obtain ⟨r, hr, n, heq⟩ := ih h
      exact ⟨r, List.mem_cons_of_mem run hr, n, heq⟩

theorem roundRows_cases {sendId assistantId final : String} {rounds : List Round} {nextSeq : ℕ}
    (h : row ∈ roundRows stringify contextKey sendId assistantId final rounds nextSeq) :
    (∃ round ∈ rounds, ∃ n, row = assistantRow stringify contextKey sendId round.assistantRowId
      round.content (round.toolRuns.map ToolRun.stored) n) ∨
    (∃ round ∈ rounds, ∃ run ∈ round.toolRuns, ∃ n, row = toolRow contextKey sendId run n) ∨
    ∃ n, row = assistantRow stringify contextKey sendId assistantId final [] n := by
  induction rounds generalizing nextSeq with
  | nil => exact Or.inr (Or.inr ⟨nextSeq, List.mem_singleton.mp h⟩)
  | cons round rounds ih =>
    rw [roundRows, List.cons_append, List.mem_cons, List.mem_append] at h
    obtain rfl | h | h := h
    · exact Or.inl ⟨round, List.mem_cons_self, nextSeq, rfl⟩
    · obtain ⟨run, hrun, n, heq⟩ := toolRows_cases h
      exact Or.inr (Or.inl ⟨round, List.mem_cons_self, run, hrun, n, heq⟩)
    · obtain ⟨r, hr, hrest⟩ | ⟨r, hr, hrest⟩ | hlast := ih h
      · exact Or.inl ⟨r, List.mem_cons_of_mem round hr, hrest⟩
      · exact Or.inr (Or.inl ⟨r, List.mem_cons_of_mem round hr, hrest⟩)
      · exact Or.inr (Or.inr hlast)

/-- The kinds of rows that a send writes. -/
inductive Written (stringify : Json → String) (contextKey : String) (send : Send) : ChatRow → Prop
  | first : Written stringify contextKey send (send.firstRow contextKey)
  | round (round : Round) (hround : round ∈ send.rounds) (n : ℕ) :
    Written stringify contextKey send (assistantRow stringify contextKey send.sendId
      round.assistantRowId round.content (round.toolRuns.map ToolRun.stored) n)
  | run (run : ToolRun) (hrun : run ∈ send.toolRuns) (n : ℕ) :
    Written stringify contextKey send (toolRow contextKey send.sendId run n)
  | last (n : ℕ) : Written stringify contextKey send
      (assistantRow stringify contextKey send.sendId send.assistantId send.final [] n)

theorem written_of_mem (h : row ∈ send.rows stringify contextKey) :
    Written stringify contextKey send row := by
  obtain rfl | h := List.mem_cons.mp h
  · exact Written.first
  · obtain ⟨round, hround, n, rfl⟩ | ⟨round, hround, run, hrun, n, rfl⟩ | ⟨n, rfl⟩ :=
      roundRows_cases h
    · exact Written.round round hround n
    · exact Written.run run (List.mem_flatMap.mpr ⟨round, hround, hrun⟩) n
    · exact Written.last n

theorem rows_owner (h : row ∈ send.rows stringify contextKey) :
    row.context_key = contextKey ∧ row.send_id = some send.sendId ∧ row.created_at = 0 := by
  cases written_of_mem h <;> exact ⟨rfl, rfl, rfl⟩

theorem toolRows_ids (sendId : String) (runs : List ToolRun) (nextSeq : ℕ) :
    (toolRows contextKey sendId runs nextSeq).map ChatRow.id = runs.map ToolRun.rowId := by
  induction runs generalizing nextSeq with
  | nil => rfl
  | cons run runs ih =>
    rw [toolRows, List.map_cons, ih]
    rfl

theorem rows_ids (send : Send) :
    (send.rows stringify contextKey).map ChatRow.id = send.rowIds := by
  have hrounds : ∀ (rounds : List Round) (nextSeq : ℕ),
      (roundRows stringify contextKey send.sendId send.assistantId send.final rounds nextSeq).map
        ChatRow.id = rounds.flatMap (fun round =>
          round.assistantRowId :: round.toolRuns.map ToolRun.rowId) ++ [send.assistantId] := by
    intro rounds
    induction rounds with
    | nil => exact fun _ => rfl
    | cons round rounds ih =>
      intro nextSeq
      rw [roundRows, List.map_append, List.map_cons, toolRows_ids, ih, List.flatMap_cons,
        List.append_assoc]
      rfl
  rw [Send.rows, List.map_cons, Send.writes, hrounds]
  rfl

theorem rowIds_undo (send : Send) : (send.undo callIds).rowIds = send.rowIds := by
  have hround : ∀ round : Round, (round.undo callIds).assistantRowId ::
      (round.undo callIds).toolRuns.map ToolRun.rowId =
      round.assistantRowId :: round.toolRuns.map ToolRun.rowId := by
    intro round
    simp only [Round.undo, List.map_map, List.cons.injEq, true_and]
    exact List.map_congr_left (fun run _ => run.undo_rowId callIds)
  simp only [Send.rowIds, Send.undo, List.flatMap_map, hround]

/-- The rows of a send issue and answer no other calls. -/
theorem rows_calls (h : row ∈ send.rows stringify contextKey)
    (hkept : ∀ round ∈ send.rounds, JsonKept parse stringify (round.toolRuns.map ToolRun.stored)) :
    (∀ id ∈ issuedBy parse row.toDbChatMessage, id ∈ send.callIds) ∧
      ∀ id ∈ answeredBy row.toDbChatMessage, id ∈ send.callIds := by
  cases written_of_mem h with
  | first => simp [issuedBy, answeredBy, Send.firstRow, userRow]
  | round round hround n =>
    have hne : round.toolRuns.map ToolRun.stored ≠ [] := by
      simpa using send.rounds_ne round hround
    have hcalls : (assistantRow stringify contextKey send.sendId round.assistantRowId round.content
        (round.toolRuns.map ToolRun.stored) n).tool_calls = some (stringify
          (.array ((round.toolRuns.map ToolRun.stored).map StoredCall.json))) := if_neg hne
    have hrole : (assistantRow stringify contextKey send.sendId round.assistantRowId round.content
        (round.toolRuns.map ToolRun.stored) n).role = .assistant := rfl
    constructor
    · intro id hid
      rw [issuedBy, if_pos hrole, hcalls, parse_calls (hkept round hround) hne, Option.getD_some,
        List.map_map, List.map_map] at hid
      obtain ⟨run, hrun, rfl⟩ := List.mem_map.mp hid
      exact List.mem_map.mpr ⟨run, List.mem_flatMap.mpr ⟨round, hround, hrun⟩, rfl⟩
    · simp [answeredBy, hrole]
  | run run hrun n =>
    refine ⟨by simp [issuedBy, toolRow], fun id hid => ?_⟩
    simp only [answeredBy, toolRow, if_true, Option.bind_some, prose] at hid
    split at hid
    · simp at hid
    · obtain rfl := Option.mem_some_iff.mp hid
      exact List.mem_map.mpr ⟨run, hrun, rfl⟩
  | last n => simp [issuedBy, answeredBy, assistantRow, parsePersistedToolCalls]

/-- A new text in the last row, and no calls, as it had none. -/
theorem rows_update (content : String) (hnodup : send.rowIds.Nodup) :
    updateChatMessageContent send.assistantId content none (send.rows stringify contextKey) =
      (send.withFinal content).rows stringify contextKey := by
  have hne : ∀ id ∈ send.userId :: send.rounds.flatMap (fun round =>
      round.assistantRowId :: round.toolRuns.map ToolRun.rowId), id ≠ send.assistantId := by
    intro id hid
    exact (List.nodup_append.mp hnodup).2.2 id hid _ List.mem_cons_self
  have hkeep : ∀ {row : ChatRow}, row.id ≠ send.assistantId →
      (if row.id = send.assistantId then { row with content := content, tool_calls := none }
        else row) = row := fun hid => if_neg hid
  have hruns : ∀ (runs : List ToolRun) (nextSeq : ℕ), (∀ run ∈ runs, run.rowId ≠ send.assistantId) →
      updateChatMessageContent send.assistantId content none
        (toolRows contextKey send.sendId runs nextSeq) =
      toolRows contextKey send.sendId runs nextSeq := by
    intro runs
    induction runs with
    | nil => exact fun _ _ => rfl
    | cons run runs ih =>
      intro nextSeq hall
      have htail := ih (nextSeq + 1) (fun r hr => hall r (List.mem_cons_of_mem run hr))
      rw [updateChatMessageContent] at htail
      have hid : (toolRow contextKey send.sendId run nextSeq).id ≠ send.assistantId :=
        hall run List.mem_cons_self
      rw [toolRows, updateChatMessageContent, List.map_cons, hkeep hid, htail]
  have hrounds : ∀ (rounds : List Round) (nextSeq : ℕ), rounds ⊆ send.rounds →
      updateChatMessageContent send.assistantId content none
        (roundRows stringify contextKey send.sendId send.assistantId send.final rounds nextSeq) =
      roundRows stringify contextKey send.sendId send.assistantId content rounds nextSeq := by
    intro rounds
    induction rounds with
    | nil =>
      intro nextSeq _
      simp [roundRows, updateChatMessageContent, assistantRow]
    | cons round rounds ih =>
      intro nextSeq hsub
      have hmem : round ∈ send.rounds := hsub List.mem_cons_self
      have hids : ∀ id ∈ round.assistantRowId :: round.toolRuns.map ToolRun.rowId,
          id ≠ send.assistantId := fun id hid =>
        hne id (List.mem_cons_of_mem _ (List.mem_flatMap.mpr ⟨round, hmem, hid⟩))
      have hhead : (assistantRow stringify contextKey send.sendId round.assistantRowId round.content
          (round.toolRuns.map ToolRun.stored) nextSeq).id ≠ send.assistantId :=
        hids _ List.mem_cons_self
      have hmiddle := hruns round.toolRuns (nextSeq + 1) (fun run hrun =>
        hids _ (List.mem_cons_of_mem _ (List.mem_map_of_mem hrun)))
      have htail := ih (nextSeq + 1 + round.toolRuns.length)
        (fun r hr => hsub (List.mem_cons_of_mem round hr))
      rw [updateChatMessageContent] at hmiddle htail
      rw [roundRows, updateChatMessageContent, List.map_append, List.map_cons, hkeep hhead,
        hmiddle, htail]
      rfl
  have hfirst : (send.firstRow contextKey).id ≠ send.assistantId := hne _ List.mem_cons_self
  have hwrites := hrounds send.rounds 1 (List.Subset.refl _)
  rw [updateChatMessageContent] at hwrites
  rw [Send.rows, updateChatMessageContent, List.map_cons, hkeep hfirst, Send.writes, hwrites]
  rfl

end Owned

end YapStack.Chat
