import YapStack.Chat.Exchange

set_option linter.unusedSectionVars false

namespace YapStack.Chat

variable (parse : String → Option Json) (stringify : Json → String)
variable {contextKey sendId : String} {callIds : List String}

/-- What the row contributes to the request. -/
def ChatRow.message (row : ChatRow) : Option Message := messageOf parse row.toDbChatMessage

/-- `JSON.parse` gives back what `JSON.stringify` has written for these calls. -/
structure JsonKept (calls : List StoredCall) : Prop where
  parsed : parse (stringify (.array (calls.map StoredCall.json))) =
    some (.array (calls.map StoredCall.json))
  text_ne : stringify (.array (calls.map StoredCall.json)) ≠ ""

/-- So it is for each round of the send, whichever calls are undone. -/
def Send.Kept (send : Send) : Prop :=
  ∀ callIds, ∀ round ∈ (send.undo callIds).rounds,
    JsonKept parse stringify (round.toolRuns.map ToolRun.stored)

variable {parse stringify}

theorem persistedEntry_json (stored : StoredCall) :
    persistedEntry stored.json = some stored.call := by
  simp [persistedEntry, StoredCall.json, Json.stringField]

theorem parse_calls {calls : List StoredCall} (h : JsonKept parse stringify calls)
    (hne : calls ≠ []) :
    parsePersistedToolCalls parse (some (stringify (.array (calls.map StoredCall.json)))) =
      some (calls.map StoredCall.call) := by
  have hentries : ∀ calls : List StoredCall,
      (calls.map StoredCall.json).mapM persistedEntry = some (calls.map StoredCall.call) := by
    intro calls
    induction calls with
    | nil => rfl
    | cons stored calls ih =>
      simp only [List.map_cons, List.mapM_cons, persistedEntry_json, ih, Option.pure_def,
        Option.bind_eq_bind, Option.bind_some]
  simp only [parsePersistedToolCalls, if_neg h.text_ne, h.parsed, List.map_eq_nil_iff, if_neg hne,
    hentries]

theorem message_userRow {id content : String} (hne : content ≠ "") :
    (userRow contextKey sendId id content).message parse = some (.user content) := by
  simp [ChatRow.message, messageOf, userRow, prose, hne]

theorem message_toolRow {run : ToolRun} (hne : run.callId ≠ "") (nextSeq : ℕ) :
    (toolRow contextKey sendId run nextSeq).message parse =
      some (.tool run.callId run.content) := by
  simp [ChatRow.message, messageOf, toolRow, prose, hne]

theorem message_assistantRow {calls : List StoredCall} (h : JsonKept parse stringify calls)
    (hne : calls ≠ []) (id content : String) (nextSeq : ℕ) :
    (assistantRow stringify contextKey sendId id content calls nextSeq).message parse =
      some (.assistant (prose content) (calls.map StoredCall.call)) := by
  obtain ⟨stored, rest, rfl⟩ := List.exists_cons_of_ne_nil hne
  have hparsed := parse_calls h hne
  simp only [List.map_cons] at hparsed
  simp only [ChatRow.message, messageOf, assistantRow, if_neg hne, List.map_cons, hparsed]

theorem message_lastRow (id content : String) (nextSeq : ℕ) :
    (assistantRow stringify contextKey sendId id content [] nextSeq).message parse =
      (prose content).map (fun content => .assistant (some content) []) := by
  simp [ChatRow.message, messageOf, assistantRow, parsePersistedToolCalls]

theorem toolRows_messages {runs : List ToolRun} (hne : ∀ run ∈ runs, run.callId ≠ "")
    (nextSeq : ℕ) : (toolRows contextKey sendId runs nextSeq).filterMap (ChatRow.message parse) =
      runs.map (fun run => .tool run.callId run.content) := by
  induction runs generalizing nextSeq with
  | nil => rfl
  | cons run runs ih =>
    rw [toolRows, List.filterMap_cons_some (message_toolRow (hne run List.mem_cons_self) _),
      ih (fun r hr => hne r (List.mem_cons_of_mem run hr)), List.map_cons]

/-- Row by row, the rows of a send stand for what was exchanged. -/
theorem rows_messages {send : Send}
    (hkept : ∀ round ∈ send.rounds, JsonKept parse stringify (round.toolRuns.map ToolRun.stored))
    (hids : "" ∉ send.callIds) :
    (send.rows stringify contextKey).filterMap (ChatRow.message parse) = send.exchange := by
  have hrounds : ∀ (rounds : List Round) (nextSeq : ℕ), rounds ⊆ send.rounds →
      (roundRows stringify contextKey send.sendId send.assistantId send.final rounds
        nextSeq).filterMap (ChatRow.message parse) =
      rounds.flatMap Round.messages ++
        (prose send.final).toList.map (fun content => .assistant (some content) []) := by
    intro rounds
    induction rounds with
    | nil =>
      intro nextSeq _
      have hlast : (assistantRow stringify contextKey send.sendId send.assistantId send.final []
          nextSeq).message parse = _ := message_lastRow _ _ _
      cases hfinal : prose send.final with
      | none =>
        rw [hfinal] at hlast
        simp [roundRows, hlast]
      | some final =>
        rw [hfinal] at hlast
        simp [roundRows, hlast]
    | cons round rounds ih =>
      intro nextSeq hsub
      have hmem : round ∈ send.rounds := hsub List.mem_cons_self
      have hruns : round.toolRuns.map ToolRun.stored ≠ [] := by
        rw [ne_eq, List.map_eq_nil_iff]
        exact send.rounds_ne round hmem
      have hne : ∀ run ∈ round.toolRuns, run.callId ≠ "" := by
        intro run hrun hempty
        refine hids (List.mem_map.mpr ⟨run, ?_, hempty⟩)
        exact List.mem_flatMap.mpr ⟨round, hmem, hrun⟩
      rw [roundRows, List.cons_append,
        List.filterMap_cons_some (message_assistantRow (hkept round hmem) hruns _ _ _),
        List.filterMap_append, toolRows_messages hne,
        ih _ (fun r hr => hsub (List.mem_cons_of_mem round hr)), List.map_map]
      simp [Round.messages, Function.comp_def]
  rw [Send.rows, Send.firstRow, List.filterMap_cons_some (message_userRow send.userText_ne), Send.writes,
    hrounds send.rounds 1 (List.Subset.refl _)]
  rfl

section Undo

/-- What `markToolCallsAsUndone` does to one row. -/
def markRow (parse : String → Option Json) (stringify : Json → String) (contextKey sendId : String)
    (callIds : List String) (row : ChatRow) : ChatRow :=
  stampCalls parse stringify contextKey sendId callIds
    (callIds.foldl (fun row cid => undoResult contextKey sendId cid row) row)

theorem foldl_map_undoResult (callIds : List String) (table : List ChatRow) :
    callIds.foldl (fun rows cid => rows.map (undoResult contextKey sendId cid)) table =
      table.map (fun row => callIds.foldl (fun row cid => undoResult contextKey sendId cid row)
        row) := by
  induction callIds generalizing table with
  | nil => simp
  | cons cid callIds ih =>
    rw [List.foldl_cons, ih, List.map_map]
    rfl

theorem stampCalls_nil (row : ChatRow) :
    stampCalls parse stringify contextKey sendId [] row = row := by
  have hnone : ∀ parsed : List Json, parsed.any (isUndone []) = false := by
    intro parsed
    rw [List.any_eq_false]
    intro p _
    simp [isUndone]
  rw [stampCalls]
  split
  · split
    · rfl
    · split
      · rw [hnone]
        rfl
      · rfl
  · rfl

theorem markToolCallsAsUndone_eq (callIds : List String) (table : List ChatRow) :
    markToolCallsAsUndone parse stringify contextKey sendId callIds table =
      table.map (markRow parse stringify contextKey sendId callIds) := by
  by_cases h : callIds = []
  · have hid : markRow parse stringify contextKey sendId [] = id := by
      funext row
      exact stampCalls_nil row
    rw [markToolCallsAsUndone, if_pos h, h, hid, List.map_id]
  · rw [markToolCallsAsUndone, if_neg h]
    simp only [foldl_map_undoResult, List.map_map]
    rfl

/-- The results of another row are not touched. -/
theorem foldl_undoResult_of_ne {row : ChatRow} (h : ∀ cid ∈ callIds,
    ¬(row.context_key = contextKey ∧ row.send_id = some sendId ∧ row.role = .tool ∧
      row.tool_call_id = some cid)) :
    callIds.foldl (fun row cid => undoResult contextKey sendId cid row) row = row := by
  induction callIds with
  | nil => rfl
  | cons cid callIds ih =>
    have hhead : undoResult contextKey sendId cid row = row :=
      if_neg (h cid List.mem_cons_self)
    rw [List.foldl_cons, hhead]
    exact ih (fun c hc => h c (List.mem_cons_of_mem cid hc))

theorem markRow_of_ne {row : ChatRow}
    (h : ¬(row.context_key = contextKey ∧ row.send_id = some sendId)) :
    markRow parse stringify contextKey sendId callIds row = row := by
  rw [markRow, foldl_undoResult_of_ne (fun cid _ hrow => h ⟨hrow.1, hrow.2.1⟩), stampCalls]
  exact if_neg (fun hrow => h ⟨hrow.1, hrow.2.1⟩)

theorem markRow_userRow (id content : String) :
    markRow parse stringify contextKey sendId callIds (userRow contextKey sendId id content) =
      userRow contextKey sendId id content := by
  rw [markRow, foldl_undoResult_of_ne (by simp [userRow]), stampCalls]
  simp [userRow]

theorem undoResult_toolRow (cid : String) (run : ToolRun) (nextSeq : ℕ) :
    undoResult contextKey sendId cid (toolRow contextKey sendId run nextSeq) =
      if run.callId = cid then
        toolRow contextKey sendId { run with content := undoneContent, status := "undone" } nextSeq
      else toolRow contextKey sendId run nextSeq := by
  by_cases h : run.callId = cid
  · rw [if_pos h]
    exact if_pos ⟨rfl, rfl, rfl, congrArg some h⟩
  · rw [if_neg h]
    exact if_neg (fun hrow => h (Option.some.inj hrow.2.2.2))

theorem markRow_toolRow (run : ToolRun) (nextSeq : ℕ) :
    markRow parse stringify contextKey sendId callIds (toolRow contextKey sendId run nextSeq) =
      toolRow contextKey sendId (run.undo callIds) nextSeq := by
  have hfold : ∀ (callIds : List String) (run : ToolRun),
      callIds.foldl (fun row cid => undoResult contextKey sendId cid row)
        (toolRow contextKey sendId run nextSeq) =
      toolRow contextKey sendId (run.undo callIds) nextSeq := by
    intro callIds
    induction callIds with
    | nil => exact fun run => rfl
    | cons cid callIds ih =>
      intro run
      rw [List.foldl_cons, undoResult_toolRow]
      by_cases h : run.callId = cid
      · rw [if_pos h, ih]
        have hself : run.undo (cid :: callIds) = { run with
            stored := { run.stored with undone := true }
            content := undoneContent
            status := "undone" } := if_pos (by rw [h]; exact List.mem_cons_self)
        rw [hself, ToolRun.undo]
        split
        · rfl
        · rfl
      · have hrest : run.undo (cid :: callIds) = run.undo callIds := by
          simp only [ToolRun.undo, List.mem_cons, h, false_or]
        rw [if_neg h, ih, hrest]
  rw [markRow, hfold, stampCalls]
  simp [toolRow]

theorem isUndone_json (stored : StoredCall) :
    isUndone callIds stored.json = decide (stored.call.id ∈ callIds) := by
  simp [isUndone, StoredCall.json, Json.idOrEmpty]

theorem stampUndone_json (run : ToolRun) :
    stampUndone callIds run.stored.json = (run.undo callIds).stored.json := by
  rw [stampUndone, isUndone_json, ToolRun.undo, ToolRun.callId]
  by_cases h : run.stored.call.id ∈ callIds
  · rw [if_pos (decide_eq_true h), if_pos h]
    cases hdetail : run.stored.detail with
    | none => cases hundone : run.stored.undone <;>
        simp [StoredCall.json, Json.ownFields, setField, hdetail, hundone]
    | some detail => cases hundone : run.stored.undone <;>
        simp [StoredCall.json, Json.ownFields, setField, hdetail, hundone]
  · rw [if_neg (by simpa using h), if_neg h]

theorem markRow_lastRow (id content : String) (nextSeq : ℕ) :
    markRow parse stringify contextKey sendId callIds
        (assistantRow stringify contextKey sendId id content [] nextSeq) =
      assistantRow stringify contextKey sendId id content [] nextSeq := by
  rw [markRow, foldl_undoResult_of_ne (by simp [assistantRow]), stampCalls]
  simp [assistantRow]

theorem stampCalls_parsed {row : ChatRow} {text : String} {parsed : List Json}
    (hrow : row.context_key = contextKey ∧ row.send_id = some sendId ∧ row.role = .assistant)
    (hcalls : row.tool_calls = some text) (hne : text ≠ "")
    (hparsed : parse text = some (.array parsed)) :
    stampCalls parse stringify contextKey sendId callIds row =
      if parsed.any (isUndone callIds) then
        { row with tool_calls := some (stringify (.array (parsed.map (stampUndone callIds)))) }
      else row := by
  have htext : row.tool_calls.bind prose = some text := by
    rw [hcalls, Option.bind_some, prose, if_neg hne]
  simp only [stampCalls, if_pos hrow, htext, hparsed]

theorem markRow_assistantRow {runs : List ToolRun} (hne : runs ≠ [])
    (h : JsonKept parse stringify (runs.map ToolRun.stored)) (id content : String) (nextSeq : ℕ) :
    markRow parse stringify contextKey sendId callIds
        (assistantRow stringify contextKey sendId id content (runs.map ToolRun.stored) nextSeq) =
      assistantRow stringify contextKey sendId id content
        ((runs.map (ToolRun.undo callIds)).map ToolRun.stored) nextSeq := by
  have hcalls : runs.map ToolRun.stored ≠ [] := by simpa using hne
  have hundone : (runs.map (ToolRun.undo callIds)).map ToolRun.stored ≠ [] := by simpa using hne
  have hstamped : ((runs.map ToolRun.stored).map StoredCall.json).map (stampUndone callIds) =
      ((runs.map (ToolRun.undo callIds)).map ToolRun.stored).map StoredCall.json := by
    simp only [List.map_map]
    exact List.map_congr_left (fun run _ => stampUndone_json run)
  have hsome : (assistantRow stringify contextKey sendId id content (runs.map ToolRun.stored)
      nextSeq).tool_calls =
      some (stringify (.array ((runs.map ToolRun.stored).map StoredCall.json))) := if_neg hcalls
  have hrow : (assistantRow stringify contextKey sendId id content (runs.map ToolRun.stored)
      nextSeq).context_key = contextKey ∧ (assistantRow stringify contextKey sendId id content
      (runs.map ToolRun.stored) nextSeq).send_id = some sendId ∧ (assistantRow stringify contextKey
      sendId id content (runs.map ToolRun.stored) nextSeq).role = .assistant := ⟨rfl, rfl, rfl⟩
  rw [markRow, foldl_undoResult_of_ne (by simp [assistantRow]),
    stampCalls_parsed hrow hsome h.text_ne h.parsed, hstamped]
  by_cases hany : ((runs.map ToolRun.stored).map StoredCall.json).any (isUndone callIds) = true
  · rw [if_pos hany]
    simp only [assistantRow, if_neg hundone]
  · have hsame : runs.map (ToolRun.undo callIds) = runs.map (fun run => run) := by
      apply List.map_congr_left
      intro run hrun
      refine if_neg (fun hid => hany ?_)
      rw [List.map_map, List.any_map, List.any_eq_true]
      exact ⟨run, hrun, (isUndone_json run.stored).trans (decide_eq_true hid)⟩
    rw [if_neg hany, hsame, List.map_id']

/-- Marking the rows of a send gives the rows of the send that is undone. -/
theorem rows_undo {send : Send}
    (hkept : ∀ round ∈ send.rounds, JsonKept parse stringify (round.toolRuns.map ToolRun.stored)) :
    (send.rows stringify contextKey).map
        (markRow parse stringify contextKey send.sendId callIds) =
      (send.undo callIds).rows stringify contextKey := by
  have hruns : ∀ (runs : List ToolRun) (nextSeq : ℕ),
      (toolRows contextKey send.sendId runs nextSeq).map
        (markRow parse stringify contextKey send.sendId callIds) =
      toolRows contextKey send.sendId (runs.map (ToolRun.undo callIds)) nextSeq := by
    intro runs
    induction runs with
    | nil => exact fun _ => rfl
    | cons run runs ih =>
      intro nextSeq
      rw [toolRows, List.map_cons, markRow_toolRow, ih]
      rfl
  have hrounds : ∀ (rounds : List Round) (nextSeq : ℕ), rounds ⊆ send.rounds →
      (roundRows stringify contextKey send.sendId send.assistantId send.final rounds nextSeq).map
        (markRow parse stringify contextKey send.sendId callIds) =
      roundRows stringify contextKey send.sendId send.assistantId send.final
        (rounds.map (Round.undo callIds)) nextSeq := by
    intro rounds
    induction rounds with
    | nil =>
      intro nextSeq _
      rw [roundRows, List.map_singleton, markRow_lastRow]
      rfl
    | cons round rounds ih =>
      intro nextSeq hsub
      have hmem : round ∈ send.rounds := hsub List.mem_cons_self
      have hlen : (round.toolRuns.map (ToolRun.undo callIds)).length = round.toolRuns.length :=
        List.length_map _
      rw [roundRows, List.cons_append, List.map_cons, List.map_append,
        markRow_assistantRow (send.rounds_ne round hmem) (hkept round hmem), hruns,
        ih _ (fun r hr => hsub (List.mem_cons_of_mem round hr)), List.map_cons, roundRows,
        Round.undo, hlen]
      rfl
  rw [Send.rows, List.map_cons, Send.firstRow, markRow_userRow, Send.writes,
    hrounds send.rounds 1 (List.Subset.refl _)]
  rfl

end Undo

end YapStack.Chat
