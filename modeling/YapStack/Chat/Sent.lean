import YapStack.Chat.Verbatim

set_option linter.unusedSectionVars false

namespace YapStack.Chat

open Runs

variable {parse : String → Option Json} {stringify : Json → String} {contextKey : String}
variable {s : State} {send : Send} {row : ChatRow} {rows : List ChatRow} {id : String}

/-- The content of the result of a call. -/
def Send.result (send : Send) (id : String) : String :=
  ((send.toolRuns.find? (fun run => run.callId = id)).map ToolRun.content).getD ""

theorem result_of_mem (hnodup : send.callIds.Nodup) {run : ToolRun} (hrun : run ∈ send.toolRuns) :
    send.result run.callId = run.content := by
  cases hfind : send.toolRuns.find? (fun r => r.callId = run.callId) with
  | none =>
    have hnone := List.find?_eq_none.mp hfind run hrun
    simp at hnone
  | some found =>
    have hid := List.find?_some hfind
    simp only [decide_eq_true_eq] at hid
    obtain rfl : found = run :=
      List.inj_on_of_nodup_map hnodup (List.mem_of_find?_eq_some hfind) hrun hid
    rw [Send.result, hfind]
    rfl

theorem exchange_result {m : Message} (hm : m ∈ send.exchange) (hid : m.resultId = some id) :
    ∃ run ∈ send.toolRuns, run.callId = id ∧ m = .tool id run.content := by
  rw [exchange_eq] at hm
  obtain hm | hm := List.mem_append.mp hm
  · obtain rfl | hm := List.mem_cons.mp hm
    · simp [Message.resultId] at hid
    · obtain ⟨round, hround, hm⟩ := List.mem_flatMap.mp hm
      obtain rfl | hm := List.mem_cons.mp hm
      · simp [Round.turn, Message.resultId] at hid
      · obtain ⟨run, hrun, rfl⟩ := List.mem_map.mp hm
        obtain rfl := Option.some.inj hid
        exact ⟨run, List.mem_flatMap.mpr ⟨round, hround, hrun⟩, rfl, rfl⟩
  · rw [(closing_plain hm).2.2] at hid
    simp at hid

theorem result_mem_exchange {run : ToolRun} (hrun : run ∈ send.toolRuns) :
    .tool run.callId run.content ∈ send.exchange := by
  obtain ⟨round, hround, hin⟩ := List.mem_flatMap.mp hrun
  rw [exchange_eq]
  refine List.mem_append_left _ (List.mem_cons_of_mem _ (List.mem_flatMap.mpr ⟨round, hround, ?_⟩))
  exact List.mem_cons_of_mem _ (List.mem_map.mpr ⟨run, hin, rfl⟩)

theorem message_issued {m : Message} (h : row.message parse = some m) :
    issuedBy parse row.toDbChatMessage = m.callIds := by
  rw [issuedBy_eq, ← ChatRow.message, h]
  rfl

theorem message_answered {m : Message} (h : row.message parse = some m) :
    answeredBy row.toDbChatMessage = m.resultId := by
  rw [answeredBy_eq parse, ← ChatRow.message, h]
  rfl

/-- Only the rows of the send issue or answer its calls. -/
theorem Reached.mine_of_call (h : Reached parse stringify contextKey send s)
    (hsend : send ∈ s.sends) (hrow : row ∈ s.table) (hcontext : row.context_key = contextKey)
    (hid : id ∈ send.callIds)
    (hcall : id ∈ issuedBy parse row.toDbChatMessage ∨ id ∈ answeredBy row.toDbChatMessage) :
    mine contextKey send row = true := by
  have hstranger : ¬Strange parse row send.callIds := by
    rintro ⟨hissued, hanswered⟩
    obtain hcall | hcall := hcall
    · exact hissued id hcall hid
    · exact hanswered id hcall hid
  by_cases hnone : ∀ b ∈ s.sends, mine contextKey b row = false
  · exact absurd ((h.inv.foreign row hrow hnone send hsend).2.2 hcontext) hstranger
  · push Not at hnone
    obtain ⟨b, hb, hmine⟩ := hnone
    rw [ne_eq, Bool.not_eq_false] at hmine
    obtain rfl | hapart := h.inv.distinct send hsend b hb
    · exact hmine
    · obtain ⟨text, hholds⟩ := h.inv.holds b hb
      refine absurd (hholds.strange (h.inv.kept b hb) hrow hmine ?_) hstranger
      exact fun id hid hid' => hapart.2.2 id hid' hid

/-- In the rows of a send, in any order of the table, each call is issued once. -/
theorem issued_once (hnodup : send.callIds.Nodup)
    (hmessages : (send.rows stringify contextKey).filterMap (ChatRow.message parse) =
      send.exchange) {table : List ChatRow}
    (hperm : (table.map ChatRow.unstamped).Perm (send.rows stringify contextKey)) :
    (∀ row ∈ table, ∀ m, row.message parse = some m → m ∈ send.exchange ∧ m.callIds.Nodup) ∧
      table.Pairwise (fun a b => ∀ m m', a.message parse = some m → b.message parse = some m' →
        ∀ id ∈ m.callIds, id ∉ m'.callIds) := by
  rw [← exchange_callIds, List.nodup_flatMap] at hnodup
  obtain ⟨hself, hpair⟩ := hnodup
  constructor
  · intro row hrow m hm
    have hmem : m ∈ send.exchange := by
      rw [← hmessages]
      refine List.mem_filterMap.mpr ⟨row.unstamped, ?_, hm⟩
      exact hperm.mem_iff.mp (List.mem_map_of_mem hrow)
    exact ⟨hmem, hself m hmem⟩
  · rw [← hmessages, List.pairwise_filterMap] at hpair
    have hrows : (table.map ChatRow.unstamped).Pairwise (fun a b => ∀ m m',
        a.message parse = some m → b.message parse = some m' → ∀ id ∈ m.callIds, id ∉ m'.callIds) := by
      refine (hperm.pairwise_iff ?_).mpr (hpair.imp ?_)
      · intro a b hab m m' hm hm' id hid hid'
        exact hab m' m hm' hm id hid' hid
      · intro a b hab m m' hm hm' id hid hid'
        exact hab m hm m' hm' hid hid'
    rw [List.pairwise_map] at hrows
    exact hrows

/-- A call is written before its result. -/
theorem sequence_lt (hnodup : send.callIds.Nodup)
    (hmessages : (send.rows stringify contextKey).filterMap (ChatRow.message parse) =
      send.exchange) {a b : ChatRow} (ha : a ∈ send.rows stringify contextKey)
    (hb : b ∈ send.rows stringify contextKey) {m m' : Message} (hm : a.message parse = some m)
    (hm' : b.message parse = some m') (hid : id ∈ m.callIds) (hid' : m'.resultId = some id) :
    a.sequence.getD 0 < b.sequence.getD 0 := by
  have hforward := exchange_forward hnodup
  rw [← hmessages, List.pairwise_filterMap] at hforward
  have hincreasing := rows_increasing stringify contextKey send
  obtain ⟨i, hi, rfl⟩ := List.getElem_of_mem ha
  obtain ⟨j, hj, rfl⟩ := List.getElem_of_mem hb
  obtain hlt | rfl | hgt := Nat.lt_trichotomy i j
  · exact List.pairwise_iff_getElem.mp hincreasing i j hi hj hlt
  · rw [hm] at hm'
    obtain rfl := Option.some.inj hm'
    rw [callIds_of_tool (isTool_of_resultId hid')] at hid
    simp at hid
  · have hnot := List.pairwise_iff_getElem.mp hforward j i hj hi hgt m' hm' m hm id hid'
    exact absurd hid hnot

/-- The calls of a send that is complete are settled in what is read. -/
theorem settled (h : Reached parse stringify contextKey send s) (hdone : Completed s send)
    (hids : "" ∉ send.callIds) (htimed : Timed parse contextKey s.table send)
    (hrows : Selected contextKey s.table rows) (hid : id ∈ send.callIds) :
    Settled (rows.filterMap (ChatRow.message parse)) id ((send.undo s.undone).result id) := by
  have hsend := hdone.1
  have hperm := ((hrows.mine_perm send).map ChatRow.unstamped).trans (h.rows_perm hdone)
  have hcallIds : (send.undo s.undone).callIds = send.callIds := send.callIds_undo s.undone
  have hnodup : (send.undo s.undone).callIds.Nodup := by
    rw [hcallIds]
    exact (h.inv.nodup send hsend).2
  have hmessages : ((send.undo s.undone).rows stringify contextKey).filterMap
      (ChatRow.message parse) = (send.undo s.undone).exchange := by
    apply rows_messages (h.inv.kept send hsend s.undone)
    rw [hcallIds]
    exact hids
  obtain ⟨hself, hpair⟩ := issued_once hnodup hmessages hperm
  have hin : ∀ row ∈ rows, row ∈ s.table ∧ row.context_key = contextKey := by
    intro row hrow
    obtain ⟨htable, hcontext⟩ := List.mem_filter.mp (hrows.perm.mem_iff.mp hrow)
    exact ⟨htable, of_decide_eq_true hcontext⟩
  have hmine : ∀ row ∈ rows, ∀ m, row.message parse = some m →
      id ∈ m.callIds ∨ m.resultId = some id → mine contextKey send row = true := by
    intro row hrow m hm hcall
    obtain ⟨htable, hcontext⟩ := hin row hrow
    refine h.mine_of_call hsend htable hcontext hid ?_
    rw [message_issued hm, message_answered hm]
    exact hcall
  have hown : ∀ row ∈ rows, mine contextKey send row = true →
      row ∈ rows.filter (mine contextKey send) :=
    fun row hrow hm => List.mem_filter.mpr ⟨hrow, hm⟩
  have hwritten : ∀ row ∈ rows, mine contextKey send row = true →
      row.unstamped ∈ (send.undo s.undone).rows stringify contextKey :=
    fun row hrow hm => hperm.mem_iff.mp (List.mem_map_of_mem (hown row hrow hm))
  constructor
  · intro m hm hres
    obtain ⟨row, hrow, hmrow⟩ := List.mem_filterMap.mp hm
    have hown' := hown row hrow (hmine row hrow m hmrow (Or.inr hres))
    obtain ⟨run, hrun, rfl, rfl⟩ := exchange_result (hself row hown' m hmrow).1 hres
    rw [result_of_mem hnodup hrun]
  · intro front a back heq hissued
    obtain ⟨first, tail, hrowseq, -, htail⟩ := List.filterMap_eq_append_iff.mp heq
    obtain ⟨gap, row, last, htaileq, -, hmrow, hlast⟩ := List.filterMap_eq_cons_iff.mp htail
    have hrowseq' : rows = (first ++ gap) ++ row :: last := by
      rw [hrowseq, htaileq, List.append_assoc]
    have hrow : row ∈ rows := by
      rw [hrowseq']
      exact List.mem_append_right _ List.mem_cons_self
    have hlastsub : ∀ r ∈ last, r ∈ rows := by
      intro r hr
      rw [hrowseq']
      exact List.mem_append_right _ (List.mem_cons_of_mem row hr)
    have hrowmine := hmine row hrow a hmrow (Or.inl hissued)
    refine ⟨?_, ?_, ?_⟩
    · exact List.count_eq_one_of_mem (hself row (hown row hrow hrowmine) a hmrow).2 hissued
    · intro b hb hbid
      rw [← hlast] at hb
      obtain ⟨r, hr, hmr⟩ := List.mem_filterMap.mp hb
      have hrmine := hmine r (hlastsub r hr) b hmr (Or.inl hbid)
      rw [hrowseq', List.filter_append, List.filter_cons_of_pos hrowmine] at hpair
      have hafter := (List.pairwise_cons.mp (List.pairwise_append.mp hpair).2.1).1
      exact hafter r (List.mem_filter.mpr ⟨hr, hrmine⟩) a b hmrow hmr id hissued hbid
    · obtain ⟨run, hrun, rfl⟩ : ∃ run ∈ (send.undo s.undone).toolRuns, run.callId = id := by
        rw [← hcallIds] at hid
        exact List.mem_map.mp hid
      have hresult := result_mem_exchange hrun
      rw [← hmessages] at hresult
      obtain ⟨written, hw, hmw⟩ := List.mem_filterMap.mp hresult
      obtain ⟨answer, hanswer, rfl⟩ := List.mem_map.mp (hperm.mem_iff.mpr hw)
      obtain ⟨hanswer, hanswermine⟩ := List.mem_filter.mp hanswer
      have hmw' : answer.message parse = some (.tool run.callId run.content) := hmw
      have hmrow' : row.unstamped.message parse = some a := hmrow
      have hsequence : row.unstamped.sequence.getD 0 < answer.unstamped.sequence.getD 0 :=
        sequence_lt hnodup hmessages (hwritten row hrow hrowmine) hw hmrow' hmw hissued rfl
      have hsequence : row.sequence.getD 0 < answer.sequence.getD 0 := hsequence
      have hcreated : row.created_at ≤ answer.created_at := by
        refine htimed.results row (hin row hrow).1 answer (hin answer hanswer).1 hrowmine
          hanswermine run.callId ?_ ?_
        · rw [message_answered hmw']
          rfl
        · rw [message_issued hmrow]
          exact hissued
      have hnotfirst : answer ∉ first ++ gap := by
        intro hmem
        have hsorted := hrows.sorted
        rw [hrowseq'] at hsorted
        have hle := (List.pairwise_append.mp hsorted).2.2 answer hmem row List.mem_cons_self
        obtain hle | hle := hle
        · omega
        · omega
      rw [result_of_mem hnodup hrun, ← hlast]
      refine List.mem_filterMap.mpr ⟨answer, ?_, hmw'⟩
      rw [hrowseq'] at hanswer
      obtain hmem | hmem := List.mem_append.mp hanswer
      · exact absurd hmem hnotfirst
      · obtain rfl | hmem := List.mem_cons.mp hmem
        · exact absurd hsequence (Nat.lt_irrefl _)
        · exact hmem

/-- The turns that are read come in the order of their sides. -/
theorem turnRows_by_side (h : Reached parse stringify contextKey send s) (hdone : Completed s send)
    (htimed : Timed parse contextKey s.table send) (hrows : Selected contextKey s.table rows) :
    (rows.filter (isTurn parse)).Pairwise (fun a b =>
      side parse contextKey s.table send a ≤ side parse contextKey s.table send b) := by
  apply turns_by_side htimed
  · intro row hrow
    obtain ⟨hrow, hturn⟩ := List.mem_filter.mp hrow
    obtain ⟨htable, hcontext⟩ := List.mem_filter.mp (hrows.perm.mem_iff.mp hrow)
    exact ⟨htable, of_decide_eq_true hcontext, hturn⟩
  · exact hrows.sorted.filter _
  · have hfirst : (send.undo s.undone).firstRow contextKey ∈
        (send.undo s.undone).rows stringify contextKey := List.mem_cons_self
    obtain ⟨row, hrow, heq⟩ := List.mem_map.mp ((h.rows_perm hdone).mem_iff.mpr hfirst)
    obtain ⟨htable, hmine⟩ := List.mem_filter.mp hrow
    refine ⟨row, htable, hmine, ?_⟩
    have huser : ((send.undo s.undone).firstRow contextKey).message parse = _ :=
      message_userRow (send.undo s.undone).userText_ne
    rw [← isTurn_unstamped, heq, isTurn, huser]
    rfl

/-- In every state of a run, and in whichever order the query returns rows with equal keys, the
request holds what was exchanged in a complete send, with the undone results replaced. -/
theorem send_replayed {events : List Event} {now : ℕ}
    (hexec : exec (step parse stringify contextKey) (State.start now) events = some s)
    (hjson : ∀ e ∈ events, StartsKept parse stringify e)
    (hkeeps : Along (step parse stringify contextKey) (KeepsText send) (State.start now) events)
    (hdone : Completed s send) (hids : "" ∉ send.callIds)
    (htimed : Timed parse contextKey s.table send) (hrows : Selected contextKey s.table rows) :
    send.exchange.map (undoneMessage s.undone) <:+:
      assembleHistoryForRequest parse (rows.map ChatRow.toDbChatMessage) := by
  have h := exec_reached hexec hjson hkeeps
  have hcallIds : (send.undo s.undone).callIds = send.callIds := send.callIds_undo s.undone
  have hnodup : (send.undo s.undone).callIds.Nodup := by
    rw [hcallIds]
    exact (h.inv.nodup send hdone.1).2
  have hmessages : ((send.undo s.undone).rows stringify contextKey).filterMap
      (ChatRow.message parse) = (send.undo s.undone).exchange := by
    apply rows_messages (h.inv.kept send hdone.1 s.undone)
    rw [hcallIds]
    exact hids
  have hassemble : assembleHistoryForRequest parse (rows.map ChatRow.toDbChatMessage) =
      ensureToolResultsFollowToolUse (rows.filterMap (ChatRow.message parse)) := by
    rw [assembleHistoryForRequest, List.filterMap_map]
    rfl
  have hsettled : ∀ m ∈ turns (send.undo s.undone).exchange, ∀ id ∈ m.callIds,
      Settled (rows.filterMap (ChatRow.message parse)) id ((send.undo s.undone).result id) := by
    intro m hm id hid
    refine settled h hdone hids htimed hrows ?_
    rw [← hcallIds, ← exchange_callIds]
    exact List.mem_flatMap.mpr ⟨m, (List.mem_filter.mp hm).1, hid⟩
  have hclasses := eq_of_classes (turnRows_by_side h hdone htimed hrows)
  have hmine : (rows.filter (isTurn parse)).filter
      (fun row => side parse contextKey s.table send row = 1) =
      (rows.filter (isTurn parse)).filter (mine contextKey send) := by
    apply List.filter_congr
    intro row _
    rw [Bool.eq_iff_iff, decide_eq_true_eq, side_eq_one]
  have hown : ((rows.filter (isTurn parse)).filter (mine contextKey send)).filterMap
      (ChatRow.message parse) = turns (send.undo s.undone).exchange := by
    rw [← hmessages, turns_messages, ← mine_in_order htimed (h.rows_perm hdone) hrows,
      List.filterMap_map]
    rfl
  have hturns : turns (rows.filterMap (ChatRow.message parse)) = _ := turns_messages rows
  rw [hclasses, hmine, List.filterMap_append, List.filterMap_append, hown] at hturns
  rw [hassemble, ← send.exchange_undo s.undone,
    ← exchange_of_turns (fun run hrun => result_of_mem hnodup hrun)]
  exact ensure_exchanged hturns hsettled

instance (s t : State) (e : Event) : Decidable (KeepsText send s e t) :=
  match e with
  | .undo sendId executed shown =>
    decidable_of_iff (sendId = send.sendId → ∀ content ∈ shownContent send shown s.table,
        cleanToolBadges content = send.final) (by
      constructor
      · rintro h executed' shown' heq
        obtain ⟨rfl, rfl, rfl⟩ := Event.undo.inj heq
        exact h rfl
      · rintro h rfl
        exact h executed shown rfl)
  | .tick | .start _ | .land _ | .finish | .other _ => .isTrue (by rintro _ _ ⟨⟩)

instance (table : List ChatRow) : Decidable (Timed parse contextKey table send) :=
  have h1 : Decidable (∀ a ∈ table, ∀ b ∈ table, mine contextKey send a = true →
      mine contextKey send b = true → isTurn parse a = true → isTurn parse b = true →
      a.sequence.getD 0 < b.sequence.getD 0 → a.created_at ≤ b.created_at) := inferInstance
  have h2 : Decidable (∀ a ∈ table, ∀ b ∈ table, mine contextKey send a = true →
    mine contextKey send b = true → ∀ id ∈ answeredBy b.toDbChatMessage,
    id ∈ issuedBy parse a.toDbChatMessage → a.created_at ≤ b.created_at) := inferInstance
  have h3 : Decidable (∀ row ∈ table, row.context_key = contextKey → mine contextKey send row = false →
    isTurn parse row = true →
    (∀ a ∈ table, mine contextKey send a = true → isTurn parse a = true →
      row.created_at < a.created_at) ∨
    ∀ a ∈ table, mine contextKey send a = true → isTurn parse a = true →
      a.created_at < row.created_at) :=
    @List.decidableBAll _ _ (fun _ => @forall_prop_decidable _ _ inferInstance
      fun _ => inferInstance) table
  decidable_of_iff (_ ∧ _ ∧ _) ⟨fun h => ⟨h.1, h.2.1, h.2.2⟩, fun h => ⟨h.1, h.2, h.3⟩⟩

instance : Decidable (Completed s send) :=
  decidable_of_iff (send ∈ s.sends ∧ s.sending.all (fun active => active.1.sendId ≠ send.sendId))
    (by
      refine and_congr_right (fun _ => ?_)
      cases s.sending <;> simp)

mutual

/-- `JSON.stringify` where no character is escaped. -/
def render : Json → String
  | .null => "null"
  | .bool b => if b then "true" else "false"
  | .number => "0"
  | .string s => "\"" ++ s ++ "\""
  | .array elements => "[" ++ renderElements elements ++ "]"
  | .object fields => "\x7b" ++ renderFields fields ++ "\x7d"

def renderElements : List Json → String
  | [] => ""
  | [e] => render e
  | e :: rest => render e ++ "," ++ renderElements rest

def renderFields : List (String × Json) → String
  | [] => ""
  | [(name, value)] => "\"" ++ name ++ "\":" ++ render value
  | (name, value) :: rest => "\"" ++ name ++ "\":" ++ render value ++ "," ++ renderFields rest

end

def pinCall (undone : Bool) : StoredCall :=
  ⟨⟨"call_0", "pin_session", "\x7b\x7d"⟩, "Pinning session", "done", some "Pinned", undone⟩

/-- It reads the texts of the one call. -/
def parsePinned (text : String) : Option Json :=
  if text = render (.array [(pinCall false).json]) then some (.array [(pinCall false).json])
  else if text = render (.array [(pinCall true).json]) then some (.array [(pinCall true).json])
  else none

/-- The model pins the session, with this text before the call, and says that it is done. -/
def pinSend (said : String) : Send where
  sendId := "send"
  userId := "u"
  assistantId := "a"
  userText := "Pin this"
  rounds := [⟨"r", said, [⟨pinCall false, "t", "Pinned", "done"⟩]⟩]
  final := "Done."
  sendId_ne := by decide
  userText_ne := by decide
  rounds_ne := by simp

theorem pinSend_kept (said : String) : (pinSend said).Kept parsePinned render := by
  intro callIds round hround
  obtain rfl := List.mem_singleton.mp hround
  by_cases h : "call_0" ∈ callIds
  · have hundo : ToolRun.undo callIds ⟨pinCall false, "t", "Pinned", "done"⟩ =
        ⟨pinCall true, "t", undoneContent, "undone"⟩ := if_pos h
    simp only [Round.undo, List.map_cons, List.map_nil, hundo]
    constructor
    · exact (if_neg (by decide +kernel)).trans (if_pos rfl)
    · decide +kernel
  · have hundo : ToolRun.undo callIds ⟨pinCall false, "t", "Pinned", "done"⟩ =
        ⟨pinCall false, "t", "Pinned", "done"⟩ := if_neg h
    simp only [Round.undo, List.map_cons, List.map_nil, hundo]
    constructor
    · exact if_pos rfl
    · decide +kernel

/-- The rows land out of order, and the call is undone. -/
def pinEvents (said : String) : List Event :=
  [.start (pinSend said), .tick, .land 1, .land 0, .land 0, .finish,
    .undo "send" ["call_0"] .streamed]

theorem send_replayed_pinned :
    ∃ s, exec (step parsePinned render "chat") (State.start 0) (pinEvents "") = some s ∧
      [.user "Pin this", .assistant none [⟨"call_0", "pin_session", "\x7b\x7d"⟩],
        .tool "call_0" "(undone by user)", .assistant (some "Done.") []] <:+:
      assembleHistoryForRequest parsePinned
        ((getChatMessages "chat" s.table).map ChatRow.toDbChatMessage) := by
  have hkeeps : Along (step parsePinned render "chat") (KeepsText (pinSend "")) (State.start 0)
      (pinEvents "") := by decide +kernel
  have hjson : ∀ e ∈ pinEvents "", StartsKept parsePinned render e := by
    intro e he send hsend
    subst hsend
    simp only [pinEvents, List.mem_cons, Event.start.injEq, reduceCtorEq, List.not_mem_nil,
      or_false] at he
    rw [he]
    exact pinSend_kept ""
  obtain ⟨s, hexec, hdone, hundone, htimed⟩ :
      ∃ s, exec (step parsePinned render "chat") (State.start 0) (pinEvents "") = some s ∧
        (Completed s (pinSend "") ∧ s.undone = ["call_0"] ∧
          Timed parsePinned "chat" s.table (pinSend "")) :=
    exec_evaluates (by decide +kernel)
  have hids : "" ∉ (pinSend "").callIds := by decide
  have hreplayed := send_replayed hexec hjson hkeeps hdone hids htimed
    (getChatMessages_selected "chat" s.table)
  rw [hundone] at hreplayed
  exact ⟨s, hexec, hreplayed⟩

/-- A question that is answered without calls. -/
def quickSend (name userText final : String) (hne : userText ≠ "") (hname : name ≠ "") : Send where
  sendId := name
  userId := name ++ "-u"
  assistantId := name ++ "-a"
  userText := userText
  rounds := []
  final := final
  sendId_ne := hname
  userText_ne := hne
  rounds_ne := by simp

def helloSend : Send := quickSend "s1" "Hi" "Hello" (by decide) (by decide)

def thanksSend : Send := quickSend "s2" "Thanks" "Any time" (by decide) (by decide)

/-- Two sends within a second are read back mixed, and an undo puts the text from before the call
into the last row. -/
theorem replay_broken :
    (∃ s, exec (step parsePinned render "chat") (State.start 0)
        [.start helloSend, .land 0, .finish, .start thanksSend, .land 0, .finish] = some s ∧
      (Completed s helloSend ∧ ¬helloSend.exchange <:+: assembleHistoryForRequest parsePinned
        ((getChatMessages "chat" s.table).map ChatRow.toDbChatMessage))) ∧
    ∃ s, exec (step parsePinned render "chat") (State.start 0)
        (pinEvents "I will pin it. ") = some s ∧
      (Completed s (pinSend "I will pin it. ") ∧
        assembleHistoryForRequest parsePinned
          ((getChatMessages "chat" s.table).map ChatRow.toDbChatMessage) =
          [.user "Pin this",
            .assistant (some "I will pin it. ") [⟨"call_0", "pin_session", "\x7b\x7d"⟩],
            .tool "call_0" "(undone by user)", .assistant (some "I will pin it. Done.") []] ∧
        ¬(pinSend "I will pin it. ").exchange.map (undoneMessage ["call_0"]) <:+:
          assembleHistoryForRequest parsePinned
            ((getChatMessages "chat" s.table).map ChatRow.toDbChatMessage)) :=
  ⟨exec_evaluates (by decide +kernel), exec_evaluates (by decide +kernel)⟩

end YapStack.Chat
