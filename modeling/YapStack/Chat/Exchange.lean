import YapStack.Chat.Attribution
import YapStack.Chat.Rounds

set_option linter.unusedSectionVars false

namespace YapStack.Chat

section Settled

variable {m t : Message} {i j k : ℕ} {id : String} {calls : List PersistedToolCall}
variable {items rest : List (Message × ℕ)} {consumed : List ℕ} {msgs : List Message}

/-- Whichever message issues the id does so once, nothing after it issues it again, and a result
that is not consumed follows. There is only the one result `t`. -/
structure Awaits (id : String) (t : Message) (consumed : List ℕ) (items : List (Message × ℕ)) :
    Prop where
  only : ∀ x ∈ items, x.1.resultId = some id → x.1 = t
  once : ∀ front a back, items = front ++ a :: back → id ∈ a.1.callIds →
    a.1.callIds.count id = 1 ∧ (∀ b ∈ back, id ∉ b.1.callIds) ∧
      ∃ x ∈ back, x.1.resultId = some id ∧ x.2 ∉ consumed

theorem Awaits.tail {x : Message × ℕ} (h : Awaits id t consumed (x :: rest)) :
    Awaits id t consumed rest :=
  ⟨fun y hy => h.only y (List.mem_cons_of_mem x hy),
    fun front a back heq => h.once (x :: front) a back (by rw [heq, List.cons_append])⟩

/-- Where nothing issues the id, it does not matter what is consumed. -/
theorem Awaits.issued {c : List ℕ} (h : Awaits id t consumed rest)
    (hnone : ∀ x ∈ rest, id ∉ x.1.callIds) : Awaits id t c rest := by
  refine ⟨h.only, ?_⟩
  rintro front a back rfl hid
  exact absurd hid (hnone a (by simp))

/-- A message that does not issue the id takes no result of it. -/
theorem Awaits.passed (hnodup : (rest.map Prod.snd).Nodup) (h : Awaits id t consumed rest)
    (hid : id ∉ calls.map PersistedToolCall.id) :
    Awaits id t (answers i rest consumed calls).2 rest := by
  refine ⟨h.only, ?_⟩
  intro front a back heq hissued
  obtain ⟨hcount, hnone, x, hx, hres, hfresh⟩ := h.once front a back heq hissued
  refine ⟨hcount, hnone, x, hx, hres, ?_⟩
  have havail := (answers_given hnodup consumed i id calls).2
  rw [List.count_eq_zero_of_not_mem hid, List.drop_zero] at havail
  have hmem : x.2 ∈ available id consumed rest := by
    refine List.mem_filter.mpr ⟨mem_resultsOf.mpr ⟨x.1, ?_, hres⟩, by simpa using hfresh⟩
    rw [heq]
    exact List.mem_append_right _ (List.mem_cons_of_mem a hx)
  rw [← havail] at hmem
  simpa using List.of_mem_filter hmem

theorem answers_settled (hnodup : (rest.map Prod.snd).Nodup)
    (honly : ∀ x ∈ rest, x.1.resultId = some id → x.1 = t)
    (hcount : (calls.map PersistedToolCall.id).count id ≤ 1)
    (hnext : ∃ x ∈ rest, x.1.resultId = some id ∧ x.2 ∉ consumed) :
    ∀ p ∈ (answers i rest consumed calls).1, p.1.resultId = some id → p.1 = t := by
  induction calls generalizing consumed with
  | nil => simp [answers]
  | cons call calls ih =>
    obtain ⟨x, hx, hres, hfresh⟩ := hnext
    rw [List.map_cons, List.count_cons] at hcount
    by_cases hid : call.id = id
    · -- The head takes the result, and no later call has the id.
      have hlater : ∀ (c : List ℕ), ∀ p ∈ (answers i rest c calls).1, p.1.resultId ≠ some id := by
        intro c p hp hpid
        have hmem := List.mem_map_of_mem (f := fun p : Pushed => p.1.resultId) hp
        rw [answers_ids i rest c calls] at hmem
        obtain ⟨call', hcall', heq⟩ := List.mem_map.mp hmem
        rw [hpid, Option.some.injEq] at heq
        have hpos : 0 < (calls.map PersistedToolCall.id).count id :=
          List.count_pos_iff.mpr (List.mem_map.mpr ⟨call', hcall', heq⟩)
        simp [hid] at hcount
        omega
      obtain ⟨found, hfound⟩ : ∃ found, nextResult rest consumed call = some found := by
        rw [← Option.isSome_iff_exists, nextResult, List.find?_isSome]
        exact ⟨x, hx, by simpa [hid] using ⟨hfresh, hres⟩⟩
      obtain ⟨hmem, _, hfid⟩ := nextResult_some hfound
      rw [answers_found i hfound]
      intro p hp hpid
      obtain rfl | hp := List.mem_cons.mp hp
      · exact honly found hmem hpid
      · exact absurd hpid (hlater _ p hp)
    · have hcount' : (calls.map PersistedToolCall.id).count id ≤ 1 := by omega
      cases hfound : nextResult rest consumed call with
      | none =>
        rw [answers_missing i hfound]
        intro p hp hpid
        obtain rfl | hp := List.mem_cons.mp hp
        · exact absurd (Option.some.inj hpid) hid
        · exact ih hcount' ⟨x, hx, hres, hfresh⟩ p hp hpid
      | some found =>
        obtain ⟨hmem, _, hfid⟩ := nextResult_some hfound
        have hne : x.2 ∉ found.2 :: consumed := by
          intro hin
          obtain heq | hin := List.mem_cons.mp hin
          · rw [List.inj_on_of_nodup_map hnodup hx hmem heq, hfid] at hres
            exact hid (Option.some.inj hres)
          · exact hfresh hin
        rw [answers_found i hfound]
        intro p hp hpid
        obtain rfl | hp := List.mem_cons.mp hp
        · exact absurd (Option.some.inj (hfid.symm.trans hpid)) hid
        · exact ih hcount' ⟨x, hx, hres, hne⟩ p hp hpid

theorem scan_settled (hnodup : (items.map Prod.snd).Nodup) (hspares : Spares consumed items)
    (h : Awaits id t consumed items) :
    ∀ p ∈ scan consumed items, p.1.resultId = some id → p.1 = t := by
  induction items generalizing consumed with
  | nil => simp [scan]
  | cons x rest ih =>
    obtain ⟨m, i⟩ := x
    have hrest : (rest.map Prod.snd).Nodup := (List.nodup_cons.mp hnodup).2
    have hspared : Spares consumed rest := fun x hx => hspares x (List.mem_cons_of_mem _ hx)
    rw [scan]
    by_cases hi : i ∈ consumed
    · rw [if_pos hi]
      exact ih hrest hspared h.tail
    · rw [if_neg hi]
      by_cases htool : m.isTool = true
      · rw [if_pos htool]
        exact ih hrest hspared h.tail
      · rw [if_neg htool]
        have hspares' := answers_spares (i := i) hrest hspared m.calls
        intro p hp hpid
        rw [List.cons_append] at hp
        obtain rfl | hp := List.mem_cons.mp hp
        · exact absurd (isTool_of_resultId hpid) htool
        · by_cases hissued : id ∈ m.callIds
          · obtain ⟨hcount, hnone, hnext⟩ := h.once [] (m, i) rest rfl hissued
            obtain hp | hp := List.mem_append.mp hp
            · exact answers_settled hrest h.tail.only (Nat.le_of_eq hcount) hnext p hp hpid
            · exact ih hrest hspares' (h.tail.issued hnone) p hp hpid
          · obtain hp | hp := List.mem_append.mp hp
            · have hmem := List.mem_map_of_mem (f := fun p : Pushed => p.1.resultId) hp
              rw [answers_ids, hpid] at hmem
              obtain ⟨call, hcall, heq⟩ := List.mem_map.mp hmem
              exact absurd (List.mem_map.mpr ⟨call, hcall, Option.some.inj heq⟩) hissued
            · exact ih hrest hspares' (h.tail.passed hrest hissued) p hp hpid

/-- One message issues the id, once, and one result with this content comes after it. -/
structure Settled (msgs : List Message) (id content : String) : Prop where
  only : ∀ m ∈ msgs, m.resultId = some id → m = .tool id content
  once : ∀ front a back, msgs = front ++ a :: back → id ∈ a.callIds →
    a.callIds.count id = 1 ∧ (∀ b ∈ back, id ∉ b.callIds) ∧ .tool id content ∈ back

theorem Settled.awaits {content : String} (h : Settled msgs id content) (k : ℕ) :
    Awaits id (.tool id content) [] (msgs.zipIdx k) := by
  have hmem : ∀ {l : List Message} {x : Message × ℕ}, x ∈ l.zipIdx k → x.1 ∈ l :=
    fun hx => List.fst_mem_of_mem_zipIdx hx
  refine ⟨fun x hx => h.only x.1 (hmem hx), ?_⟩
  intro front a back heq hissued
  have hmsgs : msgs = front.map Prod.fst ++ a.1 :: back.map Prod.fst := by
    rw [← List.map_cons, ← List.map_append, ← heq, List.zipIdx_map_fst]
  obtain ⟨hcount, hnone, hback⟩ := h.once _ _ _ hmsgs hissued
  refine ⟨hcount, fun b hb => hnone b.1 (List.mem_map_of_mem hb), ?_⟩
  obtain ⟨x, hx, hfst⟩ := List.mem_map.mp hback
  exact ⟨x, hx, by rw [hfst]; rfl, by simp⟩

/-- The messages with their results, as they were exchanged. -/
def exchanged (result : String → String) (turn : Message) : List Message :=
  turn :: turn.calls.map (fun call => .tool call.id (result call.id))

theorem results_eq {results : List Message} {ids : List String} {result : String → String}
    (hids : results.map Message.resultId = ids.map some)
    (hcontent : ∀ r ∈ results, ∀ id ∈ ids, r.resultId = some id → r = .tool id (result id)) :
    results = ids.map (fun id => .tool id (result id)) := by
  induction ids generalizing results with
  | nil => exact List.map_eq_nil_iff.mp hids
  | cons id ids ih =>
    obtain ⟨r, results, rfl, hr, htail⟩ := List.map_eq_cons_iff.mp hids
    have hhead := hcontent r List.mem_cons_self id List.mem_cons_self hr
    have hrest := ih htail (fun r hr id hid =>
      hcontent r (List.mem_cons_of_mem _ hr) id (List.mem_cons_of_mem _ hid))
    rw [List.map_cons, ← hhead, ← hrest]

/-- A stretch of turns whose calls are all settled comes out as it was exchanged. -/
theorem ensure_exchanged {before mine after : List Message} {result : String → String}
    (hturns : turns msgs = before ++ mine ++ after)
    (hsettled : ∀ m ∈ mine, ∀ id ∈ m.callIds, Settled msgs id (result id)) :
    mine.flatMap (exchanged result) <:+: ensureToolResultsFollowToolUse msgs := by
  obtain ⟨blocks, heq, hall, hmap⟩ := ensure_blocks msgs
  have hcontent : ∀ m ∈ mine, ∀ id ∈ m.callIds, ∀ r ∈ ensureToolResultsFollowToolUse msgs,
      r.resultId = some id → r = .tool id (result id) := by
    intro m hm id hid r hr hrid
    obtain ⟨p, hp, rfl⟩ := List.mem_map.mp hr
    exact scan_settled (zipIdx_nodup msgs) (by simp [Spares])
      ((hsettled m hm id hid).awaits 0) p hp hrid
  rw [hturns] at hmap
  obtain ⟨front, last, rfl, hfront, hlast⟩ := List.map_eq_append_iff.mp hmap
  obtain ⟨first, middle, rfl, hfirst, hmiddle⟩ := List.map_eq_append_iff.mp hfront
  have hblocks : mine.flatMap (exchanged result) = unfoldBlocks middle := by
    rw [← hmiddle, unfoldBlocks, List.flatMap_map]
    apply List.flatMap_congr
    intro b hb
    have hb' : b ∈ first ++ middle ++ last := by simp [hb]
    have hmine : b.1 ∈ mine := by
      rw [← hmiddle]
      exact List.mem_map_of_mem hb
    obtain ⟨_, hresults⟩ := hall b hb'
    rw [exchanged, List.cons.injEq]
    refine ⟨rfl, ?_⟩
    have hpair : ∀ r ∈ b.2, ∀ id ∈ b.1.callIds, r.resultId = some id →
        r = .tool id (result id) := by
      intro r hr id hid hrid
      refine hcontent b.1 hmine id hid r ?_ hrid
      rw [heq, unfoldBlocks]
      exact List.mem_flatMap.mpr ⟨b, hb', List.mem_cons_of_mem _ hr⟩
    rw [results_eq hresults hpair, Message.callIds, List.map_map]
    rfl
  rw [heq, hblocks]
  exact ⟨unfoldBlocks first, unfoldBlocks last, by simp [unfoldBlocks]⟩

end Settled

section Exchange

section Marks

/-- What an undo makes of a call and its result. -/
def ToolRun.undo (callIds : List String) (run : ToolRun) : ToolRun :=
  if run.callId ∈ callIds then
    { run with
      stored := { run.stored with undone := true }
      content := undoneContent
      status := "undone" }
  else run

def Round.undo (callIds : List String) (round : Round) : Round :=
  { round with toolRuns := round.toolRuns.map (ToolRun.undo callIds) }

def Send.undo (callIds : List String) (send : Send) : Send :=
  { send with
    rounds := send.rounds.map (Round.undo callIds)
    rounds_ne := by
      intro round hround
      obtain ⟨old, hold, rfl⟩ := List.mem_map.mp hround
      rw [Round.undo, ne_eq, List.map_eq_nil_iff]
      exact send.rounds_ne old hold }

/-- The result of an undone call, as the model sees it afterwards. -/
def undoneMessage (callIds : List String) : Message → Message
  | .tool tool_call_id content =>
    .tool tool_call_id (if tool_call_id ∈ callIds then undoneContent else content)
  | m => m

section Ids

variable (callIds : List String)

theorem ToolRun.undo_call (run : ToolRun) : (run.undo callIds).stored.call = run.stored.call := by
  rw [ToolRun.undo]
  split
  · rfl
  · rfl

theorem ToolRun.undo_rowId (run : ToolRun) : (run.undo callIds).rowId = run.rowId := by
  rw [ToolRun.undo]
  split
  · rfl
  · rfl

theorem ToolRun.undo_callId (run : ToolRun) : (run.undo callIds).callId = run.callId := by
  rw [ToolRun.callId, ToolRun.undo_call, ToolRun.callId]

theorem ToolRun.undo_content (run : ToolRun) : (run.undo callIds).content =
    if run.callId ∈ callIds then undoneContent else run.content := by
  rw [ToolRun.undo]
  split
  · rfl
  · rfl

theorem ToolRun.undo_undo (more : List String) (run : ToolRun) :
    (run.undo callIds).undo more = run.undo (callIds ++ more) := by
  have hid := run.undo_callId callIds
  by_cases h : run.callId ∈ callIds
  · have hundo : run.undo callIds = { run with
        stored := { run.stored with undone := true }
        content := undoneContent
        status := "undone" } := if_pos h
    have hboth : run.undo (callIds ++ more) = run.undo callIds := by
      rw [hundo]
      exact if_pos (List.mem_append_left more h)
    rw [hboth, hundo, ToolRun.undo]
    split
    · rfl
    · rfl
  · have hundo : run.undo callIds = run := if_neg h
    rw [hundo]
    by_cases h' : run.callId ∈ more
    · exact (if_pos h').trans (if_pos (List.mem_append_right callIds h')).symm
    · refine (if_neg h').trans (if_neg ?_).symm
      rw [List.mem_append, not_or]
      exact ⟨h, h'⟩

theorem Send.undo_undo (more : List String) (send : Send) :
    (send.undo callIds).undo more = send.undo (callIds ++ more) := by
  simp only [Send.undo, List.map_map, Send.mk.injEq, true_and, and_true]
  apply List.map_congr_left
  intro round _
  simp only [Function.comp_apply, Round.undo, List.map_map, Round.mk.injEq, true_and]
  apply List.map_congr_left
  intro run _
  exact run.undo_undo callIds more

theorem Send.undo_nil (send : Send) : send.undo [] = send := by
  have hrun : ∀ run : ToolRun, run.undo [] = run := fun run => if_neg (by simp)
  have hround : ∀ round : Round, round.undo [] = round := by
    intro round
    simp only [Round.undo, funext hrun, List.map_id']
  simp only [Send.undo, funext hround, List.map_id']

theorem Send.toolRuns_undo (send : Send) :
    (send.undo callIds).toolRuns = send.toolRuns.map (ToolRun.undo callIds) := by
  simp only [Send.toolRuns, Send.undo, List.flatMap_map, List.map_flatMap, Round.undo]

theorem Send.callIds_undo (send : Send) : (send.undo callIds).callIds = send.callIds := by
  rw [Send.callIds, Send.toolRuns_undo, List.map_map, Send.callIds]
  apply List.map_congr_left
  intro run _
  exact run.undo_callId callIds

/-- An undo of other calls leaves the send as it is. -/
theorem Send.undo_of_disjoint (send : Send) (h : ∀ id ∈ callIds, id ∉ send.callIds) :
    send.undo callIds = send := by
  have hrounds : send.rounds.map (Round.undo callIds) = send.rounds.map id := by
    apply List.map_congr_left
    intro round hround
    have hruns : round.toolRuns.map (ToolRun.undo callIds) = round.toolRuns.map id := by
      apply List.map_congr_left
      intro run hrun
      refine if_neg (fun hid => h _ hid ?_)
      exact List.mem_map.mpr ⟨run, List.mem_flatMap.mpr ⟨round, hround, hrun⟩, rfl⟩
    rw [List.map_id] at hruns
    rw [Round.undo, hruns, id_eq]
  rw [List.map_id] at hrounds
  simp only [Send.undo, hrounds]

theorem Round.messages_undo (round : Round) :
    (round.undo callIds).messages = round.messages.map (undoneMessage callIds) := by
  simp only [Round.messages, Round.undo, List.map_cons, List.map_map, undoneMessage,
    List.cons.injEq, Message.assistant.injEq, true_and]
  constructor
  · apply List.map_congr_left
    intro run _
    exact run.undo_call callIds
  · apply List.map_congr_left
    intro run _
    simp only [Function.comp_apply, undoneMessage, ToolRun.undo_callId, ToolRun.undo_content]

/-- Only results change in what was exchanged. -/
theorem Send.exchange_undo (send : Send) :
    (send.undo callIds).exchange = send.exchange.map (undoneMessage callIds) := by
  simp only [Send.exchange, Send.undo, List.map_append, List.map_cons, List.flatMap_map,
    List.map_flatMap, Round.messages_undo, List.map_map]
  rfl

end Ids

end Marks

section Exchange

variable {send : Send} {round : Round} {id : String}

def Round.turn (round : Round) : Message :=
  .assistant (prose round.content) (round.toolRuns.map (fun run => run.stored.call))

def Round.results (round : Round) : List Message :=
  round.toolRuns.map (fun run => .tool run.callId run.content)

def Send.closing (send : Send) : List Message :=
  (prose send.final).toList.map (fun content => .assistant (some content) [])

theorem exchange_eq (send : Send) : send.exchange = .user send.userText ::
    send.rounds.flatMap (fun round => round.turn :: round.results) ++ send.closing := rfl

theorem turn_callIds (round : Round) :
    round.turn.callIds = round.toolRuns.map ToolRun.callId := by
  simp only [Message.callIds, Round.turn, Message.calls, List.map_map]
  rfl

theorem results_isTool {m : Message} (h : m ∈ round.results) : m.isTool = true ∧ m.callIds = [] := by
  obtain ⟨run, -, rfl⟩ := List.mem_map.mp h
  exact ⟨rfl, rfl⟩

theorem closing_plain {m : Message} (h : m ∈ send.closing) :
    m.isTool = false ∧ m.callIds = [] ∧ m.resultId = none := by
  obtain ⟨content, -, rfl⟩ := List.mem_map.mp h
  exact ⟨rfl, rfl, rfl⟩

theorem turns_exchange (send : Send) : turns send.exchange =
    .user send.userText :: send.rounds.map Round.turn ++ send.closing := by
  have hround : ∀ round : Round, turns (round.turn :: round.results) = [round.turn] := by
    intro round
    have hnone : round.results.filter (fun m => !m.isTool) = [] := by
      rw [List.filter_eq_nil_iff]
      intro m hm
      simp [(results_isTool hm).1]
    have hturn : round.turn.isTool = false := rfl
    simp [turns, hnone, hturn]
  have hclosing : turns send.closing = send.closing := by
    rw [turns, List.filter_eq_self]
    intro m hm
    simp [(closing_plain hm).1]
  have hrounds : turns (send.rounds.flatMap (fun round => round.turn :: round.results)) =
      send.rounds.map Round.turn := by
    rw [turns, List.filter_flatMap, List.map_eq_flatMap]
    exact List.flatMap_congr (fun round _ => hround round)
  rw [exchange_eq, turns, List.filter_append, List.filter_cons_of_pos rfl]
  rw [turns] at hclosing hrounds
  rw [hclosing, hrounds]

theorem exchange_callIds (send : Send) :
    send.exchange.flatMap Message.callIds = send.callIds := by
  have hnil : ∀ {l : List Message}, (∀ m ∈ l, m.callIds = []) → l.flatMap Message.callIds = [] := by
    intro l h
    rw [List.flatMap_eq_nil_iff]
    exact h
  have hclosing := hnil (fun m (hm : m ∈ send.closing) => (closing_plain hm).2.1)
  have hrounds : (send.rounds.flatMap (fun round => round.turn :: round.results)).flatMap
      Message.callIds = send.rounds.flatMap (fun round => round.toolRuns.map ToolRun.callId) := by
    rw [List.flatMap_assoc]
    apply List.flatMap_congr
    intro round _
    rw [List.flatMap_cons, hnil (fun m (hm : m ∈ round.results) => (results_isTool hm).2),
      turn_callIds, List.append_nil]
  rw [exchange_eq, List.flatMap_append, List.flatMap_cons, hrounds, hclosing, Send.callIds,
    Send.toolRuns, List.map_flatMap]
  simp [Message.callIds, Message.calls]

/-- What was exchanged is the turns with the results of their calls. -/
theorem exchange_of_turns {result : String → String}
    (hresult : ∀ run ∈ send.toolRuns, result run.callId = run.content) :
    (turns send.exchange).flatMap (exchanged result) = send.exchange := by
  have hclosing : send.closing.flatMap (exchanged result) = send.closing := by
    cases hfinal : prose send.final with
    | none => simp [Send.closing, hfinal]
    | some final => simp [Send.closing, hfinal, exchanged, Message.calls]
  have hrounds : (send.rounds.map Round.turn).flatMap (exchanged result) =
      send.rounds.flatMap (fun round => round.turn :: round.results) := by
    rw [List.flatMap_map]
    apply List.flatMap_congr
    intro round hround
    simp only [exchanged, Round.results, Round.turn, Message.calls, List.map_map, List.cons.injEq,
      true_and]
    apply List.map_congr_left
    intro run hrun
    have hrun' := hresult run (List.mem_flatMap.mpr ⟨round, hround, hrun⟩)
    simp only [Function.comp_apply, ← hrun']
    rfl
  rw [turns_exchange, List.flatMap_append, List.flatMap_cons, hrounds, hclosing, exchange_eq]
  rfl

/-- No result stands before the call that it answers. -/
theorem exchange_forward (hnodup : send.callIds.Nodup) :
    send.exchange.Pairwise (fun m m' => ∀ id, m.resultId = some id → id ∉ m'.callIds) := by
  have hids : send.rounds.Pairwise (fun r r' =>
      ∀ id ∈ r.toolRuns.map ToolRun.callId, id ∉ r'.toolRuns.map ToolRun.callId) := by
    rw [Send.callIds, Send.toolRuns, List.map_flatMap, List.nodup_flatMap] at hnodup
    exact hnodup.2.imp (fun h id hid hid' => h hid hid')
  have hresult : ∀ {round : Round} {m : Message}, m ∈ round.turn :: round.results →
      ∀ id, m.resultId = some id → id ∈ round.toolRuns.map ToolRun.callId := by
    intro round m hm id hid
    obtain rfl | hm := List.mem_cons.mp hm
    · simp [Round.turn, Message.resultId] at hid
    · obtain ⟨run, hrun, rfl⟩ := List.mem_map.mp hm
      obtain rfl := Option.some.inj hid
      exact List.mem_map_of_mem hrun
  have hissued : ∀ {round : Round} {m : Message}, m ∈ round.turn :: round.results →
      m.callIds ⊆ round.toolRuns.map ToolRun.callId := by
    intro round m hm
    obtain rfl | hm := List.mem_cons.mp hm
    · rw [turn_callIds]
      exact List.Subset.refl _
    · rw [(results_isTool hm).2]
      exact List.nil_subset _
  have hround : ∀ round : Round, (round.turn :: round.results).Pairwise
      (fun m m' => ∀ id, m.resultId = some id → id ∉ m'.callIds) := by
    intro round
    rw [List.pairwise_cons]
    refine ⟨fun m hm id _ => by rw [(results_isTool hm).2]; exact List.not_mem_nil, ?_⟩
    rw [List.pairwise_iff_forall_sublist]
    intro a b hab id _
    rw [(results_isTool (hab.subset (by simp))).2]
    exact List.not_mem_nil
  rw [exchange_eq, List.cons_append, List.pairwise_cons, List.pairwise_append]
  refine ⟨fun m _ id hid => by simp [Message.resultId] at hid, ?_, ?_, ?_⟩
  · rw [List.pairwise_flatMap]
    refine ⟨fun round _ => hround round, hids.imp ?_⟩
    intro r r' hr m hm m' hm' id hid hmem
    exact hr id (hresult hm id hid) (hissued hm' hmem)
  · rw [List.pairwise_iff_forall_sublist]
    intro a b hab id _
    rw [(closing_plain (hab.subset (by simp))).2.1]
    exact List.not_mem_nil
  · intro m _ m' hm' id _
    rw [(closing_plain hm').2.1]
    exact List.not_mem_nil

end Exchange

end Exchange

end YapStack.Chat
