import YapStack.Chat.Owned

set_option linter.unusedSectionVars false

namespace YapStack.Chat

variable {parse : String → Option Json} {stringify : Json → String} {contextKey : String}
variable {s t : State} {e : Event} {send new : Send} {row : ChatRow} {text : String}

def ChatRow.unstamped (row : ChatRow) : ChatRow := { row with created_at := 0 }

def mine (contextKey : String) (send : Send) (row : ChatRow) : Bool :=
  decide (row.context_key = contextKey ∧ row.send_id = some send.sendId)

/-- The inserts of the send that have not landed. -/
def State.pending (s : State) (send : Send) : List ChatRow :=
  match s.sending with
  | none => []
  | some (active, rows) => if active.sendId = send.sendId then rows else []

/-- The rows of the send are in the table or on their way, with this text in the last one. -/
def Holds (stringify : Json → String) (contextKey : String) (s : State) (send : Send)
    (text : String) : Prop :=
  ((s.table.filter (mine contextKey send)).map ChatRow.unstamped ++ s.pending send).Perm
    (((send.withFinal text).undo s.undone).rows stringify contextKey)

structure Inv (parse : String → Option Json) (stringify : Json → String) (contextKey : String)
    (s : State) : Prop where
  distinct : ∀ a ∈ s.sends, ∀ b ∈ s.sends, a = b ∨ Apart a b
  nodup : ∀ send ∈ s.sends, send.rowIds.Nodup ∧ send.callIds.Nodup
  kept : ∀ send ∈ s.sends, send.Kept parse stringify
  active : ∀ p ∈ s.sending, p.1 ∈ s.sends
  undone : ∀ id ∈ s.undone, ∃ send ∈ s.sends, id ∈ send.callIds
  holds : ∀ send ∈ s.sends, ∃ text, Holds stringify contextKey s send text
  foreign : ∀ row ∈ s.table, (∀ send ∈ s.sends, mine contextKey send row = false) →
    ∀ send ∈ s.sends, Foreign parse contextKey row send

/-- What an event does. -/
inductive Next (parse : String → Option Json) (stringify : Json → String) (contextKey : String)
    (s : State) : Event → State → Prop
  | tick : Next parse stringify contextKey s .tick { s with now := s.now + 1 }
  | start {send : Send} (hidle : s.sending = none) (hfresh : Fresh parse contextKey s send) :
    Next parse stringify contextKey s (.start send) { s with
      table := insertChatMessage (send.firstRow contextKey) s.now s.table
      sends := s.sends ++ [send]
      sending := some (send, send.writes stringify contextKey) }
  | land {i : ℕ} {active : Send} {rows : List ChatRow} {row : ChatRow}
    (hsending : s.sending = some (active, rows)) (hrow : rows[i]? = some row) :
    Next parse stringify contextKey s (.land i) { s with
      table := insertChatMessage row s.now s.table
      sending := some (active, rows.eraseIdx i) }
  | finish {active : Send} (hsending : s.sending = some (active, [])) :
    Next parse stringify contextKey s .finish { s with sending := none }
  | undo {send : Send} {executed : List String} {shown : Shown} (hsend : send ∈ s.sends)
    (hdone : ∀ active ∈ s.sending, active.1.sendId ≠ send.sendId)
    (hsub : executed ⊆ send.callIds) :
    Next parse stringify contextKey s (.undo send.sendId executed shown) { s with
      table := handleUndo parse stringify send (executed.filter (· ≠ "")) shown s.table
      undone := s.undone ++ executed.filter (· ≠ "") }
  | other {row : ChatRow} (hforeign : ∀ send ∈ s.sends, Foreign parse contextKey row send) :
    Next parse stringify contextKey s (.other row) { s with table := s.table ++ [row] }

theorem next_of_step (h : step parse stringify contextKey s e = some t) :
    Next parse stringify contextKey s e t := by
  cases e with
  | tick =>
    obtain rfl := Option.some.inj h
    exact Next.tick
  | start send =>
    simp only [step] at h
    split at h
    · next hguard =>
      obtain rfl := Option.some.inj h
      exact Next.start hguard.1 hguard.2
    · simp at h
  | land i =>
    simp only [step] at h
    split at h
    · simp at h
    · next active rows hsending =>
      split at h
      · simp at h
      · next row hrow =>
        obtain rfl := Option.some.inj h
        exact Next.land hsending hrow
  | finish =>
    simp only [step] at h
    split at h
    · next active hsending =>
      obtain rfl := Option.some.inj h
      exact Next.finish hsending
    · simp at h
  | undo sendId executed shown =>
    simp only [step] at h
    split at h
    · simp at h
    · next send hfind =>
      split at h
      · next hguard =>
        obtain rfl := Option.some.inj h
        have hid := List.find?_some hfind
        simp only [decide_eq_true_eq] at hid
        subst hid
        refine Next.undo (List.mem_of_find?_eq_some hfind) (fun active hactive => ?_) hguard.2
        have hall := hguard.1
        rw [Option.mem_def.mp hactive] at hall
        simpa using hall
      · simp at h
  | other row =>
    simp only [step] at h
    split at h
    · next hguard =>
      obtain rfl := Option.some.inj h
      exact Next.other hguard.2
    · simp at h

theorem mine_of_rows (h : row ∈ send.rows stringify contextKey) (now : ℕ) :
    mine contextKey send { row with created_at := now } = true ∧
      ({ row with created_at := now } : ChatRow).unstamped = row := by
  obtain ⟨hcontext, hsend, hstamp⟩ := rows_owner h
  refine ⟨decide_eq_true ⟨hcontext, hsend⟩, ?_⟩
  rw [ChatRow.unstamped, ← hstamp]

theorem filter_mine_insert_ne (h : mine contextKey send row = false) (now : ℕ)
    (table : List ChatRow) :
    (insertChatMessage row now table).filter (mine contextKey send) =
      table.filter (mine contextKey send) := by
  have hmine : mine contextKey send { row with created_at := now } = false := h
  rw [insertChatMessage, List.filter_append, List.filter_singleton, hmine]
  simp

theorem filter_mine_insert (h : row ∈ send.rows stringify contextKey) (now : ℕ)
    (table : List ChatRow) :
    ((insertChatMessage row now table).filter (mine contextKey send)).map ChatRow.unstamped =
      (table.filter (mine contextKey send)).map ChatRow.unstamped ++ [row] := by
  obtain ⟨hmine, hrow⟩ := mine_of_rows h now
  rw [insertChatMessage, List.filter_append, List.filter_singleton, hmine]
  simp [hrow]

theorem not_mine_of_owner {a b : Send} (hne : a.sendId ≠ b.sendId)
    (h : row ∈ a.rows stringify contextKey) : mine contextKey b row = false := by
  obtain ⟨-, hsend, -⟩ := rows_owner h
  rw [mine, hsend]
  simp [hne]

theorem pending_of_idle (h : s.sending = none) (send : Send) : s.pending send = [] := by
  simp only [State.pending, h]

theorem pending_of_active {rows : List ChatRow} (h : s.sending = some (send, rows)) :
    s.pending send = rows := by
  simp only [State.pending, h, if_true]

theorem pending_of_ne {active : Send} {rows : List ChatRow} (h : s.sending = some (active, rows))
    (hne : active.sendId ≠ send.sendId) : s.pending send = [] := by
  simp only [State.pending, h, if_neg hne]

theorem eraseIdx_perm {rows : List ChatRow} {i : ℕ} (h : rows[i]? = some row) :
    rows.Perm (row :: rows.eraseIdx i) := by
  induction rows generalizing i with
  | nil => simp at h
  | cons r rows ih =>
    cases i with
    | zero =>
      obtain rfl : r = row := by simpa using h
      exact List.Perm.refl _
    | succ i =>
      have htail := (ih (by simpa using h)).cons r
      exact htail.trans (List.Perm.swap row r _)

theorem Apart.symm {a b : Send} (h : Apart a b) : Apart b a :=
  ⟨h.1.symm, fun id hid hid' => h.2.1 id hid' hid, fun id hid hid' => h.2.2 id hid' hid⟩

theorem withFinal_rowIds (send : Send) (text : String) :
    (send.withFinal text).rowIds = send.rowIds := rfl

theorem withFinal_undo (send : Send) (text : String) (callIds : List String) :
    (send.withFinal text).undo callIds = (send.undo callIds).withFinal text := rfl

theorem Send.Kept.rounds (h : send.Kept parse stringify) (text : String) (callIds : List String) :
    ∀ round ∈ ((send.withFinal text).undo callIds).rounds,
      JsonKept parse stringify (round.toolRuns.map ToolRun.stored) := h callIds

/-- A row of the send in the table is one that it writes. -/
theorem Holds.mem (h : Holds stringify contextKey s send text) (hrow : row ∈ s.table)
    (hmine : mine contextKey send row = true) :
    row.unstamped ∈ ((send.withFinal text).undo s.undone).rows stringify contextKey := by
  apply h.mem_iff.mp
  apply List.mem_append_left
  exact List.mem_map_of_mem (List.mem_filter.mpr ⟨hrow, hmine⟩)

theorem Holds.pending_mem (h : Holds stringify contextKey s send text)
    (hrow : row ∈ s.pending send) :
    row ∈ ((send.withFinal text).undo s.undone).rows stringify contextKey :=
  h.mem_iff.mp (List.mem_append_right _ hrow)

/-- The rows of a send have ids that only the send has. -/
theorem Holds.id_mem (h : Holds stringify contextKey s send text) (hrow : row ∈ s.table)
    (hmine : mine contextKey send row = true) : row.id ∈ send.rowIds := by
  have hmem := List.mem_map_of_mem (f := ChatRow.id) (h.mem hrow hmine)
  rw [rows_ids, rowIds_undo, withFinal_rowIds] at hmem
  exact hmem

/-- The rows of one send are strange to another one. -/
theorem Holds.strange (h : Holds stringify contextKey s send text)
    (hkept : send.Kept parse stringify) (hrow : row ∈ s.table)
    (hmine : mine contextKey send row = true) {ids : List String}
    (hids : ∀ id ∈ send.callIds, id ∉ ids) : Strange parse row ids := by
  have hsame : row.unstamped.toDbChatMessage = row.toDbChatMessage := rfl
  obtain ⟨hissued, hanswered⟩ := rows_calls (h.mem hrow hmine) (hkept.rounds text s.undone)
  rw [hsame, Send.callIds_undo] at hissued hanswered
  exact ⟨fun id hid => hids id (hissued id hid), fun id hid => hids id (hanswered id hid)⟩

section Steps

/-- A row that is not of the send comes in, or nothing does. -/
theorem Holds.insert_ne (h : Holds stringify contextKey s send text)
    (htable : t.table.filter (mine contextKey send) = s.table.filter (mine contextKey send))
    (hundone : t.undone = s.undone) (hpending : t.pending send = s.pending send) :
    Holds stringify contextKey t send text := by
  rwa [Holds, htable, hundone, hpending]

theorem Holds.land {i : ℕ} {rows : List ChatRow} (h : Holds stringify contextKey s send text)
    (hsending : s.sending = some (send, rows)) (hrow : rows[i]? = some row) :
    Holds stringify contextKey { s with
      table := insertChatMessage row s.now s.table
      sending := some (send, rows.eraseIdx i) } send text := by
  have hmem : row ∈ s.pending send := by
    rw [pending_of_active hsending]
    exact List.mem_of_getElem? hrow
  have hpending : State.pending { s with
      table := insertChatMessage row s.now s.table
      sending := some (send, rows.eraseIdx i) } send = rows.eraseIdx i := pending_of_active rfl
  have hinsert : ((insertChatMessage row s.now s.table).filter (mine contextKey send)).map
      ChatRow.unstamped = (s.table.filter (mine contextKey send)).map ChatRow.unstamped ++ [row] :=
    filter_mine_insert (h.pending_mem hmem) s.now s.table
  rw [Holds, pending_of_active hsending] at h
  rw [Holds, hpending, hinsert, List.append_assoc]
  exact ((eraseIdx_perm hrow).symm.append_left _).trans h

end Steps

section Undo

variable {sendId : String} {callIds : List String}

theorem undoResult_unstamped (cid : String) (row : ChatRow) :
    undoResult contextKey sendId cid row.unstamped =
      (undoResult contextKey sendId cid row).unstamped := by
  by_cases h : row.context_key = contextKey ∧ row.send_id = some sendId ∧ row.role = .tool ∧
      row.tool_call_id = some cid
  · have h' : row.unstamped.context_key = contextKey ∧ row.unstamped.send_id = some sendId ∧
        row.unstamped.role = .tool ∧ row.unstamped.tool_call_id = some cid := h
    rw [undoResult, if_pos h', undoResult, if_pos h]
    rfl
  · have h' : ¬(row.unstamped.context_key = contextKey ∧ row.unstamped.send_id = some sendId ∧
        row.unstamped.role = .tool ∧ row.unstamped.tool_call_id = some cid) := h
    rw [undoResult, if_neg h', undoResult, if_neg h]

theorem stampCalls_unstamped (row : ChatRow) :
    stampCalls parse stringify contextKey sendId callIds row.unstamped =
      (stampCalls parse stringify contextKey sendId callIds row).unstamped := by
  by_cases h : row.context_key = contextKey ∧ row.send_id = some sendId ∧ row.role = .assistant
  · have h' : row.unstamped.context_key = contextKey ∧ row.unstamped.send_id = some sendId ∧
        row.unstamped.role = .assistant := h
    have hcalls : row.unstamped.tool_calls = row.tool_calls := rfl
    rw [stampCalls, if_pos h', stampCalls, if_pos h, hcalls]
    cases row.tool_calls.bind prose with
    | none => rfl
    | some text =>
      simp only
      cases parse text with
      | none => rfl
      | some value =>
        cases value with
        | array parsed =>
          by_cases hany : parsed.any (isUndone callIds) = true
          · simp only [if_pos hany]
            rfl
          · simp only [if_neg hany]
        | _ => rfl
  · have h' : ¬(row.unstamped.context_key = contextKey ∧ row.unstamped.send_id = some sendId ∧
        row.unstamped.role = .assistant) := h
    rw [stampCalls, if_neg h', stampCalls, if_neg h]

theorem markRow_unstamped (row : ChatRow) :
    markRow parse stringify contextKey sendId callIds row.unstamped =
      (markRow parse stringify contextKey sendId callIds row).unstamped := by
  have hfold : callIds.foldl (fun row cid => undoResult contextKey sendId cid row) row.unstamped =
      (callIds.foldl (fun row cid => undoResult contextKey sendId cid row) row).unstamped := by
    induction callIds generalizing row with
    | nil => rfl
    | cons cid callIds ih => rw [List.foldl_cons, List.foldl_cons, undoResult_unstamped, ih]
  rw [markRow, hfold, stampCalls_unstamped, markRow]

/-- Marks leave the keys of a row alone. -/
theorem markRow_keys (row : ChatRow) :
    (markRow parse stringify contextKey sendId callIds row).id = row.id ∧
      (markRow parse stringify contextKey sendId callIds row).context_key = row.context_key ∧
      (markRow parse stringify contextKey sendId callIds row).send_id = row.send_id := by
  have hresult : ∀ (cid : String) (row : ChatRow),
      (undoResult contextKey sendId cid row).id = row.id ∧
      (undoResult contextKey sendId cid row).context_key = row.context_key ∧
      (undoResult contextKey sendId cid row).send_id = row.send_id := by
    intro cid row
    rw [undoResult]
    split
    · exact ⟨rfl, rfl, rfl⟩
    · exact ⟨rfl, rfl, rfl⟩
  have hstamp : ∀ row : ChatRow,
      (stampCalls parse stringify contextKey sendId callIds row).id = row.id ∧
      (stampCalls parse stringify contextKey sendId callIds row).context_key = row.context_key ∧
      (stampCalls parse stringify contextKey sendId callIds row).send_id = row.send_id := by
    intro row
    rw [stampCalls]
    split
    · split
      · exact ⟨rfl, rfl, rfl⟩
      · split
        · split
          · exact ⟨rfl, rfl, rfl⟩
          · exact ⟨rfl, rfl, rfl⟩
        · exact ⟨rfl, rfl, rfl⟩
    · exact ⟨rfl, rfl, rfl⟩
  have hfold : ∀ (ids : List String) (row : ChatRow),
      (ids.foldl (fun row cid => undoResult contextKey sendId cid row) row).id = row.id ∧
      (ids.foldl (fun row cid => undoResult contextKey sendId cid row) row).context_key =
        row.context_key ∧
      (ids.foldl (fun row cid => undoResult contextKey sendId cid row) row).send_id =
        row.send_id := by
    intro ids
    induction ids with
    | nil => exact fun row => ⟨rfl, rfl, rfl⟩
    | cons cid ids ih =>
      intro row
      obtain ⟨hid, hcontext, hsend⟩ := ih (undoResult contextKey sendId cid row)
      obtain ⟨hid', hcontext', hsend'⟩ := hresult cid row
      exact ⟨hid.trans hid', hcontext.trans hcontext', hsend.trans hsend'⟩
  obtain ⟨hid, hcontext, hsend⟩ :=
    hstamp (callIds.foldl (fun row cid => undoResult contextKey sendId cid row) row)
  obtain ⟨hid', hcontext', hsend'⟩ := hfold callIds row
  exact ⟨hid.trans hid', hcontext.trans hcontext', hsend.trans hsend'⟩

end Undo

end YapStack.Chat
