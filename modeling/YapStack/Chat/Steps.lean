import YapStack.Chat.Kept

set_option linter.unusedSectionVars false

namespace YapStack.Chat

variable {parse : String → Option Json} {stringify : Json → String} {contextKey : String}
variable {s t : State} {e : Event} {send other : Send} {row : ChatRow} {text : String}
variable {callIds : List String} {content : Option String}

/-- What an undo of the send does to one row. -/
def undoRow (parse : String → Option Json) (stringify : Json → String) (contextKey : String)
    (send : Send) (callIds : List String) (content : Option String) (row : ChatRow) : ChatRow :=
  let marked := markRow parse stringify contextKey send.sendId callIds row
  match content with
  | none => marked
  | some content =>
    if marked.id = send.assistantId then
      { marked with content := cleanToolBadges content, tool_calls := none }
    else marked

theorem undoRow_keys (row : ChatRow) :
    (undoRow parse stringify contextKey send callIds content row).context_key = row.context_key ∧
      (undoRow parse stringify contextKey send callIds content row).send_id = row.send_id := by
  obtain ⟨-, hcontext, hsend⟩ :
      (markRow parse stringify contextKey send.sendId callIds row).id = row.id ∧ _ ∧ _ :=
    markRow_keys row
  cases content with
  | none => exact ⟨hcontext, hsend⟩
  | some content =>
    simp only [undoRow]
    split
    · exact ⟨hcontext, hsend⟩
    · exact ⟨hcontext, hsend⟩

/-- The rows of other sends, and from elsewhere, stay as they are. -/
theorem undoRow_of_ne (hsend : row.send_id ≠ some send.sendId) (hid : row.id ≠ send.assistantId) :
    undoRow parse stringify contextKey send callIds content row = row := by
  have hmark : markRow parse stringify contextKey send.sendId callIds row = row :=
    markRow_of_ne (fun h => hsend h.2)
  cases content with
  | none => exact hmark
  | some content =>
    simp only [undoRow, hmark]
    exact if_neg hid

theorem undoRow_unstamped (row : ChatRow) :
    (undoRow parse stringify contextKey send callIds content row).unstamped =
      undoRow parse stringify contextKey send callIds content row.unstamped := by
  cases content with
  | none => exact (markRow_unstamped row).symm
  | some content =>
    simp only [undoRow, markRow_unstamped]
    by_cases h : (markRow parse stringify contextKey send.sendId callIds row).id =
        send.assistantId
    · have h' : (markRow parse stringify contextKey send.sendId callIds row).unstamped.id =
          send.assistantId := h
      rw [if_pos h, if_pos h']
      rfl
    · have h' : (markRow parse stringify contextKey send.sendId callIds row).unstamped.id ≠
          send.assistantId := h
      rw [if_neg h, if_neg h']

theorem filter_mine_undoRow (send' : Send) (table : List ChatRow) :
    ((table.map (undoRow parse stringify contextKey send callIds content)).filter
      (mine contextKey send')) =
    (table.filter (mine contextKey send')).map
      (undoRow parse stringify contextKey send callIds content) := by
  have hmine : mine contextKey send' ∘ undoRow parse stringify contextKey send callIds content =
      mine contextKey send' := by
    funext row
    obtain ⟨hcontext, hsend⟩ : (undoRow parse stringify contextKey send callIds content
        row).context_key = row.context_key ∧ _ := undoRow_keys row
    simp only [Function.comp_apply, mine, hcontext, hsend]
  rw [List.filter_map, hmine]

theorem assistantId_mem (send : Send) : send.assistantId ∈ send.rowIds :=
  List.mem_append_right _ List.mem_cons_self

theorem Inv.mine_of_id (hinv : Inv parse stringify contextKey s) (hsend : send ∈ s.sends)
    (hrow : row ∈ s.table) (hid : row.id ∈ send.rowIds) : mine contextKey send row = true := by
  by_cases hnone : ∀ b ∈ s.sends, mine contextKey b row = false
  · exact absurd hid (hinv.foreign row hrow hnone send hsend).1
  · push_neg at hnone
    obtain ⟨b, hb, hmine⟩ := hnone
    rw [ne_eq, Bool.not_eq_false] at hmine
    obtain ⟨text, hholds⟩ := hinv.holds b hb
    obtain rfl | hapart := hinv.distinct send hsend b hb
    · exact hmine
    · exact absurd (hholds.id_mem hrow hmine) (hapart.2.1 _ hid)

/-- Once its rows have landed, the bubble's row is in the table. -/
theorem Holds.last_mem (h : Holds stringify contextKey s send text) (hidle : s.pending send = []) :
    ∃ row ∈ s.table, mine contextKey send row = true ∧ row.id = send.assistantId := by
  rw [Holds, hidle, List.append_nil] at h
  have hmem : send.assistantId ∈
      (((send.withFinal text).undo s.undone).rows stringify contextKey).map ChatRow.id := by
    rw [rows_ids, rowIds_undo]
    exact assistantId_mem send
  obtain ⟨row, hrow, hid⟩ := List.mem_map.mp hmem
  obtain ⟨stored, hstored, rfl⟩ := List.mem_map.mp (h.mem_iff.mpr hrow)
  obtain ⟨hin, hmine⟩ := List.mem_filter.mp hstored
  exact ⟨stored, hin, hmine, hid⟩

theorem handleUndo_eq (hinv : Inv parse stringify contextKey s) (hsend : send ∈ s.sends)
    (hidle : s.pending send = []) (callIds : List String) (shown : Shown) :
    handleUndo parse stringify send callIds shown s.table =
      s.table.map (undoRow parse stringify contextKey send callIds
        (shownContent send shown s.table)) := by
  obtain ⟨text, hholds⟩ := hinv.holds send hsend
  obtain ⟨last, hlast, -, hid⟩ := hholds.last_mem hidle
  have hmark : markUndone parse stringify send callIds s.table =
      s.table.map (markRow parse stringify contextKey send.sendId callIds) := by
    cases hfind : s.table.find? (fun row => row.id = send.assistantId) with
    | none =>
      have hnone := List.find?_eq_none.mp hfind last hlast
      simp [hid] at hnone
    | some ref =>
      have href := List.find?_some hfind
      simp only [decide_eq_true_eq] at href
      have hmine := hinv.mine_of_id hsend (List.mem_of_find?_eq_some hfind)
        (href ▸ assistantId_mem send)
      obtain ⟨hcontext, hown⟩ := of_decide_eq_true hmine
      have hprose : ref.send_id.bind prose = some send.sendId := by
        rw [hown, Option.bind_some, prose, if_neg send.sendId_ne]
      simp only [markUndone, hfind, hprose, hcontext, markToolCallsAsUndone_eq]
  simp only [handleUndo, hmark]
  cases shownContent send shown s.table with
  | none => rfl
  | some content =>
    simp only [updateChatMessageContent, List.map_map]
    rfl

/-- The text of the last row after an undo. -/
def textAfter (text : String) (content : Option String) : String :=
  match content with
  | none => text
  | some content => cleanToolBadges content

theorem rows_undoRow (hkept : send.Kept parse stringify) (hnodup : send.rowIds.Nodup)
    (undone : List String) (text : String) :
    (((send.withFinal text).undo undone).rows stringify contextKey).map
        (undoRow parse stringify contextKey send callIds content) =
      ((send.withFinal (textAfter text content)).undo (undone ++ callIds)).rows stringify
        contextKey := by
  have hmarked : (((send.withFinal text).undo undone).rows stringify contextKey).map
      (markRow parse stringify contextKey send.sendId callIds) =
      ((send.withFinal text).undo (undone ++ callIds)).rows stringify contextKey := by
    have hrounds := hkept.rounds text undone
    rw [← Send.undo_undo]
    exact rows_undo hrounds
  cases content with
  | none => exact hmarked
  | some content =>
    have hids : ((send.withFinal text).undo (undone ++ callIds)).rowIds.Nodup := by
      rw [rowIds_undo]
      exact hnodup
    have hupdated : updateChatMessageContent send.assistantId (cleanToolBadges content) none
        (((send.withFinal text).undo (undone ++ callIds)).rows stringify contextKey) =
        ((send.withFinal (cleanToolBadges content)).undo (undone ++ callIds)).rows stringify
          contextKey := rows_update (cleanToolBadges content) hids
    rw [← hmarked, updateChatMessageContent, List.map_map] at hupdated
    exact hupdated

theorem Holds.undo_self (h : Holds stringify contextKey s send text)
    (hkept : send.Kept parse stringify) (hnodup : send.rowIds.Nodup)
    (hidle : s.pending send = []) :
    Holds stringify contextKey { s with
      table := s.table.map (undoRow parse stringify contextKey send callIds content)
      undone := s.undone ++ callIds } send (textAfter text content) := by
  have hidle' : State.pending { s with
      table := s.table.map (undoRow parse stringify contextKey send callIds content)
      undone := s.undone ++ callIds } send = [] := hidle
  rw [Holds, hidle, List.append_nil] at h
  rw [Holds, hidle', List.append_nil, filter_mine_undoRow, ← rows_undoRow hkept hnodup,
    List.map_map]
  have hcomm : ChatRow.unstamped ∘ undoRow parse stringify contextKey send callIds content =
      undoRow parse stringify contextKey send callIds content ∘ ChatRow.unstamped := by
    funext row
    exact undoRow_unstamped row
  rw [hcomm, ← List.map_map]
  exact h.map _

theorem Holds.undo_other (h : Holds stringify contextKey s send text) (hne : Apart other send)
    (hsub : callIds ⊆ other.callIds) :
    Holds stringify contextKey { s with
      table := s.table.map (undoRow parse stringify contextKey other callIds content)
      undone := s.undone ++ callIds } send text := by
  have hsame : (s.table.filter (mine contextKey send)).map
      (undoRow parse stringify contextKey other callIds content) =
      s.table.filter (mine contextKey send) := by
    have hid : (s.table.filter (mine contextKey send)).map
        (undoRow parse stringify contextKey other callIds content) =
        (s.table.filter (mine contextKey send)).map id := by
      apply List.map_congr_left
      intro row hrow
      obtain ⟨hin, hmine⟩ := List.mem_filter.mp hrow
      refine undoRow_of_ne ?_ ?_
      · rw [(of_decide_eq_true hmine).2, ne_eq, Option.some.injEq]
        exact hne.1.symm
      · rintro heq
        exact hne.2.1 _ (assistantId_mem other) (heq ▸ h.id_mem hin hmine)
    rw [hid, List.map_id]
  have hundone : (send.withFinal text).undo (s.undone ++ callIds) =
      (send.withFinal text).undo s.undone := by
    rw [← Send.undo_undo]
    apply Send.undo_of_disjoint
    intro id hid hmem
    rw [Send.callIds_undo] at hmem
    exact hne.2.2 id (hsub hid) hmem
  have hpending : State.pending { s with
      table := s.table.map (undoRow parse stringify contextKey other callIds content)
      undone := s.undone ++ callIds } send = s.pending send := rfl
  rw [Holds, filter_mine_undoRow, hsame, hpending, hundone]
  exact h

/-- An undo of the send shows a text that is its own last one. -/
def KeepsText (send : Send) (s : State) (e : Event) (_ : State) : Prop :=
  ∀ executed shown, e = .undo send.sendId executed shown →
    ∀ content ∈ shownContent send shown s.table, cleanToolBadges content = send.final

theorem filter_sub (executed : List String) (h : executed ⊆ send.callIds) :
    executed.filter (· ≠ "") ⊆ send.callIds :=
  fun _ hid => h (List.mem_of_mem_filter hid)

/-- Whatever happens, the rows of a send stay its rows. -/
theorem next_holds (hinv : Inv parse stringify contextKey s)
    (hnext : Next parse stringify contextKey s e t) (hsend : send ∈ s.sends)
    (h : Holds stringify contextKey s send text) :
    ∃ text', Holds stringify contextKey t send text' ∧
      (KeepsText send s e t → text = send.final → text' = send.final) := by
  cases hnext with
  | tick => exact ⟨text, h, fun _ htext => htext⟩
  | @start new hidle hfresh =>
    have hne : new.sendId ≠ send.sendId := (hfresh.2.2.1 send hsend).1.symm
    refine ⟨text, h.insert_ne ?_ rfl ?_, fun _ htext => htext⟩
    · have hfirst : new.firstRow contextKey ∈ new.rows stringify contextKey :=
        List.mem_cons_self
      exact filter_mine_insert_ne (not_mine_of_owner hne hfirst) s.now s.table
    · rw [pending_of_idle hidle]
      exact pending_of_ne rfl hne
  | @land i active rows row hsending hrow =>
    by_cases hid : active.sendId = send.sendId
    · obtain rfl : active = send := by
        obtain heq | hapart := hinv.distinct active (hinv.active _ hsending) send hsend
        · exact heq
        · exact absurd hid hapart.1
      exact ⟨text, h.land hsending hrow, fun _ htext => htext⟩
    · obtain ⟨text', hactive⟩ := hinv.holds active (hinv.active _ hsending)
      have hmem : row ∈ s.pending active := by
        rw [pending_of_active hsending]
        exact List.mem_of_getElem? hrow
      refine ⟨text, h.insert_ne ?_ rfl ?_, fun _ htext => htext⟩
      · apply filter_mine_insert_ne
        have hne : ((active.withFinal text').undo s.undone).sendId ≠ send.sendId := hid
        exact not_mine_of_owner hne (hactive.pending_mem hmem)
      · rw [pending_of_ne hsending hid]
        exact pending_of_ne rfl hid
  | @finish active hsending =>
    refine ⟨text, h.insert_ne rfl rfl ?_, fun _ htext => htext⟩
    rw [pending_of_idle rfl]
    by_cases hid : active.sendId = send.sendId
    · simp only [State.pending, hsending, if_pos hid]
    · rw [pending_of_ne hsending hid]
  | @undo undoing executed shown hundoing hdone hsub =>
    have hidle : s.pending undoing = [] := by
      cases hsending : s.sending with
      | none => exact pending_of_idle hsending undoing
      | some p => exact pending_of_ne hsending (hdone p hsending)
    rw [handleUndo_eq hinv hundoing hidle]
    obtain rfl | hapart := hinv.distinct undoing hundoing send hsend
    · refine ⟨_, h.undo_self (hinv.kept _ hsend) (hinv.nodup _ hsend).1 hidle, ?_⟩
      intro hkeeps htext
      have hcontent := hkeeps executed shown rfl
      cases hshown : shownContent undoing shown s.table with
      | none => exact htext
      | some content => exact hcontent content hshown
    · exact ⟨text, h.undo_other hapart (filter_sub executed hsub), fun _ htext => htext⟩
  | @other row hforeign =>
    refine ⟨text, h.insert_ne ?_ rfl rfl, fun _ htext => htext⟩
    have hmine : mine contextKey send row = false :=
      decide_eq_false (fun hrow => (hforeign send hsend).2.1 hrow.2)
    rw [List.filter_append, List.filter_singleton, hmine]
    simp

end YapStack.Chat
