import Mathlib.Data.List.Pairwise
import YapStack.Chat.Exchange
import YapStack.Chat.Steps

set_option linter.unusedSectionVars false

namespace YapStack.Chat

section Reached

open Runs

variable {parse : String → Option Json} {stringify : Json → String} {contextKey : String}
variable {s t : State} {e : Event} {send : Send} {row : ChatRow}

/-- The JSON texts of a send that begins can be read back. -/
def StartsKept (parse : String → Option Json) (stringify : Json → String) (e : Event) : Prop :=
  ∀ send, e = .start send → send.Kept parse stringify

theorem inv_start (now : ℕ) : Inv parse stringify contextKey (State.start now) := by
  constructor <;> simp [State.start]

/-- A send that begins has its first row in the table and the others on their way. -/
theorem holds_start (hinv : Inv parse stringify contextKey s) (hfresh : Fresh parse contextKey s send) :
    Holds stringify contextKey { s with
      table := insertChatMessage (send.firstRow contextKey) s.now s.table
      sends := s.sends ++ [send]
      sending := some (send, send.writes stringify contextKey) } send send.final := by
  have hnone : s.table.filter (mine contextKey send) = [] := by
    rw [List.filter_eq_nil_iff]
    intro row hrow hmine
    exact (hfresh.2.2.2 row hrow).2.1 (of_decide_eq_true hmine).2
  have hundo : (send.withFinal send.final).undo s.undone = send := by
    apply Send.undo_of_disjoint
    intro id hid hmem
    obtain ⟨old, hold, hold'⟩ := hinv.undone id hid
    exact (hfresh.2.2.1 old hold).2.2 id hold' hmem
  have hfirst : send.firstRow contextKey ∈ send.rows stringify contextKey := List.mem_cons_self
  have hpending : State.pending { s with
      table := insertChatMessage (send.firstRow contextKey) s.now s.table
      sends := s.sends ++ [send]
      sending := some (send, send.writes stringify contextKey) } send =
      send.writes stringify contextKey := pending_of_active rfl
  rw [Holds, hpending, hundo, filter_mine_insert hfirst, hnone]
  exact List.Perm.refl _

theorem next_inv (hinv : Inv parse stringify contextKey s)
    (hnext : Next parse stringify contextKey s e t) (hstart : StartsKept parse stringify e) :
    Inv parse stringify contextKey t := by
  have hholds : ∀ send ∈ s.sends, ∃ text, Holds stringify contextKey t send text := by
    intro send hsend
    obtain ⟨text, h⟩ := hinv.holds send hsend
    obtain ⟨text', h', -⟩ := next_holds hinv hnext hsend h
    exact ⟨text', h'⟩
  cases hnext with
  | tick => exact ⟨hinv.distinct, hinv.nodup, hinv.kept, hinv.active, hinv.undone, hholds, hinv.foreign⟩
  | @start new hidle hfresh =>
    refine ⟨?_, ?_, ?_, ?_, ?_, ?_, ?_⟩
    · intro a ha b hb
      obtain ha | ha := List.mem_append.mp ha
      · obtain hb | hb := List.mem_append.mp hb
        · exact hinv.distinct a ha b hb
        · rw [List.mem_singleton.mp hb]
          exact Or.inr (hfresh.2.2.1 a ha)
      · rw [List.mem_singleton.mp ha]
        obtain hb | hb := List.mem_append.mp hb
        · exact Or.inr (hfresh.2.2.1 b hb).symm
        · rw [List.mem_singleton.mp hb]
          exact Or.inl rfl
    · intro a ha
      obtain ha | ha := List.mem_append.mp ha
      · exact hinv.nodup a ha
      · rw [List.mem_singleton.mp ha]
        exact ⟨hfresh.1, hfresh.2.1⟩
    · intro a ha
      obtain ha | ha := List.mem_append.mp ha
      · exact hinv.kept a ha
      · rw [List.mem_singleton.mp ha]
        exact hstart new rfl
    · intro p hp
      obtain rfl := Option.some.inj hp
      exact List.mem_append_right _ List.mem_cons_self
    · intro id hid
      obtain ⟨old, hold, hmem⟩ := hinv.undone id hid
      exact ⟨old, List.mem_append_left _ hold, hmem⟩
    · intro a ha
      obtain ha | ha := List.mem_append.mp ha
      · exact hholds a ha
      · rw [List.mem_singleton.mp ha]
        exact ⟨new.final, holds_start hinv hfresh⟩
    · intro row hrow hnone a ha
      obtain hrow | hrow := List.mem_append.mp hrow
      · obtain ha | ha := List.mem_append.mp ha
        · exact hinv.foreign row hrow (fun b hb => hnone b (List.mem_append_left _ hb)) a ha
        · rw [List.mem_singleton.mp ha]
          exact hfresh.2.2.2 row hrow
      · have hfirst : new.firstRow contextKey ∈ new.rows stringify contextKey :=
          List.mem_cons_self
        have hmine := (mine_of_rows hfirst s.now).1
        rw [← List.mem_singleton.mp hrow, hnone new (by simp)] at hmine
        simp at hmine
  | @land i active rows row hsending hrow =>
    refine ⟨hinv.distinct, hinv.nodup, hinv.kept, ?_, hinv.undone, hholds, ?_⟩
    · intro p hp
      obtain rfl := Option.some.inj hp
      exact hinv.active (active, rows) hsending
    · intro landed hlanded hnone a ha
      obtain hlanded | hlanded := List.mem_append.mp hlanded
      · exact hinv.foreign landed hlanded hnone a ha
      · have hactive := hinv.active _ hsending
        obtain ⟨text, h⟩ := hinv.holds active hactive
        have hmem : row ∈ s.pending active := by
          rw [pending_of_active hsending]
          exact List.mem_of_getElem? hrow
        have hmine : mine contextKey active { row with created_at := s.now } = true :=
          (mine_of_rows (h.pending_mem hmem) s.now).1
        rw [← List.mem_singleton.mp hlanded, hnone active hactive] at hmine
        simp at hmine
  | @finish active hsending =>
    exact ⟨hinv.distinct, hinv.nodup, hinv.kept, by simp, hinv.undone, hholds, hinv.foreign⟩
  | @undo undoing executed shown hundoing hdone hsub =>
    have hidle : s.pending undoing = [] := by
      cases hsending : s.sending with
      | none => exact pending_of_idle hsending undoing
      | some p => exact pending_of_ne hsending (hdone p hsending)
    refine ⟨hinv.distinct, hinv.nodup, hinv.kept, hinv.active, ?_, hholds, ?_⟩
    · intro id hid
      obtain hid | hid := List.mem_append.mp hid
      · exact hinv.undone id hid
      · exact ⟨undoing, hundoing, filter_sub executed hsub hid⟩
    · intro row hrow hnone a ha
      rw [handleUndo_eq hinv hundoing hidle] at hrow
      obtain ⟨old, hold, rfl⟩ := List.mem_map.mp hrow
      obtain ⟨hcontext, hsend⟩ : (undoRow parse stringify contextKey undoing
          (executed.filter (· ≠ "")) (shownContent undoing shown s.table) old).context_key =
          old.context_key ∧ _ := undoRow_keys old
      have hforeign := hinv.foreign old hold (fun b hb => by
        have hb' := hnone b hb
        rwa [mine, hcontext, hsend] at hb')
      have hid : old.id ≠ undoing.assistantId := fun heq =>
        (hforeign undoing hundoing).1 (heq ▸ assistantId_mem undoing)
      rw [undoRow_of_ne (hforeign undoing hundoing).2.1 hid]
      exact hforeign a ha
  | @other row hforeign =>
    refine ⟨hinv.distinct, hinv.nodup, hinv.kept, hinv.active, hinv.undone, hholds, ?_⟩
    intro r hr hnone a ha
    obtain hr | hr := List.mem_append.mp hr
    · exact hinv.foreign r hr hnone a ha
    · rw [List.mem_singleton.mp hr]
      exact hforeign a ha

/-- What holds in every state of a run, with an eye on one send. -/
structure Reached (parse : String → Option Json) (stringify : Json → String) (contextKey : String)
    (send : Send) (s : State) : Prop where
  inv : Inv parse stringify contextKey s
  holds : send ∈ s.sends → Holds stringify contextKey s send send.final

theorem next_reached (h : Reached parse stringify contextKey send s)
    (hnext : Next parse stringify contextKey s e t) (hstart : StartsKept parse stringify e)
    (hkeeps : KeepsText send s e t) : Reached parse stringify contextKey send t := by
  refine ⟨next_inv h.inv hnext hstart, fun hsend => ?_⟩
  have hold : send ∈ s.sends → Holds stringify contextKey t send send.final := by
    intro hmem
    obtain ⟨text, hholds, htext⟩ := next_holds h.inv hnext hmem (h.holds hmem)
    rwa [htext hkeeps rfl] at hholds
  cases hnext with
  | @start new hidle hfresh =>
    obtain hmem | hmem := List.mem_append.mp hsend
    · exact hold hmem
    · rw [List.mem_singleton.mp hmem]
      exact holds_start h.inv hfresh
  | tick => exact hold hsend
  | land hsending hrow => exact hold hsend
  | finish hsending => exact hold hsend
  | undo hundoing hdone hsub => exact hold hsend
  | other hforeign => exact hold hsend

theorem exec_reached {events : List Event} {now : ℕ}
    (hexec : exec (step parse stringify contextKey) (State.start now) events = some s)
    (hstart : ∀ e ∈ events, StartsKept parse stringify e)
    (hkeeps : Along (step parse stringify contextKey) (KeepsText send) (State.start now) events) :
    Reached parse stringify contextKey send s := by
  have hbegin : Reached parse stringify contextKey send (State.start now) :=
    ⟨inv_start now, by simp [State.start]⟩
  have hstep : ∀ s e t, Reached parse stringify contextKey send s →
      KeepsText send s e t ∧ StartsKept parse stringify e →
      step parse stringify contextKey s e = some t → Reached parse stringify contextKey send t :=
    fun s e t h hg hst => next_reached h (next_of_step hst) hg.2 hg.1
  exact exec_invariant_along hstep hbegin (hkeeps.and_events hstart) hexec

end Reached

section Verbatim

open Runs

variable {parse : String → Option Json} {stringify : Json → String} {contextKey : String}
variable {s : State} {send : Send} {row : ChatRow} {rows : List ChatRow} {id : String}

/-- A row that stands for a message of the user or the model. -/
def isTurn (parse : String → Option Json) (row : ChatRow) : Bool :=
  (row.message parse).any (fun m => !m.isTool)

/-- The stamps keep the rows of the send in their order, and the turns of others out of it. -/
structure Timed (parse : String → Option Json) (contextKey : String) (table : List ChatRow)
    (send : Send) : Prop where
  inner : ∀ a ∈ table, ∀ b ∈ table, mine contextKey send a = true → mine contextKey send b = true →
    isTurn parse a = true → isTurn parse b = true →
    a.sequence.getD 0 < b.sequence.getD 0 → a.created_at ≤ b.created_at
  results : ∀ a ∈ table, ∀ b ∈ table, mine contextKey send a = true →
    mine contextKey send b = true → ∀ id ∈ answeredBy b.toDbChatMessage,
    id ∈ issuedBy parse a.toDbChatMessage → a.created_at ≤ b.created_at
  outer : ∀ row ∈ table, row.context_key = contextKey → mine contextKey send row = false →
    isTurn parse row = true →
    (∀ a ∈ table, mine contextKey send a = true → isTurn parse a = true →
      row.created_at < a.created_at) ∨
    ∀ a ∈ table, mine contextKey send a = true → isTurn parse a = true →
      a.created_at < row.created_at

/-- A list in the order of three classes falls into them. -/
theorem eq_of_classes {α : Type*} {c : α → ℕ} {l : List α}
    (h : l.Pairwise (fun a b => c a ≤ c b)) :
    l = l.filter (fun a => c a < 1) ++ l.filter (fun a => c a = 1) ++
      l.filter (fun a => 1 < c a) := by
  induction l with
  | nil => rfl
  | cons a l ih =>
    obtain ⟨hhead, htail⟩ := List.pairwise_cons.mp h
    have hl := ih htail
    obtain hlt | heq | hgt := Nat.lt_trichotomy (c a) 1
    · have hne : c a ≠ 1 := Nat.ne_of_lt hlt
      have hnot : ¬1 < c a := Nat.lt_asymm hlt
      simp only [List.filter_cons, hlt, hne, hnot, decide_true, decide_false, if_true,
        Bool.false_eq_true, if_false, List.cons_append, List.cons.injEq, true_and]
      exact hl
    · have hnone : l.filter (fun b => c b < 1) = [] := by
        rw [List.filter_eq_nil_iff]
        intro b hb
        have := hhead b hb
        simp
        omega
      rw [hnone, List.nil_append] at hl
      simp only [List.filter_cons, heq, Nat.lt_irrefl, decide_true, decide_false, if_true,
        Bool.false_eq_true, if_false, hnone, List.nil_append, List.cons_append, List.cons.injEq,
        true_and]
      exact hl
    · have hnone : l.filter (fun b => c b < 1) = [] := by
        rw [List.filter_eq_nil_iff]
        intro b hb
        have := hhead b hb
        simp
        omega
      have hnone' : l.filter (fun b => c b = 1) = [] := by
        rw [List.filter_eq_nil_iff]
        intro b hb
        have := hhead b hb
        simp
        omega
      have hne : c a ≠ 1 := (Nat.ne_of_lt hgt).symm
      have hnot : ¬c a < 1 := Nat.lt_asymm hgt
      rw [hnone, hnone', List.nil_append, List.nil_append] at hl
      simp only [List.filter_cons, hgt, hne, hnot, decide_true, decide_false, if_true,
        Bool.false_eq_true, if_false, hnone, hnone', List.nil_append, List.cons.injEq, true_and]
      exact hl

/-- The rows that a completed send has in the table, as they were written or undone. -/
theorem Reached.rows_perm (h : Reached parse stringify contextKey send s) (hdone : Completed s send) :
    ((s.table.filter (mine contextKey send)).map ChatRow.unstamped).Perm
      ((send.undo s.undone).rows stringify contextKey) := by
  have hidle : s.pending send = [] := by
    cases hsending : s.sending with
    | none => exact pending_of_idle hsending send
    | some p => exact pending_of_ne hsending (hdone.2 p hsending)
  have hholds := h.holds hdone.1
  rw [Holds, hidle, List.append_nil] at hholds
  exact hholds

theorem message_unstamped (row : ChatRow) : row.unstamped.message parse = row.message parse := rfl

theorem isTurn_unstamped (row : ChatRow) : isTurn parse row.unstamped = isTurn parse row := rfl

theorem turns_messages (rows : List ChatRow) : turns (rows.filterMap (ChatRow.message parse)) =
    (rows.filter (isTurn parse)).filterMap (ChatRow.message parse) := by
  rw [turns, List.filter_filterMap, List.filterMap_filter]
  apply List.filterMap_congr
  intro row _
  cases hm : row.message parse with
  | none => simp [isTurn, hm]
  | some m => cases htool : m.isTool <;> simp [isTurn, hm, htool]

/-- Before the turns of the send, one of them, or after them. -/
def side (parse : String → Option Json) (contextKey : String) (table : List ChatRow) (send : Send)
    (row : ChatRow) : ℕ :=
  if mine contextKey send row then 1
  else if ∀ a ∈ table, mine contextKey send a = true → isTurn parse a = true →
      row.created_at < a.created_at then 0
  else 2

theorem side_eq_one (table : List ChatRow) (row : ChatRow) :
    side parse contextKey table send row = 1 ↔ mine contextKey send row = true := by
  rw [side]
  split
  · next h => simp [h]
  · next h =>
    refine iff_of_false ?_ h
    split <;> simp

theorem created_le {a b : ChatRow} (h : a.le b) : a.created_at ≤ b.created_at := by
  obtain h | h := h
  · exact Nat.le_of_lt h
  · exact Nat.le_of_eq h.1

theorem turns_by_side {table turnRows : List ChatRow} (htimed : Timed parse contextKey table send)
    (hsub : ∀ row ∈ turnRows, row ∈ table ∧ row.context_key = contextKey ∧
      isTurn parse row = true)
    (hsorted : turnRows.Pairwise ChatRow.le)
    (hsome : ∃ a ∈ table, mine contextKey send a = true ∧ isTurn parse a = true) :
    turnRows.Pairwise (fun a b =>
      side parse contextKey table send a ≤ side parse contextKey table send b) := by
  refine hsorted.imp_of_mem ?_
  intro a b ha hb hle
  obtain ⟨hatable, hacontext, haturn⟩ := hsub a ha
  obtain ⟨hbtable, hbcontext, hbturn⟩ := hsub b hb
  have hcreated := created_le hle
  have hafter : ∀ row ∈ turnRows, side parse contextKey table send row = 2 →
      ∀ c ∈ table, mine contextKey send c = true → isTurn parse c = true →
        c.created_at < row.created_at := by
    intro row hrow hside
    obtain ⟨htable, hcontext, hturn⟩ := hsub row hrow
    have hmine : mine contextKey send row = false := by
      rw [← Bool.not_eq_true, ← side_eq_one table, hside]
      simp
    rw [side, if_neg (by simp [hmine])] at hside
    refine (htimed.outer row htable hcontext hmine hturn).resolve_left (fun hbefore => ?_)
    rw [if_pos hbefore] at hside
    simp at hside
  have hbefore : ∀ row, side parse contextKey table send row = 0 →
      ∀ c ∈ table, mine contextKey send c = true → isTurn parse c = true →
        row.created_at < c.created_at := by
    intro row hside
    rw [side] at hside
    split at hside
    · simp at hside
    · split at hside
      · next h => exact h
      · simp at hside
  have hrange : ∀ row, side parse contextKey table send row = 0 ∨
      side parse contextKey table send row = 1 ∨ side parse contextKey table send row = 2 := by
    intro row
    rw [side]
    split
    · exact Or.inr (Or.inl rfl)
    · split
      · exact Or.inl rfl
      · exact Or.inr (Or.inr rfl)
  obtain hsa | hsa | hsa := hrange a
  · omega
  · obtain hsb | hsb | hsb := hrange b
    · have hlt := hbefore b hsb a hatable ((side_eq_one table a).mp hsa) haturn
      omega
    · omega
    · omega
  · obtain hsb | hsb | hsb := hrange b
    · obtain ⟨c, hc, hmine, hturn⟩ := hsome
      have h1 := hafter a ha hsa c hc hmine hturn
      have h2 := hbefore b hsb c hc hmine hturn
      omega
    · have hlt := hafter a ha hsa b hbtable ((side_eq_one table b).mp hsb) hbturn
      omega
    · omega

theorem seq_antisymm {l : List ChatRow}
    (h : l.Pairwise (fun a b => a.sequence.getD 0 < b.sequence.getD 0)) {a b : ChatRow}
    (ha : a ∈ l) (hb : b ∈ l) (heq : a.sequence.getD 0 = b.sequence.getD 0) : a = b := by
  have hnodup : (l.map (fun row : ChatRow => row.sequence.getD 0)).Nodup := by
    rw [List.Nodup, List.pairwise_map]
    exact h.imp (fun hlt => Nat.ne_of_lt hlt)
  exact List.inj_on_of_nodup_map hnodup ha hb heq

theorem Selected.mine_perm {table : List ChatRow} (h : Selected contextKey table rows)
    (send : Send) : (rows.filter (mine contextKey send)).Perm
      (table.filter (mine contextKey send)) := by
  refine (h.perm.filter _).trans ?_
  rw [List.filter_filter]
  have hctx : table.filter (fun row => mine contextKey send row &&
      decide (row.context_key = contextKey)) = table.filter (mine contextKey send) := by
    apply List.filter_congr
    intro row _
    by_cases hrow : row.context_key = contextKey
    · simp [hrow]
    · simp [mine, hrow]
  rw [hctx]

/-- The turns of the send come back in the order in which they were written. -/
theorem mine_in_order (htimed : Timed parse contextKey s.table send)
    (hperm : ((s.table.filter (mine contextKey send)).map ChatRow.unstamped).Perm
      ((send.undo s.undone).rows stringify contextKey))
    (hrows : Selected contextKey s.table rows) :
    ((rows.filter (isTurn parse)).filter (mine contextKey send)).map ChatRow.unstamped =
      ((send.undo s.undone).rows stringify contextKey).filter (isTurn parse) := by
  have hincreasing := (rows_increasing stringify contextKey (send.undo s.undone)).filter
    (isTurn parse)
  have hpick : (rows.filter (isTurn parse)).filter (mine contextKey send) =
      (rows.filter (mine contextKey send)).filter (isTurn parse) := by
    rw [List.filter_filter, List.filter_filter]
    exact List.filter_congr (fun row _ => Bool.and_comm _ _)
  have hall : (((rows.filter (isTurn parse)).filter (mine contextKey send)).map
      ChatRow.unstamped).Perm
      (((send.undo s.undone).rows stringify contextKey).filter (isTurn parse)) := by
    have hfilter : ((rows.filter (mine contextKey send)).filter (isTurn parse)).map
        ChatRow.unstamped =
        ((rows.filter (mine contextKey send)).map ChatRow.unstamped).filter (isTurn parse) := by
      rw [List.filter_map]
      rfl
    rw [hpick, hfilter]
    exact (((hrows.mine_perm send).map _).trans hperm).filter _
  have hsub : ∀ row ∈ (rows.filter (isTurn parse)).filter (mine contextKey send),
      row ∈ s.table ∧ mine contextKey send row = true ∧ isTurn parse row = true := by
    intro row hrow
    obtain ⟨hin, hmine⟩ := List.mem_filter.mp hrow
    obtain ⟨hin, hturn⟩ := List.mem_filter.mp hin
    exact ⟨(List.mem_filter.mp (hrows.perm.mem_iff.mp hin)).1, hmine, hturn⟩
  have hle : (((rows.filter (isTurn parse)).filter (mine contextKey send)).map
      ChatRow.unstamped).Pairwise (fun a b => a.sequence.getD 0 ≤ b.sequence.getD 0) := by
    rw [List.pairwise_map]
    refine ((hrows.sorted.filter _).filter _).imp_of_mem ?_
    intro a b ha hb hab
    obtain ⟨hatable, hamine, haturn⟩ := hsub a ha
    obtain ⟨hbtable, hbmine, hbturn⟩ := hsub b hb
    show a.sequence.getD 0 ≤ b.sequence.getD 0
    by_contra hlt
    have hcreated := htimed.inner b hbtable a hatable hbmine hamine hbturn haturn (by omega)
    obtain hab | hab := hab
    · omega
    · omega
  refine List.Perm.eq_of_pairwise ?_ hle (hincreasing.imp (fun h => Nat.le_of_lt h)) hall
  intro a b ha hb hab hba
  exact seq_antisymm hincreasing (hall.mem_iff.mp ha) hb (Nat.le_antisymm hab hba)

end Verbatim

end YapStack.Chat
