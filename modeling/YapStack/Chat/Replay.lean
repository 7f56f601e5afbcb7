import YapStack.Chat.Attribution

set_option linter.unusedSectionVars false

namespace YapStack.Chat

variable {items rest : List (Message × ℕ)} {consumed : List ℕ} {msgs : List Message}

/-- The message at `i` is the nearest before the tool message at `j` that issued its id. -/
def Nearest (msgs : List Message) (i j : ℕ) : Prop :=
  ∃ a id content, msgs[i]? = some a ∧ id ∈ a.callIds ∧ msgs[j]? = some (.tool id content) ∧
    i < j ∧ ∀ k b, i < k → k < j → msgs[k]? = some b → id ∉ b.callIds

/-- Each message is followed by its results, and each result is the placeholder or the content of
a tool message to which that message is the nearest issuer. -/
def Attributed (msgs : List Message) : Prop :=
  ∃ blocks : List (Pushed × List Pushed), pushed msgs = blocks.flatMap (fun b => b.1 :: b.2) ∧
    ∀ b ∈ blocks, ∃ i, b.1.2 = .kept i ∧ msgs[i]? = some b.1.1 ∧ ∀ r ∈ b.2,
      (r.2 = .missing i ∧ ∃ call ∈ b.1.1.calls, r.1 = placeholder call) ∨
        ∃ j, r.2 = .result i j ∧ msgs[j]? = some r.1 ∧ Nearest msgs i j

theorem resultId_eq_some {m : Message} {id : String} (h : m.resultId = some id) :
    ∃ content, m = .tool id content := by
  cases m with
  | tool tool_call_id content => exact ⟨content, by rw [Option.some.inj h]⟩
  | _ => simp [Message.resultId] at h

theorem scan_origins (hsorted : Sorted items) (consumed : List ℕ) :
    ∃ blocks : List (Pushed × List Pushed),
      scan consumed items = blocks.flatMap (fun b => b.1 :: b.2) ∧
      ∀ b ∈ blocks, ∃ i, b.1.2 = .kept i ∧ (b.1.1, i) ∈ items ∧ ∀ r ∈ b.2,
        (r.2 = .missing i ∧ ∃ call ∈ b.1.1.calls, r.1 = placeholder call) ∨
          ∃ j, r.2 = .result i j ∧ (r.1, j) ∈ items ∧ i < j ∧
            ∃ call ∈ b.1.1.calls, r.1.resultId = some call.id := by
  induction items generalizing consumed with
  | nil => exact ⟨[], rfl, by simp⟩
  | cons x rest ih =>
    obtain ⟨m, i⟩ := x
    obtain ⟨hfirst, htail⟩ := List.pairwise_cons.mp hsorted
    have hlater : ∀ c : List ℕ, ∃ blocks : List (Pushed × List Pushed),
        scan c rest = blocks.flatMap (fun b => b.1 :: b.2) ∧
        ∀ b ∈ blocks, ∃ k, b.1.2 = .kept k ∧ (b.1.1, k) ∈ (m, i) :: rest ∧ ∀ r ∈ b.2,
          (r.2 = .missing k ∧ ∃ call ∈ b.1.1.calls, r.1 = placeholder call) ∨
            ∃ j, r.2 = .result k j ∧ (r.1, j) ∈ (m, i) :: rest ∧ k < j ∧
              ∃ call ∈ b.1.1.calls, r.1.resultId = some call.id := by
      intro c
      obtain ⟨blocks, heq, hall⟩ := ih htail c
      refine ⟨blocks, heq, fun b hb => ?_⟩
      obtain ⟨k, hk, hmem, hres⟩ := hall b hb
      refine ⟨k, hk, List.mem_cons_of_mem _ hmem, fun r hr => (hres r hr).imp_right ?_⟩
      rintro ⟨j, hj, hjmem, hjrest⟩
      exact ⟨j, hj, List.mem_cons_of_mem _ hjmem, hjrest⟩
    rw [scan]
    by_cases hi : i ∈ consumed
    · rw [if_pos hi]
      exact hlater consumed
    · rw [if_neg hi]
      by_cases htool : m.isTool = true
      · rw [if_pos htool]
        exact hlater consumed
      · rw [if_neg htool]
        obtain ⟨blocks, heq, hall⟩ := hlater (answers i rest consumed m.calls).2
        refine ⟨((m, .kept i), (answers i rest consumed m.calls).1) :: blocks, ?_, ?_⟩
        · rw [List.flatMap_cons, ← heq]
        · intro b hb
          obtain rfl | hb := List.mem_cons.mp hb
          · refine ⟨i, rfl, List.mem_cons_self, fun r hr => ?_⟩
            refine (answers_origin i rest m.calls r hr).imp_right ?_
            rintro ⟨j, hj, hmem, hcall⟩
            exact ⟨j, hj, List.mem_cons_of_mem _ hmem, hfirst _ hmem, hcall⟩
          · exact hall b hb

theorem zipIdx_sorted (msgs : List Message) : Sorted msgs.zipIdx := by
  have h := List.pairwise_lt_range' (s := 0) (n := msgs.length)
  rw [← List.zipIdx_map_snd, List.pairwise_map] at h
  exact h

theorem crossed_zipIdx {i j : ℕ} {id : String} : Crossed msgs.zipIdx i j id ↔
    ∃ k b, i < k ∧ k < j ∧ msgs[k]? = some b ∧ id ∈ b.callIds := by
  constructor
  · rintro ⟨⟨b, k⟩, hmem, hik, hkj, hid⟩
    exact ⟨k, b, hik, hkj, List.mem_zipIdx_iff_getElem?.mp hmem, hid⟩
  · rintro ⟨k, b, hik, hkj, hget, hid⟩
    exact ⟨(b, k), List.mem_zipIdx_iff_getElem?.mpr hget, hik, hkj, hid⟩

theorem attributed_iff_fair (msgs : List Message) :
    Attributed msgs ↔ Fair msgs.zipIdx (pushed msgs) := by
  constructor
  · rintro ⟨blocks, heq, hall⟩ p hp i j id hj hid hcrossed
    rw [heq] at hp
    obtain ⟨b, hb, hmem⟩ := List.mem_flatMap.mp hp
    obtain ⟨i', hkept, _, hres⟩ := hall b hb
    obtain rfl | hmem := List.mem_cons.mp hmem
    · simp [hkept] at hj
    · obtain ⟨hmissing, _⟩ | ⟨j', hresult, hget, a, id', content, _, _, htool, _, hnone⟩ :=
        hres p hmem
      · simp [hmissing] at hj
      · rw [hresult, Origin.result.injEq] at hj
        obtain ⟨rfl, rfl⟩ := hj
        have hp' : p.1 = .tool id' content := Option.some.inj (hget.symm.trans htool)
        rw [hp'] at hid
        obtain rfl : id' = id := Option.some.inj hid
        obtain ⟨k, b, hik, hkj, hk, hissued⟩ := crossed_zipIdx.mp hcrossed
        exact hnone k b hik hkj hk hissued
  · intro hfair
    obtain ⟨blocks, heq, hall⟩ := scan_origins (zipIdx_sorted msgs) []
    refine ⟨blocks, heq, fun b hb => ?_⟩
    obtain ⟨i, hkept, hmem, hres⟩ := hall b hb
    have hi := List.mem_zipIdx_iff_getElem?.mp hmem
    refine ⟨i, hkept, hi, fun r hr => (hres r hr).imp_right ?_⟩
    rintro ⟨j, hj, hjmem, hij, call, hcall, hid⟩
    have hget := List.mem_zipIdx_iff_getElem?.mp hjmem
    obtain ⟨content, htool⟩ := resultId_eq_some hid
    refine ⟨j, hj, hget, b.1.1, call.id, content, hi, List.mem_map_of_mem hcall, ?_, hij, ?_⟩
    · rw [hget, htool]
    · intro k c hik hkj hk hissued
      have hr' : r ∈ pushed msgs := by
        rw [pushed, heq]
        exact List.mem_flatMap.mpr ⟨b, hb, List.mem_cons_of_mem _ hr⟩
      exact hfair r hr' i j call.id hj hid (crossed_zipIdx.mpr ⟨k, c, hik, hkj, hk, hissued⟩)

section FilterMap

variable {α β : Type*} (f : α → Option β) {issuedA : α → List String} {issuedB : β → List String}
variable {resultA : α → Option String} {resultB : β → Option String}

theorem headOvertaken_filterMap (hissued : ∀ x, issuedA x = ((f x).map issuedB).getD [])
    (hresult : ∀ x, resultA x = (f x).bind resultB) {x : α} {y : β} (hxy : f x = some y)
    (xs : List α) : HeadOvertaken issuedA resultA x xs ↔
      HeadOvertaken issuedB resultB y (xs.filterMap f) := by
  have hcount : ∀ (id : String) (mid : List α),
      (mid.filterMap f).countP (fun y => resultB y = some id) =
        mid.countP (fun x => resultA x = some id) := by
    intro id mid
    rw [List.countP_filterMap]
    refine List.countP_congr (fun x _ => ?_)
    rw [hresult]
    cases f x <;> simp
  have hhead : issuedA x = issuedB y := by rw [hissued, hxy, Option.map_some, Option.getD_some]
  constructor
  · rintro ⟨id, mid, b, back, rfl, hmid, hb, ⟨r, hr, hres⟩, hlt⟩
    obtain ⟨b', hb'⟩ : ∃ b', f b = some b' := by
      cases h : f b with
      | none => simp [hissued, h] at hb
      | some b' => exact ⟨b', rfl⟩
    obtain ⟨r', hr', hres'⟩ := Option.bind_eq_some_iff.mp ((hresult r).symm.trans hres)
    refine ⟨id, mid.filterMap f, b', back.filterMap f, ?_, ?_, ?_, ?_, ?_⟩
    · rw [List.filterMap_append, List.filterMap_cons_some hb']
    · intro z hz
      obtain ⟨w, hw, hwz⟩ := List.mem_filterMap.mp hz
      simpa [hissued, hwz] using hmid w hw
    · simpa [hissued, hb'] using hb
    · exact ⟨r', List.mem_filterMap.mpr ⟨r, hr, hr'⟩, hres'⟩
    · rwa [hcount, ← hhead]
  · rintro ⟨id, mid, b, back, heq, hmid, hb, ⟨r, hr, hres⟩, hlt⟩
    obtain ⟨front, tail, rfl, rfl, htail⟩ := List.filterMap_eq_append_iff.mp heq
    obtain ⟨gap, b', back', rfl, hgap, hb', rfl⟩ := List.filterMap_eq_cons_iff.mp htail
    have hnogap : gap.filterMap f = [] := by
      rw [List.filterMap_eq_nil_iff]
      exact hgap
    obtain ⟨r', hr', hfr⟩ := List.mem_filterMap.mp hr
    refine ⟨id, front ++ gap, b', back', by simp, ?_, ?_, ⟨r', hr', ?_⟩, ?_⟩
    · intro z hz
      rw [hissued]
      cases hfz : f z with
      | none => simp
      | some w =>
        obtain hz | hz := List.mem_append.mp hz
        · exact hmid w (List.mem_filterMap.mpr ⟨z, hz, hfz⟩)
        · rw [hgap z hz] at hfz
          simp at hfz
    · simpa [hissued, hb'] using hb
    · rw [hresult, hfr]
      exact hres
    · rw [← hcount, List.filterMap_append, hnogap, List.append_nil, hhead]
      exact hlt

theorem overtaken_filterMap (hissued : ∀ x, issuedA x = ((f x).map issuedB).getD [])
    (hresult : ∀ x, resultA x = (f x).bind resultB) (xs : List α) :
    Overtaken issuedA resultA xs ↔ Overtaken issuedB resultB (xs.filterMap f) := by
  induction xs with
  | nil => simp [not_overtaken_nil]
  | cons x xs ih =>
    rw [overtaken_cons, ih]
    cases hfx : f x with
    | none =>
      rw [List.filterMap_cons_none hfx]
      refine or_iff_right ?_
      rintro ⟨id, mid, b, back, _, _, _, _, hlt⟩
      simp [hissued, hfx] at hlt
    | some y =>
      rw [List.filterMap_cons_some hfx, overtaken_cons,
        headOvertaken_filterMap f hissued hresult hfx]

end FilterMap

theorem attributed_iff (msgs : List Message) :
    Attributed msgs ↔ ¬Overtaken Message.callIds Message.resultId msgs := by
  have hmsgs : msgs.zipIdx.filterMap (fun x => some x.1) = msgs := by
    rw [List.filterMap_eq_map', List.zipIdx_map_fst]
  have hitems : ItemsOvertaken msgs.zipIdx ↔
      Overtaken Message.callIds Message.resultId msgs := by
    have hissued : ∀ x : Message × ℕ,
        x.1.callIds = ((some x.1).map Message.callIds).getD [] := fun _ => rfl
    have hresult : ∀ x : Message × ℕ,
        x.1.resultId = (some x.1).bind Message.resultId := fun _ => rfl
    have h := overtaken_filterMap (fun x : Message × ℕ => some x.1) hissued hresult msgs.zipIdx
    rwa [hmsgs] at h
  rw [attributed_iff_fair, ← hitems]
  exact scan_fair (zipIdx_sorted msgs) (by simp [Spares]) (by simp [Untouched])

variable (parse : String → Option Json)

/-- The ids of the calls that a row carries. -/
def issuedBy (row : DbChatMessage) : List String :=
  if row.role = .assistant then
    ((parsePersistedToolCalls parse row.tool_calls).getD []).map PersistedToolCall.id
  else []

/-- The id of the call that a row answers. -/
def answeredBy (row : DbChatMessage) : Option String :=
  if row.role = .tool then row.tool_call_id.bind prose else none

theorem issuedBy_eq (row : DbChatMessage) :
    issuedBy parse row = ((messageOf parse row).map Message.callIds).getD [] := by
  obtain ⟨role, content, tool_calls, tool_call_id⟩ := row
  cases role with
  | user =>
    cases h : prose content <;> simp [issuedBy, messageOf, Message.callIds, Message.calls, h]
  | tool =>
    cases h : tool_call_id.bind prose <;>
      simp [issuedBy, messageOf, Message.callIds, Message.calls, h]
  | assistant =>
    simp only [issuedBy, messageOf, if_true]
    cases parsePersistedToolCalls parse tool_calls with
    | none => cases prose content <;> simp [Message.callIds, Message.calls]
    | some calls =>
      cases calls with
      | nil => cases prose content <;> simp [Message.callIds, Message.calls]
      | cons call calls => simp [Message.callIds, Message.calls]

theorem answeredBy_eq (row : DbChatMessage) :
    answeredBy row = (messageOf parse row).bind Message.resultId := by
  obtain ⟨role, content, tool_calls, tool_call_id⟩ := row
  cases role with
  | user => cases h : prose content <;> simp [answeredBy, messageOf, Message.resultId, h]
  | tool =>
    cases h : tool_call_id.bind prose <;> simp [answeredBy, messageOf, Message.resultId, h]
  | assistant =>
    simp only [answeredBy, messageOf, reduceCtorEq, if_false]
    cases parsePersistedToolCalls parse tool_calls with
    | none => cases prose content <;> simp [Message.resultId]
    | some calls =>
      cases calls with
      | nil => cases prose content <;> simp [Message.resultId]
      | cons call calls => simp [Message.resultId]

/-- What holds of the request that is built from a list of rows. -/
structure Replays (rows : List DbChatMessage) : Prop where
  wellFormed : WellFormed (assembleHistoryForRequest parse rows)
  ordered : turns (assembleHistoryForRequest parse rows) =
    turns (rows.filterMap (messageOf parse))
  stable : ensureToolResultsFollowToolUse (assembleHistoryForRequest parse rows) =
    assembleHistoryForRequest parse rows
  attributed : Attributed (rows.filterMap (messageOf parse))

/-- The request is always valid; its results are the right ones exactly when no row with calls is
overtaken. -/
theorem replays_iff_not_overtaken (rows : List DbChatMessage) :
    Replays parse rows ↔ ¬Overtaken (issuedBy parse) answeredBy rows := by
  rw [overtaken_filterMap (messageOf parse) (issuedBy_eq parse) (answeredBy_eq parse),
    ← attributed_iff]
  constructor
  · exact Replays.attributed
  · intro h
    exact ⟨ensure_wellFormed _, turns_ensure _, ensure_idempotent _, h⟩

/-- The `tool_calls` column of an assistant row with one call. -/
def pinText : String := "[\x7b\"id\":\"call_0\",\"name\":\"pin\",\"arguments\":\"\x7b\x7d\"\x7d]"

def pinEntry : Json :=
  .object [("id", .string "call_0"), ("name", .string "pin"), ("arguments", .string "\x7b\x7d")]

def parsePin (text : String) : Option Json :=
  if text = pinText then some (.array [pinEntry]) else none

def pinRow : DbChatMessage := ⟨.assistant, "", some pinText, none⟩

/-- The result of the first call is missing, and the provider reuses the id in the next turn. -/
def reusedIdRows : List DbChatMessage := [pinRow, pinRow, ⟨.tool, "pinned", none, some "call_0"⟩]

/-- The result of the second call is given to the first one. -/
theorem reusedId_not_replays : ¬Replays parsePin reusedIdRows ∧
    assembleHistoryForRequest parsePin reusedIdRows =
      [.assistant none [⟨"call_0", "pin", "\x7b\x7d"⟩], .tool "call_0" "pinned",
        .assistant none [⟨"call_0", "pin", "\x7b\x7d"⟩], .tool "call_0" "(result missing)"] := by
  have hmsgs : reusedIdRows.filterMap (messageOf parsePin) =
      [.assistant none [⟨"call_0", "pin", "\x7b\x7d"⟩],
        .assistant none [⟨"call_0", "pin", "\x7b\x7d"⟩], .tool "call_0" "pinned"] := by
    decide +kernel
  refine ⟨fun h => ?_, ?_⟩
  · have hattr := h.attributed
    rw [hmsgs, attributed_iff] at hattr
    exact hattr ⟨"call_0", [], _, [], _, _, rfl, by simp, by decide, ⟨_, List.mem_cons_self, rfl⟩,
      by decide⟩
  · rw [assembleHistoryForRequest, hmsgs]
    decide +kernel

end YapStack.Chat
