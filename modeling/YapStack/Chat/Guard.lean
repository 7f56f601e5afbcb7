import YapStack.Chat.History
import Mathlib.Data.List.Nodup

set_option linter.unusedSectionVars false

namespace YapStack.Chat

variable {m : Message} {i j k : ℕ} {calls : List PersistedToolCall} {msgs : List Message}
variable {items rest : List (Message × ℕ)} {consumed : List ℕ}

/-- A message of the request and the tool messages that stand directly after it. -/
abbrev Block := Message × List Message

/-- The message is no tool message, and its calls have one result each, in their order. -/
structure Answered (block : Block) : Prop where
  kept : block.1.isTool = false
  results : block.2.map Message.resultId = block.1.callIds.map some

def unfoldBlocks (blocks : List Block) : List Message := blocks.flatMap (fun b => b.1 :: b.2)

/-- The request falls into messages that are each followed by exactly their results. -/
def WellFormed (request : List Message) : Prop :=
  ∃ blocks : List Block, request = unfoldBlocks blocks ∧ ∀ b ∈ blocks, Answered b

/-- The messages that are not tool messages. -/
def turns (msgs : List Message) : List Message := msgs.filter (fun m => !m.isTool)

theorem isTool_iff (m : Message) : m.isTool = true ↔ m.resultId.isSome = true := by
  cases m <;> simp [Message.isTool, Message.resultId]

theorem isTool_of_resultId {id : String} (h : m.resultId = some id) : m.isTool = true := by
  rw [isTool_iff, h]
  rfl

/-- The next tool message that answers the call. -/
def nextResult (rest : List (Message × ℕ)) (consumed : List ℕ) (call : PersistedToolCall) :
    Option (Message × ℕ) :=
  rest.find? (fun cand => cand.2 ∉ consumed ∧ cand.1.resultId = some call.id)

theorem answers_found {call : PersistedToolCall} {t : Message} (i : ℕ)
    (h : nextResult rest consumed call = some (t, j)) (calls : List PersistedToolCall) :
    answers i rest consumed (call :: calls) =
      ((t, .result i j) :: (answers i rest (j :: consumed) calls).1,
        (answers i rest (j :: consumed) calls).2) := by
  simp only [nextResult] at h
  simp only [answers, h]

theorem answers_missing {call : PersistedToolCall} (i : ℕ)
    (h : nextResult rest consumed call = none) (calls : List PersistedToolCall) :
    answers i rest consumed (call :: calls) =
      ((placeholder call, .missing i) :: (answers i rest consumed calls).1,
        (answers i rest consumed calls).2) := by
  simp only [nextResult] at h
  simp only [answers, h]

theorem nextResult_some {call : PersistedToolCall} {t : Message}
    (h : nextResult rest consumed call = some (t, j)) :
    (t, j) ∈ rest ∧ j ∉ consumed ∧ t.resultId = some call.id := by
  have hp := List.find?_some h
  simp only [decide_eq_true_eq] at hp
  exact ⟨List.mem_of_find?_eq_some h, hp⟩

theorem answers_ids (i : ℕ) (rest : List (Message × ℕ)) (consumed : List ℕ)
    (calls : List PersistedToolCall) :
    (answers i rest consumed calls).1.map (fun p => p.1.resultId) =
      calls.map (fun call => some call.id) := by
  induction calls generalizing consumed with
  | nil => rfl
  | cons call calls ih =>
    cases hnext : nextResult rest consumed call with
    | none =>
      rw [answers_missing i hnext, List.map_cons, List.map_cons, ih]
      rfl
    | some found =>
      rw [answers_found i hnext, List.map_cons, List.map_cons, ih,
        (nextResult_some hnext).2.2]

theorem answers_consumed (i : ℕ) (rest : List (Message × ℕ)) (calls : List PersistedToolCall) :
    consumed ⊆ (answers i rest consumed calls).2 := by
  induction calls generalizing consumed with
  | nil => exact List.Subset.refl _
  | cons call calls ih =>
    cases hnext : nextResult rest consumed call with
    | none =>
      rw [answers_missing i hnext]
      exact ih
    | some found =>
      rw [answers_found i hnext]
      exact fun c hc => ih (List.mem_cons_of_mem _ hc)

/-- Only tool messages are consumed. -/
def Spares (consumed : List ℕ) (items : List (Message × ℕ)) : Prop :=
  ∀ x ∈ items, x.2 ∈ consumed → x.1.isTool = true

theorem answers_spares (hnodup : (rest.map Prod.snd).Nodup) (h : Spares consumed rest)
    (calls : List PersistedToolCall) : Spares (answers i rest consumed calls).2 rest := by
  induction calls generalizing consumed with
  | nil => exact h
  | cons call calls ih =>
    cases hnext : nextResult rest consumed call with
    | none =>
      rw [answers_missing i hnext]
      exact ih h
    | some found =>
      obtain ⟨hfound, _, hid⟩ := nextResult_some hnext
      rw [answers_found i hnext]
      refine ih (fun x hx hmem => ?_)
      obtain heq | hmem := List.mem_cons.mp hmem
      · obtain rfl := List.inj_on_of_nodup_map hnodup hx hfound heq
        exact isTool_of_resultId hid
      · exact h x hx hmem

theorem scan_blocks (hnodup : (items.map Prod.snd).Nodup) (h : Spares consumed items) :
    ∃ blocks : List Block, (scan consumed items).map Prod.fst = unfoldBlocks blocks ∧
      (∀ b ∈ blocks, Answered b) ∧ blocks.map Prod.fst = turns (items.map Prod.fst) := by
  induction items generalizing consumed with
  | nil => exact ⟨[], rfl, by simp, rfl⟩
  | cons x rest ih =>
    obtain ⟨m, i⟩ := x
    rw [List.map_cons, List.nodup_cons] at hnodup
    have hrest : Spares consumed rest := fun x hx => h x (List.mem_cons_of_mem _ hx)
    rw [scan]
    by_cases hi : i ∈ consumed
    · have htool : m.isTool = true := h (m, i) List.mem_cons_self hi
      rw [if_pos hi]
      simpa [turns, htool] using ih hnodup.2 hrest
    · rw [if_neg hi]
      cases htool : m.isTool with
      | true => simpa [turns, htool] using ih hnodup.2 hrest
      | false =>
        obtain ⟨blocks, hmap, hall, hturns⟩ :=
          ih hnodup.2 (answers_spares (i := i) hnodup.2 hrest m.calls)
        refine ⟨(m, (answers i rest consumed m.calls).1.map Prod.fst) :: blocks, ?_, ?_, ?_⟩
        · simp [hmap, unfoldBlocks]
        · intro b hb
          obtain rfl | hb := List.mem_cons.mp hb
          · refine ⟨htool, ?_⟩
            have hids := answers_ids i rest consumed m.calls
            simpa [Message.callIds, Function.comp_def] using hids
          · exact hall b hb
        · simpa [turns, htool] using hturns

theorem zipIdx_nodup (msgs : List Message) : (msgs.zipIdx.map Prod.snd).Nodup := by
  simp [List.nodup_range']

theorem ensure_blocks (msgs : List Message) : ∃ blocks : List Block,
    ensureToolResultsFollowToolUse msgs = unfoldBlocks blocks ∧ (∀ b ∈ blocks, Answered b) ∧
      blocks.map Prod.fst = turns msgs := by
  have hspares : Spares [] msgs.zipIdx := by simp [Spares]
  obtain ⟨blocks, hmap, hall, hturns⟩ := scan_blocks (zipIdx_nodup msgs) hspares
  refine ⟨blocks, hmap, hall, ?_⟩
  rw [hturns, List.zipIdx_map_fst]

theorem turns_unfoldBlocks {blocks : List Block} (h : ∀ b ∈ blocks, Answered b) :
    turns (unfoldBlocks blocks) = blocks.map Prod.fst := by
  induction blocks with
  | nil => rfl
  | cons b blocks ih =>
    obtain ⟨hkept, hresults⟩ := h b List.mem_cons_self
    have hnone : b.2.filter (fun m => !m.isTool) = [] := by
      rw [List.filter_eq_nil_iff]
      intro t ht
      have hmem := List.mem_map_of_mem (f := Message.resultId) ht
      rw [hresults] at hmem
      obtain ⟨id, _, hid⟩ := List.mem_map.mp hmem
      simp [isTool_of_resultId hid.symm]
    have htail := ih (fun b hb => h b (List.mem_cons_of_mem _ hb))
    simp only [turns, unfoldBlocks] at htail ⊢
    simp [hkept, hnone, htail]

/-- A message finds its results where they stand directly after it. -/
theorem answers_own (i k : ℕ) (taken more : List (Message × ℕ)) (results : List Message)
    (hcalls : results.map Message.resultId = calls.map (fun call => some call.id))
    (htaken : ∀ x ∈ taken, x.2 ∈ consumed) (hbelow : ∀ c ∈ consumed, c < k) :
    (answers i (taken ++ (results.zipIdx k ++ more)) consumed calls).1.map Prod.fst = results ∧
      (∀ x ∈ results.zipIdx k,
        x.2 ∈ (answers i (taken ++ (results.zipIdx k ++ more)) consumed calls).2) ∧
      ∀ c ∈ (answers i (taken ++ (results.zipIdx k ++ more)) consumed calls).2,
        c < k + results.length := by
  induction calls generalizing results taken consumed k with
  | nil =>
    obtain rfl : results = [] := List.map_eq_nil_iff.mp hcalls
    simpa [answers] using hbelow
  | cons call calls ih =>
    cases results with
    | nil => simp at hcalls
    | cons t results =>
      simp only [List.map_cons, List.cons.injEq] at hcalls
      have hnext : nextResult (taken ++ ((t :: results).zipIdx k ++ more)) consumed call =
          some (t, k) := by
        have hnone : taken.find? (fun cand =>
            cand.2 ∉ consumed ∧ cand.1.resultId = some call.id) = none := by
          rw [List.find?_eq_none]
          intro x hx
          simp [htaken x hx]
        have hk : k ∉ consumed := fun hmem => Nat.lt_irrefl k (hbelow k hmem)
        rw [nextResult, List.find?_append, hnone, Option.none_or, List.zipIdx_cons,
          List.cons_append, List.find?_cons_of_pos]
        simp [hk, hcalls.1]
      have hitems : taken ++ ((t :: results).zipIdx k ++ more) =
          (taken ++ [(t, k)]) ++ (results.zipIdx (k + 1) ++ more) := by
        simp [List.zipIdx_cons]
      have htaken' : ∀ x ∈ taken ++ [(t, k)], x.2 ∈ k :: consumed := by
        intro x hx
        obtain hx | hx := List.mem_append.mp hx
        · exact List.mem_cons_of_mem k (htaken x hx)
        · rw [List.mem_singleton.mp hx]
          exact List.mem_cons_self
      have hbelow' : ∀ c ∈ k :: consumed, c < k + 1 := by
        intro c hc
        obtain rfl | hc := List.mem_cons.mp hc
        · exact Nat.lt_succ_self c
        · exact Nat.lt_succ_of_lt (hbelow c hc)
      have hih := ih (k + 1) (taken ++ [(t, k)]) results hcalls.2 htaken' hbelow'
      rw [← hitems] at hih
      obtain ⟨hmap, hall, hlt⟩ := hih
      rw [answers_found i hnext]
      refine ⟨by rw [List.map_cons, hmap], ?_, ?_⟩
      · intro x hx
        rw [List.zipIdx_cons] at hx
        obtain rfl | hx := List.mem_cons.mp hx
        · exact answers_consumed i _ calls List.mem_cons_self
        · exact hall x hx
      · intro c hc
        have h := hlt c hc
        rw [List.length_cons]
        omega

theorem scan_skip {taken : List (Message × ℕ)} (h : ∀ x ∈ taken, x.2 ∈ consumed) :
    scan consumed (taken ++ rest) = scan consumed rest := by
  induction taken with
  | nil => rfl
  | cons x taken ih =>
    rw [List.cons_append, scan, if_pos (h x List.mem_cons_self)]
    exact ih (fun y hy => h y (List.mem_cons_of_mem _ hy))

theorem scan_unfoldBlocks {blocks : List Block} (hall : ∀ b ∈ blocks, Answered b) (k : ℕ)
    (hbelow : ∀ c ∈ consumed, c < k) :
    (scan consumed ((unfoldBlocks blocks).zipIdx k)).map Prod.fst = unfoldBlocks blocks := by
  induction blocks generalizing consumed k with
  | nil => rfl
  | cons b blocks ih =>
    obtain ⟨m, results⟩ := b
    obtain ⟨hkept, hresults⟩ := hall _ List.mem_cons_self
    have hk : k ∉ consumed := fun hmem => Nat.lt_irrefl k (hbelow k hmem)
    have hitems : (unfoldBlocks ((m, results) :: blocks)).zipIdx k = (m, k) ::
        (results.zipIdx (k + 1) ++ (unfoldBlocks blocks).zipIdx (k + 1 + results.length)) := by
      simp [unfoldBlocks, List.zipIdx_cons, List.zipIdx_append]
    have hcalls : results.map Message.resultId = m.calls.map (fun call => some call.id) := by
      simpa [Message.callIds, Function.comp_def] using hresults
    obtain ⟨hmap, hall', hlt⟩ := answers_own k (k + 1) []
      ((unfoldBlocks blocks).zipIdx (k + 1 + results.length)) results hcalls
      (by simp) (fun c hc => Nat.lt_succ_of_lt (hbelow c hc))
    rw [List.nil_append] at hmap hall' hlt
    rw [hitems, scan, if_neg hk, if_neg (by simp [hkept])]
    simp only [List.map_append, List.map_cons, hmap]
    rw [scan_skip hall', ih (fun b hb => hall b (List.mem_cons_of_mem _ hb)) _ hlt]
    rfl

theorem ensure_of_wellFormed {request : List Message} (h : WellFormed request) :
    ensureToolResultsFollowToolUse request = request := by
  obtain ⟨blocks, rfl, hall⟩ := h
  exact scan_unfoldBlocks hall 0 (by simp)

theorem ensure_wellFormed (msgs : List Message) :
    WellFormed (ensureToolResultsFollowToolUse msgs) := by
  obtain ⟨blocks, heq, hall, _⟩ := ensure_blocks msgs
  exact ⟨blocks, heq, hall⟩

theorem ensure_idempotent (msgs : List Message) :
    ensureToolResultsFollowToolUse (ensureToolResultsFollowToolUse msgs) =
      ensureToolResultsFollowToolUse msgs :=
  ensure_of_wellFormed (ensure_wellFormed msgs)

theorem turns_ensure (msgs : List Message) :
    turns (ensureToolResultsFollowToolUse msgs) = turns msgs := by
  obtain ⟨blocks, heq, hall, hturns⟩ := ensure_blocks msgs
  rw [heq, turns_unfoldBlocks hall, hturns]

end YapStack.Chat
