import YapStack.Chat.Guard

set_option linter.unusedSectionVars false

namespace YapStack.Chat

variable {m : Message} {i j k n : ℕ} {id : String} {calls : List PersistedToolCall}
variable {items rest : List (Message × ℕ)} {consumed : List ℕ} {msgs : List Message}

/-- An element issues `id` more often than there are results of `id` before the next element that
issues it, and a result of `id` comes after that one. -/
def Overtaken {α : Type*} (issued : α → List String) (result : α → Option String)
    (xs : List α) : Prop :=
  ∃ id front a mid b back, xs = front ++ a :: (mid ++ b :: back) ∧
    (∀ x ∈ mid, id ∉ issued x) ∧ id ∈ issued b ∧ (∃ r ∈ back, result r = some id) ∧
    mid.countP (fun x => result x = some id) < (issued a).count id

/-- The element at the head is the one overtaken. -/
def HeadOvertaken {α : Type*} (issued : α → List String) (result : α → Option String)
    (a : α) (xs : List α) : Prop :=
  ∃ id mid b back, xs = mid ++ b :: back ∧ (∀ x ∈ mid, id ∉ issued x) ∧ id ∈ issued b ∧
    (∃ r ∈ back, result r = some id) ∧
    mid.countP (fun x => result x = some id) < (issued a).count id

theorem not_overtaken_nil {α : Type*} (issued : α → List String) (result : α → Option String) :
    ¬Overtaken issued result [] := by
  rintro ⟨id, front, a, mid, b, back, heq, _⟩
  simp at heq

theorem overtaken_cons {α : Type*} {issued : α → List String} {result : α → Option String}
    {a : α} {xs : List α} : Overtaken issued result (a :: xs) ↔
      HeadOvertaken issued result a xs ∨ Overtaken issued result xs := by
  constructor
  · rintro ⟨id, front, a', mid, b, back, heq, hrest⟩
    cases front with
    | nil =>
      obtain ⟨rfl, rfl⟩ := List.cons.inj heq
      exact Or.inl ⟨id, mid, b, back, rfl, hrest⟩
    | cons x front =>
      obtain ⟨rfl, rfl⟩ := List.cons.inj heq
      exact Or.inr ⟨id, front, a', mid, b, back, rfl, hrest⟩
  · rintro (⟨id, mid, b, back, rfl, hrest⟩ | ⟨id, front, a', mid, b, back, rfl, hrest⟩)
    · exact ⟨id, [], a, mid, b, back, rfl, hrest⟩
    · exact ⟨id, a :: front, a', mid, b, back, rfl, hrest⟩

abbrev ItemsOvertaken (items : List (Message × ℕ)) : Prop :=
  Overtaken (fun x : Message × ℕ => x.1.callIds) (fun x => x.1.resultId) items

/-- The indices of the tool messages with an id. -/
def resultsOf (id : String) (items : List (Message × ℕ)) : List ℕ :=
  (items.filter (fun x => x.1.resultId = some id)).map Prod.snd

def available (id : String) (consumed : List ℕ) (rest : List (Message × ℕ)) : List ℕ :=
  (resultsOf id rest).filter (· ∉ consumed)

/-- The indices of the tool messages with an id that were given away. -/
def given (id : String) (out : List Pushed) : List ℕ :=
  out.filterMap (fun p => match p.2 with
    | .result _ j => if p.1.resultId = some id then some j else none
    | _ => none)

theorem mem_resultsOf : j ∈ resultsOf id items ↔ ∃ m, (m, j) ∈ items ∧ m.resultId = some id := by
  simp [resultsOf]

theorem resultsOf_nodup (h : (items.map Prod.snd).Nodup) : (resultsOf id items).Nodup :=
  List.Nodup.sublist (List.filter_sublist.map _) h

theorem nextResult_index (rest : List (Message × ℕ)) (consumed : List ℕ)
    (call : PersistedToolCall) :
    (nextResult rest consumed call).map Prod.snd = (available call.id consumed rest).head? := by
  rw [nextResult, available, resultsOf, List.filter_map, List.filter_filter, List.head?_map,
    List.head?_filter]
  refine congrArg (Option.map Prod.snd) (congrArg (fun p => List.find? p rest) ?_)
  funext x
  simp

theorem available_of_next {call : PersistedToolCall}
    (h : nextResult rest consumed call = some (m, j)) :
    ∃ tail, available call.id consumed rest = j :: tail := by
  have hhead := nextResult_index rest consumed call
  rw [h] at hhead
  cases hav : available call.id consumed rest with
  | nil => simp [hav] at hhead
  | cons x tail =>
    simp only [hav, Option.map_some, List.head?_cons, Option.some.injEq] at hhead
    exact ⟨tail, by rw [hhead]⟩

theorem available_cons (hnodup : (rest.map Prod.snd).Nodup) {call : PersistedToolCall}
    (h : nextResult rest consumed call = some (m, j)) (id : String) :
    available id (j :: consumed) rest =
      if id = call.id then (available id consumed rest).tail else available id consumed rest := by
  have hsplit : available id (j :: consumed) rest =
      (available id consumed rest).filter (· ≠ j) := by
    rw [available, available, List.filter_filter]
    refine congrArg (fun p => List.filter p _) ?_
    funext x
    simp
  obtain ⟨hmem, hfresh, hid⟩ := nextResult_some h
  rw [hsplit]
  by_cases heq : id = call.id
  · subst heq
    obtain ⟨tail, htail⟩ := available_of_next h
    have hnd : (available call.id consumed rest).Nodup :=
      (resultsOf_nodup hnodup).filter _
    rw [htail, List.nodup_cons] at hnd
    rw [if_pos rfl, htail, List.tail_cons, List.filter_cons_of_neg (by simp)]
    rw [List.filter_eq_self]
    intro x hx
    simp only [ne_eq, decide_not, Bool.not_eq_eq_eq_not, Bool.not_true, decide_eq_false_iff_not]
    rintro rfl
    exact hnd.1 hx
  · rw [if_neg heq, List.filter_eq_self]
    intro x hx
    simp only [ne_eq, decide_not, Bool.not_eq_eq_eq_not, Bool.not_true, decide_eq_false_iff_not]
    rintro rfl
    obtain ⟨m', hm', hid'⟩ := mem_resultsOf.mp (List.mem_of_mem_filter hx)
    have hsame := List.inj_on_of_nodup_map hnodup hm' hmem rfl
    obtain ⟨rfl, _⟩ := Prod.mk.inj hsame
    rw [hid] at hid'
    exact heq (Option.some.inj hid').symm

/-- The calls take the first available results with their id, in their order. -/
theorem answers_given (hnodup : (rest.map Prod.snd).Nodup) (consumed : List ℕ) (i : ℕ)
    (id : String) (calls : List PersistedToolCall) :
    given id (answers i rest consumed calls).1 =
        (available id consumed rest).take ((calls.map PersistedToolCall.id).count id) ∧
      available id (answers i rest consumed calls).2 rest =
        (available id consumed rest).drop ((calls.map PersistedToolCall.id).count id) := by
  induction calls generalizing consumed with
  | nil => simp [answers, given]
  | cons call calls ih =>
    cases hnext : nextResult rest consumed call with
    | none =>
      have hempty : available call.id consumed rest = [] := by
        rw [← List.head?_eq_none_iff, ← nextResult_index, hnext, Option.map_none]
      rw [answers_missing i hnext, List.map_cons, List.count_cons]
      obtain ⟨hgiven, havail⟩ := ih consumed
      by_cases heq : call.id = id
      · subst heq
        simp [given, hempty] at hgiven havail ⊢
        exact ⟨hgiven, havail⟩
      · simp only [beq_iff_eq, heq, if_false, Nat.add_zero]
        exact ⟨by simpa [given] using hgiven, havail⟩
    | some found =>
      obtain ⟨t, j⟩ := found
      rw [answers_found i hnext, List.map_cons, List.count_cons]
      obtain ⟨hgiven, havail⟩ := ih (j :: consumed)
      rw [available_cons hnodup hnext] at hgiven havail
      have hid := (nextResult_some hnext).2.2
      by_cases heq : call.id = id
      · subst heq
        obtain ⟨tail, htail⟩ := available_of_next hnext
        simp only [if_pos, htail, List.tail_cons] at hgiven havail
        simp only [beq_self_eq_true, if_true, htail, List.take_succ_cons, List.drop_succ_cons]
        refine ⟨?_, havail⟩
        rw [← hgiven]
        simp [given, hid]
      · simp only [if_neg (Ne.symm heq)] at hgiven havail
        simp only [beq_iff_eq, heq, if_false, Nat.add_zero]
        refine ⟨?_, havail⟩
        rw [← hgiven]
        simp [given, hid, heq]

/-- Some message between `i` and `j` issues `id`. -/
def Crossed (items : List (Message × ℕ)) (i j : ℕ) (id : String) : Prop :=
  ∃ x ∈ items, i < x.2 ∧ x.2 < j ∧ id ∈ x.1.callIds

def Sorted (items : List (Message × ℕ)) : Prop := items.Pairwise (fun x y => x.2 < y.2)

theorem Sorted.nodup (h : Sorted items) : (items.map Prod.snd).Nodup := by
  rw [List.Nodup, List.pairwise_map]
  exact h.imp (fun {_ _} hlt => Nat.ne_of_lt hlt)

/-- No result that follows an issuer of its id is consumed before that issuer is reached. -/
def Untouched (consumed : List ℕ) (items : List (Message × ℕ)) : Prop :=
  ∀ front b back, items = front ++ b :: back → ∀ id ∈ b.1.callIds, ∀ x ∈ back,
    x.1.resultId = some id → x.2 ∉ consumed

theorem Untouched.tail {x : Message × ℕ} (h : Untouched consumed (x :: rest)) :
    Untouched consumed rest :=
  fun front b back heq => h (x :: front) b back (by rw [heq, List.cons_append])

theorem callIds_of_tool (h : m.isTool = true) : m.callIds = [] := by
  cases m <;> simp [Message.isTool, Message.callIds, Message.calls] at h ⊢

/-- The results given to the message at the head do not come from behind another issuer. -/
def HeadFair (consumed : List ℕ) (m : Message) (i : ℕ) (rest : List (Message × ℕ)) : Prop :=
  ∀ id, ∀ j ∈ given id (answers i rest consumed m.calls).1, ¬Crossed rest i j id

theorem first_issuer (h : ∃ x ∈ rest, id ∈ x.1.callIds) :
    ∃ mid b back, rest = mid ++ b :: back ∧ (∀ x ∈ mid, id ∉ x.1.callIds) ∧ id ∈ b.1.callIds := by
  induction rest with
  | nil => simp at h
  | cons x rest ih =>
    by_cases hx : id ∈ x.1.callIds
    · exact ⟨[], x, rest, rfl, by simp, hx⟩
    · obtain ⟨y, hy, hid⟩ := h
      obtain rfl | hy := List.mem_cons.mp hy
      · exact absurd hid hx
      · obtain ⟨mid, b, back, rfl, hmid, hb⟩ := ih ⟨y, hy, hid⟩
        refine ⟨x :: mid, b, back, rfl, fun z hz => ?_, hb⟩
        obtain rfl | hz := List.mem_cons.mp hz
        · exact hx
        · exact hmid z hz

theorem resultsOf_split {mid back : List (Message × ℕ)} {b : Message × ℕ}
    (hb : id ∈ b.1.callIds) :
    resultsOf id (mid ++ b :: back) = resultsOf id mid ++ resultsOf id back := by
  have hres : b.1.resultId ≠ some id := by
    intro h
    rw [callIds_of_tool (isTool_of_resultId h)] at hb
    simp at hb
  simp [resultsOf, hres]

theorem resultsOf_length (id : String) (mid : List (Message × ℕ)) :
    (resultsOf id mid).length = mid.countP (fun x => x.1.resultId = some id) := by
  rw [resultsOf, List.length_map, List.countP_eq_length_filter]

theorem available_eq (h : Untouched consumed ((m, i) :: rest)) (hid : id ∈ m.callIds) :
    available id consumed rest = resultsOf id rest := by
  rw [available, List.filter_eq_self]
  intro j hj
  obtain ⟨t, ht, hres⟩ := mem_resultsOf.mp hj
  simpa using h [] (m, i) rest rfl id hid (t, j) ht hres

theorem headFair_iff (hsorted : Sorted ((m, i) :: rest))
    (h : Untouched consumed ((m, i) :: rest)) : HeadFair consumed m i rest ↔
      ¬HeadOvertaken (fun x : Message × ℕ => x.1.callIds) (fun x => x.1.resultId) (m, i) rest := by
  obtain ⟨hfirst, htail⟩ := List.pairwise_cons.mp hsorted
  have hgiven : ∀ id, given id (answers i rest consumed m.calls).1 =
      (available id consumed rest).take (m.callIds.count id) :=
    fun id => (answers_given (Sorted.nodup htail) consumed i id m.calls).1
  constructor
  · rintro hfair ⟨id, mid, b, back, rfl, hmid, hb, ⟨r, hr, hres⟩, hlt⟩
    have hissued : id ∈ m.callIds := List.count_pos_iff.mp (Nat.lt_of_le_of_lt (Nat.zero_le _) hlt)
    have hne : 0 < (resultsOf id back).length :=
      List.length_pos_of_mem (mem_resultsOf.mpr ⟨r.1, hr, hres⟩)
    obtain ⟨j, late, hlate⟩ := List.exists_cons_of_length_pos hne
    have hj : j ∈ given id (answers i (mid ++ b :: back) consumed m.calls).1 := by
      rw [hgiven, available_eq h hissued, resultsOf_split hb, hlate]
      have hshort : (resultsOf id mid).length < m.callIds.count id := by
        rw [resultsOf_length]
        exact hlt
      obtain ⟨d, hd⟩ : ∃ d, m.callIds.count id - (resultsOf id mid).length = d + 1 :=
        ⟨m.callIds.count id - (resultsOf id mid).length - 1, by omega⟩
      rw [List.take_append, List.mem_append]
      refine Or.inr ?_
      rw [hd, List.take_succ_cons]
      exact List.mem_cons_self
    refine hfair id j hj ⟨b, by simp, hfirst b (by simp), ?_, hb⟩
    obtain ⟨t, ht, _⟩ := mem_resultsOf.mp (hlate ▸ List.mem_cons_self : j ∈ resultsOf id back)
    have hback := (List.pairwise_cons.mp (List.pairwise_append.mp htail).2.1).1
    exact hback (t, j) ht
  · rintro hno id j hj ⟨x, hx, hix, hxj, hissued⟩
    rw [hgiven] at hj
    have hcount : id ∈ m.callIds := by
      rw [← List.count_pos_iff, Nat.pos_iff_ne_zero]
      intro hzero
      simp [hzero] at hj
    obtain ⟨mid, b, back, rfl, hmid, hb⟩ := first_issuer ⟨x, hx, hissued⟩
    rw [available_eq h hcount, resultsOf_split hb] at hj
    have hjmid : j ∈ resultsOf id mid := by
      by_cases hback : resultsOf id back = []
      · rw [hback, List.append_nil] at hj
        exact List.mem_of_mem_take hj
      · have hle : m.callIds.count id ≤ (resultsOf id mid).length := by
          by_contra hgt
          rw [resultsOf_length] at hgt
          obtain ⟨r, hr⟩ := List.exists_mem_of_ne_nil _ hback
          obtain ⟨t, ht, hres⟩ := mem_resultsOf.mp hr
          exact hno ⟨id, mid, b, back, rfl, hmid, hb, ⟨(t, r), ht, hres⟩, Nat.lt_of_not_le hgt⟩
        rw [List.take_append_of_le_length hle] at hj
        exact List.mem_of_mem_take hj
    obtain ⟨t, ht, _⟩ := mem_resultsOf.mp hjmid
    obtain hmem | hmem := List.mem_append.mp hx
    · exact hmid x hmem hissued
    · have hlt := (List.pairwise_append.mp htail).2.2 (t, j) ht x hmem
      exact Nat.lt_asymm hlt hxj

theorem HeadFair.untouched (hsorted : Sorted ((m, i) :: rest))
    (h : Untouched consumed ((m, i) :: rest)) (hfair : HeadFair consumed m i rest) :
    Untouched (answers i rest consumed m.calls).2 rest := by
  obtain ⟨hfirst, htail⟩ := List.pairwise_cons.mp hsorted
  rintro front b back rfl id hid x hx hres hmem
  have hfresh := h.tail front b back rfl id hid x hx hres
  obtain ⟨hgiven, havail⟩ := answers_given (Sorted.nodup htail) consumed i id m.calls
  have hx' : x.2 ∈ available id consumed (front ++ b :: back) := by
    refine List.mem_filter.mpr ⟨mem_resultsOf.mpr ⟨x.1, by simp [hx], hres⟩, by simpa using hfresh⟩
  have hgone : x.2 ∉ available id (answers i (front ++ b :: back) consumed m.calls).2
      (front ++ b :: back) := by
    intro hin
    simpa [hmem] using List.of_mem_filter hin
  rw [havail] at hgone
  have htake : x.2 ∈ given id (answers i (front ++ b :: back) consumed m.calls).1 := by
    rw [hgiven]
    rw [← List.take_append_drop ((m.calls.map PersistedToolCall.id).count id)
      (available id consumed (front ++ b :: back))] at hx'
    exact (List.mem_append.mp hx').resolve_right hgone
  have hback := (List.pairwise_cons.mp (List.pairwise_append.mp htail).2.1).1
  exact hfair id x.2 htake ⟨b, by simp, hfirst b (by simp), hback x hx, hid⟩

/-- No result of the output comes from behind another issuer of its id. -/
def Fair (items : List (Message × ℕ)) (out : List Pushed) : Prop :=
  ∀ p ∈ out, ∀ i j id, p.2 = .result i j → p.1.resultId = some id → ¬Crossed items i j id

theorem answers_origin (i : ℕ) (rest : List (Message × ℕ)) (calls : List PersistedToolCall) :
    ∀ p ∈ (answers i rest consumed calls).1,
      (p.2 = .missing i ∧ ∃ call ∈ calls, p.1 = placeholder call) ∨
        ∃ j, p.2 = .result i j ∧ (p.1, j) ∈ rest ∧
          ∃ call ∈ calls, p.1.resultId = some call.id := by
  induction calls generalizing consumed with
  | nil => simp [answers]
  | cons call calls ih =>
    intro p hp
    have hlater : ∀ {c : List ℕ}, p ∈ (answers i rest c calls).1 →
        (p.2 = .missing i ∧ ∃ call' ∈ call :: calls, p.1 = placeholder call') ∨
          ∃ j, p.2 = .result i j ∧ (p.1, j) ∈ rest ∧
            ∃ call' ∈ call :: calls, p.1.resultId = some call'.id := by
      intro c hc
      obtain ⟨hm, call', hmem, heq⟩ | ⟨j, hj, hmem, call', hcall, hid⟩ := ih p hc
      · exact Or.inl ⟨hm, call', List.mem_cons_of_mem _ hmem, heq⟩
      · exact Or.inr ⟨j, hj, hmem, call', List.mem_cons_of_mem _ hcall, hid⟩
    cases hnext : nextResult rest consumed call with
    | none =>
      rw [answers_missing i hnext] at hp
      obtain rfl | hp := List.mem_cons.mp hp
      · exact Or.inl ⟨rfl, call, List.mem_cons_self, rfl⟩
      · exact hlater hp
    | some found =>
      rw [answers_found i hnext] at hp
      obtain rfl | hp := List.mem_cons.mp hp
      · obtain ⟨hmem, _, hid⟩ := nextResult_some hnext
        exact Or.inr ⟨found.2, rfl, hmem, call, List.mem_cons_self, hid⟩
      · exact hlater hp

theorem scan_origin (consumed : List ℕ) (items : List (Message × ℕ)) :
    ∀ p ∈ scan consumed items, ∀ i j, p.2 = .result i j → i ∈ items.map Prod.snd := by
  induction items generalizing consumed with
  | nil => simp [scan]
  | cons x rest ih =>
    obtain ⟨m, k⟩ := x
    intro p hp i j hj
    have hlater : ∀ {c : List ℕ}, p ∈ scan c rest → i ∈ ((m, k) :: rest).map Prod.snd :=
      fun hc => List.mem_cons_of_mem k (ih _ p hc i j hj)
    rw [scan] at hp
    by_cases hk : k ∈ consumed
    · rw [if_pos hk] at hp
      exact hlater hp
    · rw [if_neg hk] at hp
      by_cases htool : m.isTool = true
      · rw [if_pos htool] at hp
        exact hlater hp
      · rw [if_neg htool, List.cons_append] at hp
        obtain rfl | hp := List.mem_cons.mp hp
        · simp at hj
        · obtain hp | hp := List.mem_append.mp hp
          · obtain ⟨hm, _⟩ | ⟨j', hj', _⟩ := answers_origin k rest m.calls p hp
            · simp [hm] at hj
            · rw [hj', Origin.result.injEq] at hj
              exact List.mem_map.mpr ⟨(m, k), List.mem_cons_self, hj.1⟩
          · exact hlater hp

theorem fair_cons (hsorted : Sorted ((m, k) :: rest)) (consumed : List ℕ) :
    Fair ((m, k) :: rest) (scan consumed rest) ↔ Fair rest (scan consumed rest) := by
  have hfirst := (List.pairwise_cons.mp hsorted).1
  have hsame : ∀ p ∈ scan consumed rest, ∀ i j id, p.2 = .result i j →
      (Crossed ((m, k) :: rest) i j id ↔ Crossed rest i j id) := by
    intro p hp i j id hj
    obtain ⟨x, hx, rfl⟩ := List.mem_map.mp (scan_origin consumed rest p hp i j hj)
    have hlt : k < x.2 := hfirst x hx
    simp only [Crossed, List.mem_cons, exists_eq_or_imp]
    constructor
    · rintro (⟨hgt, _⟩ | h)
      · omega
      · exact h
    · exact Or.inr
  constructor
  · intro h p hp i j id hj hid
    rw [← hsame p hp i j id hj]
    exact h p hp i j id hj hid
  · intro h p hp i j id hj hid
    rw [hsame p hp i j id hj]
    exact h p hp i j id hj hid

theorem headFair_fair (m : Message) (i : ℕ) (rest : List (Message × ℕ)) (consumed : List ℕ) :
    HeadFair consumed m i rest ↔
      Fair ((m, i) :: rest) (answers i rest consumed m.calls).1 := by
  have hcrossed : ∀ j id, Crossed ((m, i) :: rest) i j id ↔ Crossed rest i j id := by
    intro j id
    simp [Crossed]
  constructor
  · intro h p hp i' j id hj hid
    obtain ⟨hm, _⟩ | ⟨j', hj', _⟩ := answers_origin i rest m.calls p hp
    · simp [hm] at hj
    · rw [hj', Origin.result.injEq] at hj
      obtain ⟨rfl, rfl⟩ := hj
      rw [hcrossed]
      exact h id j' (List.mem_filterMap.mpr ⟨p, hp, by simp [hj', hid]⟩)
  · intro h id j hj
    obtain ⟨p, hp, hsome⟩ := List.mem_filterMap.mp hj
    obtain ⟨hm, _⟩ | ⟨j', hj', _⟩ := answers_origin i rest m.calls p hp
    · simp [hm] at hsome
    · simp only [hj', Option.ite_none_right_eq_some, Option.some.injEq] at hsome
      obtain ⟨hid, rfl⟩ := hsome
      rw [← hcrossed]
      exact h p hp i j' id hj' hid

theorem fair_append {out out' : List Pushed} :
    Fair items (out ++ out') ↔ Fair items out ∧ Fair items out' := by
  simp only [Fair, List.mem_append, or_imp, forall_and]

theorem fair_kept {out : List Pushed} : Fair items ((m, .kept i) :: out) ↔ Fair items out := by
  simp [Fair]

/-- A message without calls overtakes nothing and is not overtaken. -/
theorem overtaken_tool (htool : m.isTool = true) :
    ItemsOvertaken ((m, i) :: rest) ↔ ItemsOvertaken rest := by
  rw [ItemsOvertaken, overtaken_cons]
  refine or_iff_right ?_
  rintro ⟨id, mid, b, back, _, _, _, _, hlt⟩
  simp [callIds_of_tool htool] at hlt

/-- Results reach the nearest issuer exactly when no issuer is overtaken. -/
theorem scan_fair (hsorted : Sorted items) (hspares : Spares consumed items)
    (h : Untouched consumed items) :
    Fair items (scan consumed items) ↔ ¬ItemsOvertaken items := by
  induction items generalizing consumed with
  | nil => simp [scan, Fair, ItemsOvertaken, not_overtaken_nil]
  | cons x rest ih =>
    obtain ⟨m, i⟩ := x
    have htail : Sorted rest := (List.pairwise_cons.mp hsorted).2
    have hrest : Spares consumed rest := fun x hx => hspares x (List.mem_cons_of_mem _ hx)
    have hskip : m.isTool = true →
        (Fair ((m, i) :: rest) (scan consumed rest) ↔ ¬ItemsOvertaken ((m, i) :: rest)) := by
      intro htool
      rw [fair_cons hsorted, ih htail hrest h.tail, overtaken_tool htool]
    rw [scan]
    by_cases hi : i ∈ consumed
    · rw [if_pos hi]
      exact hskip (hspares (m, i) List.mem_cons_self hi)
    · rw [if_neg hi]
      by_cases htool : m.isTool = true
      · rw [if_pos htool]
        exact hskip htool
      · rw [if_neg htool]
        have hsplit : Fair ((m, i) :: rest) ((m, .kept i) ::
            ((answers i rest consumed m.calls).1 ++
              scan (answers i rest consumed m.calls).2 rest)) ↔
            HeadFair consumed m i rest ∧
              Fair rest (scan (answers i rest consumed m.calls).2 rest) := by
          rw [fair_kept, fair_append, ← headFair_fair, fair_cons hsorted]
        have hspared := answers_spares (i := i) (Sorted.nodup htail) hrest m.calls
        refine hsplit.trans ?_
        rw [ItemsOvertaken, overtaken_cons, not_or, ← headFair_iff hsorted h]
        exact and_congr_right
          (fun hfair => ih htail hspared (HeadFair.untouched hsorted h hfair))

end YapStack.Chat
