import Mathlib.Data.List.Basic

namespace YapStack.JsStrings

/-- A string of UTF-16 code units. -/
abbrev JsString := List ℕ

def unit (c : Char) : ℕ := c.toNat

/-- The characters that are operators in a regular expression. -/
def syntaxCharacters : List ℕ :=
  ['.', '*', '+', '?', '^', '$', '{', '}', '(', ')', '|', '[', ']', '\\'].map unit

/-- The literal characters of a pattern without operators. -/
def parsePattern : JsString → Option JsString
  | [] => some []
  | [c] => if c ∈ syntaxCharacters then none else some [c]
  | c :: d :: rest =>
    if c = unit '\\' then
      if d ∈ syntaxCharacters then (parsePattern rest).map (d :: ·) else none
    else if c ∈ syntaxCharacters then none
    else (parsePattern (d :: rest)).map (c :: ·)

/-- The string `fold` makes equal to `find` stands at a position. -/
def matchesAt (fold : ℕ → ℕ) (find text : JsString) (i : ℕ) : Prop :=
  ((text.drop i).take find.length).map fold = find.map fold

instance (fold : ℕ → ℕ) (find text : JsString) (i : ℕ) : Decidable (matchesAt fold find text i) :=
  inferInstanceAs (Decidable (_ = _))

/-- `exec` of a literal pattern from `lastIndex` on. -/
def execFrom (fold : ℕ → ℕ) (find text : JsString) (lastIndex : ℕ) : Option ℕ :=
  (List.range' lastIndex (text.length + 1 - lastIndex)).find?
    (fun i => decide (matchesAt fold find text i))

/-- `GetSubstitution` for a match without groups. -/
def getSubstitution (matched before after : JsString) : JsString → JsString
  | [] => []
  | [c] => [c]
  | c :: d :: rest =>
    if c = unit '$' then
      if d = unit '$' then unit '$' :: getSubstitution matched before after rest
      else if d = 96 then before ++ getSubstitution matched before after rest
      else if d = unit '&' then matched ++ getSubstitution matched before after rest
      else if d = 39 then after ++ getSubstitution matched before after rest
      else c :: getSubstitution matched before after (d :: rest)
    else c :: getSubstitution matched before after (d :: rest)

/-- `replace` with a global pattern, from `lastIndex` on. -/
def replaceFrom (fold : ℕ → ℕ) (find replace text : JsString) : ℕ → ℕ → JsString
  | 0, lastIndex => text.drop lastIndex
  | fuel + 1, lastIndex =>
    match execFrom fold find text lastIndex with
    | none => text.drop lastIndex
    | some i =>
      (text.drop lastIndex).take (i - lastIndex) ++
        getSubstitution ((text.drop i).take find.length) (text.take i)
          (text.drop (i + find.length)) replace ++
        replaceFrom fold find replace text fuel (i + find.length)

def replaceAll (fold : ℕ → ℕ) (find replace text : JsString) : JsString :=
  replaceFrom fold find replace text (text.length + 1) 0

/-- Every leftmost occurrence that does not overlap the one before it is replaced by the very
string; `skip` is what is left of an occurrence. -/
def literalFrom (fold : ℕ → ℕ) (find replace : JsString) : ℕ → JsString → JsString
  | _, [] => []
  | skip + 1, _ :: text => literalFrom fold find replace skip text
  | 0, c :: text =>
    if find ≠ [] ∧ matchesAt fold find (c :: text) 0 then
      replace ++ literalFrom fold find replace (find.length - 1) text
    else c :: literalFrom fold find replace 0 text

def literalReplace (fold : ℕ → ℕ) (find replace text : JsString) : JsString :=
  literalFrom fold find replace 0 text

/-- Read as a replacement pattern, the string stands for itself in every match. -/
def Literal (fold : ℕ → ℕ) (find replace : JsString) : Prop :=
  ∀ matched before after, matched.map fold = find.map fold →
    getSubstitution matched before after replace = replace

variable {fold : ℕ → ℕ} {find replace text matched before after : JsString} {i j lastIndex fuel : ℕ}

theorem matchesAt_drop : matchesAt fold find (text.drop i) j ↔ matchesAt fold find text (i + j) := by
  rw [matchesAt, matchesAt, List.drop_drop]

theorem matchesAt.le (h : matchesAt fold find text i) (hfind : find ≠ []) :
    i + find.length ≤ text.length := by
  have hlen := congrArg List.length h
  have hpos := List.length_pos_iff.mpr hfind
  rw [List.length_map, List.length_map, List.length_take, List.length_drop] at hlen
  omega

theorem execFrom_eq_some (h : execFrom fold find text lastIndex = some i) :
    lastIndex ≤ i ∧ matchesAt fold find text i ∧
      ∀ j, lastIndex ≤ j → j < i → ¬matchesAt fold find text j := by
  rw [execFrom, List.find?_range'_eq_some] at h
  obtain ⟨hmatch, hmem, hbefore⟩ := h
  refine ⟨(List.mem_range'_1.mp hmem).1, by simpa using hmatch, fun j hj hlt => ?_⟩
  simpa using hbefore j hj hlt

theorem execFrom_eq_none (h : execFrom fold find text lastIndex = none) (hfind : find ≠ [])
    (hj : lastIndex ≤ j) : ¬matchesAt fold find text j := by
  intro hmatch
  have hle := hmatch.le hfind
  have hmem : j ∈ List.range' lastIndex (text.length + 1 - lastIndex) := by
    rw [List.mem_range'_1]
    omega
  exact List.find?_eq_none.mp h j hmem (by simpa using hmatch)

/-- Nothing is replaced up to the next occurrence. -/
theorem literalFrom_skip (text : JsString) (n : ℕ) (h : ∀ j < n, ¬matchesAt fold find text j) :
    literalFrom fold find replace 0 text =
      text.take n ++ literalFrom fold find replace 0 (text.drop n) := by
  induction n generalizing text with
  | zero => rfl
  | succ n ih =>
    cases text with
    | nil => rfl
    | cons c text =>
      have hnone := h 0 (Nat.succ_pos n)
      rw [literalFrom, if_neg (fun hfound => hnone hfound.2), List.take_succ_cons,
        List.drop_succ_cons, List.cons_append]
      congr 1
      apply ih
      intro j hj hmatch
      refine h (j + 1) (Nat.succ_lt_succ hj) ?_
      have hdrop : matchesAt fold find ((c :: text).drop 1) j := hmatch
      rwa [matchesAt_drop, Nat.add_comm] at hdrop

theorem literalFrom_eq_drop (skip : ℕ) (text : JsString) :
    literalFrom fold find replace skip text =
      literalFrom fold find replace 0 (text.drop skip) := by
  induction skip generalizing text with
  | zero => rfl
  | succ skip ih =>
    cases text with
    | nil => rfl
    | cons c text => rw [literalFrom, ih, List.drop_succ_cons]

/-- An occurrence at the start is replaced. -/
theorem literalFrom_match (hfind : find ≠ []) (h : matchesAt fold find text 0) :
    literalFrom fold find replace 0 text =
      replace ++ literalFrom fold find replace 0 (text.drop find.length) := by
  have hpos := List.length_pos_iff.mpr hfind
  cases text with
  | nil =>
    have hle := h.le hfind
    simp at hle
    exact absurd hle hfind
  | cons c text =>
    obtain ⟨n, hn⟩ : ∃ n, find.length = n + 1 := ⟨find.length - 1, by omega⟩
    rw [literalFrom, if_pos ⟨hfind, h⟩, literalFrom_eq_drop, hn, Nat.add_sub_cancel,
      List.drop_succ_cons]

/-- The loop over the matches and the walk over the text. -/
theorem replaceFrom_eq_literal (hfind : find ≠ []) (hliteral : Literal fold find replace)
    (hfuel : text.length < lastIndex + fuel) :
    replaceFrom fold find replace text fuel lastIndex =
      literalReplace fold find replace (text.drop lastIndex) := by
  have hpos := List.length_pos_iff.mpr hfind
  induction fuel generalizing lastIndex with
  | zero =>
    rw [replaceFrom, List.drop_eq_nil_of_le (by omega)]
    rfl
  | succ fuel ih =>
    rw [replaceFrom]
    cases hexec : execFrom fold find text lastIndex with
    | none =>
      have hnone : ∀ j < (text.drop lastIndex).length,
          ¬matchesAt fold find (text.drop lastIndex) j := by
        intro j _ hmatch
        rw [matchesAt_drop] at hmatch
        exact execFrom_eq_none hexec hfind (Nat.le_add_right _ _) hmatch
      rw [literalReplace, literalFrom_skip _ _ hnone, List.take_length, List.drop_length]
      exact (List.append_nil _).symm
    | some i =>
      obtain ⟨hle, hmatch, hbefore⟩ := execFrom_eq_some hexec
      have hnone : ∀ j < i - lastIndex, ¬matchesAt fold find (text.drop lastIndex) j := by
        intro j hj hfound
        rw [matchesAt_drop] at hfound
        exact hbefore (lastIndex + j) (Nat.le_add_right _ _) (by omega) hfound
      have hi : lastIndex + (i - lastIndex) = i := by omega
      have hhere : matchesAt fold find (text.drop i) 0 := matchesAt_drop.mpr hmatch
      dsimp only
      rw [hliteral _ _ _ hmatch, ih (by omega), literalReplace, literalReplace,
        literalFrom_skip (text.drop lastIndex) _ hnone, List.drop_drop, hi,
        literalFrom_match hfind hhere, List.drop_drop, List.append_assoc]

theorem replaceAll_eq_literal (hfind : find ≠ []) (hliteral : Literal fold find replace)
    (text : JsString) :
    replaceAll fold find replace text = literalReplace fold find replace text :=
  replaceFrom_eq_literal hfind hliteral (by omega)

/-- How often the text before and the text after a match are named. -/
def contextRefs : JsString → ℕ
  | [] | [_] => 0
  | c :: d :: rest =>
    if c = unit '$' then
      if d = unit '$' then contextRefs rest
      else if d = 96 then contextRefs rest + 1
      else if d = unit '&' then contextRefs rest
      else if d = 39 then contextRefs rest + 1
      else contextRefs (d :: rest)
    else contextRefs (d :: rest)

theorem getSubstitution_of_contextRefs (h : contextRefs replace = 0)
    (matched before after : JsString) :
    getSubstitution matched before after replace = getSubstitution matched [] [] replace := by
  induction replace using contextRefs.induct with
  | case1 | case2 => rfl
  | case3 rest ih =>
    rw [contextRefs, if_pos rfl, if_pos rfl] at h
    simp only [getSubstitution, if_true, ih h]
  | case4 rest hd ih =>
    rw [contextRefs, if_pos rfl, if_neg hd, if_pos rfl] at h
    contradiction
  | case5 rest hd hb ih =>
    rw [contextRefs, if_pos rfl, if_neg hd, if_neg hb, if_pos rfl] at h
    simp only [getSubstitution, if_true, if_neg hd, if_neg hb, ih h]
  | case6 rest hd hb ha ih =>
    rw [contextRefs, if_pos rfl, if_neg hd, if_neg hb, if_neg ha, if_pos rfl] at h
    contradiction
  | case7 d rest hd hb ha hq ih =>
    rw [contextRefs, if_pos rfl, if_neg hd, if_neg hb, if_neg ha, if_neg hq] at h
    simp only [getSubstitution, if_true, if_neg hd, if_neg hb, if_neg ha, if_neg hq, ih h]
  | case8 c d rest hc ih =>
    rw [contextRefs, if_neg hc] at h
    rw [getSubstitution, getSubstitution, if_neg hc, if_neg hc, ih h]

/-- Each name for the context adds the context. -/
theorem length_getSubstitution (matched context replace : JsString) :
    (getSubstitution matched [] context replace).length +
        (getSubstitution matched context [] replace).length =
      2 * (getSubstitution matched [] [] replace).length +
        contextRefs replace * context.length := by
  induction replace using contextRefs.induct with
  | case1 => simp only [getSubstitution, contextRefs, List.length_nil, Nat.zero_mul]
  | case2 c => simp only [getSubstitution, contextRefs, Nat.zero_mul, List.length_singleton]
  | case3 rest ih =>
    simp only [getSubstitution, contextRefs, if_true, List.length_cons]
    omega
  | case4 rest hd ih =>
    simp only [getSubstitution, contextRefs, if_true, if_neg hd, List.length_append,
      List.length_nil, Nat.add_mul]
    omega
  | case5 rest hd hb ih =>
    simp only [getSubstitution, contextRefs, if_true, if_neg hd, if_neg hb, List.length_append]
    omega
  | case6 rest hd hb ha ih =>
    simp only [getSubstitution, contextRefs, if_true, if_neg hd, if_neg hb, if_neg ha,
      List.length_append, List.length_nil, Nat.add_mul]
    omega
  | case7 d rest hd hb ha hq ih =>
    simp only [getSubstitution, contextRefs, if_true, if_neg hd, if_neg hb, if_neg ha, if_neg hq,
      List.length_cons]
    omega
  | case8 c d rest hc ih =>
    simp only [getSubstitution, contextRefs, if_neg hc, List.length_cons]
    omega

theorem execFrom_here (h : matchesAt fold find text i) (hi : i ≤ text.length) :
    execFrom fold find text i = some i := by
  obtain ⟨n, hn⟩ : ∃ n, text.length + 1 - i = n + 1 := ⟨text.length - i, by omega⟩
  rw [execFrom, hn, List.range'_succ, List.find?_cons_of_pos (by simpa using h)]

theorem execFrom_end (hfind : find ≠ []) : execFrom fold find text text.length = none := by
  cases hexec : execFrom fold find text text.length with
  | none => rfl
  | some i =>
    obtain ⟨hle, hmatch, _⟩ := execFrom_eq_some hexec
    have := hmatch.le hfind
    have := List.length_pos_iff.mpr hfind
    omega

theorem length_of_matched (h : matched.map fold = find.map fold) :
    matched.length = find.length := by
  simpa only [List.length_map] using congrArg List.length h

theorem matchesAt_append (h : matched.map fold = find.map fold) (before after : JsString) :
    matchesAt fold find (before ++ matched ++ after) before.length := by
  rw [matchesAt, List.append_assoc, List.drop_left, ← length_of_matched h, List.take_left]
  exact h

/-- A text that is one match. -/
theorem replaceAll_matched (hfind : find ≠ []) (h : matched.map fold = find.map fold) :
    replaceAll fold find replace matched = getSubstitution matched [] [] replace := by
  have hlen := length_of_matched h
  have hmatch : matchesAt fold find matched 0 := by
    simpa only [List.nil_append, List.append_nil, List.length_nil] using matchesAt_append h [] []
  obtain ⟨n, hn⟩ : ∃ n, matched.length = n + 1 :=
    ⟨matched.length - 1, by have := List.length_pos_iff.mpr hfind; omega⟩
  rw [replaceAll, replaceFrom, execFrom_here hmatch (Nat.zero_le _)]
  simp only [List.drop_zero, Nat.sub_self, List.take_zero, List.nil_append, Nat.zero_add, ← hlen,
    List.take_length, List.drop_length]
  rw [hn, replaceFrom, ← hn, execFrom_end hfind]
  simp only [List.drop_length, List.append_nil]

/-- A text that is the same match twice. -/
theorem replaceAll_twice (hfind : find ≠ []) (h : matched.map fold = find.map fold) :
    replaceAll fold find replace (matched ++ matched) =
      getSubstitution matched [] matched replace ++ getSubstitution matched matched [] replace := by
  have hlen := length_of_matched h
  have hfirst : matchesAt fold find (matched ++ matched) 0 := by
    simpa only [List.nil_append, List.length_nil] using matchesAt_append h [] matched
  have hsecond : matchesAt fold find (matched ++ matched) matched.length := by
    simpa only [List.append_nil] using matchesAt_append h matched []
  have htotal : matched.length + matched.length = (matched ++ matched).length :=
    (List.length_append ..).symm
  obtain ⟨n, hn⟩ : ∃ n, (matched ++ matched).length = n + 1 + 1 :=
    ⟨(matched ++ matched).length - 2, by have := List.length_pos_iff.mpr hfind; omega⟩
  rw [replaceAll, replaceFrom, execFrom_here hfirst (Nat.zero_le _)]
  simp only [List.drop_zero, Nat.sub_self, List.take_zero, List.nil_append, Nat.zero_add, ← hlen,
    List.take_left, List.drop_left]
  rw [hn, replaceFrom, execFrom_here hsecond (by omega)]
  simp only [Nat.sub_self, List.take_zero, List.nil_append, ← hlen, List.take_left,
    List.drop_left, List.take_length, htotal, List.drop_length]
  rw [replaceFrom, execFrom_end hfind]
  simp only [List.drop_length, List.append_nil]

theorem literalReplace_matched (hfind : find ≠ []) (h : matched.map fold = find.map fold)
    (rest : JsString) :
    literalReplace fold find replace (matched ++ rest) =
      replace ++ literalReplace fold find replace rest := by
  have hmatch : matchesAt fold find (matched ++ rest) 0 := by
    simpa only [List.nil_append, List.length_nil] using matchesAt_append h [] rest
  rw [literalReplace, literalFrom_match hfind hmatch, ← length_of_matched h, List.drop_left]
  rfl

/-- A pattern that is not literal shows it in a match alone or twice. -/
theorem exists_not_literal (hfind : find ≠ []) (hnot : ¬Literal fold find replace) :
    ∃ text, replaceAll fold find replace text ≠ literalReplace fold find replace text := by
  by_contra hall
  have hall : ∀ text, replaceAll fold find replace text = literalReplace fold find replace text :=
    fun text => by_contra fun hne => hall ⟨text, hne⟩
  apply hnot
  intro matched before after hmatched
  have hnil : literalReplace fold find replace [] = [] := rfl
  have halone : getSubstitution matched [] [] replace = replace := by
    have h := hall matched
    rw [replaceAll_matched hfind hmatched] at h
    rw [h, ← List.append_nil matched, literalReplace_matched hfind hmatched, hnil,
      List.append_nil]
  have htwice : (getSubstitution matched [] matched replace).length +
      (getSubstitution matched matched [] replace).length = 2 * replace.length := by
    have h := congrArg List.length (hall (matched ++ matched))
    rw [replaceAll_twice hfind hmatched, List.length_append] at h
    rw [h, literalReplace_matched hfind hmatched, ← List.append_nil matched,
      literalReplace_matched hfind hmatched, hnil, List.append_nil, List.length_append]
    omega
  have hlength := length_getSubstitution matched matched replace
  rw [htwice, halone] at hlength
  have hpos : 0 < matched.length :=
    (length_of_matched hmatched).symm ▸ List.length_pos_iff.mpr hfind
  have hrefs : contextRefs replace = 0 := by
    by_contra hne
    have := Nat.mul_pos (Nat.pos_of_ne_zero hne) hpos
    omega
  rw [getSubstitution_of_contextRefs hrefs, halone]

end YapStack.JsStrings
