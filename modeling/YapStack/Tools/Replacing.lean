import YapStack.Foundation.JsStrings

namespace YapStack.Tools.Replacing

open JsStrings

/-- A row of `segments`. -/
structure Segment where
  id : String
  text : JsString
  hidden : Bool
  deleted : Bool
  originalText : Option JsString
  deriving DecidableEq

def isVisibleSegment (seg : Segment) : Bool := !seg.hidden && !seg.deleted

def Segment.edit (seg : Segment) (newText : JsString) : Segment :=
  { seg with originalText := seg.originalText.or (some seg.text), text := newText }

def updateSegmentText (id : String) (newText : JsString) (rows : List Segment) : List Segment :=
  rows.map (fun seg => if seg.id = id then seg.edit newText else seg)

def escapeRegExp (s : JsString) : JsString :=
  s.flatMap (fun c => if c ∈ syntaxCharacters then [unit '\\', c] else [c])

structure EditPlan where
  segmentId : String
  previousText : JsString
  newText : JsString
  deriving DecidableEq

def maxAffected : ℕ := 50

/-- The results of the tool, by their `detail`. -/
inductive Outcome where
  | emptyFind
  | noOp
  | noSegments
  | tooManyMatches (count : ℕ)
  | noMatches
  | replaced (plans : List EditPlan)
  deriving DecidableEq

/-- The segments that the result names as changed. -/
def Outcome.affectedIds : Outcome → List String
  | .replaced plans => plans.map (·.segmentId)
  | _ => []

def planEdit (fold : ℕ → ℕ) (pattern replace : JsString) (seg : Segment) : Option EditPlan :=
  if !isVisibleSegment seg then none
  else if (execFrom fold pattern seg.text 0).isNone then none
  else
    let newText := replaceAll fold pattern replace seg.text
    if newText = seg.text then none else some ⟨seg.id, seg.text, newText⟩

/-- What the flags of the pattern make equal. -/
def foldOf (canonicalize : ℕ → ℕ) (caseSensitive : Bool) : ℕ → ℕ :=
  if caseSensitive then id else canonicalize

/-- The rows after the call, and its result. -/
def replaceInTranscript (canonicalize : ℕ → ℕ) (find replace : JsString) (caseSensitive : Bool)
    (segments : List Segment) : Option (List Segment × Outcome) :=
  if find = [] then some (segments, .emptyFind)
  else if find = replace then some (segments, .noOp)
  else if segments = [] then some (segments, .noSegments)
  else (parsePattern (escapeRegExp find)).map fun pattern =>
    let plans := segments.filterMap (planEdit (foldOf canonicalize caseSensitive) pattern replace)
    if plans.length > maxAffected then (segments, .tooManyMatches plans.length)
    else if plans = [] then (segments, .noMatches)
    else (plans.foldl (fun rows p => updateSegmentText p.segmentId p.newText rows) segments,
      .replaced plans)

/-- A visible segment whose text the literal replacement changes. -/
def Changes (fold : ℕ → ℕ) (find replace : JsString) (seg : Segment) : Prop :=
  isVisibleSegment seg = true ∧ literalReplace fold find replace seg.text ≠ seg.text

instance (fold : ℕ → ℕ) (find replace : JsString) (seg : Segment) :
    Decidable (Changes fold find replace seg) :=
  inferInstanceAs (Decidable (_ ∧ _))

def literalEdit (fold : ℕ → ℕ) (find replace : JsString) (seg : Segment) : Segment :=
  if Changes fold find replace seg then seg.edit (literalReplace fold find replace seg.text)
  else seg

/-- Literal, all or nothing over the cap, and reported as it was. -/
def Meets (canonicalize : ℕ → ℕ) (find replace : JsString) (caseSensitive : Bool)
    (segments : List Segment) : Prop :=
  let fold := foldOf canonicalize caseSensitive
  let changed := segments.filter (fun seg => decide (Changes fold find replace seg))
  ∃ rows outcome,
    replaceInTranscript canonicalize find replace caseSensitive segments = some (rows, outcome) ∧
    if changed.length ≤ 50 then
      rows = segments.map (literalEdit fold find replace) ∧
        outcome.affectedIds = changed.map (·.id)
    else rows = segments ∧ outcome.affectedIds = []

/-- The replacement that is asked for is the one that `replace` makes of the string. -/
def Faithful (fold : ℕ → ℕ) (find replace : JsString) : Prop :=
  find = [] ∨
    (find = replace ∧ ∀ matched : JsString, matched.map fold = find.map fold → matched = find) ∨
    find ≠ replace ∧ Literal fold find replace

variable {fold : ℕ → ℕ} {find replace : JsString} {seg : Segment} {segments : List Segment}

/-- The pattern that the escaped string is read as. -/
theorem parsePattern_escapeRegExp (s : JsString) : parsePattern (escapeRegExp s) = some s := by
  induction s with
  | nil => rfl
  | cons c s ih =>
    rw [escapeRegExp, List.flatMap_cons]
    change parsePattern (_ ++ escapeRegExp s) = _
    split
    · next hc =>
      change parsePattern (unit '\\' :: c :: escapeRegExp s) = _
      rw [parsePattern, if_pos rfl, if_pos hc, ih, Option.map_some]
    · next hc =>
      have hslash : c ≠ unit '\\' := by
        rintro rfl
        exact hc (by decide)
      rw [List.singleton_append]
      cases hrest : escapeRegExp s with
      | nil =>
        rw [hrest, parsePattern] at ih
        obtain rfl := Option.some.inj ih
        rw [parsePattern, if_neg hc]
      | cons d rest => rw [parsePattern, if_neg hslash, if_neg hc, ← hrest, ih, Option.map_some]

theorem literalReplace_nil (fold : ℕ → ℕ) (replace text : JsString) :
    literalReplace fold [] replace text = text := by
  rw [literalReplace]
  induction text with
  | nil => rfl
  | cons c text ih => rw [literalFrom, if_neg (fun h => h.1 rfl), ih]

/-- Where every match is the string itself, putting it back changes nothing. -/
theorem literalReplace_self (hfind : find ≠ [])
    (hself : ∀ matched : JsString, matched.map fold = find.map fold → matched = find)
    (text : JsString) : literalReplace fold find find text = text := by
  have hpos := List.length_pos_iff.mpr hfind
  induction hlen : text.length using Nat.strongRecOn generalizing text with
  | ind n ih =>
    by_cases hmatch : matchesAt fold find text 0
    · have hle := hmatch.le hfind
      have hhead : text.take find.length = find := hself _ hmatch
      have htail := ih (text.drop find.length).length
        (by rw [List.length_drop]; omega) (text.drop find.length) rfl
      rw [literalReplace] at htail ⊢
      rw [literalFrom_match hfind hmatch, htail]
      calc find ++ text.drop find.length
          = text.take find.length ++ text.drop find.length := by rw [hhead]
        _ = text := List.take_append_drop _ _
    · cases text with
      | nil => rfl
      | cons c text =>
        have htail := ih text.length (by rw [← hlen, List.length_cons]; omega) text rfl
        rw [literalReplace] at htail ⊢
        rw [literalFrom, if_neg (fun h => hmatch h.2), htail]

theorem literalReplace_of_exec (hfind : find ≠ []) {text : JsString}
    (h : execFrom fold find text 0 = none) : literalReplace fold find replace text = text := by
  rw [literalReplace, literalFrom_skip text text.length
    (fun j _ => execFrom_eq_none h hfind (Nat.zero_le j)), List.take_length, List.drop_length]
  exact List.append_nil text

theorem replaceAll_of_exec {text : JsString} (h : execFrom fold find text 0 = none) :
    replaceAll fold find replace text = text := by
  rw [replaceAll, replaceFrom, h]
  rfl

/-- The plan of a segment under a literal replacement. -/
theorem planEdit_literal (hfind : find ≠ []) (hliteral : Literal fold find replace)
    (seg : Segment) :
    planEdit fold find replace seg =
      if Changes fold find replace seg then
        some ⟨seg.id, seg.text, literalReplace fold find replace seg.text⟩
      else none := by
  rw [planEdit, replaceAll_eq_literal hfind hliteral]
  by_cases hvisible : isVisibleSegment seg = true
  · rw [if_neg (by simpa using hvisible)]
    cases hexec : execFrom fold find seg.text 0 with
    | none =>
      simp only [Option.isNone_none, if_true]
      rw [if_neg]
      exact fun h => h.2 (literalReplace_of_exec hfind hexec)
    | some i =>
      simp only [Option.isNone_some, Bool.false_eq_true, if_false]
      by_cases hsame : literalReplace fold find replace seg.text = seg.text
      · rw [if_pos hsame, if_neg (fun h => h.2 hsame)]
      · rw [if_neg hsame, if_pos ⟨hvisible, hsame⟩]
  · rw [if_pos (by simpa using hvisible), if_neg (fun h => hvisible h.1)]

def applyPlan (seg : Segment) (p : EditPlan) : Segment :=
  if seg.id = p.segmentId then seg.edit p.newText else seg

theorem id_applyPlan (seg : Segment) (p : EditPlan) : (applyPlan seg p).id = seg.id := by
  rw [applyPlan]
  split <;> rfl

theorem foldl_update (plans : List EditPlan) (rows : List Segment) :
    plans.foldl (fun rows p => updateSegmentText p.segmentId p.newText rows) rows =
      rows.map (fun seg => plans.foldl applyPlan seg) := by
  induction plans generalizing rows with
  | nil => exact (List.map_id rows).symm
  | cons p plans ih =>
    rw [List.foldl_cons, ih, updateSegmentText, List.map_map]
    rfl

theorem foldl_applyPlan_other {plans : List EditPlan}
    (h : ∀ p ∈ plans, p.segmentId ≠ seg.id) : plans.foldl applyPlan seg = seg := by
  induction plans with
  | nil => rfl
  | cons p plans ih =>
    rw [List.foldl_cons, applyPlan, if_neg (fun heq => h p (List.mem_cons_self ..) heq.symm)]
    exact ih (fun q hq => h q (List.mem_cons_of_mem _ hq))

/-- Each row meets its own plan only. -/
theorem foldl_applyPlan {plan : Segment → Option EditPlan}
    (hid : ∀ s p, plan s = some p → p.segmentId = s.id)
    (hnodup : (segments.map (·.id)).Nodup) (hseg : seg ∈ segments) :
    (segments.filterMap plan).foldl applyPlan seg =
      (plan seg).elim seg (fun p => seg.edit p.newText) := by
  induction segments with
  | nil => exact absurd hseg List.not_mem_nil
  | cons s rest ih =>
    obtain ⟨hnot, hrest⟩ := List.nodup_cons.mp hnodup
    have hothers : ∀ t : Segment, t.id = s.id →
        (rest.filterMap plan).foldl applyPlan t = t := by
      intro t ht
      apply foldl_applyPlan_other
      intro p hp heq
      obtain ⟨r, hr, hplan⟩ := List.mem_filterMap.mp hp
      have hids : r.id = s.id := (hid r p hplan).symm.trans (heq.trans ht)
      exact hnot (List.mem_map.mpr ⟨r, hr, hids⟩)
    obtain rfl | hmem := List.mem_cons.mp hseg
    · cases hplan : plan seg with
      | none => rw [List.filterMap_cons_none hplan, hothers seg rfl]; rfl
      | some p =>
        rw [List.filterMap_cons_some hplan, List.foldl_cons, applyPlan,
          if_pos (hid seg p hplan).symm]
        exact hothers (seg.edit p.newText) rfl
    · have hne : seg.id ≠ s.id := fun heq => hnot (List.mem_map.mpr ⟨seg, hmem, heq⟩)
      cases hplan : plan s with
      | none => rw [List.filterMap_cons_none hplan, ih hrest hmem]
      | some p =>
        rw [List.filterMap_cons_some hplan, List.foldl_cons, applyPlan,
          if_neg (fun heq => hne (heq.trans (hid s p hplan))), ih hrest hmem]

theorem filterMap_plans (fold : ℕ → ℕ) (find replace : JsString) (segments : List Segment) :
    segments.filterMap (fun seg => if Changes fold find replace seg then
        some (⟨seg.id, seg.text, literalReplace fold find replace seg.text⟩ : EditPlan)
      else none) =
      (segments.filter (fun seg => decide (Changes fold find replace seg))).map
        (fun seg => ⟨seg.id, seg.text, literalReplace fold find replace seg.text⟩) := by
  induction segments with
  | nil => rfl
  | cons seg segments ih =>
    by_cases h : Changes fold find replace seg
    · rw [List.filterMap_cons, if_pos h, List.filter_cons_of_pos (by simpa using h),
        List.map_cons, ih]
    · rw [List.filterMap_cons, if_neg h, List.filter_cons_of_neg (by simpa using h), ih]

/-- Nothing to change. -/
theorem map_literalEdit_of_filter
    (h : segments.filter (fun seg => decide (Changes fold find replace seg)) = []) :
    segments.map (literalEdit fold find replace) = segments := by
  conv_rhs => rw [← List.map_id segments]
  apply List.map_congr_left
  intro seg hseg
  have hnone := List.filter_eq_nil_iff.mp h seg hseg
  exact if_neg (by simpa using hnone)

theorem filter_changes_eq_nil
    (h : ∀ seg ∈ segments, literalReplace fold find replace seg.text = seg.text) :
    segments.filter (fun seg => decide (Changes fold find replace seg)) = [] := by
  rw [List.filter_eq_nil_iff]
  intro seg hseg
  have hnone : ¬Changes fold find replace seg := fun hchanges => hchanges.2 (h seg hseg)
  simpa using hnone

theorem meets_of_unchanged {canonicalize : ℕ → ℕ} {caseSensitive : Bool} (outcome : Outcome)
    (hcall : replaceInTranscript canonicalize find replace caseSensitive segments =
      some (segments, outcome))
    (hnone : outcome.affectedIds = [])
    (hsame : ∀ seg ∈ segments,
      literalReplace (foldOf canonicalize caseSensitive) find replace seg.text = seg.text) :
    Meets canonicalize find replace caseSensitive segments := by
  have hchanged := filter_changes_eq_nil hsame
  refine ⟨segments, outcome, hcall, ?_⟩
  rw [map_literalEdit_of_filter hchanged, hchanged, hnone]
  exact if_pos (Nat.zero_le 50) ▸ ⟨rfl, rfl⟩

/-- With a literal pattern the plans are the changes, and each is made once. -/
theorem meets_of_literal {canonicalize : ℕ → ℕ} {caseSensitive : Bool} (hfind : find ≠ [])
    (hne : find ≠ replace) (hliteral : Literal (foldOf canonicalize caseSensitive) find replace)
    (hnodup : (segments.map (·.id)).Nodup) :
    Meets canonicalize find replace caseSensitive segments := by
  by_cases hsegments : segments = []
  · subst hsegments
    refine meets_of_unchanged .noSegments ?_ rfl (by simp)
    rw [replaceInTranscript, if_neg hfind, if_neg hne, if_pos rfl]
  · have hplans : segments.filterMap (planEdit (foldOf canonicalize caseSensitive) find replace) =
        (segments.filter (fun seg =>
          decide (Changes (foldOf canonicalize caseSensitive) find replace seg))).map (fun seg =>
            ⟨seg.id, seg.text,
              literalReplace (foldOf canonicalize caseSensitive) find replace seg.text⟩) := by
      rw [funext (planEdit_literal hfind hliteral), filterMap_plans]
    rw [Meets]
    simp only [replaceInTranscript, if_neg hfind, if_neg hne, if_neg hsegments,
      parsePattern_escapeRegExp, Option.map_some, hplans, List.length_map, maxAffected]
    by_cases hcap : (segments.filter (fun seg =>
        decide (Changes (foldOf canonicalize caseSensitive) find replace seg))).length ≤ 50
    · rw [if_neg (Nat.not_lt.mpr hcap)]
      by_cases hempty : segments.filter (fun seg =>
          decide (Changes (foldOf canonicalize caseSensitive) find replace seg)) = []
      · refine ⟨segments, .noMatches, ?_, ?_⟩
        · rw [hempty, if_pos List.map_nil]
        · rw [if_pos hcap, map_literalEdit_of_filter hempty, hempty]
          exact ⟨rfl, rfl⟩
      · rw [if_neg (fun h => hempty (List.map_eq_nil_iff.mp h))]
        refine ⟨_, _, rfl, ?_⟩
        rw [if_pos hcap]
        constructor
        · rw [← filterMap_plans, foldl_update]
          apply List.map_congr_left
          intro seg hseg
          rw [foldl_applyPlan ?_ hnodup hseg]
          · rw [literalEdit]
            split <;> rfl
          · intro s p hp
            split at hp
            · obtain rfl := Option.some.inj hp
              rfl
            · contradiction
        · rw [Outcome.affectedIds, List.map_map]
          rfl
    · rw [if_pos (Nat.not_le.mp hcap)]
      refine ⟨_, _, rfl, ?_⟩
      rw [if_neg hcap]
      exact ⟨rfl, rfl⟩

/-- One visible segment. -/
def single (text : JsString) : List Segment := [⟨"s", text, false, false, none⟩]

theorem single_nodup {text : JsString} : ((single text).map (·.id)).Nodup := by
  simp [single]

/-- What the claim asks of one segment. -/
theorem single_meets {canonicalize : ℕ → ℕ} {caseSensitive : Bool} {text : JsString}
    (h : Meets canonicalize find replace caseSensitive (single text)) :
    ∃ rows outcome,
      replaceInTranscript canonicalize find replace caseSensitive (single text) =
        some (rows, outcome) ∧
      rows.map (·.text) =
        [literalReplace (foldOf canonicalize caseSensitive) find replace text] := by
  obtain ⟨rows, outcome, hcall, hrows⟩ := h
  refine ⟨rows, outcome, hcall, ?_⟩
  have hcap : ((single text).filter (fun seg =>
      decide (Changes (foldOf canonicalize caseSensitive) find replace seg))).length ≤ 50 :=
    Nat.le_trans (List.length_filter_le _ _) (by simp [single])
  rw [if_pos hcap] at hrows
  rw [hrows.1, single, List.map_singleton, List.map_singleton, literalEdit]
  split
  · rfl
  · next hnot =>
    have hsame : literalReplace (foldOf canonicalize caseSensitive) find replace text = text :=
      by_contra (fun hne => hnot ⟨rfl, hne⟩)
    rw [hsame]

/-- What the code does to one segment. -/
theorem single_replaced (canonicalize : ℕ → ℕ) (caseSensitive : Bool) (text : JsString)
    (hfind : find ≠ []) (hne : find ≠ replace) :
    ∃ rows outcome,
      replaceInTranscript canonicalize find replace caseSensitive (single text) =
        some (rows, outcome) ∧
      rows.map (·.text) = [replaceAll (foldOf canonicalize caseSensitive) find replace text] := by
  have hsome : single text ≠ [] := List.cons_ne_nil _ _
  rw [replaceInTranscript, if_neg hfind, if_neg hne, if_neg hsome, parsePattern_escapeRegExp,
    Option.map_some]
  refine ⟨_, _, rfl, ?_⟩
  have hvisible : isVisibleSegment (⟨"s", text, false, false, none⟩ : Segment) = true := rfl
  rw [single, List.filterMap_cons, List.filterMap_nil, planEdit, hvisible]
  simp only [Bool.not_true, Bool.false_eq_true, if_false]
  cases hexec : execFrom (foldOf canonicalize caseSensitive) find text 0 with
  | none =>
    rw [replaceAll_of_exec hexec]
    rfl
  | some i =>
    simp only [Option.isNone_some, Bool.false_eq_true, if_false]
    by_cases hsame : replaceAll (foldOf canonicalize caseSensitive) find replace text = text
    · rw [if_pos hsame, hsame]
      rfl
    · rw [if_neg hsame]
      rfl

/-- Exactly when every transcript is edited literally. -/
theorem replaceInTranscript_literal_iff (canonicalize : ℕ → ℕ) (find replace : JsString)
    (caseSensitive : Bool) :
    (∀ segments : List Segment, (segments.map (·.id)).Nodup →
      Meets canonicalize find replace caseSensitive segments) ↔
      Faithful (foldOf canonicalize caseSensitive) find replace := by
  constructor
  · intro hmeets
    by_cases hfind : find = []
    · exact Or.inl hfind
    have hsingle : ∀ text, Meets canonicalize find replace caseSensitive (single text) :=
      fun text => hmeets _ single_nodup
    by_cases hne : find = replace
    · refine Or.inr (Or.inl ⟨hne, fun matched hmatched => ?_⟩)
      obtain ⟨rows, outcome, hcall, hrows⟩ := single_meets (hsingle matched)
      rw [replaceInTranscript, if_neg hfind, if_pos hne] at hcall
      obtain ⟨rfl, rfl⟩ := Prod.mk.inj (Option.some.inj hcall)
      rw [← List.append_nil matched, literalReplace_matched hfind hmatched, ← hne] at hrows
      simpa [single, literalReplace, literalFrom] using hrows
    · refine Or.inr (Or.inr ⟨hne, ?_⟩)
      by_contra hnot
      obtain ⟨text, htext⟩ := exists_not_literal hfind hnot
      obtain ⟨rows, outcome, hcall, hrows⟩ := single_meets (hsingle text)
      obtain ⟨rows', outcome', hcall', hrows'⟩ := single_replaced canonicalize
        caseSensitive text hfind hne
      obtain ⟨rfl, rfl⟩ := Prod.mk.inj (Option.some.inj (hcall.symm.trans hcall'))
      exact htext (List.singleton_inj.mp (hrows'.symm.trans hrows))
  · intro hfaithful segments hnodup
    by_cases hfind : find = []
    · subst hfind
      refine meets_of_unchanged .emptyFind ?_ rfl
        (fun seg _ => literalReplace_nil _ _ _)
      rw [replaceInTranscript, if_pos rfl]
    · obtain hnil | ⟨rfl, hself⟩ | ⟨hne, hliteral⟩ := hfaithful
      · exact absurd hnil hfind
      · refine meets_of_unchanged .noOp ?_ rfl
          (fun seg _ => literalReplace_self hfind hself _)
        rw [replaceInTranscript, if_neg hfind, if_pos rfl]
      · exact meets_of_literal hfind hne hliteral hnodup

/-- A price with two dollar signs loses one of them. -/
theorem dollar_lost :
    ¬∀ (canonicalize : ℕ → ℕ) (find replace : JsString) (caseSensitive : Bool)
      (segments : List Segment), (segments.map (·.id)).Nodup →
      Meets canonicalize find replace caseSensitive segments := by
  intro h
  obtain ⟨rows, outcome, hcall, hrows⟩ := single_meets
    (h id ("five".toList.map unit) ("$$5".toList.map unit) true (single ("five".toList.map unit))
      single_nodup)
  have hcall' : replaceInTranscript id ("five".toList.map unit) ("$$5".toList.map unit) true
      (single ("five".toList.map unit)) = some
        ([⟨"s", "$5".toList.map unit, false, false, some ("five".toList.map unit)⟩],
        .replaced [⟨"s", "five".toList.map unit, "$5".toList.map unit⟩]) := by decide +kernel
  obtain ⟨rfl, rfl⟩ := Prod.mk.inj (Option.some.inj (hcall.symm.trans hcall'))
  revert hrows
  decide +kernel

end YapStack.Tools.Replacing
