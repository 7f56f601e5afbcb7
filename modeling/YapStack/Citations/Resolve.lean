import Mathlib.Algebra.Order.Floor.Ring
import Mathlib.Data.List.Induction
import Mathlib.Data.Rat.Floor
import YapStack.Citations.Markers
import YapStack.Foundation.Firsts

namespace YapStack.Citations

open JsStrings Firsts

structure DbSegment where
  id : JsString
  session_id : JsString
  hidden : ℕ
  deleted_at : Option JsString
  audio_offset_seconds : ℚ
  chunk_duration_seconds : ℚ
  deriving DecidableEq

structure TranscriptRef where
  sessionId : JsString
  segmentId : JsString
  offsetSeconds : ℚ
  deriving DecidableEq

def MIN_PREFIX_LENGTH : ℕ := 6

/-- `!s.deleted_at` -/
def isKept (s : DbSegment) : Bool := !s.deleted_at.any (· ≠ [])

def isVisibleSegment (s : DbSegment) : Bool := s.hidden ≠ 1 && isKept s

structure SegmentIndex where
  byId : JsMap JsString DbSegment
  visible : List DbSegment
  sessionId : Option JsString

section Resolve

variable (lower : JsString → JsString)

def indexSegment (c : JsMap JsString DbSegment × List JsString) (s : DbSegment) :
    JsMap JsString DbSegment × List JsString :=
  if !isKept s then c
  else (c.1.set (lower s.id) s, if s.session_id ∈ c.2 then c.2 else c.2 ++ [s.session_id])

def createSegmentIndex (segments : List DbSegment) : SegmentIndex :=
  let c := segments.foldl (indexSegment lower) (.empty, [])
  { byId := c.1
    visible := segments.filter isVisibleSegment
    sessionId := if c.2.length = 1 then c.2.head? else none }

def findSegment (index : SegmentIndex) (segmentId : JsString) : Option DbSegment :=
  index.byId.get (lower segmentId)

def toRef (s : DbSegment) : TranscriptRef := ⟨s.session_id, s.id, s.audio_offset_seconds⟩

/-- The loop over the visible segments. -/
def onlyPrefixed (pre : JsString) : Option DbSegment → List DbSegment → Option DbSegment
  | found, [] => found
  | found, s :: rest =>
    if !pre.isPrefixOf (lower s.id) then onlyPrefixed pre found rest
    else if found.isSome then none
    else onlyPrefixed pre (some s) rest

def byUniquePrefix (index : SegmentIndex) (id : JsString) : Option DbSegment :=
  if index.sessionId.isNone || id.length < MIN_PREFIX_LENGTH then none
  else onlyPrefixed lower (lower id) none index.visible

/-- The segment spans the second, from the floor of its start. -/
def spansSecond (atSeconds : ℚ) (s : DbSegment) : Bool :=
  !(atSeconds < ⌊s.audio_offset_seconds⌋ ||
    s.audio_offset_seconds + max s.chunk_duration_seconds 1 ≤ atSeconds)

def later (atSeconds : ℚ) (best : Option DbSegment) (s : DbSegment) : Option DbSegment :=
  if !spansSecond atSeconds s then best
  else if best.all fun b => b.audio_offset_seconds < s.audio_offset_seconds then some s
  else best

def byTime (index : SegmentIndex) (atSeconds : ℚ) : Option DbSegment :=
  if index.sessionId.isNone then none else index.visible.foldl (later atSeconds) none

def resolveCitation (index : SegmentIndex) : CitationToken → Option TranscriptRef
  | .segment segmentId _ =>
    ((findSegment lower index segmentId).or (byUniquePrefix lower index segmentId)).map toRef
  | .time atSeconds => (byTime index atSeconds).map toRef

/-! What a reference is certain of. -/

/-- The last segment with the ID, of those not deleted. -/
def Named (segments : List DbSegment) (id : JsString) (s : DbSegment) : Prop :=
  ∃ before after, segments.filter isKept = before ++ s :: after ∧ lower s.id = lower id ∧
    ∀ t ∈ after, lower t.id ≠ lower id

def OneSession (segments : List DbSegment) : Prop :=
  segments.filter isKept ≠ [] ∧
    ∃ session, ∀ s ∈ segments.filter isKept, s.session_id = session

/-- The only segment among those shown whose ID continues the one given. -/
def OnlyPrefixed (segments : List DbSegment) (id : JsString) (s : DbSegment) : Prop :=
  ∃ before after, segments.filter isVisibleSegment = before ++ s :: after ∧
    lower id <+: lower s.id ∧ ∀ t ∈ before ++ after, ¬ lower id <+: lower t.id

/-- The latest segment among those shown that spans the second, the first of several at once. -/
def Spanning (segments : List DbSegment) (atSeconds : ℚ) (s : DbSegment) : Prop :=
  ∃ before after, segments.filter isVisibleSegment = before ++ s :: after ∧
    spansSecond atSeconds s = true ∧
    (∀ t ∈ before, spansSecond atSeconds t = true → t.audio_offset_seconds < s.audio_offset_seconds) ∧
    ∀ t ∈ after, spansSecond atSeconds t = true → t.audio_offset_seconds ≤ s.audio_offset_seconds

/-- The segment a token stands for. -/
def StandsFor (segments : List DbSegment) : CitationToken → DbSegment → Prop
  | .segment id _, s => Named lower segments id s ∨
      (∀ t ∈ segments.filter isKept, lower t.id ≠ lower id) ∧ OneSession segments ∧
        MIN_PREFIX_LENGTH ≤ id.length ∧ OnlyPrefixed lower segments id s
  | .time atSeconds, s => OneSession segments ∧ Spanning segments atSeconds s

variable {lower : JsString → JsString} {segments : List DbSegment} {id : JsString}
  {s : DbSegment}

theorem foldl_indexSegment (segments : List DbSegment)
    (c : JsMap JsString DbSegment × List JsString) :
    segments.foldl (indexSegment lower) c =
      (segments.filter isKept).foldl (fun c s => (c.1.set (lower s.id) s,
        if s.session_id ∈ c.2 then c.2 else c.2 ++ [s.session_id])) c := by
  induction segments generalizing c with
  | nil => rfl
  | cons s rest ih =>
    rw [List.foldl_cons, ih, List.filter_cons, indexSegment]
    cases isKept s with
    | false => rfl
    | true => rfl

theorem get_foldl_set (kept : List DbSegment) (m : JsMap JsString DbSegment) (k : JsString) :
    (kept.foldl (fun m s => m.set (lower s.id) s) m).get k =
      (kept.reverse.find? fun s => decide (lower s.id = k)).or (m.get k) := by
  induction kept generalizing m with
  | nil => rfl
  | cons s rest ih =>
    rw [List.foldl_cons, ih, List.reverse_cons, List.find?_append, JsMap.get_set]
    cases rest.reverse.find? fun s => decide (lower s.id = k) with
    | some t => rfl
    | none =>
      by_cases h : k = lower s.id
      · simp [h]
      · simp [h, Ne.symm h]

theorem byId_get (segments : List DbSegment) (k : JsString) :
    (createSegmentIndex lower segments).byId.get k =
      (segments.filter isKept).reverse.find? fun s => decide (lower s.id = k) := by
  have hfst : ∀ (kept : List DbSegment) (c : JsMap JsString DbSegment × List JsString),
      (kept.foldl (fun c s => (c.1.set (lower s.id) s,
        if s.session_id ∈ c.2 then c.2 else c.2 ++ [s.session_id])) c).1 =
        kept.foldl (fun m s => m.set (lower s.id) s) c.1 := by
    intro kept
    induction kept with
    | nil => exact fun c => rfl
    | cons s rest ih => exact fun c => ih _
  rw [createSegmentIndex, foldl_indexSegment]
  dsimp only
  rw [hfst, get_foldl_set]
  exact Option.or_none

theorem findSegment_eq_some :
    findSegment lower (createSegmentIndex lower segments) id = some s ↔
      Named lower segments id s := by
  rw [findSegment, byId_get, List.find?_eq_some_iff_append, Named]
  constructor
  · intro h
    obtain ⟨heq, a, b, hsplit, hnone⟩ := h
    have hrev := congrArg List.reverse hsplit
    rw [List.reverse_reverse, List.reverse_append, List.reverse_cons, List.append_assoc,
      List.singleton_append] at hrev
    refine ⟨b.reverse, a.reverse, hrev, of_decide_eq_true heq, fun t ht => ?_⟩
    simpa using hnone t (List.mem_reverse.mp ht)
  · intro h
    obtain ⟨before, after, hsplit, heq, hnone⟩ := h
    refine ⟨decide_eq_true heq, after.reverse, before.reverse, ?_, fun t ht => ?_⟩
    · rw [hsplit, List.reverse_append, List.reverse_cons, List.append_assoc, List.singleton_append]
    · simpa using hnone t (List.mem_reverse.mp ht)

theorem findSegment_eq_none :
    findSegment lower (createSegmentIndex lower segments) id = none ↔
      ∀ t ∈ segments.filter isKept, lower t.id ≠ lower id := by
  rw [findSegment, byId_get, List.find?_eq_none]
  simp only [List.mem_reverse, decide_eq_true_eq, ne_eq]

def addSession (sessions : List JsString) (s : DbSegment) : List JsString :=
  if s.session_id ∈ sessions then sessions else sessions ++ [s.session_id]

theorem mem_foldl_addSession (kept : List DbSegment) (sessions : List JsString) (x : JsString) :
    x ∈ kept.foldl addSession sessions ↔ x ∈ sessions ∨ ∃ s ∈ kept, s.session_id = x := by
  induction kept generalizing sessions with
  | nil => simp
  | cons s rest ih =>
    rw [List.foldl_cons, ih, addSession]
    split
    · rename_i hmem
      constructor
      · intro h
        obtain h | ⟨t, ht, heq⟩ := h
        · exact .inl h
        · exact .inr ⟨t, List.mem_cons_of_mem s ht, heq⟩
      · intro h
        obtain h | ⟨t, ht, rfl⟩ := h
        · exact .inl h
        · obtain rfl | ht := List.mem_cons.mp ht
          · exact .inl hmem
          · exact .inr ⟨t, ht, rfl⟩
    · rw [List.mem_append, List.mem_singleton, or_assoc]
      apply or_congr_right
      simp [List.mem_cons, eq_comm]

theorem nodup_foldl_addSession (kept : List DbSegment) {sessions : List JsString}
    (h : sessions.Nodup) : (kept.foldl addSession sessions).Nodup := by
  induction kept generalizing sessions with
  | nil => exact h
  | cons s rest ih =>
    rw [List.foldl_cons]
    apply ih
    rw [addSession]
    split
    · exact h
    · rename_i hnew
      exact List.nodup_append.mpr ⟨h, List.nodup_singleton _, fun a ha b hb hab =>
        hnew (List.mem_singleton.mp hb ▸ hab ▸ ha)⟩

theorem sessionId_isSome (lower : JsString → JsString) (segments : List DbSegment) :
    (createSegmentIndex lower segments).sessionId.isSome = true ↔ OneSession segments := by
  have hsnd : ∀ (kept : List DbSegment) (c : JsMap JsString DbSegment × List JsString),
      (kept.foldl (fun c s => (c.1.set (lower s.id) s,
        if s.session_id ∈ c.2 then c.2 else c.2 ++ [s.session_id])) c).2 =
        kept.foldl addSession c.2 := by
    intro kept
    induction kept with
    | nil => exact fun c => rfl
    | cons s rest ih => exact fun c => ih _
  have hmem := mem_foldl_addSession (segments.filter isKept) []
  have hnodup := nodup_foldl_addSession (segments.filter isKept) List.nodup_nil
  rw [createSegmentIndex, foldl_indexSegment]
  dsimp only
  rw [hsnd]
  dsimp only
  constructor
  · intro h
    split at h
    · rename_i hone
      obtain ⟨x, hx⟩ := List.length_eq_one_iff.mp hone
      simp only [hx, List.mem_singleton, List.not_mem_nil, false_or] at hmem
      obtain ⟨s, hs, -⟩ := (hmem x).mp rfl
      exact ⟨List.ne_nil_of_mem hs, x, fun t ht => (hmem _).mpr ⟨t, ht, rfl⟩⟩
    · cases h
  · intro h
    obtain ⟨hne, x, hall⟩ := h
    obtain ⟨s, hs⟩ := List.exists_mem_of_ne_nil _ hne
    have heq : (segments.filter isKept).foldl addSession [] = [x] := by
      apply List.perm_singleton.mp
      rw [List.perm_ext_iff_of_nodup hnodup (List.nodup_singleton x)]
      intro y
      rw [hmem, List.mem_singleton]
      constructor
      · intro h
        obtain h | ⟨t, ht, rfl⟩ := h
        · cases h
        · exact hall t ht
      · intro h
        exact .inr ⟨s, hs, (hall s hs).trans h.symm⟩
    rw [heq]
    rfl

theorem onlyPrefixed_some (pre : JsString) (found : DbSegment) (l : List DbSegment) :
    onlyPrefixed lower pre (some found) l =
      if l.any (fun s => pre.isPrefixOf (lower s.id)) then none else some found := by
  induction l with
  | nil => rfl
  | cons s rest ih =>
    rw [onlyPrefixed, ih, List.any_cons]
    cases pre.isPrefixOf (lower s.id) with
    | false => rfl
    | true => rfl

theorem onlyPrefixed_none (pre : JsString) (l : List DbSegment) :
    onlyPrefixed lower pre none l = some s ↔
      l.filter (fun s => pre.isPrefixOf (lower s.id)) = [s] := by
  induction l with
  | nil => simp [onlyPrefixed]
  | cons t rest ih =>
    rw [onlyPrefixed, List.filter_cons]
    by_cases h : pre.isPrefixOf (lower t.id) = true
    · rw [if_neg (by simp [h]), if_neg (by simp), onlyPrefixed_some, if_pos h]
      by_cases hany : (rest.any fun s => pre.isPrefixOf (lower s.id)) = true
      · obtain ⟨u, hu, hpre⟩ := List.any_eq_true.mp hany
        have hne : rest.filter (fun s => pre.isPrefixOf (lower s.id)) ≠ [] :=
          List.ne_nil_of_mem (List.mem_filter.mpr ⟨hu, hpre⟩)
        rw [if_pos hany]
        simp only [reduceCtorEq, List.cons.injEq, hne, and_false]
      · rw [if_neg hany]
        have hnil : rest.filter (fun s => pre.isPrefixOf (lower s.id)) = [] := by
          rw [List.filter_eq_nil_iff]
          intro u hu hpre
          exact hany (List.any_eq_true.mpr ⟨u, hu, hpre⟩)
        rw [hnil]
        simp
    · rw [Bool.not_eq_true] at h
      rw [h]
      exact ih

theorem byUniquePrefix_eq_some :
    byUniquePrefix lower (createSegmentIndex lower segments) id = some s ↔
      OneSession segments ∧ MIN_PREFIX_LENGTH ≤ id.length ∧ OnlyPrefixed lower segments id s := by
  have honly : OnlyPrefixed lower segments id s ↔ (segments.filter isVisibleSegment).filter
      (fun s => (lower id).isPrefixOf (lower s.id)) = [s] := by
    rw [List.filter_eq_cons_iff, OnlyPrefixed]
    simp only [List.filter_eq_nil_iff, List.isPrefixOf_iff_prefix, List.forall_mem_append]
    constructor
    · intro h
      obtain ⟨before, after, heq, hpre, hbefore, hafter⟩ := h
      exact ⟨before, after, heq, hbefore, hpre, hafter⟩
    · intro h
      obtain ⟨before, after, heq, hbefore, hpre, hafter⟩ := h
      exact ⟨before, after, heq, hpre, hbefore, hafter⟩
  rw [byUniquePrefix, ← sessionId_isSome lower segments, honly, ← onlyPrefixed_none]
  split
  · rename_i h
    constructor
    · exact fun hs => by cases hs
    · intro hs
      rw [Bool.or_eq_true, Option.isNone_iff_eq_none, decide_eq_true_eq] at h
      obtain h | h := h
      · rw [h] at hs
        cases hs.1
      · omega
  · rename_i h
    rw [Bool.or_eq_true, decide_eq_true_eq, not_or, Nat.not_lt, Option.isNone_iff_eq_none,
      ← ne_eq, Option.ne_none_iff_isSome] at h
    exact ⟨fun hs => ⟨h.1, h.2, hs⟩, fun hs => hs.2.2⟩

/-- What the loop over a list finds spanning the second. -/
def Latest (atSeconds : ℚ) (l : List DbSegment) (s : DbSegment) : Prop :=
  ∃ before after, l = before ++ s :: after ∧ spansSecond atSeconds s = true ∧
    (∀ t ∈ before, spansSecond atSeconds t = true → t.audio_offset_seconds < s.audio_offset_seconds) ∧
    ∀ t ∈ after, spansSecond atSeconds t = true → t.audio_offset_seconds ≤ s.audio_offset_seconds

theorem Latest.unique {atSeconds : ℚ} {l : List DbSegment} {s t : DbSegment}
    (hs : Latest atSeconds l s) (ht : Latest atSeconds l t) : s = t := by
  obtain ⟨a, b, hl, hspans, hbefore, hafter⟩ := hs
  obtain ⟨a', b', hl', hspans', hbefore', hafter'⟩ := ht
  obtain ⟨c, rfl, hc⟩ | ⟨c, rfl, hc⟩ := List.append_eq_append_iff.mp (hl.symm.trans hl')
  · cases c with
    | nil => exact (List.cons.inj hc).1
    | cons d c =>
      obtain ⟨rfl, rfl⟩ := List.cons.inj hc
      have hlt := hbefore' s (by simp) hspans
      exact absurd (hafter t (by simp) hspans') (not_le_of_gt hlt)
  · cases c with
    | nil => exact (List.cons.inj hc).1.symm
    | cons d c =>
      obtain ⟨rfl, rfl⟩ := List.cons.inj hc
      have hlt := hbefore t (by simp) hspans'
      exact absurd (hafter' s (by simp) hspans) (not_le_of_gt hlt)

theorem foldl_later (atSeconds : ℚ) (l : List DbSegment) :
    (∀ s, l.foldl (later atSeconds) none = some s → Latest atSeconds l s) ∧
      (l.foldl (later atSeconds) none = none → ∀ t ∈ l, spansSecond atSeconds t = false) := by
  induction l using List.reverseRecOn with
  | nil => simp
  | append_singleton l t ih =>
    rw [List.foldl_append, List.foldl_cons, List.foldl_nil, later]
    by_cases hspans : spansSecond atSeconds t = true
    · rw [if_neg (by simp [hspans])]
      cases hbest : l.foldl (later atSeconds) none with
      | none =>
        refine ⟨fun s hs => ?_, fun h => by cases h⟩
        obtain rfl := Option.some.inj hs
        exact ⟨l, [], rfl, hspans, fun u hu h => absurd h (by simp [ih.2 hbest u hu]), by simp⟩
      | some b =>
        obtain ⟨before, after, hl, hb, hbefore, hafter⟩ := ih.1 b hbest
        rw [Option.all_some]
        split
        · rename_i hlt
          rw [decide_eq_true_eq] at hlt
          refine ⟨fun s hs => ?_, fun h => by cases h⟩
          obtain rfl := Option.some.inj hs
          refine ⟨l, [], rfl, hspans, fun u hu h => ?_, by simp⟩
          rw [hl, List.mem_append, List.mem_cons] at hu
          obtain hu | rfl | hu := hu
          · exact lt_trans (hbefore u hu h) hlt
          · exact hlt
          · exact lt_of_le_of_lt (hafter u hu h) hlt
        · rename_i hle
          rw [decide_eq_true_eq, not_lt] at hle
          refine ⟨fun s hs => ?_, fun h => by cases h⟩
          obtain rfl := Option.some.inj hs
          refine ⟨before, after ++ [t], by simp [hl], hb, hbefore, fun u hu h => ?_⟩
          obtain hu | hu := List.mem_append.mp hu
          · exact hafter u hu h
          · rwa [List.mem_singleton.mp hu]
    · rw [if_pos (by simpa using hspans)]
      refine ⟨fun s hs => ?_, fun hnone u hu => ?_⟩
      · obtain ⟨before, after, hl, hb, hbefore, hafter⟩ := ih.1 s hs
        refine ⟨before, after ++ [t], by simp [hl], hb, hbefore, fun u hu h => ?_⟩
        obtain hu | hu := List.mem_append.mp hu
        · exact hafter u hu h
        · rw [List.mem_singleton.mp hu] at h
          exact absurd h hspans
      · obtain hu | hu := List.mem_append.mp hu
        · exact ih.2 hnone u hu
        · rw [List.mem_singleton.mp hu]
          simpa using hspans

theorem byTime_eq_some {atSeconds : ℚ} :
    byTime (createSegmentIndex lower segments) atSeconds = some s ↔
      OneSession segments ∧ Spanning segments atSeconds s := by
  rw [byTime, ← sessionId_isSome lower segments]
  cases hid : (createSegmentIndex lower segments).sessionId with
  | none => simp
  | some session =>
    rw [if_neg (by simp)]
    have hfold := foldl_later atSeconds (segments.filter isVisibleSegment)
    constructor
    · exact fun h => ⟨rfl, hfold.1 s h⟩
    · intro h
      have hs : Latest atSeconds (segments.filter isVisibleSegment) s := h.2
      cases hbest : (segments.filter isVisibleSegment).foldl (later atSeconds) none with
      | none =>
        obtain ⟨before, after, hl, hspans, -⟩ := hs
        have hfalse := hfold.2 hbest s (by simp [hl])
        rw [hspans] at hfalse
        cases hfalse
      | some t =>
        have heq := hs.unique (hfold.1 t hbest)
        rw [heq]
        exact hbest

/-- A token resolves to the segment it stands for, and to no other. -/
theorem resolve_certain (lower : JsString → JsString) (segments : List DbSegment)
    (token : CitationToken) (ref : TranscriptRef) :
    resolveCitation lower (createSegmentIndex lower segments) token = some ref ↔
      ∃ s, StandsFor lower segments token s ∧ ref = toRef s := by
  have hmap : ∀ {o : Option DbSegment} {P : DbSegment → Prop}, (∀ s, o = some s ↔ P s) →
      (o.map toRef = some ref ↔ ∃ s, P s ∧ ref = toRef s) := by
    intro o P h
    rw [Option.map_eq_some_iff]
    simp only [h, eq_comm]
  cases token with
  | time atSeconds => exact hmap fun s => byTime_eq_some
  | segment id atSeconds =>
    refine hmap fun s => ?_
    cases hfind : findSegment lower (createSegmentIndex lower segments) id with
    | some t =>
      rw [Option.some_or, ← hfind, findSegment_eq_some]
      refine ⟨.inl, fun h => ?_⟩
      obtain h | h := h
      · exact h
      · exact absurd (findSegment_eq_none.mpr h.1) (by simp [hfind])
    | none =>
      rw [Option.none_or, byUniquePrefix_eq_some]
      refine ⟨fun h => .inr ⟨findSegment_eq_none.mp hfind, h⟩, fun h => ?_⟩
      obtain h | h := h
      · exact absurd (findSegment_eq_some.mpr h) (by simp [hfind])
      · exact h.2

end Resolve

end YapStack.Citations
