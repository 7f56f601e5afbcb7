import Mathlib.Algebra.Order.Field.Rat
import Mathlib.Data.List.Chain
import YapStack.Foundation.Texts

namespace YapStack.Parakeet

section Grouping

open Texts

def segmentGapSecs : ℚ := 1 / 2
def maxSegmentSecs : ℚ := 12

/-- `char::is_whitespace`: the code points with the property `White_Space`. -/
def isWhitespace (c : Char) : Bool :=
  let n := c.toNat
  (9 ≤ n && n ≤ 13) || n == 32 || n == 133 || n == 160 || n == 5760 || (8192 ≤ n && n ≤ 8202) ||
    n == 8232 || n == 8233 || n == 8239 || n == 8287 || n == 12288

structure TimedToken where
  text : List Char
  start : ℚ
  stop : ℚ
  deriving DecidableEq

structure GroupedSegment where
  text : List Char
  startSecs : ℚ
  endSecs : ℚ
  deriving DecidableEq

def openSegment (tok : TimedToken) : GroupedSegment :=
  ⟨trim isWhitespace tok.text, tok.start, tok.stop⟩

def startsWithPunctuation (text : List Char) : Bool :=
  match trimStart isWhitespace text with
  | c :: _ => ['.', ',', '!', '?', ';', ':', ')'].contains c
  | [] => false

def joinSegment (seg : GroupedSegment) (tok : TimedToken) : GroupedSegment :=
  let needsSpace := !seg.text.isEmpty && !startsWithPunctuation tok.text
  { seg with
    text := (if needsSpace then seg.text ++ [' '] else seg.text) ++ trim isWhitespace tok.text
    endSecs := tok.stop }

def breaks (seg : GroupedSegment) (tok : TimedToken) : Bool :=
  let gap := tok.start - seg.endSecs
  let span := tok.stop - seg.startSecs
  decide (segmentGapSecs < gap) || decide (maxSegmentSecs < span)

/-- The loop, with the segment that is open. -/
def groupFrom : Option GroupedSegment → List TimedToken → List GroupedSegment
  | current, [] => current.toList
  | current, tok :: toks =>
    if tok.text.isEmpty then groupFrom current toks
    else match current with
      | none => groupFrom (some (openSegment tok)) toks
      | some seg =>
        if breaks seg tok then seg :: groupFrom (some (openSegment tok)) toks
        else groupFrom (some (joinSegment seg tok)) toks

def groupTokensIntoSegments (tokens : List TimedToken) : List GroupedSegment :=
  groupFrom none tokens

/-- White space and nothing else. -/
def TimedToken.Blank (tok : TimedToken) : Prop := ∀ c ∈ tok.text, isWhitespace c = true

/-- How a token follows the text before it. -/
def glued (tok : TimedToken) : List Char :=
  (if startsWithPunctuation tok.text then [] else [' ']) ++ trim isWhitespace tok.text

def joined : List TimedToken → List Char
  | [] => []
  | tok :: toks => trim isWhitespace tok.text ++ toks.flatMap glued

def visible (text : List Char) : List Char := text.filter (fun c => !isWhitespace c)

/-- A segment and the tokens that it was made of. -/
structure SegmentOf (seg : GroupedSegment) (toks : List TimedToken) : Prop where
  start_eq : toks.head?.map (·.start) = some seg.startSecs
  end_eq : toks.getLast?.map (·.stop) = some seg.endSecs
  kept : visible seg.text = toks.flatMap (fun tok => visible tok.text)
  joined_eq : (∀ tok ∈ toks, ¬tok.Blank) → seg.text = joined toks
  text_eq_nil : seg.text = [] → ∀ tok ∈ toks, tok.Blank
  gaps : toks.IsChain (fun a b => b.start - a.stop ≤ segmentGapSecs)
  span : 1 < toks.length → seg.endSecs - seg.startSecs ≤ maxSegmentSecs

/-- One of the limits would break if the next segment's first token was in this one. -/
def CutBetween (toks next : List TimedToken) : Prop :=
  ∃ first last tok, toks.head? = some first ∧ toks.getLast? = some last ∧
    next.head? = some tok ∧
    (segmentGapSecs < tok.start - last.stop ∨ maxSegmentSecs < tok.stop - first.start)

variable {seg : GroupedSegment} {tok first last : TimedToken} {toks group : List TimedToken}

theorem visible_trim (text : List Char) : visible (trim isWhitespace text) = visible text :=
  filter_trim isWhitespace text

theorem segmentOf_open (tok : TimedToken) : SegmentOf (openSegment tok) [tok] where
  start_eq := rfl
  end_eq := rfl
  kept := by rw [List.flatMap_singleton, openSegment, visible_trim]
  joined_eq := fun _ => by rw [joined, List.flatMap_nil, List.append_nil, openSegment]
  text_eq_nil := by
    intro h t ht
    obtain rfl := List.mem_singleton.mp ht
    exact trim_eq_nil.mp h
  gaps := List.IsChain.singleton _
  span := fun h => absurd h (by simp)

theorem visible_append (a b : List Char) : visible (a ++ b) = visible a ++ visible b :=
  List.filter_append ..

theorem visible_join (seg : GroupedSegment) (tok : TimedToken) :
    visible (joinSegment seg tok).text = visible seg.text ++ visible tok.text := by
  have hspace : visible [' '] = [] := by decide
  simp only [joinSegment]
  split
  · rw [visible_append, visible_append, visible_trim, hspace, List.append_nil]
  · rw [visible_append, visible_trim]

/-- A token that follows without a break. -/
theorem SegmentOf.join (h : SegmentOf seg group) (hbreak : breaks seg tok = false) :
    SegmentOf (joinSegment seg tok) (group ++ [tok]) := by
  have hne : group ≠ [] := by
    rintro rfl
    exact absurd h.start_eq (by simp)
  simp only [breaks, Bool.or_eq_false_iff, decide_eq_false_iff_not, not_lt] at hbreak
  obtain ⟨hgap, hspan⟩ := hbreak
  refine ⟨?_, ?_, ?_, ?_, ?_, ?_, fun _ => hspan⟩
  · rw [List.head?_append_of_ne_nil group hne]
    exact h.start_eq
  · rw [List.getLast?_concat]
    rfl
  · rw [visible_join, h.kept, List.flatMap_append, List.flatMap_singleton]
  · intro hblank
    have hold := h.joined_eq (fun t ht => hblank t (List.mem_append_left _ ht))
    have htext : seg.text ≠ [] := by
      intro hnil
      obtain ⟨t, ht⟩ := List.exists_mem_of_ne_nil group hne
      exact hblank t (List.mem_append_left _ ht) (h.text_eq_nil hnil t ht)
    obtain ⟨a, rest, rfl⟩ := List.exists_cons_of_ne_nil hne
    rw [List.cons_append, joined, List.flatMap_append, List.flatMap_singleton, ← List.append_assoc]
    rw [joined] at hold
    rw [← hold, joinSegment, glued]
    cases hpunct : startsWithPunctuation tok.text with
    | true => simp
    | false => simp [htext]
  · intro hnil t ht
    simp only [joinSegment, List.append_eq_nil_iff] at hnil
    obtain ⟨hseg, htok⟩ := hnil
    obtain ht | ht := List.mem_append.mp ht
    · refine h.text_eq_nil ?_ t ht
      split at hseg
      · exact (List.append_eq_nil_iff.mp hseg).1
      · exact hseg
    · obtain rfl := List.mem_singleton.mp ht
      exact trim_eq_nil.mp htok
  · refine List.isChain_append.mpr ⟨h.gaps, List.IsChain.singleton _, ?_⟩
    intro a ha b hb
    obtain rfl := Option.some.inj hb
    have hend := h.end_eq
    rw [ha] at hend
    have hstop : a.stop = seg.endSecs := Option.some.inj hend
    rw [hstop]
    exact hgap

/-- The segments of the rest, the open one included. -/
theorem groupFrom_spec (toks : List TimedToken) (h : SegmentOf seg group) :
    ∃ more rest, List.Forall₂ SegmentOf (groupFrom (some seg) toks) ((group ++ more) :: rest) ∧
      more ++ rest.flatten = toks.filter (fun tok => !tok.text.isEmpty) ∧
      ((group ++ more) :: rest).IsChain CutBetween := by
  induction toks generalizing seg group with
  | nil =>
    refine ⟨[], [], ?_, rfl, List.IsChain.singleton _⟩
    rw [List.append_nil]
    exact .cons h .nil
  | cons tok toks ih =>
    rw [groupFrom]
    split
    · next hempty =>
      obtain ⟨more, rest, hsegs, hflat, hcuts⟩ := ih h
      refine ⟨more, rest, hsegs, ?_, hcuts⟩
      rw [hflat, List.filter_cons_of_neg (by simpa using hempty)]
    · next hempty =>
      rw [List.filter_cons_of_pos (by simpa using hempty)]
      split
      · next hbreak =>
        obtain ⟨more, rest, hsegs, hflat, hcuts⟩ := ih (segmentOf_open tok)
        refine ⟨[], ([tok] ++ more) :: rest, ?_, ?_, ?_⟩
        · rw [List.append_nil]
          exact .cons h hsegs
        · rw [List.nil_append, List.flatten_cons, List.append_assoc, hflat]
          rfl
        · refine List.isChain_cons_cons.mpr ⟨?_, hcuts⟩
          rw [List.append_nil]
          obtain ⟨first, hfirst, hstart⟩ := Option.map_eq_some_iff.mp h.start_eq
          obtain ⟨last, hlast, hend⟩ := Option.map_eq_some_iff.mp h.end_eq
          simp only [breaks, Bool.or_eq_true, decide_eq_true_eq] at hbreak
          rw [← hstart, ← hend] at hbreak
          exact ⟨first, last, tok, hfirst, hlast, rfl, hbreak⟩
      · next hbreak =>
        obtain ⟨more, rest, hsegs, hflat, hcuts⟩ := ih (h.join (Bool.eq_false_of_not_eq_true hbreak))
        rw [List.append_assoc] at hsegs hcuts
        refine ⟨[tok] ++ more, rest, hsegs, ?_, hcuts⟩
        rw [List.append_assoc, hflat]
        rfl

/-- The tokens that have a text, cut into the groups that the segments are made of. -/
theorem groupTokensIntoSegments_spec (tokens : List TimedToken) :
    ∃ groups, List.Forall₂ SegmentOf (groupTokensIntoSegments tokens) groups ∧
      groups.flatten = tokens.filter (fun tok => !tok.text.isEmpty) ∧
      groups.IsChain CutBetween := by
  rw [groupTokensIntoSegments]
  induction tokens with
  | nil => exact ⟨[], .nil, rfl, List.IsChain.nil⟩
  | cons tok toks ih =>
    rw [groupFrom]
    split
    · next hempty =>
      rw [List.filter_cons_of_neg (by simpa using hempty)]
      exact ih
    · next hempty =>
      obtain ⟨more, rest, hsegs, hflat, hcuts⟩ := groupFrom_spec toks (segmentOf_open tok)
      refine ⟨_, hsegs, ?_, hcuts⟩
      rw [List.filter_cons_of_pos (by simpa using hempty), List.flatten_cons, List.append_assoc,
        hflat]
      rfl

theorem visible_segments {segs : List GroupedSegment} {groups : List (List TimedToken)}
    (h : List.Forall₂ SegmentOf segs groups) :
    segs.flatMap (fun seg => visible seg.text) =
      groups.flatten.flatMap (fun tok => visible tok.text) := by
  induction h with
  | nil => rfl
  | cons hseg _ ih =>
    rw [List.flatMap_cons, List.flatten_cons, List.flatMap_append, hseg.kept, ih]

theorem visible_filter_empty (tokens : List TimedToken) :
    (tokens.filter (fun tok => !tok.text.isEmpty)).flatMap (fun tok => visible tok.text) =
      tokens.flatMap (fun tok => visible tok.text) := by
  induction tokens with
  | nil => rfl
  | cons tok toks ih =>
    rw [List.flatMap_cons]
    by_cases hempty : tok.text.isEmpty = true
    · rw [List.filter_cons_of_neg (by simpa using hempty), ih, List.isEmpty_iff.mp hempty]
      rfl
    · rw [List.filter_cons_of_pos (by simpa using hempty), List.flatMap_cons, ih]

end Grouping

section Spacing

open Texts

/-- `char::is_control`: the general category `Cc`. -/
def isControl (c : Char) : Bool :=
  let n := c.toNat
  n < 32 || (127 ≤ n && n ≤ 159)

/-- Zero-width space, non-joiner, joiner and byte order mark. -/
def isFormatting (c : Char) : Bool :=
  let n := c.toNat
  n == 8203 || n == 8204 || n == 8205 || n == 65279

/-- Smart quotes, dashes and the ellipsis in ASCII. -/
def replacement (c : Char) : Option (List Char) :=
  let n := c.toNat
  if n = 8216 ∨ n = 8217 then some [Char.ofNat 39]
  else if n = 8220 ∨ n = 8221 then some [Char.ofNat 34]
  else if n = 8212 then some ['-', '-']
  else if n = 8211 then some ['-']
  else if n = 8230 then some ['.', '.', '.']
  else none

/-- What the standard library knows of Unicode letters. -/
structure Alphabet where
  isAlphanumeric : Char → Bool
  isUppercase : Char → Bool
  blank : ∀ c, isWhitespace c = true → isAlphanumeric c = false
  replaced : ∀ c r, replacement c = some r →
    isAlphanumeric c = false ∧ ∀ d ∈ r, isAlphanumeric d = false
  stripped : ∀ c, (isFormatting c || isControl c) = true → isAlphanumeric c = false

def isStop (c : Char) : Bool := c == '.' || c == '!' || c == '?' || c == ','

section

variable (alphabet : Alphabet)

def normalizeSpacing : List Char → List Char
  | [] => []
  | ch :: chars =>
    if isStop ch && chars.head?.any alphabet.isUppercase then ch :: ' ' :: normalizeSpacing chars
    else ch :: normalizeSpacing chars

/-- What one character adds, and `prev_space` after it. -/
def sanitizeChar (prevSpace : Bool) (ch : Char) : List Char × Bool :=
  match replacement ch with
  | some ascii => (ascii, false)
  | none =>
    if ch = ' ' then (if prevSpace then [] else [' '], true)
    else if isFormatting ch || isControl ch then ([], prevSpace)
    else ([ch], false)

def sanitizeFrom : Bool → List Char → List Char
  | _, [] => []
  | prevSpace, ch :: chars =>
    (sanitizeChar prevSpace ch).1 ++ sanitizeFrom (sanitizeChar prevSpace ch).2 chars

def sanitizeText (text : List Char) : List Char := sanitizeFrom false text

/-- The text of a segment, as `transcribe` passes it on. -/
def postProcess (text : List Char) : List Char :=
  sanitizeText (normalizeSpacing alphabet (trim isWhitespace text))

/-- The segments that are kept, whatever the filter. -/
def postProcessSegments (keep : List Char → Bool) (segments : List GroupedSegment) :
    List (GroupedSegment × List Char) :=
  (segments.map (fun seg => (seg, postProcess alphabet seg.text))).filter (fun p => keep p.2)

def letters (text : List Char) : List Char := text.filter alphabet.isAlphanumeric

/-- The letters before a white space and those after it stay apart. -/
def Apart (before after text : List Char) : Prop :=
  ∃ front c back, text = front ++ c :: back ∧ isWhitespace c = true ∧
    letters alphabet front = letters alphabet before ∧
    letters alphabet back = letters alphabet after

end

variable {alphabet : Alphabet} {text before after : List Char} {c : Char} {prevSpace : Bool}

theorem letters_append (a b : List Char) :
    letters alphabet (a ++ b) = letters alphabet a ++ letters alphabet b := List.filter_append ..

theorem letters_cons (c : Char) (text : List Char) :
    letters alphabet (c :: text) = letters alphabet [c] ++ letters alphabet text :=
  letters_append [c] text

theorem letters_cons_space (text : List Char) :
    letters alphabet (' ' :: text) = letters alphabet text :=
  List.filter_cons_of_neg (by simp [alphabet.blank ' ' (by decide)])

theorem letters_normalizeSpacing (text : List Char) :
    letters alphabet (normalizeSpacing alphabet text) = letters alphabet text := by
  induction text with
  | nil => rfl
  | cons c text ih =>
    rw [normalizeSpacing, letters_cons c text]
    split
    · rw [letters_cons, letters_cons_space, ih]
    · rw [letters_cons, ih]

/-- Every character is still there, with the letters around it. -/
theorem normalizeSpacing_split (alphabet : Alphabet) (before after : List Char) (c : Char) :
    ∃ front back, normalizeSpacing alphabet (before ++ c :: after) = front ++ c :: back ∧
      letters alphabet front = letters alphabet before ∧
      letters alphabet back = letters alphabet after := by
  induction before with
  | nil =>
    rw [List.nil_append, normalizeSpacing]
    split
    · exact ⟨[], ' ' :: normalizeSpacing alphabet after, rfl, rfl, by
        rw [letters_cons_space, letters_normalizeSpacing]⟩
    · exact ⟨[], normalizeSpacing alphabet after, rfl, rfl, letters_normalizeSpacing after⟩
  | cons d before ih =>
    obtain ⟨front, back, hsplit, hfront, hback⟩ := ih
    rw [List.cons_append, normalizeSpacing, hsplit]
    split
    · refine ⟨d :: ' ' :: front, back, rfl, ?_, hback⟩
      rw [letters_cons, letters_cons_space, hfront, ← letters_cons]
    · refine ⟨d :: front, back, rfl, ?_, hback⟩
      rw [letters_cons, hfront, ← letters_cons]

theorem letters_eq_nil (text : List Char) (h : ∀ d ∈ text, alphabet.isAlphanumeric d = false) :
    letters alphabet text = [] := by
  rw [letters, List.filter_eq_nil_iff]
  intro d hd
  simp [h d hd]

theorem letters_sanitizeChar (prevSpace : Bool) (c : Char) :
    letters alphabet (sanitizeChar prevSpace c).1 = letters alphabet [c] := by
  rw [sanitizeChar]
  split
  · next ascii hascii =>
    obtain ⟨hc, hr⟩ := alphabet.replaced c ascii hascii
    rw [letters_eq_nil _ hr, letters_eq_nil _ (by simpa using hc)]
  · split
    · next hspace =>
      subst hspace
      split
      · exact (letters_cons_space []).symm
      · rfl
    · split
      · next hstrip => exact (letters_eq_nil _ (by simpa using alphabet.stripped c hstrip)).symm
      · rfl

theorem letters_sanitizeFrom (alphabet : Alphabet) (prevSpace : Bool) (text : List Char) :
    letters alphabet (sanitizeFrom prevSpace text) = letters alphabet text := by
  induction text generalizing prevSpace with
  | nil => rfl
  | cons c text ih =>
    rw [sanitizeFrom, letters_append, ih, letters_sanitizeChar, ← letters_cons]

/-- The output and `prev_space` after a text. -/
def sanitizeRun : Bool → List Char → List Char × Bool
  | prevSpace, [] => ([], prevSpace)
  | prevSpace, ch :: chars =>
    let rest := sanitizeRun (sanitizeChar prevSpace ch).2 chars
    ((sanitizeChar prevSpace ch).1 ++ rest.1, rest.2)

theorem sanitizeFrom_append (prevSpace : Bool) (before after : List Char) :
    sanitizeFrom prevSpace (before ++ after) =
      (sanitizeRun prevSpace before).1 ++ sanitizeFrom (sanitizeRun prevSpace before).2 after := by
  induction before generalizing prevSpace with
  | nil => rfl
  | cons c before ih =>
    rw [List.cons_append, sanitizeFrom, ih, sanitizeRun, List.append_assoc]

theorem sanitizeRun_fst (prevSpace : Bool) (text : List Char) :
    (sanitizeRun prevSpace text).1 = sanitizeFrom prevSpace text := by
  induction text generalizing prevSpace with
  | nil => rfl
  | cons c text ih => rw [sanitizeRun, sanitizeFrom, ih]

/-- `prev_space` says that the output ends with a space. -/
theorem sanitizeChar_prevSpace (h : (sanitizeChar prevSpace c).2 = true) :
    (sanitizeChar prevSpace c).1 = [' '] ∨ (sanitizeChar prevSpace c).1 = [] ∧ prevSpace = true := by
  rw [sanitizeChar] at h ⊢
  split at h
  · contradiction
  · split at h
    · next hc =>
      rw [if_pos hc]
      cases prevSpace with
      | true => exact Or.inr ⟨rfl, rfl⟩
      | false => exact Or.inl rfl
    · next hc =>
      rw [if_neg hc]
      split at h
      · next hstrip =>
        rw [if_pos hstrip]
        exact Or.inr ⟨rfl, h⟩
      · contradiction

theorem sanitizeRun_prevSpace (h : (sanitizeRun prevSpace text).2 = true) :
    (∃ front, (sanitizeRun prevSpace text).1 = front ++ [' ']) ∨
      (sanitizeRun prevSpace text).1 = [] ∧ prevSpace = true := by
  induction text generalizing prevSpace with
  | nil => exact Or.inr ⟨rfl, h⟩
  | cons c text ih =>
    rw [sanitizeRun] at h ⊢
    obtain ⟨front, hfront⟩ | ⟨hnil, hprev⟩ := ih h
    · exact Or.inl ⟨(sanitizeChar prevSpace c).1 ++ front, by
        dsimp only
        rw [hfront, List.append_assoc]⟩
    · dsimp only
      rw [hnil, List.append_nil]
      obtain hspace | hkept := sanitizeChar_prevSpace hprev
      · exact Or.inl ⟨[], hspace⟩
      · exact Or.inr hkept

/-- A white space that is no control character still stands between the letters. -/
theorem sanitizeText_apart (alphabet : Alphabet) (before after : List Char)
    (hspace : isWhitespace c = true) (hcontrol : isControl c = false) :
    Apart alphabet before after (sanitizeText (before ++ c :: after)) := by
  have hletters : letters alphabet (sanitizeRun false before).1 = letters alphabet before := by
    rw [sanitizeRun_fst, letters_sanitizeFrom]
  have hplain : replacement c = none ∧ isFormatting c = false := by
    simp only [isWhitespace, Bool.or_eq_true, Bool.and_eq_true, decide_eq_true_eq,
      beq_iff_eq] at hspace
    simp only [replacement, isFormatting, Bool.or_eq_false_iff, beq_eq_false_iff_ne]
    constructor
    · rw [if_neg (by omega), if_neg (by omega), if_neg (by omega), if_neg (by omega),
        if_neg (by omega)]
    · omega
  rw [sanitizeText, sanitizeFrom_append, sanitizeFrom]
  have hback := letters_sanitizeFrom alphabet
    (sanitizeChar (sanitizeRun false before).2 c).2 after
  generalize sanitizeFrom (sanitizeChar (sanitizeRun false before).2 c).2 after = back at hback ⊢
  simp only [sanitizeChar, hplain.1, hplain.2, hcontrol, Bool.or_self, Bool.false_eq_true,
    if_false]
  split
  · next hc =>
    split
    · next hprev =>
      obtain ⟨front, hfront⟩ | ⟨_, hfalse⟩ := sanitizeRun_prevSpace hprev
      · refine ⟨front, ' ', back, ?_, by decide, ?_, hback⟩
        · rw [hfront, List.append_assoc]
          rfl
        · rw [← hletters, hfront, letters_append, letters_cons_space]
          exact (List.append_nil _).symm
      · contradiction
    · exact ⟨_, ' ', back, rfl, by decide, hletters, hback⟩
  · exact ⟨_, c, back, rfl, hspace, hletters, hback⟩

theorem letters_visible (text : List Char) :
    letters alphabet (visible text) = letters alphabet text := by
  induction text with
  | nil => rfl
  | cons c text ih =>
    rw [visible, letters_cons c text]
    by_cases hc : isWhitespace c = true
    · rw [List.filter_cons_of_neg (by simp [hc]), letters_eq_nil [c]
        (by simpa using alphabet.blank c hc), List.nil_append]
      exact ih
    · rw [List.filter_cons_of_pos (by simpa using hc), letters_cons]
      exact congrArg _ ih

theorem letters_trim (text : List Char) :
    letters alphabet (trim isWhitespace text) = letters alphabet text := by
  rw [← letters_visible, visible_trim, letters_visible]

theorem letters_postProcess (text : List Char) :
    letters alphabet (postProcess alphabet text) = letters alphabet text := by
  rw [postProcess, sanitizeText, letters_sanitizeFrom, letters_normalizeSpacing, letters_trim]

theorem postProcess_apart (hsplit : trim isWhitespace text = before ++ c :: after)
    (hspace : isWhitespace c = true) (hcontrol : isControl c = false) :
    Apart alphabet before after (postProcess alphabet text) := by
  obtain ⟨front, back, hnormal, hfront, hback⟩ :=
    normalizeSpacing_split alphabet before after c
  obtain ⟨front', d, back', htext, hd, hfront', hback'⟩ := sanitizeText_apart
    alphabet front back hspace hcontrol
  refine ⟨front', d, back', ?_, hd, hfront'.trans hfront, hback'.trans hback⟩
  rw [postProcess, hsplit, hnormal, htext]

/-- The segments of a token list and what is passed on of them: every character that is not
white space, in order, segments of the tokens between two breaks, and words that stay apart. -/
theorem groupTokensIntoSegments_keeps (alphabet : Alphabet) (keep : List Char → Bool)
    (tokens : List TimedToken) :
    (groupTokensIntoSegments tokens).flatMap (fun seg => visible seg.text) =
      tokens.flatMap (fun tok => visible tok.text) ∧
    (∃ groups, List.Forall₂ SegmentOf (groupTokensIntoSegments tokens) groups ∧
      groups.flatten = tokens.filter (fun tok => !tok.text.isEmpty) ∧
      groups.IsChain CutBetween) ∧
    ∀ p ∈ postProcessSegments alphabet keep (groupTokensIntoSegments tokens),
      letters alphabet p.2 = letters alphabet p.1.text ∧
      ∀ before c after, trim isWhitespace p.1.text = before ++ c :: after →
        isWhitespace c = true → isControl c = false → Apart alphabet before after p.2 := by
  obtain ⟨groups, hsegs, hflat, hcuts⟩ := groupTokensIntoSegments_spec tokens
  refine ⟨?_, ⟨groups, hsegs, hflat, hcuts⟩, fun p hp => ?_⟩
  · rw [visible_segments hsegs, hflat, visible_filter_empty]
  · obtain ⟨seg, _, rfl⟩ := List.mem_map.mp (List.mem_filter.mp hp).1
    exact ⟨letters_postProcess seg.text, fun _ _ _ => postProcess_apart⟩

/-- ASCII letters and digits. -/
def ascii : Alphabet where
  isAlphanumeric := fun c =>
    let n := c.toNat
    (48 ≤ n && n ≤ 57) || (65 ≤ n && n ≤ 90) || (97 ≤ n && n ≤ 122)
  isUppercase := fun c => let n := c.toNat; 65 ≤ n && n ≤ 90
  blank := by
    intro c h
    simp only [isWhitespace, Bool.or_eq_true, Bool.and_eq_true, decide_eq_true_eq,
      beq_iff_eq] at h
    simp only [Bool.or_eq_false_iff, Bool.and_eq_false_iff, decide_eq_false_iff_not]
    omega
  replaced := by
    intro c r h
    simp only [replacement] at h
    have hc : 8000 < c.toNat := by
      split at h
      · omega
      · split at h
        · omega
        · split at h
          · omega
          · split at h
            · omega
            · split at h
              · omega
              · contradiction
    refine ⟨?_, ?_⟩
    · simp only [Bool.or_eq_false_iff, Bool.and_eq_false_iff, decide_eq_false_iff_not]
      omega
    · split_ifs at h <;> obtain rfl := Option.some.inj h <;> simp
  stripped := by
    intro c h
    simp only [isFormatting, isControl, Bool.or_eq_true, Bool.and_eq_true, decide_eq_true_eq,
      beq_iff_eq] at h
    simp only [Bool.or_eq_false_iff, Bool.and_eq_false_iff, decide_eq_false_iff_not]
    omega

/-- A token of white space alone makes a segment without text, and a tab between two words is
stripped like every control character. -/
theorem blank_token_and_tab :
    ¬(∀ tokens : List TimedToken, tokens.Pairwise (fun a b => a.start ≤ b.start) →
      tokens.Pairwise (fun a b => a.stop ≤ b.stop) → (∀ tok ∈ tokens, tok.start ≤ tok.stop) →
      ∀ seg ∈ groupTokensIntoSegments tokens, seg.text ≠ []) ∧
    ¬(∀ (alphabet : Alphabet) (text before after : List Char) (c : Char),
      trim isWhitespace text = before ++ c :: after → isWhitespace c = true →
      Apart alphabet before after (postProcess alphabet text)) := by
  constructor
  · intro h
    exact h [⟨[' '], 0, 1⟩] (List.pairwise_singleton _ _) (List.pairwise_singleton _ _)
      (by simp) ⟨[], 0, 1⟩ (by decide) rfl
  · intro h
    obtain ⟨front, c, back, htext, hc, _⟩ :=
      h ascii ['a', '\t', 'b'] ['a'] ['b'] '\t' (by decide) (by decide)
    have hout : postProcess ascii ['a', '\t', 'b'] = ['a', 'b'] := by decide
    have hmem : c ∈ ['a', 'b'] := by
      rw [← hout, htext]
      simp
    simp only [List.mem_cons, List.not_mem_nil, or_false] at hmem
    obtain rfl | rfl := hmem <;> exact absurd hc (by decide)

end Spacing

end YapStack.Parakeet
