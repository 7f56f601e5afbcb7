import Mathlib.Data.List.Chain
import YapStack.Citations.Reading
import YapStack.Citations.Resolve

namespace YapStack.Citations

open JsStrings Regex Firsts

inductive CitationPart where
  | text (text : JsString)
  | ref (ref : TranscriptRef)
  | unresolved (token : CitationToken)
  deriving DecidableEq

structure SplitResult where
  parts : List CitationPart
  invalidCount : ℕ
  deriving DecidableEq

/-- `^[0-9a-f][0-9a-f-]{5,}$` -/
def ID_SHAPED : Re ℕ :=
  .seq atStart (.seq (.unit isHex) (.seq (.many true 5 none isId) atEnd))

def isKeepable : CitationToken → Bool
  | .time _ => true
  | .segment segmentId _ => test ID_SHAPED segmentId

def isLiteral : CitationToken → Bool
  | .time _ => false
  | .segment segmentId _ =>
    segmentId.any (fun c => range 'g' 'z' c || range 'G' 'Z' c) && !segmentId.any isDigit

structure ResolvedRun where
  start : ℕ
  stop : ℕ
  tokens : List CitationToken
  refs : List (Option TranscriptRef)
  deriving DecidableEq

/-- `[ \t]` -/
def isBlank : ℕ → Bool := oneOf [' ', '\t']

def trimBlanks (text : JsString) : JsString := (text.reverse.dropWhile isBlank).reverse

/-- `(^|\n)$` -/
def endsLine (text : JsString) : Bool := text.getLast?.all (· = unit '\n')

section Split

variable (lower : JsString → JsString) (index : Option SegmentIndex)

def resolved (token : CitationToken) : Option TranscriptRef :=
  index.bind fun i => resolveCitation lower i token

/-- A marker of words is no citation. -/
def isPlain (m : CitationMarker) : Bool :=
  m.tokens.all fun t => (resolved lower index t).isNone && isLiteral t

/-- A marker of a run; the second component tells whether a resolved run is open. -/
def addResolved (c : List ResolvedRun × Bool) (m : CitationMarker) : List ResolvedRun × Bool :=
  let refs := m.tokens.map (resolved lower index)
  if isPlain lower index m then (c.1, false)
  else
    match c.2, c.1.getLast? with
    | true, some current =>
      (c.1.dropLast ++ [⟨current.start, m.stop, current.tokens ++ m.tokens, current.refs ++ refs⟩],
        true)
    | _, _ => (c.1 ++ [⟨m.start, m.stop, m.tokens, refs⟩], true)

def resolveRuns (text : JsString) : List ResolvedRun :=
  (parseCitations text).foldl
    (fun out run => (run.markers.foldl (addResolved lower index) (out, false)).1) []

end Split

structure Rendered where
  seen : List JsString
  rendered : List CitationPart
  invalidCount : ℕ

def renderToken (keepUnresolved : Bool) (r : Rendered) :
    CitationToken × Option TranscriptRef → Rendered
  | (token, none) =>
    { r with
      invalidCount := r.invalidCount + 1
      rendered := if keepUnresolved && isKeepable token then r.rendered ++ [.unresolved token]
        else r.rendered }
  | (_, some ref) =>
    if r.seen.contains ref.segmentId then r
    else { r with seen := r.seen ++ [ref.segmentId], rendered := r.rendered ++ [.ref ref] }

def renderRun (keepUnresolved : Bool) (run : ResolvedRun) : Rendered :=
  (run.tokens.zip run.refs).foldl (renderToken keepUnresolved) ⟨[], [], 0⟩

/-- The parts, what the line is taken to be so far, and where to read on. -/
structure Output where
  parts : List CitationPart
  emitted : JsString
  cursor : ℕ
  invalidCount : ℕ

def pushText (o : Output) (t : JsString) : Output :=
  if t = [] then o
  else
    { o with
      emitted := o.emitted ++ t
      parts := match o.parts.getLast? with
        | some (.text last) => o.parts.dropLast ++ [.text (last ++ t)]
        | _ => o.parts ++ [.text t] }

/-- `rendered.forEach((part, i) => …)` -/
def pushParts (o : Output) : ℕ → List CitationPart → Output
  | _, [] => o
  | i, part :: rest =>
    let o := if i > 0 then pushText o [unit ' '] else o
    pushParts { o with parts := o.parts ++ [part], emitted := o.emitted ++ [0] } (i + 1) rest

/-- The text before a run and where the run ends, once a run that shows nothing takes the space on
its left with it, or that on its right at the start of a line. -/
def around (text : JsString) (o : Output) (run : ResolvedRun) (shows : Bool) : JsString × ℕ :=
  let before := slice text o.cursor run.start
  if shows then (before, run.stop)
  else
    let trimmed := trimBlanks before
    if trimmed.length < before.length then (trimmed, run.stop)
    else if endsLine (o.emitted ++ before) then
      (before, run.stop + ((text.drop run.stop).takeWhile isBlank).length)
    else (before, run.stop)

def splitRun (text : JsString) (keepUnresolved : Bool) (o : Output) (run : ResolvedRun) : Output :=
  let r := renderRun keepUnresolved run
  let a := around text o run (r.rendered ≠ [])
  let o := pushParts (pushText o a.1) 0 r.rendered
  { o with cursor := a.2, invalidCount := o.invalidCount + r.invalidCount }

def splitCitations (lower : JsString → JsString) (text : JsString) (index : Option SegmentIndex)
    (keepUnresolved : Bool) : SplitResult :=
  let runs := resolveRuns lower index text
  if runs = [] then ⟨[.text text], 0⟩
  else
    let o := runs.foldl (splitRun text keepUnresolved) ⟨[], [], 0, 0⟩
    let o := pushText o (text.drop o.cursor)
    ⟨o.parts, o.invalidCount⟩

/-! The runs. -/

/-- Only what may stand between the markers of a run. -/
def joins (text : JsString) (a b : CitationMarker) : Prop :=
  test RUN_GAP (slice text a.stop b.start) = true

section Runs

variable {lower : JsString → JsString} {index : Option SegmentIndex} {text : JsString}
  {m : CitationMarker}

/-- Markers side by side as one run. -/
def runOf (lower : JsString → JsString) (index : Option SegmentIndex)
    (group : List CitationMarker) : ResolvedRun :=
  let tokens := group.flatMap (·.tokens)
  ⟨(group.head?.map (·.start)).getD 0, (group.getLast?.map (·.stop)).getD 0, tokens,
    tokens.map (resolved lower index)⟩

theorem runOf_append {group : List CitationMarker} (h : group ≠ []) :
    runOf lower index (group ++ [m]) =
      let run := runOf lower index group
      ⟨run.start, m.stop, run.tokens ++ m.tokens,
        run.refs ++ m.tokens.map (resolved lower index)⟩ := by
  obtain ⟨a, rest, rfl⟩ := List.exists_cons_of_ne_nil h
  simp only [runOf, List.getLast?_concat, List.flatMap_append, List.map_append,
    List.flatMap_singleton]
  rfl

/-- What a parsed run holds. -/
structure Joined (text : JsString) (run : ParsedCitation) : Prop where
  last : run.markers.getLast?.map (·.stop) = some run.stop
  chain : run.markers.IsChain (joins text)

theorem Joined.add {runs : List ParsedCitation} (h : ∀ run ∈ runs, Joined text run)
    (m : CitationMarker) : ∀ run ∈ addMarker text runs m, Joined text run := by
  have hnew : Joined text ⟨m.start, m.stop, m.tokens, [m]⟩ := ⟨rfl, List.isChain_singleton m⟩
  intro run hrun
  rw [addMarker] at hrun
  cases hlast : runs.getLast? with
  | none =>
    rw [hlast] at hrun
    rw [List.mem_singleton.mp hrun]
    exact hnew
  | some prev =>
    rw [hlast] at hrun
    dsimp only at hrun
    have hprev := h prev (List.mem_of_getLast? hlast)
    split at hrun
    · rename_i hgap
      obtain hrun | hrun := List.mem_append.mp hrun
      · exact h run (List.dropLast_subset _ hrun)
      · rw [List.mem_singleton.mp hrun]
        refine ⟨by simp, List.isChain_append.mpr
          ⟨hprev.chain, List.isChain_singleton m, fun a ha b hb => ?_⟩⟩
        obtain rfl := Option.some.inj hb
        have hstop := hprev.last
        rw [ha, Option.map_some] at hstop
        rw [joins, Option.some.inj hstop]
        exact hgap
    · obtain hrun | hrun := List.mem_append.mp hrun
      · exact h run hrun
      · rw [List.mem_singleton.mp hrun]
        exact hnew

theorem parseCitations_joined (text : JsString) :
    ∀ run ∈ parseCitations text, Joined text run := by
  rw [parseCitations]
  generalize (matchAll MARKER_REGEX text).filterMap toMarker = markers
  have hrun : ∀ runs : List ParsedCitation, (∀ run ∈ runs, Joined text run) →
      ∀ run ∈ markers.foldl (addMarker text) runs, Joined text run := by
    induction markers with
    | nil => exact fun runs h => h
    | cons m markers ih => exact fun runs h => ih _ (Joined.add h m)
  exact hrun [] fun run h => by cases h

/-- The resolved runs after some markers: groups of them side by side, without the plain ones. -/
structure Grouped (lower : JsString → JsString) (index : Option SegmentIndex) (text : JsString)
    (done : List CitationMarker) (c : List ResolvedRun × Bool)
    (groups : List (List CitationMarker)) : Prop where
  runs : c.1 = groups.map (runOf lower index)
  markers : groups.flatten = done.filter (!isPlain lower index ·)
  chains : ∀ g ∈ groups, g ≠ [] ∧ g <:+: done ∧ g.IsChain (joins text)
  current : c.2 = true → ∃ before g, groups = before ++ [g] ∧ g <:+ done

theorem Grouped.step {done : List CitationMarker} {c : List ResolvedRun × Bool}
    {groups : List (List CitationMarker)} (h : Grouped lower index text done c groups)
    (hgap : c.2 = true → ∀ m', done.getLast? = some m' → joins text m' m) :
    ∃ groups', Grouped lower index text (done ++ [m]) (addResolved lower index c m) groups' := by
  have hold : ∀ g ∈ groups, g ≠ [] ∧ g <:+: done ++ [m] ∧ g.IsChain (joins text) := by
    intro g hg
    obtain ⟨hne, hinfix, hchain⟩ := h.chains g hg
    exact ⟨hne, hinfix.trans (List.prefix_append done [m]).isInfix, hchain⟩
  rw [addResolved]
  split
  · rename_i hplain
    refine ⟨groups, h.runs, ?_, hold, fun hopen => by cases hopen⟩
    rw [h.markers, List.filter_append]
    simp [hplain]
  · rename_i hplain
    have hmarkers : (done ++ [m]).filter (!isPlain lower index ·) =
        groups.flatten ++ [m] := by
      rw [h.markers, List.filter_append]
      simp [hplain]
    have hnew : Grouped lower index text (done ++ [m])
        (c.1 ++ [⟨m.start, m.stop, m.tokens, m.tokens.map (resolved lower index)⟩], true)
        (groups ++ [[m]]) := by
      have hsuffix : [m] <:+ done ++ [m] := List.suffix_append done [m]
      refine ⟨by rw [h.runs, List.map_append]; simp [runOf], by rw [hmarkers]; simp,
        fun g hg => ?_, fun _ => ⟨groups, [m], rfl, hsuffix⟩⟩
      obtain hg | hg := List.mem_append.mp hg
      · exact hold g hg
      · rw [List.mem_singleton.mp hg]
        exact ⟨List.cons_ne_nil m [], hsuffix.isInfix, List.isChain_singleton m⟩
    obtain ⟨out, open_⟩ := c
    cases open_ with
    | false => exact ⟨_, hnew⟩
    | true =>
      obtain ⟨before, g, rfl, x, rfl⟩ := h.current rfl
      have hruns : out = before.map (runOf lower index) ++ [runOf lower index g] := by
        have hout : out = _ := h.runs
        rw [hout, List.map_append, List.map_singleton]
      obtain ⟨hne, -, hchain⟩ := h.chains g (by simp)
      have hsuffix : g ++ [m] <:+ x ++ g ++ [m] := ⟨x, by simp⟩
      refine ⟨before ++ [g ++ [m]], ?_, ?_, fun g' hg' => ?_, fun _ => ?_⟩
      · rw [hruns, List.getLast?_concat, List.dropLast_concat, List.map_append,
          List.map_singleton, runOf_append hne]
      · rw [hmarkers]
        simp
      · obtain hg' | hg' := List.mem_append.mp hg'
        · exact hold g' (List.mem_append_left _ hg')
        · rw [List.mem_singleton.mp hg']
          refine ⟨by simp, hsuffix.isInfix, List.isChain_append.mpr
            ⟨hchain, List.isChain_singleton m, fun a ha b hb => ?_⟩⟩
          obtain rfl := Option.some.inj hb
          refine hgap rfl a ?_
          rw [List.getLast?_append_of_ne_nil x hne]
          exact ha
      · exact ⟨before, g ++ [m], rfl, hsuffix⟩

theorem Grouped.run {done ms : List CitationMarker} {c : List ResolvedRun × Bool}
    {groups : List (List CitationMarker)} (h : Grouped lower index text done c groups)
    (hgap : c.2 = true → ∀ m', done.getLast? = some m' → ∀ m ∈ ms.head?, joins text m' m)
    (hchain : ms.IsChain (joins text)) :
    ∃ groups', Grouped lower index text (done ++ ms)
      (ms.foldl (addResolved lower index) c) groups' := by
  induction ms generalizing done c groups with
  | nil => exact ⟨groups, by rwa [List.append_nil]⟩
  | cons m ms ih =>
    obtain ⟨groups', h'⟩ := h.step (m := m) fun hopen m' hm' => hgap hopen m' hm' m rfl
    have hlist : done ++ m :: ms = done ++ [m] ++ ms := by simp
    rw [List.foldl_cons, hlist]
    refine ih h' (fun _ m' hm' n hn => ?_) hchain.tail
    rw [List.getLast?_concat] at hm'
    obtain rfl := Option.some.inj hm'
    exact List.isChain_cons.mp hchain |>.1 n hn

theorem resolveRuns_groups (lower : JsString → JsString) (index : Option SegmentIndex)
    (text : JsString) :
    ∃ groups : List (List CitationMarker), resolveRuns lower index text = groups.map (runOf lower index) ∧
      groups.flatten = (markersOf text).filter (!isPlain lower index ·) ∧
      ∀ g ∈ groups, g ≠ [] ∧ g <:+: markersOf text ∧ g.IsChain (joins text) := by
  have hfold : ∀ (runs : List ParsedCitation) (done : List CitationMarker)
      (out : List ResolvedRun) (groups : List (List CitationMarker)),
      (∀ run ∈ runs, Joined text run) → Grouped lower index text done (out, false) groups →
      ∃ groups', Grouped lower index text (done ++ runs.flatMap (·.markers))
        (runs.foldl (fun out run => (run.markers.foldl (addResolved lower index) (out, false)).1)
          out, false) groups' := by
    intro runs
    induction runs with
    | nil => exact fun done out groups _ h => ⟨groups, by simpa using h⟩
    | cons run runs ih =>
      intro done out groups hjoined h
      obtain ⟨groups', h'⟩ := h.run (fun hopen => by cases hopen)
        (hjoined run List.mem_cons_self).chain
      have hclosed : Grouped lower index text (done ++ run.markers)
          ((run.markers.foldl (addResolved lower index) (out, false)).1, false) groups' :=
        ⟨h'.runs, h'.markers, h'.chains, fun hopen => by cases hopen⟩
      rw [List.flatMap_cons, ← List.append_assoc, List.foldl_cons]
      exact ih _ _ _ (fun r hr => hjoined r (List.mem_cons_of_mem run hr)) hclosed
  have hzero : Grouped lower index text [] ([], false) [] :=
    ⟨rfl, rfl, fun g hg => (by cases hg), fun hopen => (by cases hopen)⟩
  obtain ⟨groups, h⟩ := hfold (parseCitations text) [] [] [] (parseCitations_joined text) hzero
  exact ⟨groups, h.runs, by rw [h.markers]; rfl, h.chains⟩

end Runs

/-! What a run shows. -/

def CitationPart.ref? : CitationPart → Option TranscriptRef
  | .ref r => some r
  | _ => none

def CitationPart.token? : CitationPart → Option CitationToken
  | .unresolved t => some t
  | _ => none

def CitationPart.isText : CitationPart → Bool
  | .text _ => true
  | _ => false

theorem foldl_renderToken (keep : Bool) (pairs : List (CitationToken × Option TranscriptRef))
    (r : Rendered) :
    let r' := pairs.foldl (renderToken keep) r
    r'.invalidCount = r.invalidCount + pairs.countP (·.2.isNone) ∧
      r'.rendered.filterMap (·.ref?) = r.rendered.filterMap (·.ref?) ++
        (firsts TranscriptRef.segmentId (pairs.filterMap (·.2))).filter (·.segmentId ∉ r.seen) ∧
      r'.rendered.filterMap (·.token?) = r.rendered.filterMap (·.token?) ++
        ((pairs.filter (·.2.isNone)).map (·.1)).filter (keep && isKeepable ·) ∧
      ((∀ p ∈ r.rendered, p.isText = false) → ∀ p ∈ r'.rendered, p.isText = false) := by
  induction pairs generalizing r with
  | nil => simp [firsts]
  | cons pair pairs ih =>
    obtain ⟨token, ref⟩ := pair
    obtain ⟨hcount, hrefs, htokens, htext⟩ := ih (renderToken keep r (token, ref))
    dsimp only
    rw [List.foldl_cons]
    cases ref with
    | none =>
      rw [List.countP_cons_of_pos rfl, List.filterMap_cons_none rfl, List.filter_cons_of_pos rfl,
        List.map_cons, List.filter_cons, hcount, hrefs, htokens]
      rw [renderToken] at htext ⊢
      dsimp only at htext ⊢
      cases hkeep : keep && isKeepable token with
      | false =>
        rw [hkeep] at htext
        exact ⟨by omega, rfl, rfl, htext⟩
      | true =>
        rw [hkeep] at htext
        refine ⟨by omega, by simp [CitationPart.ref?], by simp [CitationPart.token?],
          fun h => htext fun p hp => ?_⟩
        obtain hp | hp := List.mem_append.mp hp
        · exact h p hp
        · rw [List.mem_singleton.mp hp]
          rfl
    | some ref =>
      have hsome : ((token, some ref) :: pairs).filterMap (·.2) = ref :: pairs.filterMap (·.2) :=
        rfl
      rw [List.countP_cons_of_neg (by simp), hsome,
        List.filter_cons_of_neg (by simp), hcount, hrefs, htokens, firsts, List.filter_cons]
      rw [renderToken] at htext ⊢
      split
      · rename_i hcontains
        rw [if_pos hcontains] at htext
        have hseen := List.contains_iff_mem.mp hcontains
        refine ⟨rfl, ?_, rfl, htext⟩
        rw [if_neg (by simpa using hseen), List.filter_filter]
        congr 1
        apply List.filter_congr
        intro other _
        by_cases heq : other.segmentId = ref.segmentId
        · simp [heq, hseen]
        · simp [heq]
      · rename_i hcontains
        rw [if_neg hcontains] at htext
        have hnew : ref.segmentId ∉ r.seen := fun h => hcontains (List.contains_iff_mem.mpr h)
        refine ⟨rfl, ?_, by simp [CitationPart.token?], fun h => htext fun p hp => ?_⟩
        · rw [if_pos (by simpa using hnew), List.filterMap_append, List.append_assoc,
            List.filter_filter]
          congr 1
          have hone : [CitationPart.ref ref].filterMap (·.ref?) = [ref] := rfl
          rw [hone, List.singleton_append]
          congr 1
          apply List.filter_congr
          intro other _
          simp [not_or]
        · obtain hp | hp := List.mem_append.mp hp
          · exact h p hp
          · rw [List.mem_singleton.mp hp]
            rfl

/-- A run shows each segment it refers to once, in the order of the tokens, and its unresolved
tokens that are kept. -/
theorem renderRun_spec (keep : Bool) (run : ResolvedRun) :
    let pairs := run.tokens.zip run.refs
    (renderRun keep run).invalidCount = pairs.countP (·.2.isNone) ∧
      (renderRun keep run).rendered.filterMap (·.ref?) =
        firsts TranscriptRef.segmentId (pairs.filterMap (·.2)) ∧
      (renderRun keep run).rendered.filterMap (·.token?) =
        ((pairs.filter (·.2.isNone)).map (·.1)).filter (keep && isKeepable ·) ∧
      ∀ p ∈ (renderRun keep run).rendered, p.isText = false := by
  obtain ⟨hcount, hrefs, htokens, htext⟩ :=
    foldl_renderToken keep (run.tokens.zip run.refs) ⟨[], [], 0⟩
  refine ⟨by rw [renderRun, hcount, Nat.zero_add], ?_, htokens, htext fun p hp => by cases hp⟩
  rw [renderRun, hrefs]
  simp

/-! The parts, unit by unit. -/

def single (c : ℕ) : CitationPart := .text [c]

def atoms : CitationPart → List CitationPart
  | .text t => t.map single
  | part => [part]

/-- Text of spaces and tabs only. -/
def isSpacing : CitationPart → Bool
  | .text t => t.all isBlank
  | _ => false

def solid (parts : List CitationPart) : List CitationPart := parts.filter (!isSpacing ·)

def space : CitationPart := single (unit ' ')

/-- The text with what its runs show in their place, each separated by a space. -/
def laid (text : JsString) (keep : Bool) : ℕ → List ResolvedRun → List CitationPart
  | c, [] => (text.drop c).map single
  | c, run :: rest =>
    (slice text c run.start).map single ++ (renderRun keep run).rendered.intersperse space ++
      laid text keep run.stop rest

/-- Each run starts after the one before, and not with a space. -/
def Placed (text : JsString) : ℕ → List ResolvedRun → Prop
  | _, [] => True
  | c, run :: rest => c ≤ run.start ∧ run.start ≤ run.stop ∧
      text[run.start]?.any (!isBlank ·) = true ∧ Placed text run.stop rest

theorem solid_append (a b : List CitationPart) : solid (a ++ b) = solid a ++ solid b :=
  List.filter_append a b

theorem solid_blank {t : JsString} (h : t.all isBlank = true) : solid (t.map single) = [] := by
  rw [solid, List.filter_eq_nil_iff]
  intro p hp
  obtain ⟨c, hc, rfl⟩ := List.mem_map.mp hp
  have := List.all_eq_true.mp h c hc
  simp [isSpacing, single, this]

theorem atoms_of_not_text {p : CitationPart} (h : p.isText = false) : atoms p = [p] := by
  cases p with
  | text t => cases h
  | ref r => rfl
  | unresolved t => rfl

section Layout

variable {text : JsString} {keep : Bool} {o : Output}

theorem pushText_atoms (o : Output) (t : JsString) :
    (pushText o t).parts.flatMap atoms = o.parts.flatMap atoms ++ t.map single := by
  rw [pushText]
  split
  · rename_i h
    rw [h, List.map_nil, List.append_nil]
  · dsimp only
    split
    · rename_i last hlast
      have hparts : o.parts.dropLast ++ [.text last] = o.parts :=
        List.dropLast_append_getLast? _ hlast
      conv_rhs => rw [← hparts]
      simp [atoms]
    · simp [atoms]

theorem pushText_cursor (o : Output) (t : JsString) : (pushText o t).cursor = o.cursor := by
  rw [pushText]
  split <;> rfl

theorem pushText_invalidCount (o : Output) (t : JsString) :
    (pushText o t).invalidCount = o.invalidCount := by
  rw [pushText]
  split <;> rfl

theorem pushParts_invalidCount (o : Output) (i : ℕ) (parts : List CitationPart) :
    (pushParts o i parts).invalidCount = o.invalidCount := by
  induction parts generalizing o i with
  | nil => rfl
  | cons part rest ih =>
    rw [pushParts, ih]
    dsimp only
    split
    · rw [pushText_invalidCount]
    · rfl

theorem pushParts_rest (o : Output) (i : ℕ) {parts : List CitationPart}
    (h : ∀ p ∈ parts, p.isText = false) :
    (pushParts o (i + 1) parts).parts.flatMap atoms =
      o.parts.flatMap atoms ++ parts.flatMap fun p => [space, p] := by
  induction parts generalizing o i with
  | nil => simp [pushParts]
  | cons part rest ih =>
    rw [pushParts, ih _ _ fun p hp => h p (List.mem_cons_of_mem part hp), if_pos (Nat.succ_pos i)]
    dsimp only
    rw [List.flatMap_append, pushText_atoms, List.flatMap_singleton,
      atoms_of_not_text (h part List.mem_cons_self), List.flatMap_cons]
    simp [space]

theorem intersperse_cons (sep p : CitationPart) (rest : List CitationPart) :
    (p :: rest).intersperse sep = p :: rest.flatMap fun q => [sep, q] := by
  induction rest generalizing p with
  | nil => rfl
  | cons q rest ih => rw [List.intersperse_cons_cons, ih, List.flatMap_cons]; rfl

theorem pushParts_atoms (o : Output) {parts : List CitationPart}
    (h : ∀ p ∈ parts, p.isText = false) :
    (pushParts o 0 parts).parts.flatMap atoms =
      o.parts.flatMap atoms ++ parts.intersperse space := by
  cases parts with
  | nil => simp [pushParts]
  | cons part rest =>
    rw [pushParts, pushParts_rest _ _ fun p hp => h p (List.mem_cons_of_mem part hp),
      intersperse_cons, if_neg (Nat.lt_irrefl 0)]
    dsimp only
    rw [List.flatMap_append, List.flatMap_singleton,
      atoms_of_not_text (h part List.mem_cons_self), List.append_assoc]
    rfl

theorem slice_append {a b c : ℕ} (hab : a ≤ b) (hbc : b ≤ c) (text : JsString) :
    slice text a b ++ slice text b c = slice text a c := by
  obtain ⟨d, rfl⟩ := Nat.exists_eq_add_of_le hab
  obtain ⟨e, rfl⟩ := Nat.exists_eq_add_of_le hbc
  have hlen : a + d + e - a = d + e := by omega
  rw [slice, slice, slice, Nat.add_sub_cancel_left, Nat.add_sub_cancel_left, hlen, List.take_add,
    List.drop_drop]

theorem slice_drop {a b : ℕ} (hab : a ≤ b) (text : JsString) :
    slice text a b ++ text.drop b = text.drop a := by
  obtain ⟨d, rfl⟩ := Nat.exists_eq_add_of_le hab
  rw [slice, Nat.add_sub_cancel_left, ← List.drop_drop, List.take_append_drop]

theorem solid_trimBlanks (t : JsString) :
    solid ((trimBlanks t).map single) = solid (t.map single) := by
  have hrev : t = trimBlanks t ++ (t.reverse.takeWhile isBlank).reverse := by
    rw [trimBlanks, ← List.reverse_append, List.takeWhile_append_dropWhile, List.reverse_reverse]
  have hblank : (t.reverse.takeWhile isBlank).reverse.all isBlank = true := by
    rw [List.all_reverse]
    exact List.all_takeWhile
  conv_rhs => rw [hrev]
  rw [List.map_append, solid_append, solid_blank hblank, List.append_nil]

theorem around_spec (text : JsString) (o : Output) (run : ResolvedRun) (shows : Bool) :
    let a := around text o run shows
    solid (a.1.map single) = solid ((slice text o.cursor run.start).map single) ∧
      run.stop ≤ a.2 ∧ (slice text run.stop a.2).all isBlank = true ∧
      (shows = true → a = (slice text o.cursor run.start, run.stop)) := by
  have hempty : (slice text run.stop run.stop).all isBlank = true := by
    rw [slice, Nat.sub_self, List.take_zero]
    rfl
  dsimp only
  rw [around]
  dsimp only
  split
  · exact ⟨rfl, Nat.le_refl _, hempty, fun _ => rfl⟩
  · rename_i hshows
    refine ⟨?_, ?_, ?_, fun h => absurd h hshows⟩
    · split
      · exact solid_trimBlanks _
      · split <;> rfl
    · split
      · exact Nat.le_refl _
      · split
        · exact Nat.le_add_right _ _
        · exact Nat.le_refl _
    · split
      · exact hempty
      · split
        · rw [slice, Nat.add_sub_cancel_left]
          have htake := List.takeWhile_prefix (l := text.drop run.stop) isBlank
          rw [← List.prefix_iff_eq_take.mp htake]
          exact List.all_takeWhile
        · exact hempty

/-- Reading on past spaces only changes nothing but spaces. -/
theorem laid_past (keep : Bool) {runs : List ResolvedRun} {c d : ℕ} (hle : c ≤ d)
    (hblank : (slice text c d).all isBlank = true) (hplaced : Placed text c runs) :
    solid (laid text keep d runs) = solid (laid text keep c runs) := by
  cases runs with
  | nil =>
    rw [laid, laid, ← slice_drop hle text, List.map_append, solid_append, solid_blank hblank]
    rfl
  | cons run rest =>
    obtain ⟨hstart, -, hsolid, -⟩ := hplaced
    have hd : d ≤ run.start := by
      by_contra hlt
      have hget : (slice text c d)[run.start - c]? = text[run.start]? := by
        rw [slice, List.getElem?_take_of_lt (by omega), List.getElem?_drop]
        congr 1
        omega
      rw [← hget] at hsolid
      cases hu : (slice text c d)[run.start - c]? with
      | none => simp [hu] at hsolid
      | some u =>
        have hb := List.all_eq_true.mp hblank u (List.mem_of_getElem? hu)
        simp [hu, hb] at hsolid
    rw [laid, laid, ← slice_append hle hd text, List.map_append, List.append_assoc,
      List.append_assoc, List.append_assoc, solid_append (List.map single (slice text c d)),
      solid_blank hblank]
    rfl

theorem splitRun_atoms (text : JsString) (keep : Bool) (o : Output) (run : ResolvedRun) :
    (splitRun text keep o run).parts.flatMap atoms = o.parts.flatMap atoms ++
      (around text o run ((renderRun keep run).rendered ≠ [])).1.map single ++
        (renderRun keep run).rendered.intersperse space := by
  rw [splitRun]
  dsimp only
  rw [pushParts_atoms _ (renderRun_spec keep run).2.2.2, pushText_atoms]

/-- What the loop over the runs has put out, with the rest of the text. -/
theorem foldl_splitRun (text : JsString) (keep : Bool) {runs : List ResolvedRun} {c : ℕ} (hle : c ≤ o.cursor)
    (hblank : (slice text c o.cursor).all isBlank = true) (hplaced : Placed text c runs) :
    let o' := runs.foldl (splitRun text keep) o
    solid (o'.parts.flatMap atoms ++ (text.drop o'.cursor).map single) =
        solid (o.parts.flatMap atoms ++ laid text keep c runs) ∧
      o'.invalidCount = o.invalidCount +
        (runs.flatMap fun run => run.tokens.zip run.refs).countP (·.2.isNone) ∧
      ((∀ run ∈ runs, (renderRun keep run).rendered ≠ []) → o.cursor = c →
        o'.parts.flatMap atoms ++ (text.drop o'.cursor).map single =
          o.parts.flatMap atoms ++ laid text keep c runs) := by
  induction runs generalizing o c with
  | nil =>
    refine ⟨?_, rfl, fun _ hc => by rw [List.foldl_nil, hc]; rfl⟩
    rw [List.foldl_nil, solid_append, solid_append, ← laid_past keep hle hblank hplaced]
    rfl
  | cons run rest ih =>
    obtain ⟨hsolid, hstop, hpast, hshows⟩ :=
      around_spec text o run ((renderRun keep run).rendered ≠ [])
    have hatoms := splitRun_atoms text keep o run
    have hcursor : (splitRun text keep o run).cursor =
      (around text o run ((renderRun keep run).rendered ≠ [])).2 := rfl
    rw [← hcursor] at hstop hpast
    obtain ⟨hparts, hcount, hexact⟩ := ih hstop hpast hplaced.2.2.2
    rw [List.foldl_cons]
    refine ⟨?_, ?_, fun hall hc => ?_⟩
    · have hlaid := laid_past keep hle hblank hplaced
      rw [hparts, hatoms, solid_append, solid_append, solid_append, hsolid,
        solid_append (List.flatMap atoms o.parts), ← hlaid, laid, solid_append, solid_append]
      simp only [List.append_assoc]
    · have hrun : (splitRun text keep o run).invalidCount =
          o.invalidCount + (run.tokens.zip run.refs).countP (·.2.isNone) := by
        rw [splitRun]
        dsimp only
        rw [pushParts_invalidCount, pushText_invalidCount, (renderRun_spec keep run).1]
      rw [hcount, hrun, List.flatMap_cons, List.countP_append, Nat.add_assoc]
    · have hne := hall run List.mem_cons_self
      have heq := hshows (decide_eq_true hne)
      have hc' : (splitRun text keep o run).cursor = run.stop := by rw [hcursor, heq]
      rw [hexact (fun r hr => hall r (List.mem_cons_of_mem run hr)) hc', hatoms, heq, hc, laid]
      simp only [List.append_assoc]

end Layout

section Accounts

variable {lower : JsString → JsString} {index : Option SegmentIndex} {text : JsString}

theorem not_blank_of_starts {c : ℕ} (h : startsMarker c = true) : isBlank c = false := by
  by_contra hblank
  rw [Bool.not_eq_false, isBlank, oneOf_iff] at hblank
  simp only [List.map_cons, List.map_nil, List.mem_cons, List.not_mem_nil, or_false] at hblank
  obtain rfl | rfl := hblank <;> revert h <;> decide

theorem placed_groups {groups : List (List CitationMarker)} {c : ℕ}
    (hne : ∀ g ∈ groups, g ≠ [])
    (hsorted : groups.flatten.Pairwise fun a b => a.stop ≤ b.start)
    (hm : ∀ m ∈ groups.flatten, c ≤ m.start ∧ m.start < m.stop ∧
      text[m.start]?.any startsMarker = true) :
    Placed text c (groups.map (runOf lower index)) := by
  induction groups generalizing c with
  | nil => trivial
  | cons g groups ih =>
    rw [List.flatten_cons] at hsorted hm
    obtain ⟨hown, hrest, hacross⟩ := List.pairwise_append.mp hsorted
    obtain ⟨a, g', rfl⟩ := List.exists_cons_of_ne_nil (hne g List.mem_cons_self)
    obtain ⟨last, hlast⟩ : ∃ last, (a :: g').getLast? = some last :=
      ⟨_, List.getLast?_eq_some_getLast (List.cons_ne_nil a g')⟩
    have hmem : last ∈ a :: g' := List.mem_of_getLast? hlast
    obtain ⟨hstart, hstop, hsign⟩ := hm a (by simp)
    have hrun : (runOf lower index (a :: g')).stop = last.stop := by
      rw [runOf, hlast]
      rfl
    have hlen : a.start ≤ last.stop := by
      obtain rfl | hmem := List.mem_cons.mp hmem
      · exact Nat.le_of_lt hstop
      · have hle := (List.pairwise_cons.mp hown).1 last hmem
        have hlt := (hm last (by simp [hmem])).2.1
        omega
    rw [List.map_cons, Placed, hrun]
    refine ⟨hstart, hlen, ?_, ih (fun g hg => hne g (List.mem_cons_of_mem _ hg)) hrest
      fun m hmr => ⟨hacross last hmem m hmr, (hm m (List.mem_append_right _ hmr)).2⟩⟩
    show text[a.start]?.any (!isBlank ·) = true
    cases hu : text[a.start]? with
    | none => simp [hu] at hsign
    | some u =>
      rw [hu, Option.any_some] at hsign
      rw [Option.any_some, not_blank_of_starts hsign]
      rfl

theorem zip_runOf (g : List CitationMarker) :
    (runOf lower index g).tokens.zip (runOf lower index g).refs =
      (runOf lower index g).tokens.map fun t => (t, resolved lower index t) := by
  rw [runOf]
  dsimp only
  induction g.flatMap (·.tokens) with
  | nil => rfl
  | cons t ts ih => rw [List.map_cons, List.zip_cons_cons, ih, List.map_cons]

end Accounts

end YapStack.Citations
