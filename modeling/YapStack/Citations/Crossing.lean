import Mathlib.Data.List.Chain
import Mathlib.Data.List.Sort
import YapStack.Citations.Reading

namespace YapStack.Citations

open JsStrings Regex

structure TextSpan where
  text : JsString
  literal : Bool
  deriving DecidableEq

/-- `^[0-9a-f]{8}-[0-9a-f]{4}-[0-9a-f]{4}-[0-9a-f]{4}-[0-9a-f]{12}$` -/
def FULL_UUID : Re ℕ :=
  let hex n := Re.seq (between n n isHex) (sign '-')
  .seq atStart (.seq (hex 8) (.seq (hex 4) (.seq (hex 4) (.seq (hex 4)
    (.seq (between 12 12 isHex) atEnd)))))

/-- `^seg[:_]` -/
def BARE_MARKER : Re ℕ :=
  .seq atStart (.seq (letters ['s', 'e', 'g']) (.unit (oneOf [':', '_'])))

def isUnterminated (marker : JsString) : Bool :=
  if marker.getLast?.any (oneOf [']', ')']) then false
  else if marker.head?.any (oneOf ['[', '(']) then true
  else
    let id := ((search BARE_MARKER marker).map fun m => marker.drop m.stop).getD marker
    !test FULL_UUID id

/-- `starts[q]`; past the last piece, the end of the line. -/
def startOf : List JsString → ℕ → ℕ
  | _, 0 => 0
  | [], _ + 1 => 0
  | piece :: rest, q + 1 => piece.length + startOf rest q

/-- The pointer over the pieces, the literal ranges of each, in its own offsets, and the markers
both readings may agree on. -/
structure Walk where
  p : ℕ
  literal : ℕ → List (ℕ × ℕ)
  agreed : List (ℕ × ℕ)

/-- `while (p < pieces.length - 1 && starts[p + 1] <= start) p++` -/
def advance (pieces : List JsString) (start : ℕ) : ℕ → ℕ → ℕ
  | 0, p => p
  | fuel + 1, p =>
    if p + 1 < pieces.length ∧ startOf pieces (p + 1) ≤ start then
      advance pieces start fuel (p + 1)
    else p

def pushRange (pieces : List JsString) (start stop : ℕ) (literal : ℕ → List (ℕ × ℕ)) (q : ℕ) :
    ℕ → List (ℕ × ℕ) :=
  let first := max start (startOf pieces q) - startOf pieces q
  let last := min stop (startOf pieces q + (pieces.getD q []).length) - startOf pieces q
  if first < last then fun i => if i = q then literal q ++ [(first, last)] else literal i
  else literal

/-- `for (let q = p; q < pieces.length && starts[q] < end; q++)` -/
def pushRanges (pieces : List JsString) (start stop : ℕ) (p : ℕ) (literal : ℕ → List (ℕ × ℕ)) :
    ℕ → List (ℕ × ℕ) :=
  (((List.range pieces.length).drop p).takeWhile fun q => decide (startOf pieces q < stop)).foldl
    (pushRange pieces start stop) literal

def walk (pieces : List JsString) (w : Walk) (m : CitationMarker) : Walk :=
  let p := advance pieces m.start pieces.length w.p
  let crosses := decide (p + 1 < pieces.length ∧ startOf pieces (p + 1) < m.stop)
  let unterminated := decide (m.stop = startOf pieces pieces.length) &&
    isUnterminated (slice pieces.flatten m.start m.stop)
  if !crosses && !unterminated then { w with p := p, agreed := w.agreed ++ [(m.start, m.stop)] }
  else { w with p := p, literal := pushRanges pieces m.start m.stop p w.literal }

def walked (pieces : List JsString) : Walk :=
  (markersOf pieces.flatten).foldl (walk pieces) ⟨0, fun _ => [], []⟩

/-- The literal ranges of a piece: those of the line, then its own markers that the line reads
otherwise. -/
def rangesOf (pieces : List JsString) (i : ℕ) : List (ℕ × ℕ) :=
  let w := walked pieces
  let own := (markersOf (pieces.getD i [])).filter fun m =>
    !w.agreed.contains (startOf pieces i + m.start, startOf pieces i + m.stop)
  w.literal i ++ own.map fun m => (m.start, m.stop)

def push (piece : JsString) (spans : List TextSpan) (start stop : ℕ) (literal : Bool) :
    List TextSpan :=
  if stop ≤ start then spans
  else
    let text := slice piece start stop
    match spans.getLast? with
    | none => spans ++ [⟨text, literal⟩]
    | some last =>
      if last.literal = literal then spans.dropLast ++ [⟨last.text ++ text, literal⟩]
      else spans ++ [⟨text, literal⟩]

def paint (piece : JsString) (c : ℕ × List TextSpan) (range : ℕ × ℕ) : ℕ × List TextSpan :=
  if range.2 ≤ c.1 then c
  else (range.2, push piece (push piece c.2 c.1 range.1 false) (max c.1 range.1) range.2 true)

def paintAll (piece : JsString) (ranges : List (ℕ × ℕ)) : List TextSpan :=
  let sorted := ranges.insertionSort fun a b => a.1 ≤ b.1
  let c := sorted.foldl (paint piece) (0, [])
  push piece c.2 c.1 piece.length false

def splitAtCrossingMarkers (pieces : List JsString) : List (List TextSpan) :=
  (List.range pieces.length).map fun i => paintAll (pieces.getD i []) (rangesOf pieces i)

/-! The spans of a piece. -/

/-- For each unit of the spans, whether its span is literal. -/
def labels (spans : List TextSpan) : List Bool :=
  spans.flatMap fun s => List.replicate s.text.length s.literal

/-- No span is empty, and neighbours differ. -/
def Alternates (spans : List TextSpan) : Prop :=
  (∀ s ∈ spans, s.text ≠ []) ∧ spans.IsChain fun s t => s.literal ≠ t.literal

/-- The unit stands in a range. -/
def covered (ranges : List (ℕ × ℕ)) (k : ℕ) : Bool :=
  ranges.any fun r => decide (r.1 ≤ k ∧ k < r.2)

variable {piece : JsString} {spans : List TextSpan} {start stop : ℕ} {lit : Bool}

theorem length_slice (h : stop ≤ piece.length) : (slice piece start stop).length = stop - start := by
  rw [slice, List.length_take, List.length_drop]
  omega

theorem push_cases (piece : JsString) (spans : List TextSpan) (start stop : ℕ) (lit : Bool) :
    (stop ≤ start ∧ push piece spans start stop lit = spans) ∨
      (start < stop ∧ (∀ last, spans.getLast? = some last → last.literal ≠ lit) ∧
        push piece spans start stop lit = spans ++ [⟨slice piece start stop, lit⟩]) ∨
      (start < stop ∧ ∃ before last, spans = before ++ [last] ∧ last.literal = lit ∧
        push piece spans start stop lit =
          before ++ [⟨last.text ++ slice piece start stop, lit⟩]) := by
  rw [push]
  split
  · rename_i h
    exact .inl ⟨h, rfl⟩
  · rename_i h
    have hlt : start < stop := by omega
    cases hlast : spans.getLast? with
    | none => exact .inr (.inl ⟨hlt, fun last hl => (by cases hl), rfl⟩)
    | some last =>
      dsimp only
      split
      · rename_i heq
        exact .inr (.inr ⟨hlt, spans.dropLast, last,
          (List.dropLast_append_getLast? last hlast).symm, heq, rfl⟩)
      · rename_i hne
        refine .inr (.inl ⟨hlt, fun l hl => ?_, rfl⟩)
        obtain rfl := Option.some.inj hl
        exact hne

theorem push_text (piece : JsString) (spans : List TextSpan) (start stop : ℕ) (lit : Bool) :
    (push piece spans start stop lit).flatMap (·.text) =
      spans.flatMap (·.text) ++ slice piece start stop := by
  obtain ⟨hle, heq⟩ | ⟨-, -, heq⟩ | ⟨-, before, last, rfl, -, heq⟩ :=
    push_cases piece spans start stop lit
  · have hnil : slice piece start stop = [] := by
      rw [slice, Nat.sub_eq_zero_of_le hle, List.take_zero]
    rw [heq, hnil, List.append_nil]
  · simp [heq]
  · simp [heq]

theorem push_labels (h : stop ≤ piece.length) :
    labels (push piece spans start stop lit) =
      labels spans ++ List.replicate (stop - start) lit := by
  obtain ⟨hle, heq⟩ | ⟨-, -, heq⟩ | ⟨-, before, last, rfl, hlast, heq⟩ :=
    push_cases piece spans start stop lit
  · rw [heq, Nat.sub_eq_zero_of_le hle, List.replicate_zero, List.append_nil]
  · simp [heq, labels, length_slice h]
  · simp [heq, labels, length_slice h, hlast, List.replicate_append_replicate]

theorem push_alternates (h : stop ≤ piece.length) (hs : Alternates spans) :
    Alternates (push piece spans start stop lit) := by
  obtain ⟨-, heq⟩ | ⟨hlt, hdiff, heq⟩ | ⟨hlt, before, last, rfl, hlast, heq⟩ :=
    push_cases piece spans start stop lit
  · rwa [heq]
  · have hne : slice piece start stop ≠ [] := by
      rw [ne_eq, ← List.length_eq_zero_iff, length_slice h]
      omega
    rw [heq]
    refine ⟨fun s hmem => ?_, ?_⟩
    · obtain hmem | hmem := List.mem_append.mp hmem
      · exact hs.1 s hmem
      · rw [List.mem_singleton.mp hmem]
        exact hne
    · refine List.isChain_append.mpr ⟨hs.2, List.isChain_singleton _, fun s hl t ht => ?_⟩
      obtain rfl := Option.some.inj ht
      exact hdiff s hl
  · have hlastNe : last.text ≠ [] := hs.1 last (by simp)
    rw [heq]
    refine ⟨fun s hmem => ?_, ?_⟩
    · obtain hmem | hmem := List.mem_append.mp hmem
      · exact hs.1 s (List.mem_append_left _ hmem)
      · rw [List.mem_singleton.mp hmem]
        exact List.append_ne_nil_of_left_ne_nil hlastNe _
    · obtain ⟨hbefore, -, hjoin⟩ := List.isChain_append.mp hs.2
      refine List.isChain_append.mpr ⟨hbefore, List.isChain_singleton _, fun s hl t ht => ?_⟩
      obtain rfl := Option.some.inj ht
      rw [← hlast]
      exact hjoin s hl last rfl

/-- What is painted so far: the piece up to the cursor, each unit as the ranges say. -/
structure Painted (piece : JsString) (ranges done : List (ℕ × ℕ)) (c : ℕ × List TextSpan) :
    Prop where
  cursor : c.1 ≤ piece.length
  past : ∀ r ∈ done, r.2 ≤ c.1
  text : c.2.flatMap (·.text) = piece.take c.1
  labelled : labels c.2 = (List.range c.1).map (covered ranges)
  alternates : Alternates c.2

theorem range_map_append {a b : ℕ} (h : a ≤ b) {f : ℕ → Bool} {lit : Bool}
    (hf : ∀ k, a ≤ k → k < b → f k = lit) :
    (List.range b).map f = (List.range a).map f ++ List.replicate (b - a) lit := by
  obtain ⟨d, rfl⟩ := Nat.exists_eq_add_of_le h
  rw [List.range_add, List.map_append, List.map_map, Nat.add_sub_cancel_left]
  congr 1
  rw [List.eq_replicate_iff]
  refine ⟨by simp, fun x hx => ?_⟩
  obtain ⟨k, hk, rfl⟩ := List.mem_map.mp hx
  rw [List.mem_range] at hk
  exact hf (a + k) (by omega) (by omega)

theorem take_append_slice {a b : ℕ} (h : a ≤ b) (piece : JsString) :
    piece.take a ++ slice piece a b = piece.take b := by
  obtain ⟨d, rfl⟩ := Nat.exists_eq_add_of_le h
  rw [slice, Nat.add_sub_cancel_left, ← List.take_add]

/-- Painting on to a place where every unit up to it is as the label says. -/
theorem Painted.push {ranges done : List (ℕ × ℕ)} {c : ℕ × List TextSpan}
    (h : Painted piece ranges done c) {b : ℕ} (hle : c.1 ≤ b) (hb : b ≤ piece.length)
    (hf : ∀ k, c.1 ≤ k → k < b → covered ranges k = lit) :
    Painted piece ranges done (b, push piece c.2 c.1 b lit) where
  cursor := hb
  past r hr := Nat.le_trans (h.past r hr) hle
  text := by rw [push_text, h.text, take_append_slice hle]
  labelled := by rw [push_labels hb, h.labelled, range_map_append hle hf]
  alternates := push_alternates hb h.alternates

theorem covered_false {done todo : List (ℕ × ℕ)} {k : ℕ} (hdone : ∀ r ∈ done, r.2 ≤ k)
    (htodo : ∀ r ∈ todo, k < r.1) : covered (done ++ todo) k = false := by
  rw [covered, List.any_eq_false]
  intro r hr
  rw [decide_eq_true_eq]
  obtain hr | hr := List.mem_append.mp hr
  · have := hdone r hr
    omega
  · have := htodo r hr
    omega

theorem Painted.step {done todo : List (ℕ × ℕ)} {r : ℕ × ℕ} {c : ℕ × List TextSpan}
    (h : Painted piece (done ++ r :: todo) done c) (hr : r.1 ≤ r.2 ∧ r.2 ≤ piece.length)
    (hsorted : ∀ s ∈ todo, r.1 ≤ s.1) :
    Painted piece (done ++ r :: todo) (done ++ [r]) (paint piece c r) := by
  have hpast : ∀ {d : ℕ × List TextSpan}, Painted piece (done ++ r :: todo) done d →
      r.2 ≤ d.1 → Painted piece (done ++ r :: todo) (done ++ [r]) d := by
    intro d hd hle
    refine ⟨hd.cursor, fun s hs => ?_, hd.text, hd.labelled, hd.alternates⟩
    obtain hs | hs := List.mem_append.mp hs
    · exact hd.past s hs
    · rwa [List.mem_singleton.mp hs]
  rw [paint]
  split
  · rename_i hle
    exact hpast h hle
  · rename_i hnot
    have hin : ∀ k, max c.1 r.1 ≤ k → k < r.2 → covered (done ++ r :: todo) k = true := by
      intro k hk hlt
      rw [covered, List.any_eq_true]
      exact ⟨r, by simp, by rw [decide_eq_true_eq]; omega⟩
    obtain hlt | hle := Nat.lt_or_ge c.1 r.1
    · have hgap := h.push (b := r.1) (Nat.le_of_lt hlt) (Nat.le_trans hr.1 hr.2) (fun k hk hkr => by
        refine covered_false (fun s hs => Nat.le_trans (h.past s hs) hk) fun s hs => ?_
        obtain rfl | hs := List.mem_cons.mp hs
        · exact hkr
        · exact Nat.lt_of_lt_of_le hkr (hsorted s hs))
      rw [Nat.max_eq_right (Nat.le_of_lt hlt)]
      rw [Nat.max_eq_right (Nat.le_of_lt hlt)] at hin
      exact hpast (hgap.push hr.1 hr.2 hin) (Nat.le_refl _)
    · have hpush : Citations.push piece c.2 c.1 r.1 false = c.2 := by
        rw [Citations.push, if_pos hle]
      rw [hpush, Nat.max_eq_left hle]
      rw [Nat.max_eq_left hle] at hin
      exact hpast (h.push (by omega) hr.2 hin) (Nat.le_refl _)

theorem Painted.run {done todo : List (ℕ × ℕ)} {c : ℕ × List TextSpan}
    (h : Painted piece (done ++ todo) done c)
    (hb : ∀ r ∈ todo, r.1 ≤ r.2 ∧ r.2 ≤ piece.length)
    (hsorted : todo.Pairwise fun a b => a.1 ≤ b.1) :
    Painted piece (done ++ todo) (done ++ todo) (todo.foldl (paint piece) c) := by
  induction todo generalizing done c with
  | nil => simpa using h
  | cons r todo ih =>
    obtain ⟨hfirst, hsorted⟩ := List.pairwise_cons.mp hsorted
    have hstep := h.step (hb r List.mem_cons_self) hfirst
    have hlist : done ++ r :: todo = done ++ [r] ++ todo := by simp
    rw [List.foldl_cons, hlist]
    rw [hlist] at hstep
    exact ih hstep (fun s hs => hb s (List.mem_cons_of_mem r hs)) hsorted

theorem covered_perm {a b : List (ℕ × ℕ)} (h : a.Perm b) (k : ℕ) : covered a k = covered b k := by
  rw [covered, covered, Bool.eq_iff_iff, List.any_eq_true, List.any_eq_true]
  simp only [h.mem_iff]

/-- The spans of a piece put together are the piece, alternate, and are literal exactly where a
range says. -/
theorem paintAll_spec {ranges : List (ℕ × ℕ)}
    (hb : ∀ r ∈ ranges, r.1 ≤ r.2 ∧ r.2 ≤ piece.length) :
    (paintAll piece ranges).flatMap (·.text) = piece ∧ Alternates (paintAll piece ranges) ∧
      labels (paintAll piece ranges) = (List.range piece.length).map (covered ranges) := by
  have hperm := ranges.perm_insertionSort fun a b => a.1 ≤ b.1
  have hzero : Painted piece ([] ++ ranges.insertionSort fun a b => a.1 ≤ b.1) [] (0, []) :=
    ⟨Nat.zero_le _, fun r hr => (by cases hr), rfl, rfl, fun s hs => (by cases hs), .nil⟩
  have htrans : IsTrans (ℕ × ℕ) fun a b => a.1 ≤ b.1 := ⟨fun a b c => Nat.le_trans⟩
  have htotal : Std.Total fun a b : ℕ × ℕ => a.1 ≤ b.1 := ⟨fun a b => Nat.le_total a.1 b.1⟩
  have hrun := hzero.run (fun r hr => hb r (hperm.mem_iff.mp hr))
    (List.pairwise_insertionSort _ ranges)
  have hnone : ∀ sorted : List (ℕ × ℕ), ∀ k, (∀ r ∈ sorted, r.2 ≤ k) →
      covered sorted k = false := by
    intro sorted k hk
    have hnone := covered_false hk (fun s (hs : s ∈ []) => (by cases hs))
    rwa [List.append_nil] at hnone
  have hend := hrun.push hrun.cursor (Nat.le_refl _)
    (fun k hk _ => hnone _ k fun r hr => Nat.le_trans (hrun.past r hr) hk)
  refine ⟨by rw [paintAll, hend.text, List.take_length], hend.alternates, ?_⟩
  rw [paintAll, hend.labelled]
  apply List.map_congr_left
  intro k _
  exact covered_perm hperm k

/-! The literal ranges of a piece. -/

/-- An edge between two pieces stands inside the marker. -/
def crossesEdge (pieces : List JsString) (m : CitationMarker) : Bool :=
  (List.range pieces.length).any fun q =>
    decide (m.start < startOf pieces q ∧ startOf pieces q < m.stop)

/-- The marker ends the line, and may have been cut off there. -/
def cutOff (pieces : List JsString) (m : CitationMarker) : Bool :=
  decide (m.stop = startOf pieces pieces.length) &&
    isUnterminated (slice pieces.flatten m.start m.stop)

def flagged (pieces : List JsString) (m : CitationMarker) : Bool :=
  crossesEdge pieces m || cutOff pieces m

def CitationMarker.holds (m : CitationMarker) (k : ℕ) : Bool :=
  decide (m.start ≤ k ∧ k < m.stop)

/-- The unit stands in a marker of the line that cannot be trusted from one piece, or in a marker
that only the piece reads there. -/
def untrusted (pieces : List JsString) (i k : ℕ) : Bool :=
  let line := markersOf pieces.flatten
  line.any (fun m => flagged pieces m && m.holds (startOf pieces i + k)) ||
    (markersOf (pieces.getD i [])).any fun m => m.holds k &&
      !line.any fun m' => !flagged pieces m' &&
        decide (m'.start = startOf pieces i + m.start ∧ m'.stop = startOf pieces i + m.stop)

variable {pieces : List JsString} {i k q : ℕ}

theorem startOf_succ (h : q < pieces.length) :
    startOf pieces (q + 1) = startOf pieces q + (pieces.getD q []).length := by
  induction pieces generalizing q with
  | nil => simp at h
  | cons piece rest ih =>
    cases q with
    | zero =>
      cases rest with
      | nil => simp [startOf]
      | cons _ _ => simp [startOf]
    | succ q =>
      have hq : q < rest.length := by simpa using h
      have := ih hq
      rw [startOf, this, startOf, List.getD_cons_succ, Nat.add_assoc]

theorem startOf_le {p : ℕ} (hpq : p ≤ q) (hq : q ≤ pieces.length) :
    startOf pieces p ≤ startOf pieces q := by
  induction q with
  | zero =>
    obtain rfl := Nat.le_zero.mp hpq
    exact Nat.le_refl _
  | succ q ih =>
    obtain rfl | hlt := Nat.eq_or_lt_of_le hpq
    · exact Nat.le_refl _
    · rw [startOf_succ hq]
      exact Nat.le_trans (ih (by omega) (by omega)) (Nat.le_add_right _ _)

theorem startOf_length (pieces : List JsString) :
    startOf pieces pieces.length = pieces.flatten.length := by
  induction pieces with
  | nil => rfl
  | cons piece rest ih => rw [List.length_cons, startOf, ih, List.flatten_cons, List.length_append]

/-- Where the pointer stops: at the last piece that starts before the marker or with it. -/
theorem advance_spec {start fuel p : ℕ} (hp : p < pieces.length) (hstart : startOf pieces p ≤ start)
    (hfuel : pieces.length ≤ p + fuel) :
    advance pieces start fuel p < pieces.length ∧
      startOf pieces (advance pieces start fuel p) ≤ start ∧
      ∀ q, q < pieces.length → startOf pieces q ≤ start → q ≤ advance pieces start fuel p := by
  induction fuel generalizing p with
  | zero => omega
  | succ fuel ih =>
    rw [advance]
    split
    · rename_i hnext
      exact ih hnext.1 hnext.2 (by omega)
    · rename_i hlast
      refine ⟨hp, hstart, fun q hq hle => ?_⟩
      by_contra hlt
      have hmono := startOf_le (show p + 1 ≤ q by omega) (Nat.le_of_lt hq)
      exact hlast ⟨by omega, Nat.le_trans hmono hle⟩

theorem advance_crosses {m : CitationMarker} {p : ℕ} (hp : p < pieces.length)
    (hstart : startOf pieces p ≤ m.start)
    (hlast : ∀ q, q < pieces.length → startOf pieces q ≤ m.start → q ≤ p) :
    decide (p + 1 < pieces.length ∧ startOf pieces (p + 1) < m.stop) = crossesEdge pieces m := by
  rw [crossesEdge, Bool.eq_iff_iff, decide_eq_true_eq, List.any_eq_true]
  constructor
  · intro h
    refine ⟨p + 1, List.mem_range.mpr h.1, decide_eq_true ⟨?_, h.2⟩⟩
    by_contra hle
    have := hlast (p + 1) h.1 (by omega)
    omega
  · intro h
    obtain ⟨q, hq, hcross⟩ := h
    rw [decide_eq_true_eq] at hcross
    rw [List.mem_range] at hq
    have hpq : p + 1 ≤ q := by
      by_contra hlt
      have := startOf_le (show q ≤ p by omega) (Nat.le_of_lt hp)
      omega
    have := startOf_le hpq (Nat.le_of_lt hq)
    exact ⟨by omega, by omega⟩

theorem covered_append (a b : List (ℕ × ℕ)) (k : ℕ) :
    covered (a ++ b) k = (covered a k || covered b k) := List.any_append

theorem covered_pushRange {start stop : ℕ} (literal : ℕ → List (ℕ × ℕ))
    (hk : k < (pieces.getD i []).length) :
    covered (pushRange pieces start stop literal q i) k =
      (covered (literal i) k || (decide (i = q) &&
        decide (start ≤ startOf pieces i + k ∧ startOf pieces i + k < stop))) := by
  rw [pushRange]
  split
  · rename_i hlt
    beta_reduce
    by_cases hi : i = q
    · subst hi
      rw [if_pos rfl, covered_append, decide_eq_true (rfl : i = i), Bool.true_and]
      congr 1
      rw [covered, List.any_cons, List.any_nil, Bool.or_false, decide_eq_decide]
      omega
    · rw [if_neg hi, decide_eq_false hi, Bool.false_and, Bool.or_false]
  · rename_i hnot
    by_cases hi : i = q
    · subst hi
      have hfalse : ¬ (start ≤ startOf pieces i + k ∧ startOf pieces i + k < stop) := by omega
      rw [decide_eq_false hfalse, Bool.and_false, Bool.or_false]
    · rw [decide_eq_false hi, Bool.false_and, Bool.or_false]

theorem covered_foldl {start stop : ℕ} (qs : List ℕ) (literal : ℕ → List (ℕ × ℕ))
    (hk : k < (pieces.getD i []).length) :
    covered (qs.foldl (pushRange pieces start stop) literal i) k =
      (covered (literal i) k || (decide (i ∈ qs) &&
        decide (start ≤ startOf pieces i + k ∧ startOf pieces i + k < stop))) := by
  induction qs generalizing literal with
  | nil => simp
  | cons q qs ih =>
    have hmem : decide (i ∈ q :: qs) = (decide (i = q) || decide (i ∈ qs)) := by
      simp [List.mem_cons]
    rw [List.foldl_cons, ih, covered_pushRange literal hk, hmem, Bool.and_or_distrib_right,
      Bool.or_assoc]

theorem mem_takeWhile_range {f : ℕ → Bool} {n p : ℕ} (hp : p ≤ i) (hi : i < n)
    (hf : ∀ q, p ≤ q → q ≤ i → f q = true) :
    i ∈ ((List.range n).drop p).takeWhile f := by
  have hsplit : (List.range n).drop p =
      (List.range' p (i + 1 - p)) ++ List.range' (i + 1) (n - (i + 1)) := by
    have hn : n - p = (i + 1 - p) + (n - (i + 1)) := by omega
    have hi' : i + 1 = p + (i + 1 - p) := by omega
    rw [List.range_eq_range', List.drop_range', Nat.zero_add, Nat.mul_one, hn,
      ← List.range'_append_1, ← hi']
  rw [hsplit, List.takeWhile_append_of_pos fun q hq => ?_]
  · exact List.mem_append_left _ (List.mem_range'_1.mpr ⟨hp, by omega⟩)
  · rw [List.mem_range'_1] at hq
    exact hf q hq.1 (by omega)

/-- The ranges of a marker are its units. -/
theorem covered_pushRanges {m : CitationMarker} {p : ℕ} (literal : ℕ → List (ℕ × ℕ))
    (hstart : startOf pieces p ≤ m.start) (hp : p < pieces.length) (hi : i < pieces.length)
    (hk : k < (pieces.getD i []).length) :
    covered (pushRanges pieces m.start m.stop p literal i) k =
      (covered (literal i) k || m.holds (startOf pieces i + k)) := by
  rw [pushRanges, covered_foldl _ _ hk]
  congr 1
  rw [CitationMarker.holds]
  by_cases hin : m.start ≤ startOf pieces i + k ∧ startOf pieces i + k < m.stop
  · rw [decide_eq_true hin, Bool.and_true, decide_eq_true_eq]
    have hnext := startOf_succ hi
    refine mem_takeWhile_range ?_ hi fun q _ hq => decide_eq_true ?_
    · by_contra hlt
      have := startOf_le (show i + 1 ≤ p by omega) (Nat.le_of_lt hp)
      omega
    · have := startOf_le hq (Nat.le_of_lt hi)
      omega
  · rw [decide_eq_false hin, Bool.and_false]

/-- What the walk knows after some markers of the line. -/
structure Walked (pieces : List JsString) (done todo : List CitationMarker) (w : Walk) : Prop where
  pointer : pieces ≠ [] → w.p < pieces.length
  ahead : ∀ m ∈ todo, startOf pieces w.p ≤ m.start
  literal : ∀ i k, i < pieces.length → k < (pieces.getD i []).length →
    covered (w.literal i) k =
      done.any fun m => flagged pieces m && m.holds (startOf pieces i + k)
  agreed : w.agreed = (done.filter fun m => !flagged pieces m).map fun m => (m.start, m.stop)

theorem Walked.step {done todo : List CitationMarker} {m : CitationMarker} {w : Walk}
    (h : Walked pieces done (m :: todo) w) (hne : pieces ≠ [])
    (hsorted : ∀ m' ∈ todo, m.start ≤ m'.start) :
    Walked pieces (done ++ [m]) todo (walk pieces w m) := by
  obtain ⟨hlt, hstart, hlast⟩ := advance_spec (h.pointer hne) (h.ahead m List.mem_cons_self)
    (Nat.le_add_left pieces.length w.p)
  have hflag : (decide (advance pieces m.start pieces.length w.p + 1 < pieces.length ∧
      startOf pieces (advance pieces m.start pieces.length w.p + 1) < m.stop) ||
        cutOff pieces m) = flagged pieces m := by
    rw [advance_crosses hlt hstart hlast, flagged]
  have hahead : ∀ m' ∈ todo,
      startOf pieces (advance pieces m.start pieces.length w.p) ≤ m'.start :=
    fun m' hm' => Nat.le_trans hstart (hsorted m' hm')
  rw [walk]
  rw [← Bool.not_or]
  split
  · rename_i hnot
    have hfalse : flagged pieces m = false := by
      rw [← hflag, cutOff]
      exact (Bool.not_eq_true' _).mp hnot
    refine ⟨fun _ => hlt, hahead, fun i k hi hk => ?_, ?_⟩
    · rw [h.literal i k hi hk, List.any_append, List.any_cons, List.any_nil, hfalse]
      simp
    · rw [h.agreed, List.filter_append, List.map_append]
      simp [hfalse]
  · rename_i hyes
    have htrue : flagged pieces m = true := by
      rw [← hflag, cutOff]
      simpa only [Bool.not_eq_true', Bool.not_eq_false] using hyes
    refine ⟨fun _ => hlt, hahead, fun i k hi hk => ?_, ?_⟩
    · rw [covered_pushRanges _ hstart hlt hi hk, h.literal i k hi hk, List.any_append,
        List.any_cons, List.any_nil, htrue, Bool.true_and, Bool.or_false]
    · rw [h.agreed, List.filter_append, List.map_append]
      simp [htrue]

theorem Walked.run {done todo : List CitationMarker} {w : Walk} (h : Walked pieces done todo w)
    (hne : pieces ≠ []) (hsorted : todo.Pairwise fun a b => a.start ≤ b.start) :
    Walked pieces (done ++ todo) [] (todo.foldl (walk pieces) w) := by
  induction todo generalizing done w with
  | nil => simpa using h
  | cons m todo ih =>
    obtain ⟨hfirst, hsorted⟩ := List.pairwise_cons.mp hsorted
    have hlist : done ++ m :: todo = done ++ [m] ++ todo := by simp
    rw [List.foldl_cons, hlist]
    exact ih (h.step hne hfirst) hsorted

theorem markersOf_sorted (text : JsString) :
    (markersOf text).Pairwise fun a b => a.start ≤ b.start := by
  refine (markersOf_pairwise text).imp_of_mem fun ha _ hle => ?_
  exact Nat.le_trans (Nat.le_of_lt (markersOf_bounds ha).1) hle

/-- Each range stands in its piece. -/
def Inside (pieces : List JsString) (literal : ℕ → List (ℕ × ℕ)) : Prop :=
  ∀ i, ∀ r ∈ literal i, r.1 ≤ r.2 ∧ r.2 ≤ (pieces.getD i []).length

theorem Inside.pushRange {literal : ℕ → List (ℕ × ℕ)} (h : Inside pieces literal) :
    Inside pieces (pushRange pieces start stop literal q) := by
  intro i r hr
  rw [Citations.pushRange] at hr
  split at hr
  · rename_i hlt
    beta_reduce at hr
    split at hr
    · rename_i hi
      subst hi
      obtain hr | hr := List.mem_append.mp hr
      · exact h i r hr
      · rw [List.mem_singleton.mp hr]
        exact ⟨Nat.le_of_lt hlt, by dsimp only; omega⟩
    · exact h i r hr
  · exact h i r hr

theorem Inside.pushRanges {literal : ℕ → List (ℕ × ℕ)} (h : Inside pieces literal) (p : ℕ) :
    Inside pieces (pushRanges pieces start stop p literal) := by
  rw [Citations.pushRanges]
  generalize ((List.range pieces.length).drop p).takeWhile _ = qs
  induction qs generalizing literal with
  | nil => exact h
  | cons q qs ih => exact ih h.pushRange

theorem Inside.walk {w : Walk} (h : Inside pieces w.literal) (m : CitationMarker) :
    Inside pieces (walk pieces w m).literal := by
  rw [Citations.walk]
  split
  · exact h
  · exact h.pushRanges _

theorem walked_inside (pieces : List JsString) : Inside pieces (walked pieces).literal := by
  rw [walked]
  have hzero : Inside pieces (⟨0, fun _ => [], []⟩ : Walk).literal := fun i r hr => by cases hr
  revert hzero
  generalize (⟨0, fun _ => [], []⟩ : Walk) = w
  intro h
  induction markersOf pieces.flatten generalizing w with
  | nil => exact h
  | cons m ms ih => exact ih _ (h.walk m)

theorem walked_spec (hne : pieces ≠ []) :
    Walked pieces (markersOf pieces.flatten) [] (walked pieces) := by
  have hzero : Walked pieces [] (markersOf pieces.flatten) ⟨0, fun _ => [], []⟩ := by
    refine ⟨fun _ => List.length_pos_iff.mpr hne, fun m _ => ?_, fun i k _ _ => rfl, rfl⟩
    rw [startOf]
    exact Nat.zero_le _
  exact hzero.run hne (markersOf_sorted _)

theorem agreed_contains (hne : pieces ≠ []) (a b : ℕ) :
    (walked pieces).agreed.contains (a, b) = (markersOf pieces.flatten).any fun m =>
      !flagged pieces m && decide (m.start = a ∧ m.stop = b) := by
  rw [(walked_spec hne).agreed, Bool.eq_iff_iff, List.contains_iff_mem, List.any_eq_true]
  constructor
  · intro h
    obtain ⟨m, hm, heq⟩ := List.mem_map.mp h
    obtain ⟨hmem, hflag⟩ := List.mem_filter.mp hm
    obtain ⟨rfl, rfl⟩ := Prod.mk.inj heq
    exact ⟨m, hmem, by rw [hflag, Bool.true_and]; exact decide_eq_true ⟨rfl, rfl⟩⟩
  · intro h
    obtain ⟨m, hm, h⟩ := h
    obtain ⟨hflag, heq⟩ := Bool.and_eq_true_iff.mp h
    obtain ⟨rfl, rfl⟩ := of_decide_eq_true heq
    exact List.mem_map.mpr ⟨m, List.mem_filter.mpr ⟨hm, hflag⟩, rfl⟩

theorem covered_rangesOf (hi : i < pieces.length) (hk : k < (pieces.getD i []).length) :
    covered (rangesOf pieces i) k = untrusted pieces i k := by
  have hne : pieces ≠ [] := List.length_pos_iff.mp (Nat.zero_lt_of_lt hi)
  rw [rangesOf]
  rw [covered_append, (walked_spec hne).literal i k hi hk, untrusted]
  congr 1
  rw [covered, List.any_map, List.any_filter]
  congr 1
  funext m
  rw [agreed_contains hne, Bool.and_comm]
  rfl

theorem rangesOf_inside (pieces : List JsString) (i : ℕ) :
    ∀ r ∈ rangesOf pieces i, r.1 ≤ r.2 ∧ r.2 ≤ (pieces.getD i []).length := by
  intro r hr
  rw [rangesOf] at hr
  obtain hr | hr := List.mem_append.mp hr
  · exact walked_inside pieces i r hr
  · obtain ⟨m, hm, rfl⟩ := List.mem_map.mp hr
    have hbounds := markersOf_bounds (List.mem_filter.mp hm).1
    exact ⟨Nat.le_of_lt hbounds.1, hbounds.2⟩

/-- The spans of every piece put together are the piece, and they are literal at exactly the units
that cannot be trusted from the piece alone. -/
theorem split_marks_untrusted (pieces : List JsString) :
    (splitAtCrossingMarkers pieces).length = pieces.length ∧
      ∀ i spans, (splitAtCrossingMarkers pieces)[i]? = some spans →
        spans.flatMap (·.text) = pieces.getD i [] ∧ Alternates spans ∧
          labels spans = (List.range (pieces.getD i []).length).map (untrusted pieces i) := by
  rw [splitAtCrossingMarkers, List.length_map, List.length_range]
  refine ⟨rfl, fun i spans h => ?_⟩
  rw [List.getElem?_map, Option.map_eq_some_iff] at h
  obtain ⟨j, hj, rfl⟩ := h
  obtain ⟨hi, heq⟩ := List.getElem?_eq_some_iff.mp hj
  rw [List.length_range] at hi
  rw [List.getElem_range] at heq
  subst heq
  obtain ⟨htext, halternates, hlabels⟩ := paintAll_spec (rangesOf_inside pieces i)
  refine ⟨htext, halternates, ?_⟩
  rw [hlabels]
  apply List.map_congr_left
  intro k hk
  exact covered_rangesOf hi (List.mem_range.mp hk)

end YapStack.Citations
