import YapStack.Citations.Markers
import YapStack.Foundation.Scanning

namespace YapStack.Citations

open JsStrings Regex

variable {s : Place ℕ} {v : List ℕ} {k n : ℕ}

def isOpen : ℕ → Bool := oneOf ['[', '(']

def isS : ℕ → Bool := oneOf ['s', 'S']

/-- What a marker can begin with. -/
def startsMarker (c : ℕ) : Bool := isOpen c || isS c

/-- What a bare ID cannot be followed by. -/
def inName (c : ℕ) : Bool := isWord c || isDash c

/-- The units of the time in an open marker, and of the space before it. -/
def inTime (c : ℕ) : Bool := isSpace c || isDigit c || oneOf [':'] c

theorem oneOf_iff (chars : List Char) (c : ℕ) : oneOf chars c = true ↔ c ∈ chars.map unit := by
  rw [oneOf, List.contains_iff_mem]

theorem not_word_of_open {c : ℕ} (h : isOpen c = true) : inName c = false := by
  rw [isOpen, oneOf_iff] at h
  simp only [List.map_cons, List.map_nil, List.mem_cons, List.not_mem_nil, or_false] at h
  obtain rfl | rfl := h <;> decide

theorem word_of_s {c : ℕ} (h : isS c = true) : isWord c = true := by
  rw [isS, oneOf_iff] at h
  simp only [List.map_cons, List.map_nil, List.mem_cons, List.not_mem_nil, or_false] at h
  obtain rfl | rfl := h <;> decide

theorem not_open_of_s {c : ℕ} (h : isS c = true) : isOpen c = false := by
  rw [isS, oneOf_iff] at h
  simp only [List.map_cons, List.map_nil, List.mem_cons, List.not_mem_nil, or_false] at h
  obtain rfl | rfl := h <;> decide

theorem not_starts_of_time {c : ℕ} (h : inTime c = true) : startsMarker c = false := by
  by_contra hs
  rw [Bool.not_eq_false, startsMarker, isOpen, isS, Bool.or_eq_true, oneOf_iff, oneOf_iff] at hs
  simp only [List.map_cons, List.map_nil, List.mem_cons, List.not_mem_nil, or_false] at hs
  obtain (rfl | rfl) | (rfl | rfl) := hs <;> revert h <;> decide

theorem sign_open {c : Char} (hc : c ∈ ['[', '(']) (d : ℕ) (h : oneOf [c] d = true) :
    isOpen d = true := by
  rw [oneOf_iff, List.map_singleton, List.mem_singleton] at h
  rw [isOpen, oneOf_iff, h]
  exact List.mem_map_of_mem hc

theorem startsIn_OPEN : StartsIn isOpen OPEN :=
  (startsIn_unit (sign_open (by simp))).seq.alt
    ((startsIn_unit (sign_open (by simp))).alt (startsIn_unit (sign_open (by simp))))

theorem startsIn_HEAD (n : ℕ) : StartsIn isOpen (HEAD n) := startsIn_OPEN.seq

theorem startsIn_CLOSED : StartsIn isOpen CLOSED := (startsIn_HEAD 1).seq

theorem startsIn_UNCLOSED : StartsIn isOpen UNCLOSED := (startsIn_HEAD 3).seq

theorem startsIn_seg (rest : Re ℕ) : StartsIn isS (.seq (letters ['s', 'e', 'g']) rest) :=
  ((startsIn_unit fun _ h => h).seq).seq

theorem startsIn_BARE_ID : StartsIn isS BARE_ID := (startsIn_seg _).look_seq _

theorem startsIn_BARE : StartsIn isS BARE := startsIn_BARE_ID.seq.seq

theorem beforeFree_OPEN : BeforeFree OPEN :=
  beforeFree_unit.seq.alt (beforeFree_unit.alt beforeFree_unit)

theorem beforeFree_CLOSED : BeforeFree CLOSED := beforeFree_OPEN.seq.seq

theorem beforeFree_UNCLOSED : BeforeFree UNCLOSED := beforeFree_OPEN.seq.seq

theorem consumes_OPEN : Consumes OPEN :=
  ((consumes_unit _).seq_left _).alt ((consumes_unit _).alt (consumes_unit _))

theorem consumes_HEAD (n : ℕ) : Consumes (HEAD n) := consumes_OPEN.seq_left _

theorem consumes_letters (c : Char) (rest : List Char) : Consumes (letters (c :: rest)) :=
  (consumes_unit _).seq_left _

theorem consumes_BARE_ID : Consumes BARE_ID :=
  ((consumes_letters _ _).seq_left _).seq_right _

theorem consumes_MARKER_REGEX : Consumes MARKER_REGEX :=
  ((consumes_HEAD 1).seq_left _).alt
    (((consumes_HEAD 3).seq_left _).alt ((consumes_BARE_ID.seq_left _).seq_left _))

/-- A bracketed marker is read by the first two of the alternatives, a bare one by the third. -/
theorem exec_bracketed (h : s.after.head?.any isOpen = true) :
    exec MARKER_REGEX s = (exec CLOSED s).or (exec UNCLOSED s) := by
  have hbare : exec BARE s = none := by
    rw [exec_eq_none]
    apply List.eq_nil_iff_forall_not_mem.mpr
    intro x hx
    have hs := startsIn_BARE s x hx
    cases hafter : s.after with
    | nil => simp [hafter] at h
    | cons c rest =>
      simp only [hafter, List.head?_cons, Option.any_some] at h hs
      simp [not_open_of_s hs] at h
  rw [MARKER_REGEX, exec_alt, exec_alt, hbare, Option.or_none]

theorem exec_bare (h : s.after.head?.any isOpen = false) :
    exec MARKER_REGEX s = exec BARE s := by
  have hnone : ∀ re, StartsIn isOpen re → exec re s = none := by
    intro re hre
    rw [exec_eq_none]
    apply List.eq_nil_iff_forall_not_mem.mpr
    intro x hx
    rw [hre s x hx] at h
    cases h
  rw [MARKER_REGEX, exec_alt, exec_alt, hnone _ startsIn_CLOSED, hnone _ startsIn_UNCLOSED]
  rfl

theorem exec_starts {h : Hit ℕ} (hh : exec MARKER_REGEX s = some h) :
    s.after.head?.any startsMarker = true := by
  have hstarts : StartsIn startsMarker MARKER_REGEX := by
    have hweak : ∀ {p : ℕ → Bool} {re : Re ℕ}, (∀ c, p c = true → startsMarker c = true) →
        StartsIn p re → StartsIn startsMarker re := by
      intro p re hp hre t x hx
      have := hre t x hx
      cases ht : t.after.head? with
      | none => simp [ht] at this
      | some c => simpa [ht] using hp c (by simpa [ht] using this)
    have hopen : ∀ c, isOpen c = true → startsMarker c = true := fun c hc => by
      rw [startsMarker, hc, Bool.true_or]
    have hs : ∀ c, isS c = true → startsMarker c = true := fun c hc => by
      rw [startsMarker, hc, Bool.or_true]
    exact (hweak hopen startsIn_CLOSED).alt
      ((hweak hopen startsIn_UNCLOSED).alt (hweak hs startsIn_BARE))
  exact hstarts s h (List.mem_of_head? hh)

/-- What stands before a place matters only for a bare marker, and as far as it is part of a
word. -/
theorem exec_before (b b' : Option ℕ) (t : List ℕ)
    (h : b.any isWord = b'.any isWord ∨ t.head?.any isS = false) :
    exec MARKER_REGEX ⟨b, t⟩ = exec MARKER_REGEX ⟨b', t⟩ := by
  by_cases hopen : t.head?.any isOpen = true
  · rw [exec_bracketed hopen, exec_bracketed hopen]
    simp only [exec, beforeFree_CLOSED b b' t, beforeFree_UNCLOSED b b' t]
  · rw [Bool.not_eq_true] at hopen
    rw [exec_bare hopen, exec_bare hopen]
    obtain h | h := h
    · have hid : run BARE_ID ⟨b, t⟩ = run BARE_ID ⟨b', t⟩ := by
        rw [BARE_ID, wordEdge, run_look_seq, run_look_seq, h]
        split
        · exact beforeFree_unit.seq.seq b b' t
        · rfl
      simp only [exec, BARE, run_seq, hid]
    · have hnone : ∀ c, exec BARE ⟨c, t⟩ = none := by
        intro c
        rw [exec_eq_none]
        apply List.eq_nil_iff_forall_not_mem.mpr
        intro x hx
        rw [startsIn_BARE _ x hx] at h
        cases h
      rw [hnone, hnone]

/-! What follows a text and the matches in it. -/

theorem agrees_OPEN (hk : v.length ≤ k) : Agrees v k OPEN s :=
  ((agrees_unit hk _).seq fun _ _ => agrees_unit hk _).alt
    ((agrees_unit hk _).alt (agrees_unit hk _))

theorem agrees_letters (hk : v.length ≤ k) (word : List Char) : Agrees v k (letters word) s := by
  induction word generalizing s with
  | nil => exact agrees_empty
  | cons c rest ih => exact (agrees_unit hk _).seq fun _ _ => ih

theorem agrees_opt {a : Re ℕ} (h : Agrees v k a s) : Agrees v k (opt a) s := h.alt agrees_empty

theorem agrees_MARKER (hk : v.length ≤ k) (n : ℕ) : Agrees v k (MARKER n) s := by
  refine Agrees.look_seq hk ?_ (((consumes_letters _ _).seq_left _).group n |>.seq_left _) _
  refine (((agrees_letters hk _).seq fun _ _ => agrees_opt (agrees_letters hk _)).group n).seq ?_
  exact fun _ _ => (agrees_many hk _ _ _ _).seq fun _ _ => agrees_unit hk _

theorem agrees_HEAD (hk : v.length ≤ k) (n : ℕ) : Agrees v k (HEAD n) s :=
  (agrees_OPEN hk).seq fun _ _ => (agrees_many hk _ _ _ _).seq fun _ _ => agrees_MARKER hk n

/-- A closed marker ends with its bracket, so what follows does not matter. -/
theorem agrees_CLOSED (hk : v.length ≤ k) : Agrees v k CLOSED s := by
  refine (agrees_HEAD hk 1).seq fun _ _ => ?_
  refine ((agrees_many hk _ _ _ _).group 2).seq fun _ _ => (agrees_many hk _ _ _ _).seq fun _ _ => ?_
  exact ((agrees_unit hk _).seq fun _ _ => agrees_unit hk _).alt
    ((agrees_unit hk _).alt (agrees_unit hk _))

theorem agrees_BARE_ID (hk : v.length ≤ k) : Agrees v k BARE_ID s := by
  refine Agrees.look_seq hk ?_ ((consumes_letters _ _).seq_left _) _
  refine (agrees_letters hk _).seq fun _ _ => (agrees_unit hk _).seq fun _ _ => ?_
  exact ((agrees_unit hk _).seq fun _ _ => agrees_many hk _ _ _ _).group 5

/-- A bare marker reads the same before `v` when no ID goes up to it, or when it may end there. -/
theorem agrees_BARE (hk : v.length ≤ k)
    (hcut : ∀ x ∈ run BARE_ID s, x.place.after = [] → v.head?.any inName = false) :
    Agrees v k BARE s := by
  refine ((agrees_BARE_ID hk).seq fun x hx => agrees_look fun hnil => Or.inr ?_).seq
    fun _ _ => agrees_opt (agrees_many hk _ _ _ _)
  have hname : v.head?.any inName = false := hcut x hx hnil
  show (!v.head?.any inName) = !(none : Option ℕ).any inName
  rw [hname]
  rfl

theorem isDigit_word {c : ℕ} (h : isDigit c = true) : isWord c = true := by
  rw [isWord, h]
  rfl

theorem endsIn_TIME_PART : EndsIn isDigit TIME_PART := (endsIn_many (by decide)).seq

/-- The digits of a time, before the edge that ends it. -/
theorem endsIn_time : EndsIn isDigit
    (.seq (between 1 2 isDigit) (.seq TIME_PART (opt TIME_PART))) :=
  (endsIn_TIME_PART.seq_opt endsIn_TIME_PART).seq

theorem agrees_TIME_PART (hk : v.length ≤ k) : Agrees v k TIME_PART s :=
  (agrees_unit hk _).seq fun _ _ => agrees_many hk _ _ _ _

/-- A time ends at the edge of a word. -/
theorem agrees_TIME_SRC (hk : v.length ≤ k)
    (hcut : v.head?.any isWord = false ∨ s.last.any isWord = false) :
    Agrees v k TIME_SRC s := by
  refine ((agrees_many hk _ _ _ _).seq fun _ _ => (agrees_TIME_PART hk).seq fun _ _ =>
    agrees_opt (agrees_TIME_PART hk)).seq fun x hx => agrees_look fun hnil => Or.inr ?_
  have hdigit := endsIn_time s x hx
  have hlast := run_last _ s hx
  rw [Place.last, hnil, lastOf_nil] at hlast
  obtain ⟨c, hc⟩ : ∃ c, x.place.before = some c := by
    cases hb : x.place.before with
    | none => simp [hb] at hdigit
    | some c => exact ⟨c, rfl⟩
  have hword : isWord c = true := isDigit_word (by simpa [hc] using hdigit)
  obtain hcut | hcut := hcut
  · simp [hc, hword, hcut]
  · rw [← hlast, hc, Option.any_some, hword] at hcut
    cases hcut

theorem agrees_UNCLOSED (hk : v.length ≤ k)
    (hcut : v.head?.any isWord = false ∨ s.last.any isWord = false) :
    Agrees v k UNCLOSED s := by
  refine (agrees_HEAD hk 3).seq fun x hx => (agrees_many hk _ _ _ _).seq fun y hy =>
    ((agrees_many hk _ _ _ _).seq fun z hz => agrees_opt ((agrees_many hk _ _ _ _).seq
      fun w hw => agrees_TIME_SRC hk (hcut.imp id fun h => ?_))).group 4
  rw [run_last _ _ hw, run_last _ _ hz, run_last _ _ hy, run_last _ _ hx]
  exact h

/-- Before `v` every match is the match without it, unless an ID goes up to it. -/
theorem exec_cut (hcut : v.head?.any isWord = false ∨ s.last.any isWord = false)
    (hbare : ∀ x ∈ run BARE_ID s, x.place.after = [] → v.head?.any inName = false)
    (hin : ∀ x, exec MARKER_REGEX (s.extend v) = some x → v.length ≤ x.place.after.length) :
    exec MARKER_REGEX (s.extend v) = (exec MARKER_REGEX s).map (·.extend v) :=
  Agrees.exec ((agrees_CLOSED (Nat.le_refl _)).alt ((agrees_UNCLOSED (Nat.le_refl _) hcut).alt
    (agrees_BARE (Nat.le_refl _) hbare))) hin

/-! A piece of a line, and the line. -/

/-- The two units stand inside a name. -/
def cutsName (b n : Option ℕ) : Bool := b.any inName && n.any inName

def CitationMarker.shift (d : ℕ) (m : CitationMarker) : CitationMarker :=
  ⟨m.start + d, m.stop + d, m.tokens⟩

theorem any_of_imp {p q : ℕ → Bool} (h : ∀ c, p c = true → q c = true) {b : Option ℕ}
    (hb : b.any q = false) : b.any p = false := by
  cases b with
  | none => rfl
  | some c =>
    cases hp : p c with
    | false => simpa using hp
    | true => simp [h c hp] at hb

theorem inName_of_word (c : ℕ) (h : isWord c = true) : inName c = true := by
  rw [inName, h, Bool.true_or]

theorem range_mono {lo hi hi' : Char} (h : unit hi ≤ unit hi') {c : ℕ}
    (hc : range lo hi c = true) : range lo hi' c = true := by
  rw [range, decide_eq_true_eq] at hc ⊢
  exact ⟨hc.1, Nat.le_trans hc.2 h⟩

theorem word_of_hex {c : ℕ} (h : isHex c = true) : isWord c = true := by
  rw [isHex, Bool.or_eq_true, Bool.or_eq_true] at h
  rw [isWord, Bool.or_eq_true, Bool.or_eq_true, Bool.or_eq_true]
  obtain (h | h) | h := h
  · exact .inl (.inl (.inl h))
  · exact .inl (.inl (.inr (range_mono (by decide) h)))
  · exact .inl (.inr (range_mono (by decide) h))

theorem inName_of_id (c : ℕ) (h : isId c = true) : inName c = true := by
  rw [isId, Bool.or_eq_true] at h
  obtain h | h := h
  · exact inName_of_word c (word_of_hex h)
  · rw [inName, h, Bool.or_true]

theorem endsIn_BARE_ID : EndsIn isId BARE_ID :=
  ((((endsIn_many (by decide)).seq).group 5).seq).seq.seq

theorem toMarker_shift (d : ℕ) (m : Match ℕ) :
    toMarker (m.shift d) = (toMarker m).map (·.shift d) := by
  rw [toMarker, toMarker, apply_ite (Option.map (CitationMarker.shift d))]
  rfl

theorem toMarker_start {m : Match ℕ} {marker : CitationMarker} (h : toMarker m = some marker) :
    marker.start = m.start ∧ marker.stop = m.stop := by
  simp only [toMarker] at h
  split at h
  · cases h
  · obtain rfl := Option.some.inj h
    exact ⟨rfl, rfl⟩

theorem markersOf_pairwise (text : JsString) :
    (markersOf text).Pairwise fun a b => a.stop ≤ b.start := by
  rw [markersOf_eq, List.pairwise_filterMap]
  refine (matchesFrom_pairwise consumes_MARKER_REGEX 0 none 0 text).imp ?_
  intro m n hle a ha b hb
  have hstop := (toMarker_start ha).2
  have hstart := (toMarker_start hb).1
  omega

theorem markersOf_bounds {text : JsString} {m : CitationMarker} (h : m ∈ markersOf text) :
    m.start < m.stop ∧ m.stop ≤ text.length := by
  rw [markersOf_eq] at h
  obtain ⟨r, hr, hm⟩ := List.mem_filterMap.mp h
  have hbounds := matchesFrom_bounds consumes_MARKER_REGEX _ _ _ _ hr
  obtain ⟨hstart, hstop⟩ := toMarker_start hm
  omega

theorem markersOf_starts {text : JsString} {m : CitationMarker} (h : m ∈ markersOf text) :
    text[m.start]?.any startsMarker = true := by
  rw [markersOf_eq] at h
  obtain ⟨r, hr, hm⟩ := List.mem_filterMap.mp h
  obtain ⟨b, hit, hexec⟩ := matchesFrom_exec consumes_MARKER_REGEX _ _ _ _ hr
  have hstarts := exec_starts hexec
  rw [List.head?_drop, Nat.sub_zero, ← (toMarker_start hm).1] at hstarts
  exact hstarts

theorem filter_toMarker (p : ℕ → Bool) (matches_ : List (Match ℕ)) :
    (matches_.filterMap toMarker).filter (fun m => p m.start) =
      (matches_.filter fun m => p m.start).filterMap toMarker := by
  rw [List.filter_filterMap, List.filterMap_filter]
  apply List.filterMap_congr
  intro m _
  cases h : toMarker m with
  | none => split <;> rfl
  | some marker => rw [Option.filter_some, (toMarker_start h).1]

theorem lastOf_none (t : JsString) : lastOf none t = t.getLast? := by rw [lastOf, Option.or_none]

theorem exec_in_piece {x y z v : JsString} {c : ℕ}
    (hright : (x ++ (y ++ c :: z)).getLast?.any inName = false ∨ v.head?.any inName = false)
    (hin : ∀ h, exec MARKER_REGEX ((⟨lastOf (lastOf none x) y, c :: z⟩ : Place ℕ).extend v) =
      some h → v.length ≤ h.place.after.length) :
    exec MARKER_REGEX ((⟨lastOf (lastOf none x) y, c :: z⟩ : Place ℕ).extend v) =
      (exec MARKER_REGEX ⟨lastOf (lastOf none x) y, c :: z⟩).map (·.extend v) := by
  have hs : (⟨lastOf (lastOf none x) y, c :: z⟩ : Place ℕ).last =
      (x ++ (y ++ c :: z)).getLast? := by
    show lastOf (lastOf (lastOf none x) y) (c :: z) = _
    rw [← lastOf_append, ← lastOf_append, lastOf_none]
  refine exec_cut ?_ (fun h hh hnil => ?_) hin
  · rw [hs]
    exact (hright.imp (any_of_imp inName_of_word) (any_of_imp inName_of_word)).symm
  · have hend := endsIn_BARE_ID _ h hh
    have hplace := run_last _ _ hh
    rw [Place.last, hnil, lastOf_nil, hs] at hplace
    obtain hright | hright := hright
    · rw [hplace, any_of_imp inName_of_id hright] at hend
      cases hend
    · exact hright

/-- A piece of a line reads as the line does, if no marker crosses an edge of it and no edge
stands inside a name. -/
theorem piece_reads_as_line (x g v : JsString)
    (hleft : cutsName x.getLast? g.head? = false)
    (hright : cutsName (x ++ g).getLast? v.head? = false)
    (hcross : ∀ m ∈ matchAll MARKER_REGEX (x ++ (g ++ v)),
      (m.start < x.length → m.stop ≤ x.length) ∧
        (m.start < x.length + g.length → m.stop ≤ x.length + g.length)) :
    (markersOf (x ++ (g ++ v))).filter
        (fun m => decide (x.length ≤ m.start ∧ m.start < x.length + g.length)) =
      (markersOf g).map (·.shift x.length) := by
  rw [cutsName, Bool.and_eq_false_iff] at hleft hright
  have hfirst : exec MARKER_REGEX ⟨lastOf none x, g⟩ = exec MARKER_REGEX ⟨none, g⟩ := by
    apply exec_before
    rw [lastOf_none]
    obtain hleft | hleft := hleft
    · exact .inl (any_of_imp inName_of_word hleft)
    · exact .inr (any_of_imp (fun c hc => inName_of_word c (word_of_s hc)) hleft)
  obtain ⟨before, after, heq, hbefore, hafter⟩ := matchAll_gap consumes_MARKER_REGEX x g v
    (fun m hm hstart hstop => absurd ((hcross m hm).1 hstart) (Nat.not_le.mpr hstop))
    (fun m hm _ hstop => (hcross m hm).2 hstop)
    (fun y c z hg hin => exec_in_piece (hg ▸ hright) hin) hfirst
  have hp := filter_toMarker (fun n => decide (x.length ≤ n ∧ n < x.length + g.length))
    (matchAll MARKER_REGEX (x ++ (g ++ v)))
  rw [markersOf_eq, markersOf_eq, hp, heq, List.filter_append, List.filter_append]
  have hb : before.filter
      (fun m => decide (x.length ≤ m.start ∧ m.start < x.length + g.length)) = [] := by
    rw [List.filter_eq_nil_iff]
    intro m hm
    have := hbefore m hm
    simp only [decide_eq_true_eq]
    omega
  have ha : after.filter
      (fun m => decide (x.length ≤ m.start ∧ m.start < x.length + g.length)) = [] := by
    rw [List.filter_eq_nil_iff]
    intro m hm
    have := hafter m hm
    simp only [decide_eq_true_eq]
    omega
  have hg : ((matchAll MARKER_REGEX g).map (·.shift x.length)).filter
      (fun m => decide (x.length ≤ m.start ∧ m.start < x.length + g.length)) =
        (matchAll MARKER_REGEX g).map (·.shift x.length) := by
    rw [List.filter_eq_self]
    intro m hm
    obtain ⟨m', hm', rfl⟩ := List.mem_map.mp hm
    have := matchesFrom_bounds consumes_MARKER_REGEX _ _ _ _ hm'
    have hin : x.length ≤ m'.start + x.length ∧ m'.start + x.length < x.length + g.length := by
      omega
    exact decide_eq_true hin
  rw [hb, ha, hg, List.nil_append, List.append_nil, List.filterMap_map, List.map_filterMap]
  apply List.filterMap_congr
  intro m _
  exact toMarker_shift x.length m

/-- `[seg:2]` between `(seg:1) ` and ` b`. -/
theorem piece_reads_as_line_between :
    let x := ['(', 's', 'e', 'g', ':', '1', ')', ' '].map unit
    let g := ['[', 's', 'e', 'g', ':', '2', ']'].map unit
    let v := [' ', 'b'].map unit
    (markersOf g).length = 1 ∧
      (markersOf (x ++ (g ++ v))).filter (fun m => decide (8 ≤ m.start ∧ m.start < 15)) =
        (markersOf g).map (·.shift 8) :=
  ⟨by decide +kernel, piece_reads_as_line (['(', 's', 'e', 'g', ':', '1', ')', ' '].map unit)
    (['[', 's', 'e', 'g', ':', '2', ']'].map unit) ([' ', 'b'].map unit) (by decide) (by decide)
    (by decide +kernel)⟩

end YapStack.Citations
