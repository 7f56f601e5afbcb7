import Mathlib.Data.List.Basic

namespace YapStack.Regex

variable {α : Type}

/-- A place in a text: the unit before it and the units after it. -/
structure Place (α : Type) where
  before : Option α
  after : List α
  deriving DecidableEq

/-- A backtracking expression. Only units are repeated; a test looks at the units on its sides. -/
inductive Re (α : Type) where
  | empty
  | unit (p : α → Bool)
  | many (greedy : Bool) (lo : ℕ) (hi : Option ℕ) (p : α → Bool)
  | seq (a b : Re α)
  | alt (a b : Re α)
  | group (n : ℕ) (a : Re α)
  | look (test : Option α → Option α → Bool)

structure Hit (α : Type) where
  place : Place α
  groups : List (ℕ × List α)

def Hit.value (h : Hit α) (n : ℕ) : Option (List α) := h.groups.lookup n

def repeats (greedy : Bool) (p : α → Bool) : List α → ℕ → Option ℕ → Option α → List (Place α)
  | [], lo, _, b => if lo = 0 then [⟨b, []⟩] else []
  | c :: rest, lo, hi, b =>
    let stop := if lo = 0 then [⟨b, c :: rest⟩] else []
    let more := if p c && hi != some 0 then
      repeats greedy p rest (lo - 1) (hi.map (· - 1)) (some c) else []
    if greedy then more ++ stop else stop ++ more

/-- Every way to match from a place, in the order backtracking tries them. -/
def run : Re α → Place α → List (Hit α)
  | .empty, s => [⟨s, []⟩]
  | .unit p, s =>
    match s.after with
    | [] => []
    | c :: rest => if p c then [⟨⟨some c, rest⟩, []⟩] else []
  | .many greedy lo hi p, s => (repeats greedy p s.after lo hi s.before).map (⟨·, []⟩)
  | .seq a b, s => (run a s).flatMap fun h =>
      (run b h.place).map fun k => ⟨k.place, h.groups ++ k.groups⟩
  | .alt a b, s => run a s ++ run b s
  | .group n a, s => (run a s).map fun h =>
      ⟨h.place, (n, s.after.take (s.after.length - h.place.after.length)) :: h.groups⟩
  | .look test, s => if test s.before s.after.head? then [⟨s, []⟩] else []

theorem repeats_nil (greedy : Bool) (p : α → Bool) (lo : ℕ) (hi : Option ℕ) (b : Option α) :
    repeats greedy p [] lo hi b = if lo = 0 then [⟨b, []⟩] else [] := rfl

theorem repeats_cons (greedy : Bool) (p : α → Bool) (c : α) (rest : List α) (lo : ℕ)
    (hi : Option ℕ) (b : Option α) :
    repeats greedy p (c :: rest) lo hi b =
      let stop := if lo = 0 then [⟨b, c :: rest⟩] else []
      let more := if p c && hi != some 0 then
        repeats greedy p rest (lo - 1) (hi.map (· - 1)) (some c) else []
      if greedy then more ++ stop else stop ++ more := rfl

section Run

variable (a b : Re α) (s : Place α) (p : α → Bool) (before : Option α)

theorem run_empty : run .empty s = [⟨s, []⟩] := rfl

theorem run_unit_nil : run (.unit p) ⟨before, []⟩ = [] := rfl

theorem run_unit_cons (c : α) (rest : List α) :
    run (.unit p) ⟨before, c :: rest⟩ = if p c then [⟨⟨some c, rest⟩, []⟩] else [] := rfl

theorem run_many (greedy : Bool) (lo : ℕ) (hi : Option ℕ) :
    run (.many greedy lo hi p) s =
      (repeats greedy p s.after lo hi s.before).map (⟨·, []⟩) := rfl

theorem run_seq : run (.seq a b) s = (run a s).flatMap fun h =>
    (run b h.place).map fun k => ⟨k.place, h.groups ++ k.groups⟩ := rfl

theorem run_alt : run (.alt a b) s = run a s ++ run b s := rfl

theorem run_group (n : ℕ) : run (.group n a) s = (run a s).map fun h =>
    ⟨h.place, (n, s.after.take (s.after.length - h.place.after.length)) :: h.groups⟩ := rfl

theorem run_look (test : Option α → Option α → Bool) :
    run (.look test) s = if test s.before s.after.head? then [⟨s, []⟩] else [] := rfl

end Run

/-- The match at a place. -/
def exec (re : Re α) (s : Place α) : Option (Hit α) := (run re s).head?

def opt (a : Re α) : Re α := .alt a .empty

structure Match (α : Type) where
  start : ℕ
  stop : ℕ
  groups : List (ℕ × List α)

def Match.value (m : Match α) (n : ℕ) : Option (List α) := m.groups.lookup n

/-- The first match at or after a place. -/
def searchFrom (re : Re α) : ℕ → Option α → List α → Option (Match α)
  | pos, b, [] => (exec re ⟨b, []⟩).map fun h => ⟨pos, pos, h.groups⟩
  | pos, b, c :: rest =>
    match exec re ⟨b, c :: rest⟩ with
    | some h => some ⟨pos, pos + ((c :: rest).length - h.place.after.length), h.groups⟩
    | none => searchFrom re (pos + 1) (some c) rest

def search (re : Re α) (text : List α) : Option (Match α) := searchFrom re 0 none text

def test (re : Re α) (text : List α) : Bool := (search re text).isSome

/-- Every match of an expression that never matches nothing; `skip` is what is left of the match
before. -/
def matchesFrom (re : Re α) : ℕ → Option α → ℕ → List α → List (Match α)
  | _, _, _, [] => []
  | pos, _, skip + 1, c :: rest => matchesFrom re (pos + 1) (some c) skip rest
  | pos, b, 0, c :: rest =>
    match exec re ⟨b, c :: rest⟩ with
    | none => matchesFrom re (pos + 1) (some c) 0 rest
    | some h =>
      let used := (c :: rest).length - h.place.after.length
      ⟨pos, pos + used, h.groups⟩ :: matchesFrom re (pos + 1) (some c) (used - 1) rest

def matchAll (re : Re α) (text : List α) : List (Match α) := matchesFrom re 0 none 0 text

/-- `split` by an expression that never matches nothing. -/
def splitFrom (pos : ℕ) (text : List α) : List (Match α) → List (List α)
  | [] => [text]
  | m :: rest => text.take (m.start - pos) :: splitFrom m.stop (text.drop (m.stop - pos)) rest

def split (re : Re α) (text : List α) : List (List α) := splitFrom 0 text (matchAll re text)

/-- The unit before a place, once some units are read from where `b` was before it. -/
def lastOf (b : Option α) (used : List α) : Option α := used.getLast?.or b

theorem lastOf_nil (b : Option α) : lastOf b [] = b := rfl

theorem lastOf_cons (b : Option α) (c : α) (used : List α) :
    lastOf b (c :: used) = lastOf (some c) used := by
  cases used with
  | nil => rfl
  | cons d rest => simp [lastOf, List.getLast?_eq_some_getLast]

theorem lastOf_append (b : Option α) (x y : List α) : lastOf b (x ++ y) = lastOf (lastOf b x) y := by
  induction x generalizing b with
  | nil => rfl
  | cons c x ih => rw [List.cons_append, lastOf_cons, ih, lastOf_cons]

/-- From one place some units are read to another. -/
structure Moves (s : Place α) (used : List α) (t : Place α) : Prop where
  after : s.after = used ++ t.after
  before : t.before = lastOf s.before used

namespace Moves

variable {s t r : Place α} {x y : List α}

theorem refl (s : Place α) : Moves s [] s := ⟨rfl, rfl⟩

theorem trans (h : Moves s x t) (h' : Moves t y r) : Moves s (x ++ y) r :=
  ⟨by rw [h.after, h'.after, List.append_assoc], by rw [h'.before, h.before, lastOf_append]⟩

theorem last (h : Moves s x t) : lastOf t.before t.after = lastOf s.before s.after := by
  rw [h.after, lastOf_append, h.before]

theorem length_le (h : Moves s x t) : t.after.length ≤ s.after.length := by
  rw [h.after, List.length_append]
  omega

end Moves

/-- The units an expression may read. -/
def Re.reads : Re α → α → Bool
  | .empty, _ => false
  | .unit p, c => p c
  | .many _ _ _ p, c => p c
  | .seq a b, c => a.reads c || b.reads c
  | .alt a b, c => a.reads c || b.reads c
  | .group _ a, c => a.reads c
  | .look _, _ => false

theorem reads_unit (p : α → Bool) (c : α) : (Re.unit p).reads c = p c := rfl

theorem reads_seq (a b : Re α) (c : α) : (Re.seq a b).reads c = (a.reads c || b.reads c) := rfl

theorem reads_alt (a b : Re α) (c : α) : (Re.alt a b).reads c = (a.reads c || b.reads c) := rfl

theorem repeats_moves (greedy : Bool) (p : α → Bool) (text : List α) (lo : ℕ) (hi : Option ℕ)
    (b : Option α) {t : Place α} (h : t ∈ repeats greedy p text lo hi b) :
    ∃ used, Moves ⟨b, text⟩ used t ∧ (∀ c ∈ used, p c = true) ∧ lo ≤ used.length := by
  induction text generalizing lo hi b with
  | nil =>
    rw [repeats_nil] at h
    split at h
    · rename_i hlo
      rw [List.mem_singleton] at h
      subst h
      exact ⟨[], Moves.refl _, by simp, by simp [hlo]⟩
    · simp at h
  | cons c rest ih =>
    have hmem : t ∈ (if lo = 0 then [(⟨b, c :: rest⟩ : Place α)] else []) ∨
        t ∈ (if p c && hi != some 0 then
          repeats greedy p rest (lo - 1) (hi.map (· - 1)) (some c) else []) := by
      rw [repeats_cons] at h
      cases greedy with
      | true => exact (List.mem_append.mp h).symm
      | false => exact List.mem_append.mp h
    obtain hstop | hmore := hmem
    · split at hstop
      · rename_i hlo
        rw [List.mem_singleton] at hstop
        subst hstop
        exact ⟨[], Moves.refl _, by simp, by simp [hlo]⟩
      · simp at hstop
    · split at hmore
      · rename_i hp
        have hpc : p c = true := by simp at hp; exact hp.1
        obtain ⟨used, hm, hused, hlen⟩ := ih _ _ _ hmore
        refine ⟨c :: used, ⟨?_, ?_⟩, ?_, ?_⟩
        · have ha := hm.after
          simp only at ha
          simp [ha]
        · rw [hm.before, lastOf_cons]
        · intro d hd
          obtain rfl | hd := List.mem_cons.mp hd
          · exact hpc
          · exact hused d hd
        · rw [List.length_cons]
          omega
      · simp at hmore

theorem run_moves (re : Re α) (s : Place α) {h : Hit α} (hh : h ∈ run re s) :
    ∃ used, Moves s used h.place ∧ ∀ c ∈ used, re.reads c = true := by
  induction re generalizing s h with
  | empty =>
    rw [run_empty, List.mem_singleton] at hh
    subst hh
    exact ⟨[], Moves.refl s, by simp⟩
  | unit p =>
    obtain ⟨b, after⟩ := s
    cases after with
    | nil => simp [run_unit_nil] at hh
    | cons c rest =>
      by_cases hp : p c = true
      · simp only [run_unit_cons, hp, if_true, List.mem_singleton] at hh
        subst hh
        exact ⟨[c], ⟨rfl, rfl⟩, by simp [reads_unit, hp]⟩
      · simp [run_unit_cons, hp] at hh
  | many greedy lo hi p =>
    rw [run_many, List.mem_map] at hh
    obtain ⟨t, ht, rfl⟩ := hh
    obtain ⟨used, hm, hused, -⟩ := repeats_moves greedy p s.after lo hi s.before ht
    exact ⟨used, hm, hused⟩
  | seq a b iha ihb =>
    rw [run_seq, List.mem_flatMap] at hh
    obtain ⟨h1, hh1, hh⟩ := hh
    rw [List.mem_map] at hh
    obtain ⟨h2, hh2, rfl⟩ := hh
    obtain ⟨x, hx, hrx⟩ := iha s hh1
    obtain ⟨y, hy, hry⟩ := ihb h1.place hh2
    refine ⟨x ++ y, hx.trans hy, fun c hc => ?_⟩
    obtain hc | hc := List.mem_append.mp hc
    · simp [reads_seq, hrx c hc]
    · simp [reads_seq, hry c hc]
  | alt a b iha ihb =>
    rw [run_alt, List.mem_append] at hh
    obtain hh | hh := hh
    · obtain ⟨x, hx, hrx⟩ := iha s hh
      exact ⟨x, hx, fun c hc => by simp [reads_alt, hrx c hc]⟩
    · obtain ⟨x, hx, hrx⟩ := ihb s hh
      exact ⟨x, hx, fun c hc => by simp [reads_alt, hrx c hc]⟩
  | group n a ih =>
    rw [run_group, List.mem_map] at hh
    obtain ⟨h1, hh1, rfl⟩ := hh
    exact ih s (h := h1) hh1
  | look test =>
    rw [run_look] at hh
    split at hh
    · rw [List.mem_singleton] at hh
      subst hh
      exact ⟨[], Moves.refl s, by simp⟩
    · simp at hh

theorem run_length (re : Re α) (s : Place α) {h : Hit α} (hh : h ∈ run re s) :
    h.place.after.length ≤ s.after.length := by
  obtain ⟨used, hm, -⟩ := run_moves re s hh
  exact hm.length_le

/-- Every match reads at least one unit. -/
def Consumes (re : Re α) : Prop :=
  ∀ s, ∀ h ∈ run re s, h.place.after.length < s.after.length

theorem consumes_unit (p : α → Bool) : Consumes (.unit p) := by
  intro s h hh
  obtain ⟨b, after⟩ := s
  cases after with
  | nil => simp [run_unit_nil] at hh
  | cons c rest =>
    by_cases hp : p c = true
    · simp only [run_unit_cons, hp, if_true, List.mem_singleton] at hh
      simp [hh]
    · simp [run_unit_cons, hp] at hh

theorem consumes_many {greedy : Bool} {lo : ℕ} (hlo : 0 < lo) (hi : Option ℕ) (p : α → Bool) :
    Consumes (.many greedy lo hi p) := by
  intro s h hh
  rw [run_many, List.mem_map] at hh
  obtain ⟨t, ht, rfl⟩ := hh
  obtain ⟨used, hm, -, hlen⟩ := repeats_moves greedy p s.after lo hi s.before ht
  have ha : s.after = used ++ t.after := hm.after
  rw [ha, List.length_append]
  exact Nat.lt_add_of_pos_left (Nat.lt_of_lt_of_le hlo hlen)

theorem Consumes.seq_left {a : Re α} (h : Consumes a) (b : Re α) : Consumes (.seq a b) := by
  intro s k hk
  rw [run_seq, List.mem_flatMap] at hk
  obtain ⟨h1, hh1, hk⟩ := hk
  rw [List.mem_map] at hk
  obtain ⟨h2, hh2, rfl⟩ := hk
  exact Nat.lt_of_le_of_lt (run_length b h1.place (h := h2) hh2) (h s h1 hh1)

theorem Consumes.seq_right {b : Re α} (h : Consumes b) (a : Re α) : Consumes (.seq a b) := by
  intro s k hk
  rw [run_seq, List.mem_flatMap] at hk
  obtain ⟨h1, hh1, hk⟩ := hk
  rw [List.mem_map] at hk
  obtain ⟨h2, hh2, rfl⟩ := hk
  exact Nat.lt_of_lt_of_le (h h1.place h2 hh2) (run_length a s (h := h1) hh1)

theorem Consumes.alt {a b : Re α} (ha : Consumes a) (hb : Consumes b) : Consumes (.alt a b) := by
  intro s h hh
  obtain hh | hh := List.mem_append.mp hh
  · exact ha s h hh
  · exact hb s h hh

theorem Consumes.group {a : Re α} (h : Consumes a) (n : ℕ) : Consumes (.group n a) := by
  intro s k hk
  rw [run_group, List.mem_map] at hk
  obtain ⟨h1, hh1, rfl⟩ := hk
  exact h s h1 hh1

section Exec

variable {s : Place α}

theorem exec_moves {re : Re α} {h : Hit α} (hh : exec re s = some h) :
    ∃ used, Moves s used h.place ∧ ∀ c ∈ used, re.reads c = true :=
  run_moves re s (List.mem_of_head? hh)

theorem exec_consumes {re : Re α} (hc : Consumes re) {h : Hit α} (hh : exec re s = some h) :
    h.place.after.length < s.after.length :=
  hc s h (List.mem_of_head? hh)

theorem exec_eq_none {re : Re α} : exec re s = none ↔ run re s = [] := List.head?_eq_none_iff

theorem exec_alt (a b : Re α) : exec (.alt a b) s = (exec a s).or (exec b s) := by
  rw [exec, run_alt, List.head?_append]
  rfl

theorem exec_group (n : ℕ) (a : Re α) :
    exec (.group n a) s = (exec a s).map fun h =>
      ⟨h.place, (n, s.after.take (s.after.length - h.place.after.length)) :: h.groups⟩ := by
  rw [exec, run_group, List.head?_map]
  rfl

theorem exec_opt (a : Re α) : exec (opt a) s = some ((exec a s).getD ⟨s, []⟩) := by
  rw [opt, exec_alt]
  cases exec a s with
  | none => rfl
  | some h => rfl

/-- When `b` matches wherever `a` ends, nothing is tried twice. -/
theorem exec_seq_of_total {a b : Re α} (hb : ∀ t, exec b t ≠ none) :
    exec (.seq a b) s = (exec a s).bind fun h =>
      (exec b h.place).map fun k => ⟨k.place, h.groups ++ k.groups⟩ := by
  rw [exec, exec, run_seq]
  cases run a s with
  | nil => rfl
  | cons h rest =>
    cases hrun : run b h.place with
    | nil => exact absurd (exec_eq_none.mpr hrun) (hb h.place)
    | cons k _ => simp [exec, hrun]

/-- Past the longest stretch of a class of units. -/
def Place.skip (p : α → Bool) (s : Place α) : Place α :=
  ⟨lastOf s.before (s.after.takeWhile p), s.after.dropWhile p⟩

theorem moves_skip (p : α → Bool) (s : Place α) : Moves s (s.after.takeWhile p) (s.skip p) :=
  ⟨List.takeWhile_append_dropWhile.symm, rfl⟩

theorem head_skip {p : α → Bool} {c : α} {t : List α} (h : (s.skip p).after = c :: t) :
    p c = false := by
  have := List.head?_dropWhile_not p s.after
  rw [show s.after.dropWhile p = c :: t from h] at this
  simpa using this

theorem repeats_any (p : α → Bool) (b : Option α) (text : List α) :
    (repeats true p text 0 none b).head? = some ((⟨b, text⟩ : Place α).skip p) := by
  induction text generalizing b with
  | nil => rfl
  | cons c rest ih =>
    by_cases hp : p c = true
    · have := ih (some c)
      simp [repeats_cons, hp, this, Place.skip, lastOf_cons]
    · simp [repeats_cons, hp, Place.skip, lastOf_nil]

theorem exec_any (p : α → Bool) : exec (.many true 0 none p) s = some ⟨s.skip p, []⟩ := by
  rw [exec, run_many, List.head?_map, repeats_any]
  rfl

end Exec

/-- Every match ends after a unit of the class. -/
def EndsIn (p : α → Bool) (re : Re α) : Prop :=
  ∀ s, ∀ h ∈ run re s, h.place.before.any p = true

section EndsIn

variable {p : α → Bool} {a b : Re α}

theorem endsIn_unit {q : α → Bool} (h : ∀ c, q c = true → p c = true) : EndsIn p (.unit q) := by
  intro s x hx
  obtain ⟨b, after⟩ := s
  cases after with
  | nil => simp [run_unit_nil] at hx
  | cons c rest =>
    by_cases hq : q c = true
    · simp only [run_unit_cons, hq, if_true, List.mem_singleton] at hx
      simp [hx, h c hq]
    · simp [run_unit_cons, hq] at hx

theorem endsIn_many {greedy : Bool} {lo : ℕ} (hlo : 0 < lo) {hi : Option ℕ} :
    EndsIn p (.many greedy lo hi p) := by
  intro s x hx
  rw [run_many, List.mem_map] at hx
  obtain ⟨t, ht, rfl⟩ := hx
  obtain ⟨used, hm, hused, hlen⟩ := repeats_moves greedy p s.after lo hi s.before ht
  have hlast : used.getLast? = some (used.getLast (by rintro rfl; simp at hlen; omega)) :=
    List.getLast?_eq_some_getLast _
  simp only [hm.before, lastOf, hlast, Option.some_or, Option.any_some]
  exact hused _ (List.getLast_mem _)

theorem EndsIn.seq (h : EndsIn p b) : EndsIn p (.seq a b) := by
  intro s x hx
  rw [run_seq, List.mem_flatMap] at hx
  obtain ⟨y, -, hx⟩ := hx
  obtain ⟨z, hz, rfl⟩ := List.mem_map.mp hx
  exact h y.place z hz

theorem EndsIn.alt (ha : EndsIn p a) (hb : EndsIn p b) : EndsIn p (.alt a b) := by
  intro s x hx
  obtain hx | hx := List.mem_append.mp hx
  · exact ha s x hx
  · exact hb s x hx

theorem EndsIn.group (h : EndsIn p a) (n : ℕ) : EndsIn p (.group n a) := by
  intro s x hx
  rw [run_group, List.mem_map] at hx
  obtain ⟨y, hy, rfl⟩ := hx
  exact h s y hy

theorem EndsIn.seq_opt (ha : EndsIn p a) (hb : EndsIn p b) : EndsIn p (.seq a (opt b)) := by
  intro s x hx
  rw [run_seq, List.mem_flatMap] at hx
  obtain ⟨y, hy, hx⟩ := hx
  obtain ⟨z, hz, rfl⟩ := List.mem_map.mp hx
  obtain hz | hz := List.mem_append.mp hz
  · exact hb y.place z hz
  · rw [run_empty, List.mem_singleton] at hz
    rw [hz]
    exact ha s y hy

end EndsIn

/-- Every match begins with a unit of the class. -/
def StartsIn (p : α → Bool) (re : Re α) : Prop :=
  ∀ s, ∀ h ∈ run re s, s.after.head?.any p = true

/-- What stands before a place does not matter there. -/
def BeforeFree (re : Re α) : Prop := ∀ b b' t, run re ⟨b, t⟩ = run re ⟨b', t⟩

def Re.groupless : Re α → Bool
  | .empty | .unit _ | .many .. | .look _ => true
  | .seq a b | .alt a b => a.groupless && b.groupless
  | .group .. => false

section Starts

variable {p : α → Bool} {a b : Re α}

theorem startsIn_unit {q : α → Bool} (h : ∀ c, q c = true → p c = true) :
    StartsIn p (.unit q) := by
  intro s x hx
  obtain ⟨b, after⟩ := s
  cases after with
  | nil => simp [run_unit_nil] at hx
  | cons c rest =>
    by_cases hq : q c = true
    · simp [h c hq]
    · simp [run_unit_cons, hq] at hx

theorem StartsIn.seq (h : StartsIn p a) : StartsIn p (.seq a b) := by
  intro s x hx
  rw [run_seq, List.mem_flatMap] at hx
  obtain ⟨y, hy, -⟩ := hx
  exact h s y hy

theorem StartsIn.alt (ha : StartsIn p a) (hb : StartsIn p b) : StartsIn p (.alt a b) := by
  intro s x hx
  obtain hx | hx := List.mem_append.mp hx
  · exact ha s x hx
  · exact hb s x hx

theorem StartsIn.group (h : StartsIn p a) (n : ℕ) : StartsIn p (.group n a) := by
  intro s x hx
  rw [run_group, List.mem_map] at hx
  obtain ⟨y, hy, -⟩ := hx
  exact h s y hy

theorem run_look_seq {test : Option α → Option α → Bool} {s : Place α} :
    run (.seq (.look test) b) s = if test s.before s.after.head? then run b s else [] := by
  simp only [run_seq, run_look]
  split
  · simp
  · rfl

theorem StartsIn.look_seq (h : StartsIn p b) (test : Option α → Option α → Bool) :
    StartsIn p (.seq (.look test) b) := by
  intro s x hx
  rw [run_look_seq] at hx
  split at hx
  · exact h s x hx
  · simp at hx

theorem beforeFree_unit : BeforeFree (.unit p) := by
  intro b b' t
  cases t <;> rfl

theorem BeforeFree.seq (h : BeforeFree a) : BeforeFree (.seq a b) := by
  intro c c' t
  rw [run_seq, run_seq, h c c' t]

theorem BeforeFree.alt (ha : BeforeFree a) (hb : BeforeFree b) : BeforeFree (.alt a b) := by
  intro c c' t
  rw [run_alt, run_alt, ha c c' t, hb c c' t]

theorem groupless_seq {a b : Re α} : (Re.seq a b).groupless = (a.groupless && b.groupless) := rfl

theorem groupless_alt {a b : Re α} : (Re.alt a b).groupless = (a.groupless && b.groupless) := rfl

theorem groups_nil {re : Re α} (h : re.groupless = true) {s : Place α} {x : Hit α}
    (hx : x ∈ run re s) : x.groups = [] := by
  induction re generalizing s x with
  | empty =>
    rw [run_empty, List.mem_singleton] at hx
    rw [hx]
  | unit p =>
    obtain ⟨b, after⟩ := s
    cases after with
    | nil => simp [run_unit_nil] at hx
    | cons c rest =>
      rw [run_unit_cons] at hx
      split at hx
      · rw [List.mem_singleton] at hx
        rw [hx]
      · simp at hx
  | many greedy lo hi p =>
    rw [run_many, List.mem_map] at hx
    obtain ⟨t, -, rfl⟩ := hx
    rfl
  | seq a b iha ihb =>
    rw [groupless_seq, Bool.and_eq_true] at h
    rw [run_seq, List.mem_flatMap] at hx
    obtain ⟨y, hy, hx⟩ := hx
    obtain ⟨z, hz, rfl⟩ := List.mem_map.mp hx
    simp [iha h.1 hy, ihb h.2 hz]
  | alt a b iha ihb =>
    rw [groupless_alt, Bool.and_eq_true] at h
    obtain hx | hx := List.mem_append.mp hx
    · exact iha h.1 hx
    · exact ihb h.2 hx
  | group n a ih => cases h
  | look test =>
    rw [run_look] at hx
    split at hx
    · rw [List.mem_singleton] at hx
      rw [hx]
    · simp at hx

end Starts

end YapStack.Regex
