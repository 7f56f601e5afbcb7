import Mathlib.Data.Option.Basic
import Mathlib.Order.Defs.PartialOrder

namespace YapStack.Runs

variable {σ α γ : Type*}

/-- Replay a schedule of events. An event that is not enabled stops the replay. -/
def exec (step : σ → α → Option σ) : σ → List α → Option σ
  | s, [] => some s
  | s, a :: as => (step s a).bind (fun t => exec step t as)

/-- Every event of the schedule that fires relates its two states by `g`. -/
def Along (step : σ → α → Option σ) (g : σ → α → σ → Prop) : σ → List α → Prop
  | _, [] => True
  | s, a :: as => ∀ t, step s a = some t → g s a t ∧ Along step g t as

variable {step : σ → α → Option σ} {g g' : σ → α → σ → Prop} {I : σ → Prop}

instance decidableAlong [∀ s a t, Decidable (g s a t)] :
    ∀ (s : σ) (as : List α), Decidable (Along step g s as)
  | _, [] => .isTrue trivial
  | s, a :: as =>
    match h : step s a with
    | none => .isTrue (by simp [Along, h])
    | some t =>
      let _ := decidableAlong t as
      decidable_of_iff (g s a t ∧ Along step g t as) (by simp [Along, h])

theorem exec_cons (s u : σ) (a : α) (as : List α) :
    exec step s (a :: as) = some u ↔ ∃ t, step s a = some t ∧ exec step t as = some u := by
  simp only [exec, Option.bind_eq_some_iff]

theorem exec_append (s u : σ) (as bs : List α) :
    exec step s (as ++ bs) = some u ↔
      ∃ t, exec step s as = some t ∧ exec step t bs = some u := by
  induction as generalizing s with
  | nil => simp [exec]
  | cons a as ih =>
    simp only [List.cons_append, exec_cons, ih]
    constructor
    · rintro ⟨t, ht, v, hv, hu⟩
      exact ⟨v, ⟨t, ht, hv⟩, hu⟩
    · rintro ⟨v, ⟨t, ht, hv⟩, hu⟩
      exact ⟨t, ht, v, hv, hu⟩

theorem exec_single (s t : σ) (a : α) : exec step s [a] = some t ↔ step s a = some t := by
  simp [exec]

/-- The induction every safety proof goes through: an invariant that each
guarded step keeps holds at the end of every guarded run. -/
theorem exec_invariant_along
    (hstep : ∀ s a t, I s → g s a t → step s a = some t → I t)
    {s u : σ} {as : List α} (hs : I s) (hg : Along step g s as)
    (hu : exec step s as = some u) : I u := by
  induction as generalizing s with
  | nil =>
    simp only [exec, Option.some.injEq] at hu
    exact hu ▸ hs
  | cons a as ih =>
    obtain ⟨t, ht, hu'⟩ := (exec_cons s u a as).mp hu
    obtain ⟨hga, hgas⟩ := hg t ht
    exact ih (hstep s a t hs hga ht) hgas hu'

/-- A property of the end of one fixed run, by evaluation. -/
theorem exec_evaluates {s : σ} {as : List α} {P : σ → Prop} [DecidablePred P]
    (h : (exec step s as).any (fun u => decide (P u)) = true) :
    ∃ u, exec step s as = some u ∧ P u := by
  obtain ⟨u, hu, hp⟩ := (Option.any_eq_true _ _).mp h
  exact ⟨u, hu, of_decide_eq_true hp⟩

theorem along_true (s : σ) (as : List α) : Along step (fun _ _ _ => True) s as := by
  induction as generalizing s with
  | nil => trivial
  | cons a as ih => exact fun t _ => ⟨trivial, ih t⟩

theorem exec_invariant (hstep : ∀ s a t, I s → step s a = some t → I t)
    {s u : σ} {as : List α} (hs : I s) (hu : exec step s as = some u) : I u :=
  exec_invariant_along (g := fun _ _ _ => True) (fun s a t h _ hst => hstep s a t h hst) hs
    (along_true s as) hu

/-- What an invariant says about one step holds of every step of a run. -/
theorem along_of_invariant (hstep : ∀ s a t, I s → g s a t → step s a = some t → I t)
    (hout : ∀ s a t, I s → g s a t → step s a = some t → g' s a t)
    {s : σ} {as : List α} (hs : I s) (hg : Along step g s as) : Along step g' s as := by
  induction as generalizing s with
  | nil => trivial
  | cons a as ih =>
    intro t ht
    obtain ⟨hga, hgas⟩ := hg t ht
    exact ⟨hout s a t hs hga ht, ih (hstep s a t hs hga ht) hgas⟩

theorem Along.imp (h : ∀ s a t, g s a t → g' s a t) {s : σ} {as : List α}
    (hg : Along step g s as) : Along step g' s as := by
  induction as generalizing s with
  | nil => trivial
  | cons a as ih => exact fun t ht => ⟨h s a t (hg t ht).1, ih (hg t ht).2⟩

theorem along_append {s t : σ} {as bs : List α} (h : Along step g s (as ++ bs))
    (ht : exec step s as = some t) : Along step g t bs := by
  induction as generalizing s with
  | nil =>
    simp only [exec, Option.some.injEq] at ht
    exact ht ▸ h
  | cons a as ih =>
    obtain ⟨v, hv, ht'⟩ := (exec_cons s t a as).mp ht
    exact ih (h v hv).2 ht'

theorem along_join {s : σ} {as bs : List α} (has : Along step g s as)
    (hbs : ∀ t, exec step s as = some t → Along step g t bs) : Along step g s (as ++ bs) := by
  induction as generalizing s with
  | nil => exact hbs s rfl
  | cons a as ih =>
    intro t ht
    obtain ⟨hga, hgas⟩ := has t ht
    refine ⟨hga, ih hgas (fun u hu => hbs u ?_)⟩
    exact (exec_cons s u a as).mpr ⟨t, ht, hu⟩

theorem along_left {s : σ} {as bs : List α} (h : Along step g s (as ++ bs)) :
    Along step g s as := by
  induction as generalizing s with
  | nil => trivial
  | cons a as ih => exact fun t ht => ⟨(h t ht).1, ih (h t ht).2⟩

theorem Along.and_events {p : α → Prop} {s : σ} {as : List α} (hg : Along step g s as)
    (hp : ∀ a ∈ as, p a) : Along step (fun s a t => g s a t ∧ p a) s as := by
  induction as generalizing s with
  | nil => trivial
  | cons a as ih =>
    intro t ht
    refine ⟨⟨(hg t ht).1, hp a List.mem_cons_self⟩, ih (hg t ht).2 (fun b hb => ?_)⟩
    exact hp b (List.mem_cons_of_mem a hb)

/-- A history variable: `note` reads the run, the step never reads the note. -/
def watch (step : σ → α → Option σ) (note : γ → σ → α → γ) (p : σ × γ) (a : α) :
    Option (σ × γ) :=
  (step p.1 a).map (fun t => (t, note p.2 p.1 a))

theorem watch_eq_some (note : γ → σ → α → γ) (p q : σ × γ) (a : α) :
    watch step note p a = some q ↔ step p.1 a = some q.1 ∧ q.2 = note p.2 p.1 a := by
  obtain ⟨t, n⟩ := q
  simp only [watch, Option.map_eq_some_iff, Prod.mk.injEq]
  constructor
  · rintro ⟨u, hu, rfl, rfl⟩
    exact ⟨hu, rfl⟩
  · rintro ⟨ht, rfl⟩
    exact ⟨t, ht, rfl, rfl⟩

/-- Watching a run neither adds nor removes a run. -/
theorem exec_watch (note : γ → σ → α → γ) (s u : σ) (n : γ) (as : List α) :
    exec step s as = some u ↔ ∃ m, exec (watch step note) (s, n) as = some (u, m) := by
  induction as generalizing s n with
  | nil => simp [exec]
  | cons a as ih =>
    rw [exec_cons]
    constructor
    · rintro ⟨t, ht, hu⟩
      obtain ⟨m, hm⟩ := (ih t (note n s a)).mp hu
      exact ⟨m, (exec_cons _ _ a as).mpr
        ⟨(t, note n s a), (watch_eq_some note _ _ a).mpr ⟨ht, rfl⟩, hm⟩⟩
    · rintro ⟨m, hm⟩
      obtain ⟨⟨t, k⟩, ht, hu⟩ := (exec_cons _ _ a as).mp hm
      have hst := ((watch_eq_some note _ _ a).mp ht).1
      exact ⟨t, hst, (ih t k).mpr ⟨m, hu⟩⟩

section Growth

variable {β : Type*} [Preorder β] {f : σ → β}

/-- An invariant that the events of a schedule keep. -/
theorem exec_events {p : α → Prop} (hkeep : ∀ s a t, I s → p a → step s a = some t → I t)
    {s u : σ} {as : List α} (has : ∀ a ∈ as, p a) (hs : I s) (hu : exec step s as = some u) :
    I u := by
  induction as generalizing s with
  | nil =>
    obtain rfl := Option.some.inj hu
    exact hs
  | cons a as ih =>
    obtain ⟨t, ht, hu⟩ := (exec_cons s u a as).mp hu
    exact ih (fun b hb => has b (List.mem_cons_of_mem a hb))
      (hkeep s a t hs (has a List.mem_cons_self) ht) hu

theorem exec_le (hkeep : ∀ s a t, I s → step s a = some t → I t)
    (hgrow : ∀ s a t, I s → step s a = some t → f s ≤ f t)
    {s u : σ} {as : List α} (hs : I s) (hu : exec step s as = some u) : f s ≤ f u := by
  induction as generalizing s with
  | nil =>
    obtain rfl := Option.some.inj hu
    exact le_refl _
  | cons a as ih =>
    obtain ⟨t, ht, hu⟩ := (exec_cons s u a as).mp hu
    exact le_trans (hgrow s a t hs ht) (ih (hkeep s a t hs ht) hu)

/-- What an event of a run has reached is kept to its end. -/
theorem exec_reached (hkeep : ∀ s a t, I s → step s a = some t → I t)
    (hgrow : ∀ s a t, I s → step s a = some t → f s ≤ f t)
    {b : β} {a : α} (hreach : ∀ s t, I s → step s a = some t → b ≤ f t)
    {s u : σ} {as : List α} (hs : I s) (ha : a ∈ as) (hu : exec step s as = some u) :
    b ≤ f u := by
  obtain ⟨before, after, rfl⟩ := List.append_of_mem ha
  obtain ⟨r, hr, hu⟩ := (exec_append s u before _).mp hu
  obtain ⟨t, ht, hu⟩ := (exec_cons r u a after).mp hu
  have hrI : I r := exec_invariant hkeep hs hr
  exact le_trans (hreach r t hrI ht) (exec_le hkeep hgrow (hkeep r a t hrI ht) hu)

end Growth

end YapStack.Runs
