import Mathlib.Data.List.Basic

namespace YapStack.Faulty

/-- What happens to one statement: it runs, it throws and changes nothing, or the process ends
before it. -/
inductive Fate
  | works
  | fails
  | stops
  deriving DecidableEq

inductive Outcome (ε α : Type)
  | done (a : α)
  | raised (e : ε)
  | stopped
  deriving DecidableEq

structure Result (σ ε α : Type) where
  outcome : Outcome ε α
  state : σ
  rest : List Fate

/-- A program meets one fate at each statement. Past the end of the list every statement runs. -/
def Prog (σ ε α : Type) := List Fate → σ → Result σ ε α

variable {σ ε α β : Type}

namespace Prog

def done (a : α) : Prog σ ε α := fun fates s => ⟨.done a, s, fates⟩

def raise (e : ε) : Prog σ ε α := fun fates s => ⟨.raised e, s, fates⟩

def bind (p : Prog σ ε α) (f : α → Prog σ ε β) : Prog σ ε β := fun fates s =>
  match p fates s with
  | ⟨.done a, t, rest⟩ => f a rest t
  | ⟨.raised e, t, rest⟩ => ⟨.raised e, t, rest⟩
  | ⟨.stopped, t, rest⟩ => ⟨.stopped, t, rest⟩

instance : Monad (Prog σ ε) where
  pure := done
  bind := bind

/-- The error of `p` as a value. -/
def attempt (p : Prog σ ε α) : Prog σ ε (Except ε α) := fun fates s =>
  match p fates s with
  | ⟨.done a, t, rest⟩ => ⟨.done (.ok a), t, rest⟩
  | ⟨.raised e, t, rest⟩ => ⟨.done (.error e), t, rest⟩
  | ⟨.stopped, t, rest⟩ => ⟨.stopped, t, rest⟩

/-- A step that is not a statement: it meets no fate. -/
def look (f : σ → α) : Prog σ ε α := fun fates s => ⟨.done (f s), s, fates⟩

/-- The result of a statement that runs. -/
def ran (f : σ → Except ε (α × σ)) (rest : List Fate) (s : σ) : Result σ ε α :=
  match f s with
  | .ok (a, t) => ⟨.done a, t, rest⟩
  | .error e => ⟨.raised e, s, rest⟩

/-- One statement. `fault` is what it throws when its fate is to fail, and `lost` notes it. -/
def act (fault : ε) (lost : σ → σ) (f : σ → Except ε (α × σ)) : Prog σ ε α := fun fates s =>
  match fates with
  | [] => ran f [] s
  | .works :: rest => ran f rest s
  | .fails :: rest => ⟨.raised fault, lost s, rest⟩
  | .stops :: rest => ⟨.stopped, s, rest⟩

def forEach (f : β → Prog σ ε Unit) : List β → Prog σ ε Unit
  | [] => done ()
  | b :: bs => (f b).bind (fun _ => forEach f bs)

end Prog

/-- A condition on a caught result and the state, by how the result came out. -/
def caught (P : α → σ → Prop) (R : ε → σ → Prop) : Except ε α → σ → Prop
  | .ok a => P a
  | .error e => R e

open Prog

/-- What holds when a program is done, when it throws, and when the process ends in it. -/
structure Post (σ ε α : Type) where
  done : α → σ → Prop
  raised : ε → σ → Prop
  stopped : σ → Prop

namespace Post

def Holds (R : Post σ ε α) : Outcome ε α → σ → Prop
  | .done a => R.done a
  | .raised e => R.raised e
  | .stopped => R.stopped

/-- The same conditions on a throw and on a stop, another one at the end. -/
def next (R : Post σ ε α) (Q : β → σ → Prop) : Post σ ε β := ⟨Q, R.raised, R.stopped⟩

/-- The same condition however the program ends. -/
def always (I : σ → Prop) : Post σ ε α := ⟨fun _ => I, fun _ => I, I⟩

end Post

/-- From a state with `P`, whatever fates of the kind `F` the statements meet. -/
def Triple (F : Fate → Prop) (P : σ → Prop) (p : Prog σ ε α) (R : Post σ ε α) : Prop :=
  ∀ fates s, (∀ x ∈ fates, F x) → P s →
    R.Holds (p fates s).outcome (p fates s).state ∧ ∀ x ∈ (p fates s).rest, F x

variable {F : Fate → Prop} {P O I : σ → Prop} {p : Prog σ ε α} {R R' : Post σ ε α}

theorem Triple.imp (h : Triple F O p R') (hpre : ∀ s, P s → O s)
    (hdone : ∀ a s, R'.done a s → R.done a s) (hraised : ∀ e s, R'.raised e s → R.raised e s)
    (hstopped : ∀ s, R'.stopped s → R.stopped s) : Triple F P p R := by
  intro fates s hfates hs
  obtain ⟨hpost, hrest⟩ := h fates s hfates (hpre s hs)
  refine ⟨?_, hrest⟩
  cases hout : (p fates s).outcome with
  | done a =>
    rw [hout] at hpost
    exact hdone a _ hpost
  | raised e =>
    rw [hout] at hpost
    exact hraised e _ hpost
  | stopped =>
    rw [hout] at hpost
    exact hstopped _ hpost

/-- What holds however a program ends holds of the state that it leaves. -/
theorem Triple.always (h : Triple F P p (Post.always I)) (fates : List Fate) {s : σ}
    (hfates : ∀ x ∈ fates, F x) (hs : P s) : I (p fates s).state := by
  obtain ⟨hpost, -⟩ := h fates s hfates hs
  cases hout : (p fates s).outcome with
  | done a =>
    rw [hout] at hpost
    exact hpost
  | raised e =>
    rw [hout] at hpost
    exact hpost
  | stopped =>
    rw [hout] at hpost
    exact hpost

theorem Triple.pre (h : Triple F O p R) (hpre : ∀ s, P s → O s) : Triple F P p R :=
  h.imp hpre (fun _ _ => id) (fun _ _ => id) (fun _ => id)

theorem Triple.post {Q : α → σ → Prop} (h : Triple F P p (R.next Q))
    (hdone : ∀ a s, Q a s → R.done a s) : Triple F P p R :=
  h.imp (fun _ => id) hdone (fun _ _ => id) (fun _ => id)

/-- A condition that does not depend on the state may be used to choose the proof. -/
theorem Triple.of_fixed {φ : Prop} (h : φ → Triple F P p R) :
    Triple F (fun s => φ ∧ P s) p R :=
  fun fates s hfates hs => h hs.1 fates s hfates hs.2

theorem Triple.exists_pre {γ : Type} {P : γ → σ → Prop} (h : ∀ c, Triple F (P c) p R) :
    Triple F (fun s => ∃ c, P c s) p R :=
  fun fates s hfates hpre => hpre.elim fun c hc => h c fates s hfates hc

theorem triple_done (a : α) (h : ∀ s, P s → R.done a s) : Triple F P (Prog.done a) R :=
  fun _ s hfates hs => ⟨h s hs, hfates⟩

theorem triple_raise (e : ε) (h : ∀ s, P s → R.raised e s) : Triple F P (Prog.raise e) R :=
  fun _ s hfates hs => ⟨h s hs, hfates⟩

theorem triple_look (f : σ → α) (h : ∀ s, P s → R.done (f s) s) : Triple F P (Prog.look f) R :=
  fun _ s hfates hs => ⟨h s hs, hfates⟩

theorem triple_bind {f : α → Prog σ ε β} {R : Post σ ε β} {Q : α → σ → Prop}
    (hp : Triple F P p (R.next Q)) (hf : ∀ a, Triple F (Q a) (f a) R) :
    Triple F P (p.bind f) R := by
  intro fates s hfates hs
  obtain ⟨hpost, hrest⟩ := hp fates s hfates hs
  cases hout : p fates s with
  | mk outcome t rest =>
    rw [hout] at hpost hrest
    cases outcome with
    | done a =>
      have hrun : p.bind f fates s = f a rest t := by simp only [Prog.bind, hout]
      rw [hrun]
      exact hf a rest t hrest hpost
    | raised e =>
      have hrun : p.bind f fates s = ⟨.raised e, t, rest⟩ := by simp only [Prog.bind, hout]
      rw [hrun]
      exact ⟨hpost, hrest⟩
    | stopped =>
      have hrun : p.bind f fates s = ⟨.stopped, t, rest⟩ := by simp only [Prog.bind, hout]
      rw [hrun]
      exact ⟨hpost, hrest⟩

theorem triple_attempt {R : Post σ ε (Except ε α)}
    (h : Triple F P p ⟨fun a => R.done (.ok a), fun e => R.done (.error e), R.stopped⟩) :
    Triple F P p.attempt R := by
  intro fates s hfates hs
  obtain ⟨hpost, hrest⟩ := h fates s hfates hs
  cases hout : p fates s with
  | mk outcome t rest =>
    rw [hout] at hpost hrest
    cases outcome with
    | done a =>
      have hrun : p.attempt fates s = ⟨.done (.ok a), t, rest⟩ := by simp only [attempt, hout]
      rw [hrun]
      exact ⟨hpost, hrest⟩
    | raised e =>
      have hrun : p.attempt fates s = ⟨.done (.error e), t, rest⟩ := by
        simp only [attempt, hout]
      rw [hrun]
      exact ⟨hpost, hrest⟩
    | stopped =>
      have hrun : p.attempt fates s = ⟨.stopped, t, rest⟩ := by simp only [attempt, hout]
      rw [hrun]
      exact ⟨hpost, hrest⟩

theorem triple_act {fault : ε} {lost : σ → σ} {f : σ → Except ε (α × σ)}
    (hworks : ∀ s a t, P s → f s = .ok (a, t) → R.done a t)
    (hthrows : ∀ s e, P s → f s = .error e → R.raised e s)
    (hfails : F .fails → ∀ s, P s → R.raised fault (lost s))
    (hstops : F .stops → ∀ s, P s → R.stopped s) : Triple F P (Prog.act fault lost f) R := by
  intro fates s hfates hs
  have hran : ∀ rest, (∀ x ∈ rest, F x) →
      R.Holds (ran f rest s).outcome (ran f rest s).state ∧ ∀ x ∈ (ran f rest s).rest, F x := by
    intro rest hrest
    cases hf : f s with
    | ok done =>
      obtain ⟨a, t⟩ := done
      have hrun : ran f rest s = ⟨.done a, t, rest⟩ := by simp only [ran, hf]
      rw [hrun]
      exact ⟨hworks s a t hs hf, hrest⟩
    | error e =>
      have hrun : ran f rest s = ⟨.raised e, s, rest⟩ := by simp only [ran, hf]
      rw [hrun]
      exact ⟨hthrows s e hs hf, hrest⟩
  cases fates with
  | nil => exact hran [] (fun _ h => by cases h)
  | cons x rest =>
    have hrest : ∀ y ∈ rest, F y := fun y hy => hfates y (List.mem_cons_of_mem x hy)
    have hx : F x := hfates x List.mem_cons_self
    cases x with
    | works => exact hran rest hrest
    | fails => exact ⟨hfails hx s hs, hrest⟩
    | stops => exact ⟨hstops hx s hs, hrest⟩

theorem triple_forEach {f : β → Prog σ ε Unit} {R : Post σ ε Unit} {bs : List β}
    (h : ∀ b ∈ bs, Triple F (R.done ()) (f b) R) :
    Triple F (R.done ()) (Prog.forEach f bs) R := by
  induction bs with
  | nil => exact triple_done () (fun _ => id)
  | cons b bs ih =>
    refine triple_bind (Q := fun _ => R.done ()) ?_ (fun _ => ?_)
    · exact h b List.mem_cons_self
    · exact ih (fun c hc => h c (List.mem_cons_of_mem b hc))

/-- Two conditions may be proved one after the other. -/
theorem Triple.and {P' : σ → Prop} {R' : Post σ ε α} (h : Triple F P p R)
    (h' : Triple F P' p R') : Triple F (fun s => P s ∧ P' s) p
      ⟨fun a s => R.done a s ∧ R'.done a s, fun e s => R.raised e s ∧ R'.raised e s,
        fun s => R.stopped s ∧ R'.stopped s⟩ := by
  intro fates s hfates hs
  obtain ⟨hpost, hrest⟩ := h fates s hfates hs.1
  obtain ⟨hpost', -⟩ := h' fates s hfates hs.2
  refine ⟨?_, hrest⟩
  cases hout : (p fates s).outcome with
  | done a =>
    rw [hout] at hpost hpost'
    exact ⟨hpost, hpost'⟩
  | raised e =>
    rw [hout] at hpost hpost'
    exact ⟨hpost, hpost'⟩
  | stopped =>
    rw [hout] at hpost hpost'
    exact ⟨hpost, hpost'⟩

/-- The program stops only at a statement whose fate that is. -/
def Steady (p : Prog σ ε α) : Prop :=
  ∀ fates s, (∀ x ∈ (p fates s).rest, x ∈ fates) ∧
    ((p fates s).outcome = .stopped → .stops ∈ fates)

theorem steady_done (a : α) : Steady (Prog.done a : Prog σ ε α) :=
  fun _ _ => ⟨fun _ => id, (by rintro ⟨⟩)⟩

theorem steady_raise (e : ε) : Steady (Prog.raise e : Prog σ ε α) :=
  fun _ _ => ⟨fun _ => id, (by rintro ⟨⟩)⟩

theorem steady_look (f : σ → α) : Steady (Prog.look f : Prog σ ε α) :=
  fun _ _ => ⟨fun _ => id, (by rintro ⟨⟩)⟩

theorem steady_act (fault : ε) (lost : σ → σ) (f : σ → Except ε (α × σ)) :
    Steady (Prog.act fault lost f) := by
  have hran : ∀ rest s, (ran f rest s).rest = rest ∧ (ran f rest s).outcome ≠ .stopped := by
    intro rest s
    unfold ran
    split
    · exact ⟨rfl, (by rintro ⟨⟩)⟩
    · exact ⟨rfl, (by rintro ⟨⟩)⟩
  intro fates s
  cases fates with
  | nil =>
    change (∀ x ∈ (ran f [] s).rest, x ∈ ([] : List Fate)) ∧ _
    rw [(hran [] s).1]
    exact ⟨fun _ => id, fun h => absurd h (hran [] s).2⟩
  | cons x rest =>
    cases x with
    | works =>
      change (∀ y ∈ (ran f rest s).rest, y ∈ Fate.works :: rest) ∧ _
      rw [(hran rest s).1]
      exact ⟨fun y hy => List.mem_cons_of_mem _ hy, fun h => absurd h (hran rest s).2⟩
    | fails => exact ⟨fun y hy => List.mem_cons_of_mem _ hy, (by rintro ⟨⟩)⟩
    | stops => exact ⟨fun y hy => List.mem_cons_of_mem _ hy, fun _ => List.mem_cons_self⟩

theorem steady_bind {f : α → Prog σ ε β} (hp : Steady p) (hf : ∀ a, Steady (f a)) :
    Steady (p.bind f) := by
  intro fates s
  obtain ⟨hrest, hstop⟩ := hp fates s
  cases hout : p fates s with
  | mk outcome t rest =>
    rw [hout] at hrest hstop
    cases outcome with
    | done a =>
      have hrun : p.bind f fates s = f a rest t := by simp only [Prog.bind, hout]
      obtain ⟨hrest', hstop'⟩ := hf a rest t
      rw [hrun]
      exact ⟨fun x hx => hrest x (hrest' x hx), fun h => hrest _ (hstop' h)⟩
    | raised e =>
      have hrun : p.bind f fates s = ⟨.raised e, t, rest⟩ := by simp only [Prog.bind, hout]
      rw [hrun]
      exact ⟨hrest, (by rintro ⟨⟩)⟩
    | stopped =>
      have hrun : p.bind f fates s = ⟨.stopped, t, rest⟩ := by simp only [Prog.bind, hout]
      rw [hrun]
      exact ⟨hrest, fun _ => hstop rfl⟩

theorem steady_attempt (hp : Steady p) : Steady p.attempt := by
  intro fates s
  obtain ⟨hrest, hstop⟩ := hp fates s
  cases hout : p fates s with
  | mk outcome t rest =>
    rw [hout] at hrest hstop
    cases outcome with
    | done a =>
      have hrun : p.attempt fates s = ⟨.done (.ok a), t, rest⟩ := by simp only [attempt, hout]
      rw [hrun]
      exact ⟨hrest, (by rintro ⟨⟩)⟩
    | raised e =>
      have hrun : p.attempt fates s = ⟨.done (.error e), t, rest⟩ := by
        simp only [attempt, hout]
      rw [hrun]
      exact ⟨hrest, (by rintro ⟨⟩)⟩
    | stopped =>
      have hrun : p.attempt fates s = ⟨.stopped, t, rest⟩ := by simp only [attempt, hout]
      rw [hrun]
      exact ⟨hrest, fun _ => hstop rfl⟩

theorem steady_forEach {f : β → Prog σ ε Unit} {bs : List β} (h : ∀ b ∈ bs, Steady (f b)) :
    Steady (Prog.forEach f bs) := by
  induction bs with
  | nil => exact steady_done ()
  | cons b bs ih =>
    refine steady_bind (h b List.mem_cons_self) (fun _ => ?_)
    exact ih (fun c hc => h c (List.mem_cons_of_mem b hc))

end YapStack.Faulty
