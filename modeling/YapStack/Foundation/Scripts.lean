import Mathlib.Data.Nat.Notation
import Mathlib.Data.Option.Basic

namespace YapStack.Scripts

/-- A program of single statements. Each one changes the state, marked as a write or not, and the
program goes on with the state that it leaves. -/
inductive Script (σ α : Type)
  | done (a : α)
  | act (writes : Bool) (f : σ → σ) (next : σ → Script σ α)

namespace Script

variable {σ α β : Type}

def bind : Script σ α → (α → Script σ β) → Script σ β
  | done a, k => k a
  | act writes f next, k => act writes f (fun s => (next s).bind k)

instance : Monad (Script σ) where
  pure := done
  bind := bind

/-- A statement that leaves the state as it is. -/
def read (g : σ → α) : Script σ α := act false id (fun s => done (g s))

def write (f : σ → σ) : Script σ Unit := act true f (fun _ => done ())

/-- A change that does not count as a write. -/
def aside (f : σ → σ) : Script σ Unit := act false f (fun _ => done ())

def run : Script σ α → σ → α × σ
  | done a, s => (a, s)
  | act _ f next, s => (next (f s)).run (f s)

/-- After `n` statements the next one throws. -/
def runUntil : Script σ α → ℕ → σ → Option α × σ
  | done a, _, s => (some a, s)
  | act _ _ _, 0, s => (none, s)
  | act _ f next, n + 1, s => (next (f s)).runUntil n (f s)

/-- One of the first `n` statements is a write. -/
def wrote : Script σ α → ℕ → σ → Bool
  | done _, _, _ => false
  | act _ _ _, 0, _ => false
  | act writes f next, n + 1, s => writes || (next (f s)).wrote n (f s)

/-- Some statement is a write. -/
def writesAny : Script σ α → σ → Bool
  | done _, _ => false
  | act writes f next, s => writes || (next (f s)).writesAny (f s)

/-- Before each statement the state is as `C` says, or as `D` says once something was written. -/
def Tracks (C D : σ → Prop) : Bool → Script σ α → σ → Prop
  | _, done _, _ => True
  | dirty, act writes f next, s =>
    (if dirty then D s else C s) ∧ (next (f s)).Tracks C D (dirty || writes) (f s)

variable {C D : σ → Prop} {dirty : Bool} {p : Script σ α} {s : σ}

@[simp] theorem run_done (a : α) (s : σ) : (done a : Script σ α).run s = (a, s) := rfl

@[simp] theorem run_act (writes : Bool) (f : σ → σ) (next : σ → Script σ α) (s : σ) :
    (act writes f next).run s = (next (f s)).run (f s) := rfl

@[simp] theorem bind_eq (p : Script σ α) (k : α → Script σ β) : (p >>= k) = p.bind k := rfl

@[simp] theorem pure_eq (a : α) : (pure a : Script σ α) = done a := rfl

@[simp] theorem run_bind (p : Script σ α) (k : α → Script σ β) (s : σ) :
    (p.bind k).run s = (k (p.run s).1).run (p.run s).2 := by
  induction p generalizing s with
  | done a => rfl
  | act writes f next ih => exact ih (f s) (f s)

@[simp] theorem run_read (g : σ → α) (s : σ) : (read g).run s = (g s, s) := rfl

@[simp] theorem run_write (f : σ → σ) (s : σ) : (write f).run s = ((), f s) := rfl

@[simp] theorem run_aside (f : σ → σ) (s : σ) : (aside f).run s = ((), f s) := rfl

@[simp] theorem tracks_done (a : α) : Tracks C D dirty (done a : Script σ α) s := trivial

theorem bind_assoc {γ : Type} (p : Script σ α) (k : α → Script σ β) (l : β → Script σ γ) :
    (p.bind k).bind l = p.bind (fun a => (k a).bind l) := by
  induction p with
  | done a => rfl
  | act writes f next ih =>
    simp only [bind]
    congr 1
    funext s
    exact ih s

theorem tracks_bind (p : Script σ α) (k : α → Script σ β) (dirty : Bool) (s : σ) :
    (p.bind k).Tracks C D dirty s ↔ p.Tracks C D dirty s ∧
      (k (p.run s).1).Tracks C D (dirty || p.writesAny s) (p.run s).2 := by
  induction p generalizing s dirty with
  | done a => simp [bind, run, writesAny]
  | act writes f next ih =>
    simp only [bind, Tracks, run, writesAny, ih, and_assoc, Bool.or_assoc]

theorem tracks_read (g : σ → α) : (read g).Tracks C D dirty s ↔ if dirty then D s else C s :=
  and_iff_left trivial

theorem tracks_write (f : σ → σ) : (write f).Tracks C D dirty s ↔ if dirty then D s else C s :=
  and_iff_left trivial

theorem tracks_aside (f : σ → σ) : (aside f).Tracks C D dirty s ↔ if dirty then D s else C s :=
  and_iff_left trivial

/-- Where a statement throws, the state is as the writes before it left it. -/
theorem Tracks.throws {n : ℕ} (h : p.Tracks C D dirty s) (hthrow : (p.runUntil n s).1 = none) :
    if dirty || p.wrote n s then D (p.runUntil n s).2 else C (p.runUntil n s).2 := by
  induction p generalizing n s dirty with
  | done a => simp [runUntil] at hthrow
  | act writes f next ih =>
    cases n with
    | zero => simpa [runUntil, wrote] using h.1
    | succ n =>
      have htail := ih (f s) h.2 hthrow
      rwa [Bool.or_assoc] at htail

/-- A script that does not throw runs to its end. -/
theorem run_of_runUntil {n : ℕ} {a : α} (h : (p.runUntil n s).1 = some a) :
    p.runUntil n s = (some (p.run s).1, (p.run s).2) := by
  induction p generalizing n s with
  | done b => simp [runUntil]
  | act writes f next ih =>
    cases n with
    | zero => simp [runUntil] at h
    | succ n => exact ih (f s) h

end Script

section Undo

variable {σ υ : Type} (undo : υ → σ → σ) {Same : σ → σ → Prop}

/-- The last change is taken back first. -/
def undoAll (log : List υ) (s : σ) : σ := log.reverse.foldl (fun s u => undo u s) s

theorem undoAll_snoc (log : List υ) (u : υ) (s : σ) :
    undoAll undo (log ++ [u]) s = undoAll undo log (undo u s) := by
  rw [undoAll, List.reverse_append, List.reverse_singleton, List.singleton_append,
    List.foldl_cons, undoAll]

variable {undo}

theorem undoAll_congr (hundo : ∀ u s t, Same s t → Same (undo u s) (undo u t)) {s t : σ}
    (log : List υ) (h : Same s t) : Same (undoAll undo log s) (undoAll undo log t) := by
  rw [undoAll, undoAll]
  induction log.reverse generalizing s t with
  | nil => exact h
  | cons u log ih => exact ih (hundo u s t h)

end Undo

end YapStack.Scripts
