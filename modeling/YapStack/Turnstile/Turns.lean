import Mathlib.Algebra.Group.Nat.Defs
import Mathlib.Data.List.Range
import Mathlib.Logic.Function.Basic
import Mathlib.Order.Interval.Finset.Nat
import YapStack.Foundation.Runs

namespace YapStack.Turnstile

section Tickets

/-- Where a thread is in `acquire` or in the drop of its turn. -/
inductive ThreadState where
  | outside
  /-- In `served.wait`. -/
  | asleep (mine : ℕ)
  /-- Woken, before it has the mutex again. -/
  | awake (mine : ℕ)
  | holds (mine : ℕ)
  /-- Between the drop of the mutex and `notify_all`. -/
  | notifying
  deriving DecidableEq

def wordSize : ℕ := 2 ^ 64

/-- The counters and the threads, with the history of the tickets. -/
structure State (T : Type) where
  next : ℕ
  serving : ℕ
  threads : T → ThreadState
  drawn : List T
  granted : List ℕ
  released : List ℕ

inductive Event (T : Type) where
  | acquire (t : T)
  | wake (t : T)
  | recheck (t : T)
  | drop (t : T) (panicking : Bool)
  | notifyAll (t : T)

variable {T : Type} [DecidableEq T]

def State.new : State T where
  next := 0
  serving := 0
  threads := fun _ => .outside
  drawn := []
  granted := []
  released := []

def State.set (s : State T) (t : T) (pc : ThreadState) : State T :=
  { s with threads := Function.update s.threads t pc }

/-- The test of the `while` loop, under the mutex. -/
def State.check (s : State T) (t : T) (mine : ℕ) : State T :=
  if s.serving = mine then { s.set t (.holds mine) with granted := s.granted ++ [mine] }
  else s.set t (.asleep mine)

def ThreadState.notified : ThreadState → ThreadState
  | .asleep mine => .awake mine
  | pc => pc

/-- One critical section or one wake-up of one thread. -/
def step (s : State T) : Event T → Option (State T)
  | .acquire t => match s.threads t with
    | .outside =>
      let drawn := { s with next := (s.next + 1) % wordSize, drawn := s.drawn ++ [t] }
      some (drawn.check t s.next)
    | _ => none
  | .wake t => match s.threads t with
    | .asleep mine => some (s.set t (.awake mine))
    | _ => none
  | .recheck t => match s.threads t with
    | .awake mine => some (s.check t mine)
    | _ => none
  | .drop t _ => match s.threads t with
    | .holds mine => some { s.set t .notifying with
        serving := (s.serving + 1) % wordSize
        released := s.released ++ [mine] }
    | _ => none
  | .notifyAll t => match s.threads t with
    | .notifying => some { s with
        threads := fun u => if u = t then .outside else (s.threads u).notified }
    | _ => none

/-- What a caller of `waiting` reads. -/
def waiting (s : State T) : ℕ := (s.next + wordSize - s.serving) % wordSize - 1

@[simp] theorem set_next (s : State T) (t : T) (pc : ThreadState) :
    (s.set t pc).next = s.next := rfl

@[simp] theorem set_serving (s : State T) (t : T) (pc : ThreadState) :
    (s.set t pc).serving = s.serving := rfl

@[simp] theorem set_drawn (s : State T) (t : T) (pc : ThreadState) :
    (s.set t pc).drawn = s.drawn := rfl

@[simp] theorem set_granted (s : State T) (t : T) (pc : ThreadState) :
    (s.set t pc).granted = s.granted := rfl

@[simp] theorem set_released (s : State T) (t : T) (pc : ThreadState) :
    (s.set t pc).released = s.released := rfl

@[simp] theorem set_threads (s : State T) (t u : T) (pc : ThreadState) :
    (s.set t pc).threads u = if u = t then pc else s.threads u :=
  Function.update_apply _ _ _ _

/-- The ticket that a thread has drawn and not given back. -/
def ThreadState.ticket : ThreadState → Option ℕ
  | .asleep mine | .awake mine | .holds mine => some mine
  | .outside | .notifying => none

/-- A thread has drawn a ticket and does not have the turn yet. -/
def ThreadState.Waits (pc : ThreadState) (mine : ℕ) : Prop := pc = .asleep mine ∨ pc = .awake mine

@[simp] theorem ticket_notified (pc : ThreadState) : pc.notified.ticket = pc.ticket := by
  cases pc <;> rfl

theorem notified_eq_holds {pc : ThreadState} {mine : ℕ} :
    pc.notified = .holds mine ↔ pc = .holds mine := by
  cases pc <;> simp [ThreadState.notified]

theorem notified_eq_notifying {pc : ThreadState} : pc.notified = .notifying ↔ pc = .notifying := by
  cases pc <;> simp [ThreadState.notified]

theorem notified_ne_asleep (pc : ThreadState) (mine : ℕ) : pc.notified ≠ .asleep mine := by
  cases pc <;> simp [ThreadState.notified]

end Tickets

section Turns

open Runs

variable {T : Type} [DecidableEq T] {s s' : State T} {e : Event T} {t u : T} {k m : ℕ}

/-- What one event does. -/
inductive Next (s : State T) : Event T → State T → Prop
  | acquireNow (t : T) (hout : s.threads t = .outside) (hturn : s.serving = s.next) :
    Next s (.acquire t) { s.set t (.holds s.next) with
      next := (s.next + 1) % wordSize, drawn := s.drawn ++ [t], granted := s.granted ++ [s.next] }
  | acquireLater (t : T) (hout : s.threads t = .outside) (hturn : s.serving ≠ s.next) :
    Next s (.acquire t) { s.set t (.asleep s.next) with
      next := (s.next + 1) % wordSize, drawn := s.drawn ++ [t] }
  | wake (t : T) (mine : ℕ) (hasleep : s.threads t = .asleep mine) :
    Next s (.wake t) (s.set t (.awake mine))
  | recheckNow (t : T) (hawake : s.threads t = .awake s.serving) :
    Next s (.recheck t) { s.set t (.holds s.serving) with granted := s.granted ++ [s.serving] }
  | recheckLater (t : T) (mine : ℕ) (hawake : s.threads t = .awake mine)
      (hturn : s.serving ≠ mine) :
    Next s (.recheck t) (s.set t (.asleep mine))
  | drop (t : T) (panicking : Bool) (mine : ℕ) (hholds : s.threads t = .holds mine) :
    Next s (.drop t panicking) { s.set t .notifying with
      serving := (s.serving + 1) % wordSize, released := s.released ++ [mine] }
  | notifyAll (t : T) (hnotifying : s.threads t = .notifying) :
    Next s (.notifyAll t) { s with
      threads := fun u => if u = t then .outside else (s.threads u).notified }

theorem step_next (h : step s e = some s') : Next s e s' := by
  cases e with
  | acquire t =>
    simp only [step] at h
    split at h
    · next hout =>
      obtain rfl := Option.some.inj h
      simp only [State.check]
      split
      · next hturn => exact .acquireNow t hout hturn
      · next hturn => exact .acquireLater t hout hturn
    · contradiction
  | wake t =>
    simp only [step] at h
    split at h
    · next mine hasleep =>
      obtain rfl := Option.some.inj h
      exact .wake t mine hasleep
    · contradiction
  | recheck t =>
    simp only [step] at h
    split at h
    · next mine hawake =>
      obtain rfl := Option.some.inj h
      simp only [State.check]
      split
      · next hturn =>
        subst hturn
        exact .recheckNow t hawake
      · next hturn => exact .recheckLater t mine hawake hturn
    · contradiction
  | drop t panicking =>
    simp only [step] at h
    split at h
    · next mine hholds =>
      obtain rfl := Option.some.inj h
      exact .drop t panicking mine hholds
    · contradiction
  | notifyAll t =>
    simp only [step] at h
    split at h
    · next hnotifying =>
      obtain rfl := Option.some.inj h
      exact .notifyAll t hnotifying
    · contradiction

/-- The counters, the tickets of the threads and the history. -/
structure Inv (s : State T) : Prop where
  next_eq : s.next = s.drawn.length
  serving_le : s.serving ≤ s.next
  own : ∀ t k, (s.threads t).ticket = some k → s.serving ≤ k ∧ s.drawn[k]? = some t
  live : ∀ t k, s.serving ≤ k → s.drawn[k]? = some t → (s.threads t).ticket = some k
  holder : ∀ t k, s.threads t = .holds k → k = s.serving
  held : ∀ t, s.threads t = .holds s.serving → s.granted = List.range (s.serving + 1)
  free : (∀ t, s.threads t ≠ .holds s.serving) → s.granted = List.range s.serving
  released_eq : s.released = List.range s.serving
  woken : ∀ t, s.threads t = .asleep s.serving → ∃ u, s.threads u = .notifying

theorem inv_new : Inv (State.new : State T) where
  next_eq := rfl
  serving_le := le_rfl
  own := fun _ _ h => by simp [State.new, ThreadState.ticket] at h
  live := fun _ _ _ h => by simp [State.new] at h
  holder := fun _ _ h => by simp [State.new] at h
  held := fun _ h => by simp [State.new] at h
  free := fun _ => rfl
  released_eq := rfl
  woken := fun _ h => by simp [State.new] at h

theorem ticket_holds {pc : ThreadState} (h : pc = .holds k) : pc.ticket = some k := by
  rw [h]
  rfl

theorem ThreadState.Waits.ticket {pc : ThreadState} (h : pc.Waits k) : pc.ticket = some k := by
  obtain rfl | rfl := h <;> rfl

theorem Inv.ticket_lt (h : Inv s) (ht : (s.threads t).ticket = some k) : k < s.next := by
  rw [h.next_eq]
  exact (List.getElem?_eq_some_iff.mp (h.own t k ht).2).1

/-- A ticket has one owner. -/
theorem Inv.ticket_unique (h : Inv s) (ht : (s.threads t).ticket = some k)
    (hu : (s.threads u).ticket = some k) : t = u :=
  Option.some.inj ((h.own t k ht).2.symm.trans (h.own u k hu).2)

/-- The tickets after a new one is drawn. -/
theorem Inv.own_draw (h : Inv s) (hout : s.threads t = .outside) (pc : ThreadState)
    (hpc : pc.ticket = some s.next) (u : T) (k : ℕ)
    (hu : (if u = t then pc else s.threads u).ticket = some k) :
    s.serving ≤ k ∧ (s.drawn ++ [t])[k]? = some u := by
  split at hu
  · next hut =>
    obtain rfl := Option.some.inj (hpc.symm.trans hu)
    refine ⟨h.serving_le, ?_⟩
    rw [h.next_eq, hut]
    exact List.getElem?_concat_length
  · obtain ⟨hle, hdrawn⟩ := h.own u k hu
    refine ⟨hle, ?_⟩
    rw [List.getElem?_append_left (List.getElem?_eq_some_iff.mp hdrawn).1]
    exact hdrawn

theorem Inv.live_draw (h : Inv s) (hout : s.threads t = .outside) (pc : ThreadState)
    (hpc : pc.ticket = some s.next) (u : T) (k : ℕ) (hk : s.serving ≤ k)
    (hu : (s.drawn ++ [t])[k]? = some u) :
    (if u = t then pc else s.threads u).ticket = some k := by
  obtain hlt | hge := Nat.lt_or_ge k s.drawn.length
  · rw [List.getElem?_append_left hlt] at hu
    have hlive := h.live u k hk hu
    rw [if_neg]
    · exact hlive
    · rintro rfl
      simp [hout, ThreadState.ticket] at hlive
  · rw [List.getElem?_append_right hge, List.getElem?_singleton] at hu
    split at hu
    · next hzero =>
      rw [if_pos (Option.some.inj hu).symm, hpc, h.next_eq]
      congr 1
      omega
    · contradiction

/-- A thread that keeps its ticket. -/
theorem ticket_set (pc : ThreadState) (hpc : pc.ticket = (s.threads t).ticket) (u : T) :
    ((s.set t pc).threads u).ticket = (s.threads u).ticket := by
  rw [set_threads]
  split
  · next hut => rw [hpc, hut]
  · rfl

theorem waits_ne_holds {pc : ThreadState} (h : pc.Waits k) : pc ≠ .holds m := by
  obtain rfl | rfl := h <;> simp

/-- A waiting thread falls asleep before its turn, or is woken. -/
theorem Inv.set_waits (h : Inv s) {pc : ThreadState} (hold : (s.threads t).Waits k)
    (hpc : pc.Waits k) (hearly : pc ≠ .asleep s.serving) : Inv (s.set t pc) := by
  have hticket := ticket_set (s := s) _ (hpc.ticket.trans hold.ticket.symm)
  have hsame : ∀ u m, (s.set t pc).threads u = .holds m ↔ s.threads u = .holds m := by
    intro u m
    rw [set_threads]
    split
    · next hut =>
      rw [hut]
      exact iff_of_false (waits_ne_holds hpc) (waits_ne_holds hold)
    · rfl
  refine ⟨h.next_eq, h.serving_le, fun u k hu => h.own u k ((hticket u).symm.trans hu),
    fun u k hk hu => (hticket u).trans (h.live u k hk hu),
    fun u k hu => h.holder u k ((hsame u k).mp hu), fun u hu => h.held u ((hsame u _).mp hu),
    fun hnone => h.free (fun u hu => hnone u ((hsame u _).mpr hu)), h.released_eq, ?_⟩
  intro u hu
  rw [set_threads] at hu
  split at hu
  · exact absurd hu hearly
  · obtain ⟨v, hv⟩ := h.woken u hu
    refine ⟨v, ?_⟩
    have hvt : v ≠ t := by
      rintro rfl
      obtain hold | hold := hold <;> simp [hold] at hv
    simpa [hvt] using hv

theorem Inv.step (h : Inv s) (hstep : Next s e s') (hfew : s'.drawn.length < wordSize) :
    Inv s' := by
  cases hstep with
  | acquireNow t hout hturn =>
    have hnext : (s.next + 1) % wordSize = s.next + 1 := by
      apply Nat.mod_eq_of_lt
      rw [h.next_eq]
      simpa using hfew
    have hfree : ∀ u, s.threads u ≠ .holds s.serving := by
      intro u hu
      have := h.ticket_lt (ticket_holds hu)
      omega
    refine ⟨?_, ?_, fun u k hu => h.own_draw hout (.holds s.next) rfl u k (by simpa using hu),
      fun u k hk hu => ?_, ?_, ?_, ?_, h.released_eq, ?_⟩
    · rw [hnext, List.length_append, List.length_singleton, h.next_eq]
    · simp only [hnext, set_serving]
      omega
    · simpa using h.live_draw hout (.holds s.next) rfl u k hk hu
    · intro u k hu
      simp only [set_threads] at hu
      split at hu
      · simpa [hturn] using (ThreadState.holds.inj hu).symm
      · exact h.holder u k hu
    · intro u _
      simp only [set_serving, h.free hfree, List.range_succ, hturn]
    · intro hnone
      exact absurd (by simp [hturn]) (hnone t)
    · intro u hu
      simp only [set_threads, set_serving] at hu ⊢
      split at hu
      · simp at hu
      · have := h.ticket_lt (t := u) (k := s.serving) (by rw [hu]; rfl)
        omega
  | acquireLater t hout hturn =>
    have hnext : (s.next + 1) % wordSize = s.next + 1 := by
      apply Nat.mod_eq_of_lt
      rw [h.next_eq]
      simpa using hfew
    have hsame : ∀ u k, (s.set t (.asleep s.next)).threads u = .holds k ↔
        s.threads u = .holds k := by
      intro u k
      rw [set_threads]
      split
      · next hut => simp [hut, hout]
      · rfl
    refine ⟨?_, ?_, fun u k hu => h.own_draw hout (.asleep s.next) rfl u k (by simpa using hu),
      fun u k hk hu => ?_, ?_, ?_, ?_, h.released_eq, ?_⟩
    · rw [hnext, List.length_append, List.length_singleton, h.next_eq]
    · have := h.serving_le
      simp only [hnext, set_serving]
      omega
    · simpa using h.live_draw hout (.asleep s.next) rfl u k hk hu
    · exact fun u k hu => h.holder u k ((hsame u k).mp hu)
    · exact fun u hu => h.held u ((hsame u _).mp hu)
    · exact fun hnone => h.free (fun u hu => hnone u ((hsame u _).mpr hu))
    · intro u hu
      have hasleep : s.threads u = .asleep s.serving := by
        simp only [set_threads, set_serving] at hu
        split at hu
        · exact absurd (ThreadState.asleep.inj hu).symm hturn
        · exact hu
      obtain ⟨v, hv⟩ := h.woken u hasleep
      refine ⟨v, ?_⟩
      have hvt : v ≠ t := by
        rintro rfl
        simp [hout] at hv
      simpa [hvt] using hv
  | wake t mine hasleep => exact h.set_waits (.inl hasleep) (.inr rfl) (by simp)
  | recheckNow t hawake =>
    have hticket := ticket_set (s := s) (t := t) (.holds s.serving) (by rw [hawake]; rfl)
    have hfree : ∀ u, s.threads u ≠ .holds s.serving := by
      intro u hu
      have hut := h.ticket_unique (ticket_holds hu) (t := u) (u := t) (by rw [hawake]; rfl)
      rw [hut, hawake] at hu
      contradiction
    refine ⟨h.next_eq, h.serving_le, fun u k hu => h.own u k ((hticket u).symm.trans hu),
      fun u k hk hu => (hticket u).trans (h.live u k hk hu), ?_, ?_, ?_, h.released_eq, ?_⟩
    · intro u k hu
      simp only [set_threads] at hu
      split at hu
      · exact (ThreadState.holds.inj hu).symm
      · exact h.holder u k hu
    · intro u _
      simp only [set_serving, h.free hfree, List.range_succ]
    · intro hnone
      exact absurd (by simp) (hnone t)
    · intro u hu
      simp only [set_threads, set_serving] at hu
      split at hu
      · contradiction
      · next hut =>
        exact absurd (h.ticket_unique (t := u) (u := t) (k := s.serving) (by rw [hu]; rfl)
          (by rw [hawake]; rfl)) hut
  | recheckLater t mine hawake hturn =>
    exact h.set_waits (.inr hawake) (.inl rfl) (by simpa using Ne.symm hturn)
  | drop t panicking mine hholds =>
    obtain rfl := h.holder t mine hholds
    have hlt := h.ticket_lt (ticket_holds hholds)
    have hserving : (s.serving + 1) % wordSize = s.serving + 1 := by
      apply Nat.mod_eq_of_lt
      have hlen : s.drawn.length < wordSize := hfew
      have := h.next_eq
      omega
    have hother : ∀ u k, u ≠ t → (s.threads u).ticket = some k → s.serving + 1 ≤ k := by
      intro u k hut hu
      have hle := (h.own u k hu).1
      have hne : k ≠ s.serving := by
        rintro rfl
        exact hut (h.ticket_unique hu (ticket_holds hholds))
      omega
    refine ⟨h.next_eq, ?_, ?_, ?_, ?_, ?_, ?_, ?_, ?_⟩
    · simp only [hserving, set_next]
      omega
    · intro u k hu
      simp only [set_threads, hserving] at hu ⊢
      split at hu
      · contradiction
      · next hut => exact ⟨hother u k hut hu, (h.own u k hu).2⟩
    · intro u k hk hu
      simp only [set_threads, hserving] at hk ⊢
      have hlive := h.live u k (by omega) hu
      split
      · next hut =>
        rw [hut, hholds] at hlive
        have := Option.some.inj hlive
        omega
      · exact hlive
    · intro u k hu
      simp only [set_threads] at hu
      split at hu
      · contradiction
      · next hut =>
        have := hother u k hut (ticket_holds hu)
        have := h.holder u k hu
        omega
    · intro u hu
      simp only [set_threads, hserving] at hu
      split at hu
      · contradiction
      · have := h.holder u _ hu
        omega
    · intro _
      simp only [hserving, set_granted, h.held t hholds]
    · simp only [hserving, h.released_eq, List.range_succ]
    · exact fun _ _ => ⟨t, by simp⟩
  | notifyAll t hnotifying =>
    have hticket : ∀ u, (if u = t then ThreadState.outside else (s.threads u).notified).ticket =
        (s.threads u).ticket := by
      intro u
      split
      · next hut => rw [hut, hnotifying]; rfl
      · exact ticket_notified _
    have hsame : ∀ u k, (if u = t then ThreadState.outside else (s.threads u).notified) =
        .holds k ↔ s.threads u = .holds k := by
      intro u k
      split
      · next hut => simp [hut, hnotifying]
      · exact notified_eq_holds
    refine ⟨h.next_eq, h.serving_le, fun u k hu => h.own u k ((hticket u).symm.trans hu),
      fun u k hk hu => (hticket u).trans (h.live u k hk hu),
      fun u k hu => h.holder u k ((hsame u k).mp hu), fun u hu => h.held u ((hsame u _).mp hu),
      fun hnone => h.free (fun u hu => hnone u ((hsame u _).mpr hu)), h.released_eq, ?_⟩
    intro u hu
    dsimp only at hu
    split at hu
    · contradiction
    · exact absurd hu (notified_ne_asleep _ _)

theorem drawn_length_le (hstep : Next s e s') : s.drawn.length ≤ s'.drawn.length := by
  cases hstep <;> simp

theorem drawn_kept (hstep : Next s e s') (h : s.drawn[k]? = some t) : s'.drawn[k]? = some t := by
  have happend : ∀ u, (s.drawn ++ [u])[k]? = some t := fun u => by
    rw [List.getElem?_append_left (List.getElem?_eq_some_iff.mp h).1]
    exact h
  cases hstep with
  | acquireNow u | acquireLater u => exact happend u
  | wake | recheckNow | recheckLater | drop | notifyAll => exact h

theorem inv_of_exec (es : List (Event T)) (hinv : s.drawn.length < wordSize → Inv s)
    (hrun : exec step s es = some s') (hfew : s'.drawn.length < wordSize) : Inv s' := by
  have hall := exec_invariant (I := fun s => s.drawn.length < wordSize → Inv s)
    (fun s e s' h hstep hfew => (h ((drawn_length_le (step_next hstep)).trans_lt hfew)).step
      (step_next hstep) hfew) hinv hrun
  exact hall hfew

/-- The granted tickets are the first ones. -/
theorem Inv.granted_eq (h : Inv s) : s.granted = List.range s.granted.length := by
  by_cases hholds : ∃ t, s.threads t = .holds s.serving
  · obtain ⟨t, ht⟩ := hholds
    rw [h.held t ht, List.length_range]
  · rw [h.free (fun t ht => hholds ⟨t, ht⟩), List.length_range]

/-- The turn is never lost: it is with the ticket that is served, and its thread comes. -/
theorem Inv.turn_kept (h : Inv s) :
    (∀ t k, s.threads t = .holds k → s.serving = k) ∧
    (∀ t k, (s.threads t).Waits k → s.serving ≤ k) ∧
    (s.serving = s.next ∧ (∀ t, (s.threads t).ticket = none) ∨
      ∃ t, s.threads t = .holds s.serving ∨ s.threads t = .awake s.serving ∨
        s.threads t = .asleep s.serving ∧ ∃ u, s.threads u = .notifying) := by
  refine ⟨fun t k ht => (h.holder t k ht).symm, fun t k ht => (h.own t k ht.ticket).1, ?_⟩
  obtain hlt | heq := Nat.lt_or_eq_of_le h.serving_le
  · apply Or.inr
    have hdrawn : s.serving < s.drawn.length := h.next_eq ▸ hlt
    refine ⟨s.drawn[s.serving], ?_⟩
    have hticket := h.live _ s.serving le_rfl (List.getElem?_eq_getElem hdrawn)
    have hwoken := h.woken s.drawn[s.serving]
    cases hpc : s.threads s.drawn[s.serving] with
    | outside | notifying => simp [hpc, ThreadState.ticket] at hticket
    | asleep mine =>
      rw [hpc] at hticket
      obtain rfl := Option.some.inj hticket
      exact Or.inr (Or.inr ⟨rfl, hwoken hpc⟩)
    | awake mine =>
      rw [hpc] at hticket
      obtain rfl := Option.some.inj hticket
      exact Or.inr (Or.inl rfl)
    | holds mine =>
      rw [hpc] at hticket
      obtain rfl := Option.some.inj hticket
      exact Or.inl rfl
  · refine Or.inl ⟨heq, fun t => ?_⟩
    cases hticket : (s.threads t).ticket with
    | none => rfl
    | some k =>
      have hlow := (h.own t k hticket).1
      have hhigh := h.ticket_lt hticket
      omega

/-- The tickets that are drawn, not served and not released. -/
def unserved (s : State T) : Finset ℕ :=
  (Finset.range s.drawn.length).filter (fun k => k ≠ s.serving ∧ k ∉ s.released)

theorem Inv.waiting_eq (h : Inv s) (hfew : s.drawn.length < wordSize) :
    waiting s = (unserved s).card := by
  have hset : unserved s = Finset.Ioo s.serving s.drawn.length := by
    ext k
    simp only [unserved, h.released_eq, Finset.mem_filter, Finset.mem_range, List.mem_range,
      Finset.mem_Ioo]
    omega
  have hle := h.serving_le
  have hnext := h.next_eq
  have hmod : (s.next + wordSize - s.serving) % wordSize = s.next - s.serving := by
    rw [Nat.sub_add_comm hle, Nat.add_mod_right]
    apply Nat.mod_eq_of_lt
    omega
  rw [waiting, hmod, hset, Nat.card_Ioo, hnext]

/-- A ticket drawn after another one is granted after it. -/
theorem Inv.granted_after (h : Inv s) {before after : List ℕ} (hlt : m < k)
    (hsplit : s.granted = before ++ k :: after) : m ∈ before := by
  have hrange := h.granted_eq
  have hk : before.length = k := by
    have hget : s.granted[before.length]? = some k := by simp [hsplit]
    rw [hrange, List.getElem?_range] at hget
    · exact Option.some.inj hget
    · simp [hsplit]
  have hm : s.granted[m]? = some m := by
    rw [hrange, List.getElem?_range]
    rw [hsplit, List.length_append]
    omega
  rw [hsplit, List.getElem?_append_left (by omega)] at hm
  exact List.mem_of_getElem? hm

/-- Every run of fewer than 2^64 acquisitions: one holder, turns in the order of the tickets,
a new ticket behind the waiting ones, no lost turn and the count of `waiting`. -/
theorem turns_fair (es : List (Event T)) (hrun : exec step .new es = some s)
    (hfew : s.drawn.length < wordSize) :
    (∀ t u j k, s.threads t = .holds j → s.threads u = .holds k → t = u) ∧
    (s.granted = List.range s.granted.length ∧
      ∀ t k, (s.threads t).ticket = some k → s.drawn[k]? = some t) ∧
    (∀ t drawn, step s (.acquire t) = some drawn →
      ∀ u m, (s.threads u).Waits m → ∀ rest last, exec step drawn rest = some last →
        last.drawn.length < wordSize → last.drawn[s.drawn.length]? = some t ∧
        ∀ before after, last.granted = before ++ s.drawn.length :: after → m ∈ before) ∧
    ((∀ t k, s.threads t = .holds k → s.serving = k) ∧
      (∀ t k, (s.threads t).Waits k → s.serving ≤ k) ∧
      (s.serving = s.next ∧ (∀ t, (s.threads t).ticket = none) ∨
        ∃ t, s.threads t = .holds s.serving ∨ s.threads t = .awake s.serving ∨
          s.threads t = .asleep s.serving ∧ ∃ u, s.threads u = .notifying)) ∧
    waiting s = (unserved s).card := by
  have hinv := inv_of_exec _ (fun _ => inv_new) hrun hfew
  refine ⟨?_, ⟨hinv.granted_eq, fun t k ht => (hinv.own t k ht).2⟩, ?_, hinv.turn_kept,
    hinv.waiting_eq hfew⟩
  · intro t u j k ht hu
    obtain rfl := hinv.holder t j ht
    obtain rfl := hinv.holder u k hu
    exact hinv.ticket_unique (ticket_holds ht) (ticket_holds hu)
  · intro t drawn hacquire u m hu rest last hrest hlast
    have hlast' := inv_of_exec (.acquire t :: rest) (fun _ => hinv)
      ((exec_cons _ _ _ _).mpr ⟨drawn, hacquire, hrest⟩) hlast
    refine ⟨?_, fun before after hsplit => hlast'.granted_after ?_ hsplit⟩
    · have hkept := exec_invariant (I := fun v : State T => v.drawn[s.drawn.length]? = some t)
        (fun v e w hv hstep => drawn_kept (step_next hstep) hv) ?_ hrest
      · exact hkept
      · cases step_next hacquire with
        | acquireNow | acquireLater => exact List.getElem?_concat_length
    · exact hinv.next_eq ▸ hinv.ticket_lt hu.ticket

/-- A holder that panics, with two waiters, one of them woken for nothing. -/
theorem turns_fair_panic : ∃ s : State ℕ,
    exec step .new [.acquire 0, .acquire 1, .acquire 2, .wake 2, .recheck 2, .drop 0 true,
      .notifyAll 0, .acquire 0, .recheck 2, .recheck 1] = some s ∧
    s.granted = [0, 1] ∧ s.threads 1 = .holds 1 ∧ s.granted = List.range s.granted.length ∧
    waiting s = 2 ∧ waiting s = (unserved s).card := by
  obtain ⟨s, hrun, hgranted, hholds, hwaiting, hfew⟩ : ∃ s : State ℕ,
      exec step .new [.acquire 0, .acquire 1, .acquire 2, .wake 2, .recheck 2, .drop 0 true,
        .notifyAll 0, .acquire 0, .recheck 2, .recheck 1] = some s ∧
      (s.granted = [0, 1] ∧ s.threads 1 = .holds 1 ∧ waiting s = 2 ∧
        s.drawn.length < wordSize) := exec_evaluates (by decide +kernel)
  obtain ⟨_, ⟨horder, _⟩, _, _, hcount⟩ := turns_fair _ hrun hfew
  exact ⟨s, hrun, hgranted, hholds, horder, hwaiting, hcount⟩

end Turns

end YapStack.Turnstile
