import Mathlib.Data.List.Range
import Mathlib.Logic.Function.Basic
import YapStack.Foundation.Lanes
import YapStack.Foundation.Runs

set_option linter.unusedSectionVars false

namespace YapStack.Fetch

variable {Part Starter : Type} [DecidableEq Part]

structure FetchSlot where
  queued : Bool
  deriving DecidableEq, Repr

/-- One admitted fetch that waits for a permit. -/
structure QueuedFetch (Part Starter : Type) where
  partId : Part
  starter : Starter
  high : Bool
  deriving DecidableEq, Repr

structure Registry (Part Starter : Type) where
  cap : ℕ
  slots : Part → Option FetchSlot
  queue : List (QueuedFetch Part Starter)
  running : ℕ

namespace Registry

def defaultFetchConcurrency : ℕ := 2

def withCap (cap : ℕ) : Registry Part Starter :=
  ⟨max cap 1, fun _ => none, [], 0⟩

def new : Registry Part Starter :=
  withCap defaultFetchConcurrency

def highSegmentEnd (queue : List (QueuedFetch Part Starter)) : ℕ :=
  (queue.takeWhile (·.high)).length

/-- The registry after the call, the slot it returns, and the starter it runs
once the lock is released. -/
def submitWithPriority (r : Registry Part Starter) (partId : Part) (starter : Starter)
    (high : Bool) : Registry Part Starter × FetchSlot × Option Starter :=
  match r.slots partId with
  | some s => (r, s, none)
  | none =>
    if r.running < r.cap then
      ({ r with
          slots := Function.update r.slots partId (some ⟨false⟩)
          running := r.running + 1 }, ⟨false⟩, some starter)
    else
      let entry := ⟨partId, starter, high⟩
      ({ r with
          slots := Function.update r.slots partId (some ⟨true⟩)
          queue :=
            if high then r.queue.insertIdx (highSegmentEnd r.queue) entry
            else r.queue ++ [entry] }, ⟨true⟩, none)

def submit (r : Registry Part Starter) (partId : Part) (starter : Starter) :
    Registry Part Starter × FetchSlot × Option Starter :=
  r.submitWithPriority partId starter false

def promote (r : Registry Part Starter) (partId : Part) : Registry Part Starter × Bool :=
  match r.queue.findIdx? (fun q => q.partId = partId) with
  | none => (r, false)
  | some pos =>
    match r.queue[pos]? with
    | none => (r, false)
    | some entry =>
      if entry.high then (r, false)
      else
        let rest := r.queue.eraseIdx pos
        ({ r with
            queue := rest.insertIdx (highSegmentEnd rest) { entry with high := true } }, true)

/-- Release a permit and hand out the next starter. -/
def taskFinished (r : Registry Part Starter) : Registry Part Starter × Option Starter :=
  let running := r.running - 1
  match r.queue with
  | [] => ({ r with running := running }, none)
  | q :: rest =>
    let slots :=
      match r.slots q.partId with
      | some _ => Function.update r.slots q.partId (some ⟨false⟩)
      | none => r.slots
    ({ r with slots := slots, queue := rest, running := running + 1 }, some q.starter)

def withoutQueued (r : Registry Part Starter) (partId : Part) :
    List (QueuedFetch Part Starter) :=
  r.queue.filter (fun q => q.partId ≠ partId)

def cancelIfQueued (r : Registry Part Starter) (partId : Part) :
    Registry Part Starter × Bool :=
  if (r.withoutQueued partId).length = r.queue.length then (r, false)
  else
    ({ r with
        slots := Function.update r.slots partId none
        queue := r.withoutQueued partId }, true)

def get (r : Registry Part Starter) (partId : Part) : Option FetchSlot :=
  r.slots partId

def isActive (r : Registry Part Starter) (partId : Part) : Bool :=
  (r.slots partId).isSome

def remove (r : Registry Part Starter) (partId : Part) : Registry Part Starter :=
  { r with
    slots := Function.update r.slots partId none
    queue := r.withoutQueued partId }

/-- The starters that wait for this part. -/
def waiting (r : Registry Part Starter) (partId : Part) : List Starter :=
  (r.queue.filter (fun q => q.partId = partId)).map (·.starter)

variable {r : Registry Part Starter}

/-- A registry in which the high entries stand first: one entry of the queue
moves from behind them to their end, or nothing happens. -/
theorem promote_cases (partId : Part) (hr : Lanes.InLanes (·.high) r.queue) :
    r.promote partId = (r, false) ∨
      ∃ xs ys q hs ns, r.queue = xs ++ q :: ys ∧ q.partId = partId ∧ q.high = false ∧
        (∀ x ∈ xs, x.partId ≠ partId) ∧ Lanes.Split (·.high) hs ns (xs ++ ys) ∧
        r.promote partId = ({ r with queue := hs ++ { q with high := true } :: ns }, true) := by
  unfold promote
  cases hpos : r.queue.findIdx? (fun q => decide (q.partId = partId)) with
  | none => exact .inl rfl
  | some pos =>
    obtain ⟨xs, q, ys, hq, rfl, hp, hx⟩ := Lanes.findIdx?_split hpos
    have hget : r.queue[xs.length]? = some q := by simp [hq]
    simp only [hget]
    by_cases hh : q.high = true
    · exact .inl (if_pos hh)
    · right
      rw [if_neg hh]
      have hs : List.Sublist (xs ++ ys) r.queue := by
        rw [hq]
        exact (List.sublist_cons_self q ys).append_left xs
      obtain ⟨hs', ns, hsplit⟩ := hr.sublist hs
      refine ⟨xs, ys, q, hs', ns, hq, of_decide_eq_true hp, Bool.not_eq_true _ ▸ hh, ?_,
        hsplit, ?_⟩
      · exact fun x hxs => of_decide_eq_false (hx x hxs)
      · rw [hq, Lanes.eraseIdx_append]
        simp only [highSegmentEnd, hsplit.insertIdx]

theorem cancelIfQueued_cases (r : Registry Part Starter) (partId : Part) :
    (r.cancelIfQueued partId = (r, false) ∧ r.waiting partId = []) ∨
      r.cancelIfQueued partId = (r.remove partId, true) := by
  unfold cancelIfQueued
  by_cases h : (r.withoutQueued partId).length = r.queue.length
  · left
    refine ⟨if_pos h, ?_⟩
    have hall := List.length_filter_eq_length_iff.mp h
    rw [waiting, List.map_eq_nil_iff, List.filter_eq_nil_iff]
    intro q hq
    simpa using hall q hq
  · exact .inr (if_neg h)

end Registry

/-- A run of the registry. A starter is named by the number of submissions
accepted before it; `classes` keeps the class each was submitted in. -/
structure Run (Part : Type) where
  registry : Registry Part ℕ
  classes : List Bool
  started : List ℕ
  finished : List ℕ
  promoted : List ℕ
  removed : List ℕ

inductive Event (Part : Type) where
  | submit (partId : Part)
  | submitWithPriority (partId : Part) (high : Bool)
  | promote (partId : Part)
  | cancelIfQueued (partId : Part)
  | remove (partId : Part)
  | taskFinished (starter : ℕ)

namespace Run

def init (cap : ℕ) : Run Part :=
  ⟨.withCap cap, [], [], [], [], []⟩

def submitted (u : Run Part) (partId : Part) (high : Bool)
    (out : Registry Part ℕ × FetchSlot × Option ℕ) : Run Part :=
  { u with
    registry := out.1
    classes := if u.registry.isActive partId then u.classes else u.classes ++ [high]
    started := u.started ++ out.2.2.toList }

def promote (u : Run Part) (partId : Part) : Run Part :=
  let out := u.registry.promote partId
  { u with
    registry := out.1
    promoted := if out.2 then u.promoted ++ u.registry.waiting partId else u.promoted }

def cancelIfQueued (u : Run Part) (partId : Part) : Run Part :=
  let out := u.registry.cancelIfQueued partId
  { u with
    registry := out.1
    removed := if out.2 then u.removed ++ u.registry.waiting partId else u.removed }

def remove (u : Run Part) (partId : Part) : Run Part :=
  { u with
    registry := u.registry.remove partId
    removed := u.removed ++ u.registry.waiting partId }

def taskFinished (u : Run Part) (starter : ℕ) : Run Part :=
  let out := u.registry.taskFinished
  { u with
    registry := out.1
    started := u.started ++ out.2.toList
    finished := u.finished ++ [starter] }

end Run

/-- One call, in the order of the lock. A starter runs when it is handed out,
so what it calls synchronously are the next events. Each started task reports
its end once. -/
def step (u : Run Part) : Event Part → Option (Run Part)
  | .submit partId =>
    some (u.submitted partId false (u.registry.submit partId u.classes.length))
  | .submitWithPriority partId high =>
    some (u.submitted partId high
      (u.registry.submitWithPriority partId u.classes.length high))
  | .promote partId => some (u.promote partId)
  | .cancelIfQueued partId => some (u.cancelIfQueued partId)
  | .remove partId => some (u.remove partId)
  | .taskFinished starter =>
    if starter ∈ u.started ∧ starter ∉ u.finished then some (u.taskFinished starter) else none

end YapStack.Fetch
