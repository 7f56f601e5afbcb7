import Mathlib.Data.List.Perm.Basic
import Mathlib.Data.Nat.Notation

namespace YapStack.Scheduler

inductive JobOrigin
  | live
  | dictation
  | backfill
  | finalFlush
  deriving DecidableEq

inductive JobSource
  | mic
  | system
  deriving DecidableEq

/-- A queued job. Its id stands for the receiver that `submit` returned for it. -/
structure JobEnvelope where
  id : ℕ
  origin : JobOrigin
  source : JobSource
  deriving DecidableEq

structure SchedulerQueues where
  finalFlush : List JobEnvelope := []
  liveDictation : List JobEnvelope := []
  liveMic : List JobEnvelope := []
  liveSystem : List JobEnvelope := []
  backfill : List JobEnvelope := []
  lastLiveSource : Option JobSource := none
  deriving DecidableEq

namespace SchedulerQueues

variable {q q' : SchedulerQueues} {env : JobEnvelope} {busy : Bool} {src : JobSource}

def live (q : SchedulerQueues) : JobSource → List JobEnvelope
  | .mic => q.liveMic
  | .system => q.liveSystem

/-- The head of a live queue is served. -/
def serveLive (q : SchedulerQueues) (src : JobSource) (jobs : List JobEnvelope) :
    SchedulerQueues :=
  match src with
  | .mic => { q with liveMic := jobs, lastLiveSource := some .mic }
  | .system => { q with liveSystem := jobs, lastLiveSource := some .system }

def tryOrder (q : SchedulerQueues) : List JobSource :=
  match q.lastLiveSource with
  | some .mic => [.system, .mic]
  | _ => [.mic, .system]

def pickLive (q : SchedulerQueues) : List JobSource → Option (JobEnvelope × SchedulerQueues)
  | [] => none
  | src :: rest =>
    match q.live src with
    | job :: jobs => some (job, q.serveLive src jobs)
    | [] => pickLive q rest

def pickNext (q : SchedulerQueues) (producersBusy : Bool) :
    Option (JobEnvelope × SchedulerQueues) :=
  match q.finalFlush with
  | job :: jobs => some (job, { q with finalFlush := jobs })
  | [] =>
    match q.liveDictation with
    | job :: jobs => some (job, { q with liveDictation := jobs })
    | [] =>
      match q.pickLive q.tryOrder with
      | some picked => some picked
      | none =>
        if producersBusy then none
        else
          match q.backfill with
          | job :: jobs => some (job, { q with backfill := jobs })
          | [] => none

def push (q : SchedulerQueues) (env : JobEnvelope) : SchedulerQueues :=
  match env.origin, env.source with
  | .finalFlush, _ => { q with finalFlush := q.finalFlush ++ [env] }
  | .dictation, _ => { q with liveDictation := q.liveDictation ++ [env] }
  | .live, .mic => { q with liveMic := q.liveMic ++ [env] }
  | .live, .system => { q with liveSystem := q.liveSystem ++ [env] }
  | .backfill, _ => { q with backfill := q.backfill ++ [env] }

/-- All jobs, in the order in which `cancel_all` drains them. -/
def jobs (q : SchedulerQueues) : List JobEnvelope :=
  q.finalFlush ++ (q.liveDictation ++ (q.liveMic ++ (q.liveSystem ++ q.backfill)))

def drained (q : SchedulerQueues) : SchedulerQueues := { lastLiveSource := q.lastLiveSource }

/-- The queues for which the worker does not wait. -/
def Urgent (q : SchedulerQueues) : Prop :=
  q.finalFlush ≠ [] ∨ q.liveDictation ≠ [] ∨ q.liveMic ≠ [] ∨ q.liveSystem ≠ []

/-- Every job stands in the queue of its origin. -/
structure Filed (q : SchedulerQueues) : Prop where
  finalFlush : ∀ env ∈ q.finalFlush, env.origin = .finalFlush
  liveDictation : ∀ env ∈ q.liveDictation, env.origin = .dictation
  live : ∀ src, ∀ env ∈ q.live src, env.origin = .live ∧ env.source = src
  backfill : ∀ env ∈ q.backfill, env.origin = .backfill

/-- The job is the head of the first queue that is not empty, and of the two live queues it is
in the one whose turn it is. -/
def InTurn (q : SchedulerQueues) (env : JobEnvelope) : Prop :=
  match env.origin with
  | .finalFlush => q.finalFlush.head? = some env
  | .dictation => q.finalFlush = [] ∧ q.liveDictation.head? = some env
  | .live => q.finalFlush = [] ∧ q.liveDictation = [] ∧ (q.live env.source).head? = some env ∧
      (q.liveMic ≠ [] → q.liveSystem ≠ [] → q.lastLiveSource ≠ some env.source)
  | .backfill => ¬q.Urgent ∧ q.backfill.head? = some env

theorem pickLive_some {order : List JobSource} (h : q.pickLive order = some (env, q')) :
    ∃ src jobs, q.live src = env :: jobs ∧ q' = q.serveLive src jobs ∧
      ∃ front back, order = front ++ src :: back ∧ ∀ s ∈ front, q.live s = [] := by
  induction order with
  | nil => simp [pickLive] at h
  | cons src rest ih =>
    cases hl : q.live src with
    | cons job jobs =>
      simp only [pickLive, hl, Option.some.injEq, Prod.mk.injEq] at h
      obtain ⟨rfl, rfl⟩ := h
      exact ⟨src, jobs, hl, rfl, [], rest, rfl, by simp⟩
    | nil =>
      simp only [pickLive, hl] at h
      obtain ⟨src', jobs, hlive, heq, front, back, rfl, hfront⟩ := ih h
      refine ⟨src', jobs, hlive, heq, src :: front, back, rfl, fun s hs => ?_⟩
      obtain rfl | hs := List.mem_cons.mp hs
      · exact hl
      · exact hfront s hs

theorem pickLive_none {order : List JobSource} (h : q.pickLive order = none) :
    ∀ src ∈ order, q.live src = [] := by
  induction order with
  | nil => simp
  | cons src rest ih =>
    cases hl : q.live src with
    | cons job jobs => simp [pickLive, hl] at h
    | nil =>
      simp only [pickLive, hl] at h
      intro s hs
      obtain rfl | hs := List.mem_cons.mp hs
      · exact hl
      · exact ih h s hs

theorem mem_tryOrder (q : SchedulerQueues) (src : JobSource) : src ∈ q.tryOrder := by
  cases hl : q.lastLiveSource with
  | none => cases src <;> simp [tryOrder, hl]
  | some last => cases last <;> cases src <;> simp [tryOrder, hl]

/-- A source is tried after the other one only when that one is empty, or was served last. -/
theorem turn_of_order {front back : List JobSource} (h : q.tryOrder = front ++ src :: back)
    (hfront : ∀ s ∈ front, q.live s = []) (hmic : q.liveMic ≠ []) (hsystem : q.liveSystem ≠ []) :
    q.lastLiveSource ≠ some src := by
  have hne : ∀ s, q.live s ≠ [] := by
    intro s
    cases s with
    | mic => exact hmic
    | system => exact hsystem
  have hnil : front = [] := by
    cases front with
    | nil => rfl
    | cons s front => exact absurd (hfront s List.mem_cons_self) (hne s)
  intro hlast
  rw [hnil] at h
  cases src <;> simp [tryOrder, hlast] at h

/-- What one pick takes. -/
structure Picked (q : SchedulerQueues) (env : JobEnvelope) (q' : SchedulerQueues) : Prop where
  inTurn : q.InTurn env
  jobs : q.jobs.Perm (env :: q'.jobs)
  filed : q'.Filed
  lastLive : q'.lastLiveSource =
    if env.origin = .live then some env.source else q.lastLiveSource

theorem pickNext_some (hfiled : q.Filed) (h : q.pickNext busy = some (env, q')) :
    Picked q env q' ∧ (env.origin = .backfill → busy = false) := by
  cases hff : q.finalFlush with
  | cons job jobs =>
    simp only [pickNext, hff, Option.some.injEq, Prod.mk.injEq] at h
    obtain ⟨rfl, rfl⟩ := h
    have horigin := hfiled.finalFlush job (by simp [hff])
    refine ⟨⟨by simp [InTurn, horigin, hff], ?_, ?_, by simp [horigin]⟩, by simp [horigin]⟩
    · simp [SchedulerQueues.jobs, hff]
    · exact ⟨fun env he => hfiled.finalFlush env (by simp [hff, he]), hfiled.liveDictation,
        fun src env he => hfiled.live src env (by cases src <;> exact he), hfiled.backfill⟩
  | nil =>
    cases hdict : q.liveDictation with
    | cons job jobs =>
      simp only [pickNext, hff, hdict, Option.some.injEq, Prod.mk.injEq] at h
      obtain ⟨rfl, rfl⟩ := h
      have horigin := hfiled.liveDictation job (by simp [hdict])
      refine ⟨⟨by simp [InTurn, horigin, hff, hdict], ?_, ?_, by simp [horigin]⟩,
        by simp [horigin]⟩
      · simp [SchedulerQueues.jobs, hff, hdict]
      · exact ⟨by simp, fun env he => hfiled.liveDictation env (by simp [hdict, he]),
          fun src env he => hfiled.live src env (by cases src <;> exact he), hfiled.backfill⟩
    | nil =>
      cases hlive : q.pickLive q.tryOrder with
      | some picked =>
        simp only [pickNext, hff, hdict, hlive, Option.some.injEq] at h
        subst h
        obtain ⟨src, jobs, hq, rfl, front, back, horder, hfront⟩ := pickLive_some hlive
        obtain ⟨horigin, rfl⟩ := hfiled.live src env (by simp [hq])
        refine ⟨⟨?_, ?_, ?_, ?_⟩, by simp [horigin]⟩
        · simp only [InTurn, horigin, hff, hdict, hq, List.head?_cons, true_and]
          exact turn_of_order horder hfront
        · cases hsrc : env.source with
          | mic =>
            simp only [hsrc, SchedulerQueues.live] at hq
            simp [SchedulerQueues.jobs, hff, hdict, hq, serveLive]
          | system =>
            simp only [hsrc, SchedulerQueues.live] at hq
            simp only [SchedulerQueues.jobs, hff, hdict, hq, serveLive, List.nil_append,
              List.cons_append]
            exact List.perm_middle
        · have hrest : ∀ e ∈ jobs, e ∈ q.live env.source := fun e he => by simp [hq, he]
          refine ⟨?_, ?_, fun src e he => ?_, ?_⟩
          · cases hsrc : env.source <;> simp [serveLive, hff]
          · cases hsrc : env.source <;> simp [serveLive, hdict]
          · refine hfiled.live src e ?_
            cases hsrc : env.source <;> cases src <;> rw [hsrc] at he hrest
            all_goals first
              | exact hrest e he
              | exact he
          · cases hsrc : env.source <;> simpa [serveLive] using hfiled.backfill
        · cases hsrc : env.source <;> simp [serveLive, horigin]
      | none =>
        simp only [pickNext, hff, hdict, hlive] at h
        cases busy with
        | true => simp at h
        | false =>
          cases hb : q.backfill with
          | nil => simp [hb] at h
          | cons job jobs =>
            simp only [hb, Bool.false_eq_true, if_false, Option.some.injEq, Prod.mk.injEq] at h
            obtain ⟨rfl, rfl⟩ := h
            have horigin := hfiled.backfill job (by simp [hb])
            have hempty := pickLive_none hlive
            have hmic : q.liveMic = [] := hempty .mic (mem_tryOrder q _)
            have hsystem : q.liveSystem = [] := hempty .system (mem_tryOrder q _)
            refine ⟨⟨?_, ?_, ?_, by simp [horigin]⟩, fun _ => rfl⟩
            · simp [InTurn, horigin, hb, Urgent, hff, hdict, hmic, hsystem]
            · simp [SchedulerQueues.jobs, hff, hdict, hmic, hsystem, hb]
            · exact ⟨by simp, by simp,
                fun src env he => hfiled.live src env (by cases src <;> exact he),
                fun env he => hfiled.backfill env (by simp [hb, he])⟩

theorem pickNext_none (h : q.pickNext busy = none) :
    ¬q.Urgent ∧ (busy = false → q.backfill = []) := by
  cases hff : q.finalFlush with
  | cons job jobs => simp [pickNext, hff] at h
  | nil =>
    cases hdict : q.liveDictation with
    | cons job jobs => simp [pickNext, hff, hdict] at h
    | nil =>
      cases hlive : q.pickLive q.tryOrder with
      | some picked => simp [pickNext, hff, hdict, hlive] at h
      | none =>
        have hempty := pickLive_none hlive
        have hmic : q.liveMic = [] := hempty .mic (mem_tryOrder q _)
        have hsystem : q.liveSystem = [] := hempty .system (mem_tryOrder q _)
        refine ⟨by simp [Urgent, hff, hdict, hmic, hsystem], fun hbusy => ?_⟩
        cases hb : q.backfill with
        | nil => rfl
        | cons job jobs => simp [pickNext, hff, hdict, hlive, hbusy, hb] at h

theorem push_jobs (q : SchedulerQueues) (env : JobEnvelope) :
    (q.push env).jobs.Perm (env :: q.jobs) := by
  have hmove : ∀ front back : List JobEnvelope,
      (front ++ env :: back).Perm (env :: (front ++ back)) := fun _ _ => List.perm_middle
  cases horigin : env.origin with
  | finalFlush => simp [push, SchedulerQueues.jobs, horigin]
  | dictation =>
    simpa [push, SchedulerQueues.jobs, horigin] using hmove (q.finalFlush ++ q.liveDictation) _
  | live =>
    cases hsource : env.source with
    | mic =>
      simpa [push, SchedulerQueues.jobs, horigin, hsource] using
        hmove (q.finalFlush ++ (q.liveDictation ++ q.liveMic)) _
    | system =>
      simpa [push, SchedulerQueues.jobs, horigin, hsource] using
        hmove (q.finalFlush ++ (q.liveDictation ++ (q.liveMic ++ q.liveSystem))) _
  | backfill => simpa [push, SchedulerQueues.jobs, horigin] using hmove q.jobs []

theorem forall_mem_snoc {P : JobEnvelope → Prop} {l : List JobEnvelope} (h : ∀ e ∈ l, P e)
    (henv : P env) : ∀ e ∈ l ++ [env], P e := by
  intro e he
  obtain he | he := List.mem_append.mp he
  · exact h e he
  · rw [List.mem_singleton.mp he]
    exact henv

theorem Filed.push (h : q.Filed) (env : JobEnvelope) : (q.push env).Filed := by
  cases horigin : env.origin with
  | finalFlush =>
    simp only [SchedulerQueues.push, horigin]
    exact ⟨forall_mem_snoc h.finalFlush horigin, h.liveDictation,
      fun src e he => h.live src e (by cases src <;> exact he), h.backfill⟩
  | dictation =>
    simp only [SchedulerQueues.push, horigin]
    exact ⟨h.finalFlush, forall_mem_snoc h.liveDictation horigin,
      fun src e he => h.live src e (by cases src <;> exact he), h.backfill⟩
  | backfill =>
    simp only [SchedulerQueues.push, horigin]
    exact ⟨h.finalFlush, h.liveDictation,
      fun src e he => h.live src e (by cases src <;> exact he),
      forall_mem_snoc h.backfill horigin⟩
  | live =>
    cases hsource : env.source with
    | mic =>
      simp only [SchedulerQueues.push, horigin, hsource]
      refine ⟨h.finalFlush, h.liveDictation, fun src => ?_, h.backfill⟩
      cases src with
      | mic => exact forall_mem_snoc (h.live .mic) ⟨horigin, hsource⟩
      | system => exact h.live .system
    | system =>
      simp only [SchedulerQueues.push, horigin, hsource]
      refine ⟨h.finalFlush, h.liveDictation, fun src => ?_, h.backfill⟩
      cases src with
      | mic => exact h.live .mic
      | system => exact forall_mem_snoc (h.live .system) ⟨horigin, hsource⟩

theorem filed_drained (q : SchedulerQueues) : q.drained.Filed where
  finalFlush := by simp [drained]
  liveDictation := by simp [drained]
  live := fun src => by cases src <;> simp [drained, live]
  backfill := by simp [drained]

end SchedulerQueues

end YapStack.Scheduler
