import Mathlib.Data.List.Basic

namespace YapStack.Drain

inductive SyncError
  | unauthorized
  | updateRequired
  | network
  | other
  deriving DecidableEq

structure DrainReport where
  applied : ℕ := 0
  quarantined : ℕ := 0
  replayed : ℕ := 0
  replayWaiting : ℕ := 0
  replayFailed : ℕ := 0
  cryptoQuarantined : ℕ := 0
  pushError : Option SyncError := none
  pullError : Option SyncError := none
  deriving DecidableEq

def DrainReport.hasUnauthorized (r : DrainReport) : Bool :=
  r.pushError = some .unauthorized || r.pullError = some .unauthorized

/-- What the pull meets: a changeset it merges, one it cannot decrypt, or an error that ends
it. -/
inductive Pulled
  | merged (applied quarantined : ℕ)
  | undecryptable
  | failed (e : SyncError)
  deriving DecidableEq

def pullDirection (r : DrainReport) : List Pulled → DrainReport
  | [] => r
  | .merged a q :: ps =>
    pullDirection { r with applied := r.applied + a, quarantined := r.quarantined + q } ps
  | .undecryptable :: ps =>
    pullDirection { r with cryptoQuarantined := r.cryptoQuarantined + 1 } ps
  | .failed e :: _ => { r with pullError := some e }

/-- What the replay meets at one stashed row. -/
inductive Stashed
  | malformed
  | behindFailed
  | deferrable
  | applies
  | fails
  | fault
  deriving DecidableEq

structure ReplayReport where
  replayed : ℕ := 0
  waiting : ℕ := 0
  failed : ℕ := 0
  blocked : ℕ := 0

def replayPending (r : ReplayReport) : List Stashed → Option ReplayReport
  | [] => some r
  | .malformed :: ss => replayPending r ss
  | .behindFailed :: ss => replayPending { r with blocked := r.blocked + 1 } ss
  | .deferrable :: ss => replayPending { r with waiting := r.waiting + 1 } ss
  | .applies :: ss => replayPending { r with replayed := r.replayed + 1 } ss
  | .fails :: ss => replayPending { r with failed := r.failed + 1 } ss
  | .fault :: _ => none

/-- What one drain meets, from its push to its replay. -/
structure Attempt where
  push : Option SyncError
  pulled : List Pulled
  capabilityFault : Bool
  stash : List Stashed
  deriving DecidableEq

/-- One drain. A local fault, between the two directions and the replay or in the replay,
ends it without a report. -/
def drainOnce (a : Attempt) : Option DrainReport :=
  let report := pullDirection { pushError := a.push } a.pulled
  if a.capabilityFault then none
  else
    (replayPending {} a.stash).map (fun replay =>
      { report with
        replayed := replay.replayed
        replayWaiting := replay.waiting
        replayFailed := replay.failed + replay.blocked })

def mergedRows : List Pulled → ℕ
  | [] => 0
  | .merged a _ :: ps => a + mergedRows ps
  | .undecryptable :: ps => mergedRows ps
  | .failed _ :: _ => 0

def replayedRows : List Stashed → ℕ
  | [] => 0
  | .applies :: ss => replayedRows ss + 1
  | .fault :: _ => 0
  | _ :: ss => replayedRows ss

/-- The remote rows one drain writes to the database, whether or not it returns a report. -/
def landed (a : Attempt) : ℕ :=
  mergedRows a.pulled + if a.capabilityFault then 0 else replayedRows a.stash

theorem pullDirection_applied (r : DrainReport) (ps : List Pulled) :
    (pullDirection r ps).applied = r.applied + mergedRows ps := by
  induction ps generalizing r with
  | nil => rfl
  | cons p ps ih =>
    cases p with
    | merged a q => rw [pullDirection, ih, mergedRows, Nat.add_assoc]
    | undecryptable => rw [pullDirection, ih, mergedRows]
    | failed e => rfl

theorem replayPending_replayed {r r' : ReplayReport} {ss : List Stashed}
    (h : replayPending r ss = some r') : r'.replayed = r.replayed + replayedRows ss := by
  induction ss generalizing r with
  | nil => exact Option.some.inj h ▸ rfl
  | cons s ss ih =>
    cases s with
    | fault => cases h
    | applies =>
      have hrest := ih h
      simp only [replayedRows] at hrest ⊢
      omega
    | _ =>
      have hrest := ih h
      exact hrest

/-- A drain that reports counts every row it landed. -/
theorem drainOnce_counts {a : Attempt} {r : DrainReport} (h : drainOnce a = some r) :
    r.applied + r.replayed = landed a := by
  unfold drainOnce at h
  split at h
  · cases h
  · rename_i hfault
    obtain ⟨replay, hreplay, rfl⟩ := Option.map_eq_some_iff.mp h
    have hmerged := pullDirection_applied { pushError := a.push } a.pulled
    have hreplayed := replayPending_replayed hreplay
    simp only [landed, hfault] at hmerged hreplayed ⊢
    simp only [Bool.false_eq_true, if_false]
    omega

end YapStack.Drain
