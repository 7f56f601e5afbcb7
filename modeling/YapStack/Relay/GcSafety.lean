import Mathlib.Algebra.GroupWithZero.Nat
import YapStack.Relay.Gc

set_option linter.unusedSectionVars false

namespace YapStack.Relay.Gc

open Audio Table

variable {Tx Part Session Hash Sweep : Type*}
variable [DecidableEq Tx] [DecidableEq Part] [DecidableEq Hash] [DecidableEq Sweep]

section Database

variable {s s' : State Tx Part Session Hash} {t u : Tx} {h : Hash}
variable {a : Action Tx Part Session Hash}

/-- Only the commit of a presign of a hash adds a mapping to it. -/
theorem mappings_execute (hi : Invariant s) (hu : Undisturbed s (.execute t))
    (hs : execute s t = some s') (hne : commitHash s t ≠ some h) : mappings s' h ≤ mappings s h := by
  obtain hst | ⟨p, old, stored, new, hpc, rfl⟩ | ⟨hpc, rfl⟩ := execute_shape hs
  · exact Nat.le_of_eq (hst.objects.count _)
  · have hcommits : (s.pc t).commits = some (p, old) := by rw [hpc, Pc.commits]
    have hsettled : Settled s t p old := hu (p, old) hcommits
    have hcount := mappings_commit (hi.local' t) hpc hsettled.1 (.committed p stored new) h
    have hsha : p.sha256 ≠ h := by
      intro heq
      exact hne (by rw [commitHash, hcommits, Option.map_some, heq])
    simp only [hsha, decide_false, Bool.toNat_false] at hcount
    omega
  · have hobj := (hi.local' t).objects
    simp only [hpc, ObjectEffect] at hobj
    exact Nat.le_of_eq (commit_count_of_none hobj _)

theorem mappings_step (hs : Audio.step s a = some s') (hne : ∀ t, a ≠ .execute t) :
    mappings s' h = mappings s h := by
  cases a with
  | execute t => exact absurd rfl (hne t)
  | presign t p =>
    obtain ⟨_, rfl⟩ := by simpa [Audio.step] using hs
    rfl
  | sweep t hash size cutoff =>
    obtain ⟨_, rfl⟩ := by simpa [Audio.step] using hs
    rfl
  | rollback t =>
    obtain ⟨_, rfl⟩ := by simpa [Audio.step] using hs
    exact rollback_count s.objects t _
  | answer t present =>
    simp only [Audio.step] at hs
    split at hs <;> cases hs
    rfl

theorem committed_request (hs : Audio.step s a = some s') (hne : ∀ t, a ≠ .execute t) :
    s'.blobs.committed = s.blobs.committed := by
  cases a with
  | execute t => exact absurd rfl (hne t)
  | presign t p | sweep t hash size cutoff | rollback t =>
    obtain ⟨_, rfl⟩ := by simpa [Audio.step] using hs
    rfl
  | answer t present =>
    simp only [Audio.step] at hs
    split at hs <;> cases hs
    rfl

/-- `t` is a row transaction of the sweep that deletes, or has deleted, the row of a hash. -/
def Deletes (s : State Tx Part Session Hash) (t : Tx) (h : Hash) : Prop :=
  (∃ size cutoff, s.pc t = .deleting h size cutoff) ∨
    ((∃ size, s.pc t = .reclaiming size) ∨ s.pc t = .swept) ∧ s.blobs.pending t h ≠ none

theorem deletes_congr (hpc : s'.pc u = s.pc u) (hb : s'.blobs.pending u = s.blobs.pending u)
    (hd : Deletes s' u h) : Deletes s u h := by
  simpa only [Deletes, hpc, hb] using hd

theorem deletes_execute (hl : Local s t) (hs : execute s t = some s') (hd : Deletes s' t h) :
    Deletes s t h := by
  have hlb := hl.blobs
  unfold execute at hs
  cases hpc : s.pc t <;> simp only [hpc] at hs hlb
  case idle | refused | committed | answered => cases hs
  case begun | blobRead | conflicted =>
    cases hs
    simp [Deletes, readBlob, readMapping, rereadSize, State.goto] at hd
  case mappingRead =>
    obtain ⟨rfl, _⟩ | ⟨_, _, _, _, _, rfl⟩ := releaseOld_cases hs <;>
      simp [Deletes, State.goto] at hd
  case released =>
    obtain ⟨_, _, rfl⟩ := pointPart_cases hs
    simp [Deletes, State.goto] at hd
  case mapped p blob old =>
    cases blob with
    | none =>
      obtain ⟨_, new, _, rfl⟩ := insertBlob_cases hs
      cases new <;> simp [Deletes, State.goto] at hd
    | some bytes =>
      obtain ⟨rfl, _⟩ | ⟨_, _, _, rfl⟩ := reference_cases hs <;> simp [Deletes, State.goto] at hd
  case reread =>
    obtain ⟨rfl, _⟩ | ⟨_, _, _, rfl⟩ := reference_cases hs <;> simp [Deletes, State.goto] at hd
  case admitting =>
    obtain ⟨_, _, rfl⟩ | ⟨_, rfl⟩ | ⟨_, _, rfl⟩ := admitBytes_cases hs <;>
      simp [Deletes, State.goto] at hd
  case ready | swept =>
    cases hs
    simp [Deletes, State.close] at hd
  case deleting hash size cutoff =>
    have hnone : s.blobs.pending t h = none := hlb h
    obtain rfl | ⟨blobs, hm, rfl⟩ := deleteBlob_cases hs
    · simp [Deletes, State.goto, hnone] at hd
    · by_cases heq : h = hash
      · exact heq ▸ Or.inl ⟨size, cutoff, hpc⟩
      · have hp := modify_pending_of_ne hm heq
        simp [Deletes, State.goto, hp, hnone] at hd
  case reclaiming size =>
    obtain ⟨usage, rfl⟩ := reclaimBytes_cases hs
    have hp : s.blobs.pending t h ≠ none := by simpa [Deletes, State.goto] using hd
    exact Or.inr ⟨Or.inl ⟨size, hpc⟩, hp⟩

/-- A committed row only goes at the commit of a row transaction. -/
theorem vanishes_execute (hl : Local s t) (hs : execute s t = some s')
    (hrow : s.blobs.committed h ≠ none) (hgone : s'.blobs.committed h = none) : Deletes s t h := by
  obtain hst | ⟨p, old, stored, new, hpc, rfl⟩ | ⟨hpc, rfl⟩ := execute_shape hs
  · rw [hst.blobs.committed] at hgone
    exact absurd hgone hrow
  · have hview : s.blobs.view t h = none := hgone
    have heffect := hl.blobs h
    simp only [hpc, BlobEffect] at heffect
    have hpend : ∀ b, s.blobs.pending t h ≠ some (some b) := by
      intro b hb
      rw [view_of_pending hb] at hview
      cases hview
    obtain (hn | ⟨_, _, b, now, _, hp⟩) | ⟨_, ⟨_, hp⟩ | ⟨_, b, _, hp⟩⟩ := heffect
    · rw [view_of_pending_none hn] at hview
      exact absurd hview hrow
    · exact absurd hp (hpend _)
    · exact absurd hp (hpend _)
    · exact absurd hp (hpend _)
  · refine Or.inr ⟨Or.inr hpc, fun hn => ?_⟩
    have hview : s.blobs.view t h = none := hgone
    rw [view_of_pending_none hn] at hview
    exact hrow hview

theorem execute_others (hs : execute s t = some s') (hne : u ≠ t) :
    s'.pc u = s.pc u ∧ s'.blobs.pending u = s.blobs.pending u := by
  obtain hst | ⟨p, old, stored, new, hpc, rfl⟩ | ⟨hpc, rfl⟩ := execute_shape hs
  · obtain ⟨c, hc⟩ := hst.pc
    exact ⟨by rw [hc, Function.update_of_ne hne], hst.blobs.pending_of_ne hne⟩
  · exact ⟨Function.update_of_ne hne _ _, (close_isolated _ true hne).pending⟩
  · exact ⟨Function.update_of_ne hne _ _, (close_isolated _ true hne).pending⟩

theorem deletes_goto {c : Pc Part Session Hash} (hc : ¬ Deletes (s.goto t c) t h)
    (hd : Deletes (s.goto t c) u h) : Deletes s u h := by
  by_cases hut : u = t
  · exact absurd (hut ▸ hd) hc
  · have hpc : (s.goto t c).pc u = s.pc u := Function.update_of_ne hut _ _
    exact deletes_congr hpc rfl hd

/-- A request, its answer and a rollback begin no deletion of a row. -/
theorem deletes_request (hst : Audio.step s a = some s') (hne : ∀ t, a ≠ .execute t)
    (hsweep : ∀ t h size cutoff, a ≠ .sweep t h size cutoff) (hd : Deletes s' u h) :
    Deletes s u h := by
  cases a with
  | execute t => exact absurd rfl (hne t)
  | sweep t h size cutoff => exact absurd rfl (hsweep t h size cutoff)
  | presign t p =>
    obtain ⟨_, rfl⟩ := by simpa [Audio.step] using hst
    exact deletes_goto (by simp [Deletes, State.goto]) hd
  | rollback t =>
    obtain ⟨_, rfl⟩ := by simpa [Audio.step] using hst
    by_cases hut : u = t
    · subst hut
      simp [Deletes, State.close] at hd
    · exact deletes_congr (Function.update_of_ne hut _ _) (close_isolated _ false hut).pending hd
  | answer t present =>
    simp only [Audio.step] at hst
    split at hst <;> cases hst
    exact deletes_goto (by simp [Deletes, State.goto]) hd

end Database

variable {w w' : World Tx Part Session Hash Sweep} {e : Event Tx Part Session Hash Sweep}
variable {db : State Tx Part Session Hash}

/-- A listed hash that no presign has mapped since the scan has no mapping, an
owed hash has its object, and a row transaction follows its object's deletion. -/
structure Sound (w : World Tx Part Session Hash Sweep) : Prop where
  audio : Invariant w.db
  listed : ∀ v, ∀ r ∈ (w.sweeps v).rest, w.remapped v r.1 = false → mappings w.db r.1 = 0
  owed : ∀ h, w.owed h = true → w.stored h = true ∧ 0 < mappings w.db h
  cleared : ∀ t h, Deletes w.db t h → w.cleared t = some h

/-- What a step does to storage and to the rows of the blobs. -/
structure Safe (w : World Tx Part Session Hash Sweep) (e : Event Tx Part Session Hash Sweep)
    (w' : World Tx Part Session Hash Sweep) : Prop where
  kept : ∀ h, w'.owed h = true → w'.stored h = true
  object : ∀ h, w.stored h = true → w'.stored h = false → mappings w.db h = 0
  row : ∀ h, w.db.blobs.committed h ≠ none → w'.db.blobs.committed h = none →
    ∃ t, e = .execute t ∧ w.cleared t = some h
  crash : ∀ v, e = .crash v → w'.stored = w.stored ∧ w'.db = w.db

theorem owedAfter_true {granted : Option Hash} {h : Hash} (ho : owedAfter w db granted h = true) :
    (w.owed h = true ∨ granted = some h) ∧ 0 < mappings db h := by
  simpa [owedAfter] using ho

theorem eligible_unmapped (hi : Invariant w.db) {cutoff : Int} {r : Hash × Int}
    (hr : r ∈ eligible w.db cutoff) : mappings w.db r.1 = 0 := by
  obtain ⟨h, _, hrow⟩ := List.mem_filterMap.mp hr
  obtain ⟨b, hb, rfl⟩ := Option.map_eq_some_iff.mp hrow
  obtain ⟨hcom, hrel⟩ := Option.filter_eq_some_iff.mp hb
  have hcount := hi.consistent.refcount h b hcom
  simp only [releasedBefore, Bool.and_eq_true, decide_eq_true_eq] at hrel
  have hle := hrel.1
  change mappings w.db h = 0
  omega

theorem sound_empty : Sound (World.empty : World Tx Part Session Hash Sweep) := by
  refine ⟨empty_invariant, fun _ _ h => (by cases h), fun _ h => (by cases h), fun t h hd => ?_⟩
  exact absurd hd (by simp [Deletes, World.empty, State.empty])

/-- A step of a transaction that neither executes a statement nor begins a sweep's one. -/
theorem Sound.request {a : Action Tx Part Session Hash} (hi : Sound w) {head : Tx → Option Bool}
    {issued : Hash → Bool} (hst : Audio.step w.db a = some db) (hne : ∀ t, a ≠ .execute t)
    (hsweep : ∀ t h size cutoff, a ≠ .sweep t h size cutoff) :
    Sound { w with db := db, head := head, issued := issued } := by
  have hm : ∀ h, mappings db h = mappings w.db h := fun h => mappings_step hst hne
  have hu : Undisturbed w.db a := by
    cases a with
    | execute t => exact absurd rfl (hne t)
    | _ => trivial
  refine ⟨step_invariant _ _ _ hi.audio hu hst, fun v r hr hre => ?_, fun h ho => ?_, ?_⟩
  · exact (hm r.1).trans (hi.listed v r hr hre)
  · exact ⟨(hi.owed h ho).1, (hm h) ▸ (hi.owed h ho).2⟩
  · exact fun u h hd => hi.cleared u h (deletes_request hst hne hsweep hd)

theorem Sound.execute {t : Tx} (hi : Sound w) (hu : Undisturbed w.db (.execute t))
    (hst : Audio.step w.db (.execute t) = some db) :
    Sound { w with
      db := db
      owed := owedAfter w db none
      remapped := fun v h => w.remapped v h || commitHash w.db t == some h } := by
  refine ⟨step_invariant _ _ _ hi.audio hu hst, fun v r hr hre => ?_, fun h ho => ?_, ?_⟩
  · simp only [Bool.or_eq_false_iff, beq_eq_false_iff_ne] at hre
    have hle := mappings_execute hi.audio hu hst hre.2
    have hz := hi.listed v r hr hre.1
    simp only
    omega
  · obtain ⟨ho | ho, hpos⟩ := owedAfter_true ho
    · exact ⟨(hi.owed h ho).1, hpos⟩
    · cases ho
  · intro u h hd
    refine hi.cleared u h ?_
    by_cases hut : u = t
    · subst hut
      exact deletes_execute (hi.audio.local' u) hst hd
    · obtain ⟨hpc, hp⟩ := execute_others hst hut
      exact deletes_congr hpc hp hd

/-- A step that only grants a hash whose object is there. -/
theorem Sound.grant {granted : Option Hash} {stored : Hash → Bool} {head : Tx → Option Bool}
    (hi : Sound w) (hs : ∀ h, w.stored h = true → stored h = true)
    (hg : ∀ h, granted = some h → stored h = true) :
    Sound { w with stored := stored, head := head, owed := owedAfter w w.db granted } := by
  refine ⟨hi.audio, hi.listed, fun h ho => ?_, hi.cleared⟩
  obtain ⟨ho | ho, hpos⟩ := owedAfter_true ho
  · exact ⟨hs h (hi.owed h ho).1, hpos⟩
  · exact ⟨hg h ho, hpos⟩

/-- A sweep moves on, with a part of the rest of its list. -/
theorem Sound.sweep {v : Sweep} {point : SweepPoint Tx Hash} (hi : Sound w)
    (hrest : ∀ r ∈ point.rest, r ∈ (w.sweeps v).rest) :
    Sound { w with sweeps := Function.update w.sweeps v point } := by
  refine ⟨hi.audio, fun u r hr hre => ?_, hi.owed, hi.cleared⟩
  by_cases hu : u = v
  · subst hu
    simp only [Function.update_self] at hr
    exact hi.listed u r (hrest r hr) hre
  · simp only [Function.update_of_ne hu] at hr
    exact hi.listed u r hr hre

/-- The object of an unmapped hash may go. -/
theorem Sound.delete {hash : Hash} (hi : Sound w) (hz : mappings w.db hash = 0) :
    Sound { w with stored := Function.update w.stored hash false } := by
  refine ⟨hi.audio, hi.listed, fun h ho => ?_, hi.cleared⟩
  obtain ⟨hs, hpos⟩ := hi.owed h ho
  have hne : h ≠ hash := by
    rintro rfl
    omega
  exact ⟨by simpa only [Function.update_of_ne hne] using hs, hpos⟩

theorem Sound.listed_head {v : Sweep} {outcome : Outcome} {hash : Hash} {size cutoff : Int}
    {rest : List (Hash × Int)} (hi : Sound w) (hg : Guarded w (.deleteObject v outcome))
    (hv : w.sweeps v = .listed ((hash, size) :: rest) cutoff) : mappings w.db hash = 0 := by
  refine hi.listed v (hash, size) ?_ (hg (hash, size) ?_)
  · rw [hv]
    exact List.mem_cons_self
  · rw [hv]
    rfl

theorem Sound.beginRow {v : Sweep} {t : Tx} {hash : Hash} {size cutoff : Int}
    {rest : List (Hash × Int)} (hi : Sound w)
    (hdb : Audio.step w.db (.sweep t hash size cutoff) = some db)
    (hrest : ∀ r ∈ rest, r ∈ (w.sweeps v).rest) :
    Sound { w with
      db := db
      sweeps := Function.update w.sweeps v (.row t rest cutoff)
      cleared := Function.update w.cleared t (some hash) } := by
  have hm : ∀ h, mappings db h = mappings w.db h := fun h => mappings_step hdb (fun _ h => by cases h)
  have haudio := step_invariant w.db (.sweep t hash size cutoff) db hi.audio trivial hdb
  obtain ⟨_, rfl⟩ := by simpa [Audio.step] using hdb
  have hsweep : Sound { w with sweeps := Function.update w.sweeps v (.row t rest cutoff) } :=
    hi.sweep hrest
  refine ⟨haudio, fun u r hr hre => ?_, fun h ho => ?_, fun u h hd => ?_⟩
  · exact (hm r.1).trans (hsweep.listed u r hr hre)
  · exact ⟨(hi.owed h ho).1, (hm h) ▸ (hi.owed h ho).2⟩
  · by_cases hut : u = t
    · subst hut
      obtain ⟨size', cutoff', hpc⟩ | ⟨⟨size', hpc⟩ | hpc, _⟩ := hd
      · simp only [State.goto, Function.update_self, Pc.deleting.injEq] at hpc
        simp [hpc.1]
      · simp [State.goto] at hpc
      · simp [State.goto] at hpc
    · have hpc : (w.db.goto t (.deleting hash size cutoff)).pc u = w.db.pc u :=
        Function.update_of_ne hut _ _
      simp only [Function.update_of_ne hut]
      exact hi.cleared u h (deletes_congr hpc rfl hd)

theorem step_sound (hi : Sound w) (hg : Guarded w e) (hst : step w e = some w') : Sound w' := by
  cases e with
  | presign t p =>
    obtain ⟨db, hdb, rfl⟩ := Option.map_eq_some_iff.mp hst
    exact hi.request hdb (by simp) (by simp)
  | execute t =>
    obtain ⟨db, hdb, rfl⟩ := Option.map_eq_some_iff.mp hst
    exact hi.execute hg hdb
  | rollback t =>
    obtain ⟨db, hdb, rfl⟩ := Option.map_eq_some_iff.mp hst
    exact hi.request hdb (by simp) (by simp)
  | head t ok =>
    simp only [step] at hst
    split at hst <;> cases hst
    rename_i p stored hpc
    refine hi.grant (fun h hs => hs) (fun h hg => ?_)
    split at hg
    · rename_i hpresent
      cases hg
      exact (Bool.and_eq_true_iff.mp hpresent).1
    · cases hg
  | answer t =>
    simp only [step] at hst
    split at hst
    · split at hst
      · cases hst
      · obtain ⟨db, hdb, rfl⟩ := Option.map_eq_some_iff.mp hst
        exact hi.request hdb (by simp) (by simp)
    · cases hst
  | put hash =>
    simp only [step] at hst
    split at hst <;> cases hst
    refine hi.grant (fun h hs => ?_) (fun h hg => ?_)
    · by_cases hh : h = hash
      · simp [hh]
      · simpa [hh] using hs
    · cases hg
      simp
  | scan v cutoff =>
    simp only [step] at hst
    split at hst <;> cases hst
    refine ⟨hi.audio, fun u r hr hre => ?_, hi.owed, hi.cleared⟩
    by_cases hu : u = v
    · subst hu
      simp only [Function.update_self] at hr
      exact eligible_unmapped hi.audio hr
    · simp only [Function.update_of_ne hu] at hr hre
      exact hi.listed u r hr hre
  | deleteObject v outcome =>
    simp only [step] at hst
    split at hst
    · rename_i hash size rest cutoff hv
      have hz := hi.listed_head hg hv
      have hsub : ∀ r ∈ rest, r ∈ (w.sweeps v).rest := by
        intro r hr
        rw [hv]
        exact List.mem_cons_of_mem _ hr
      cases outcome with
      | deleted =>
        cases hst
        exact (hi.delete hz).sweep hsub
      | failed landed =>
        cases hst
        cases landed with
        | true => exact (hi.delete hz).sweep hsub
        | false => exact hi.sweep hsub
    · cases hst
  | beginRow v t =>
    simp only [step] at hst
    split at hst
    · rename_i hash size rest cutoff hv
      obtain ⟨db, hdb, rfl⟩ := Option.map_eq_some_iff.mp hst
      refine hi.beginRow hdb (fun r hr => ?_)
      rw [hv]
      exact hr
    · cases hst
  | endRow v =>
    simp only [step] at hst
    split at hst
    · rename_i t rest cutoff hv
      split at hst <;> cases hst
      refine hi.sweep (fun r hr => ?_)
      rw [hv]
      exact hr
    · cases hst
      exact hi.sweep (fun _ h => by cases h)
    · cases hst
  | crash v =>
    cases hst
    exact hi.sweep (fun _ h => by cases h)

/-- No event but a commit of a row transaction takes a row away. -/
theorem step_row (hi : Sound w) (hst : step w e = some w') {h : Hash}
    (hrow : w.db.blobs.committed h ≠ none) (hgone : w'.db.blobs.committed h = none) :
    ∃ t, e = .execute t ∧ w.cleared t = some h := by
  have hkeep : ∀ {a : Action Tx Part Session Hash} {db}, Audio.step w.db a = some db →
      (∀ t, a ≠ .execute t) → db.blobs.committed h ≠ none :=
    fun hdb hne => committed_request hdb hne ▸ hrow
  cases e with
  | execute t =>
    obtain ⟨db, hdb, rfl⟩ := Option.map_eq_some_iff.mp hst
    exact ⟨t, rfl, hi.cleared t h (vanishes_execute (hi.audio.local' t) hdb hrow hgone)⟩
  | presign t p | rollback t =>
    obtain ⟨db, hdb, rfl⟩ := Option.map_eq_some_iff.mp hst
    exact absurd hgone (hkeep hdb (fun _ h => by cases h))
  | answer t =>
    simp only [step] at hst
    split at hst
    · split at hst
      · cases hst
      · obtain ⟨db, hdb, rfl⟩ := Option.map_eq_some_iff.mp hst
        exact absurd hgone (hkeep hdb (fun _ h => by cases h))
    · cases hst
  | beginRow v t =>
    simp only [step] at hst
    split at hst
    · obtain ⟨db, hdb, rfl⟩ := Option.map_eq_some_iff.mp hst
      exact absurd hgone (hkeep hdb (fun _ h => by cases h))
    · cases hst
  | deleteObject v outcome =>
    simp only [step] at hst
    split at hst
    · split at hst <;> cases hst <;> exact absurd hgone hrow
    · cases hst
  | head t ok | put hash | scan v cutoff =>
    simp only [step] at hst
    split at hst <;> cases hst
    exact absurd hgone hrow
  | endRow v =>
    simp only [step] at hst
    split at hst
    · split at hst <;> cases hst
      exact absurd hgone hrow
    · cases hst
      exact absurd hgone hrow
    · cases hst
  | crash v =>
    cases hst
    exact absurd hgone hrow

theorem step_object (hi : Sound w) (hg : Guarded w e) (hst : step w e = some w') {h : Hash}
    (hs : w.stored h = true) (hgone : w'.stored h = false) : mappings w.db h = 0 := by
  have hsame : w'.stored h = w.stored h → mappings w.db h = 0 := by
    intro heq
    rw [heq, hs] at hgone
    cases hgone
  cases e with
  | presign t p | execute t | rollback t =>
    obtain ⟨db, hdb, rfl⟩ := Option.map_eq_some_iff.mp hst
    exact hsame rfl
  | answer t =>
    simp only [step] at hst
    split at hst
    · split at hst
      · cases hst
      · obtain ⟨db, hdb, rfl⟩ := Option.map_eq_some_iff.mp hst
        exact hsame rfl
    · cases hst
  | beginRow v t =>
    simp only [step] at hst
    split at hst
    · obtain ⟨db, hdb, rfl⟩ := Option.map_eq_some_iff.mp hst
      exact hsame rfl
    · cases hst
  | put hash =>
    simp only [step] at hst
    split at hst <;> cases hst
    by_cases hh : h = hash
    · simp [hh] at hgone
    · exact hsame (Function.update_of_ne hh _ _)
  | deleteObject v outcome =>
    simp only [step] at hst
    split at hst
    · rename_i hash size rest cutoff hv
      have hz := hi.listed_head hg hv
      have hland : (if outcome.landed then Function.update w.stored hash false else w.stored) h =
          false → mappings w.db h = 0 := by
        intro hl
        by_cases hh : h = hash
        · exact hh ▸ hz
        · split at hl
          · rw [Function.update_of_ne hh, hs] at hl
            cases hl
          · rw [hs] at hl
            cases hl
      split at hst <;> cases hst <;> exact hland hgone
    · cases hst
  | head t ok | scan v cutoff =>
    simp only [step] at hst
    split at hst <;> cases hst
    exact hsame rfl
  | endRow v =>
    simp only [step] at hst
    split at hst
    · split at hst <;> cases hst
      exact hsame rfl
    · cases hst
      exact hsame rfl
    · cases hst
  | crash v =>
    cases hst
    exact hsame rfl

/-- In every run that meets the condition, the object of a hash that a client may
rely on is there, and only unmapped hashes lose their object. -/
theorem collects_only_unmapped (as : List (Event Tx Part Session Hash Sweep))
    (hg : Runs.Along step (fun w e _ => Guarded w e) World.empty as) :
    Runs.Along step (fun w e w' => Safe w e w') World.empty as := by
  refine Runs.along_of_invariant (I := Sound) (fun w e w' hi hg hst => step_sound (e := e) hi hg hst) ?_
    sound_empty hg
  intro w e w' hi hg hst
  refine ⟨fun h ho => ((step_sound hi hg hst).owed h ho).1, fun h hs hgone => ?_,
    fun h hrow hgone => step_row hi hst hrow hgone, fun v hv => ?_⟩
  · exact step_object hi hg hst hs hgone
  · subst hv
    cases hst
    exact ⟨rfl, rfl⟩

section Schedules

theorem neZero_two : NeZero 2 := ⟨by decide⟩

attribute [local instance] neZero_two

abbrev Steps := List (Event (Fin 2) Nat Nat Nat (Fin 1))

/-- A whole presign, with the HEAD that its answer needs for a known blob. -/
def presigned (t : Fin 2) (part hash : Nat) (known : Bool) : Steps :=
  .presign t (presignOf part hash) :: List.replicate (if known then 6 else 9) (.execute t) ++
    (if known then [.head t true] else []) ++ [.answer t]

/-- Part 1 uploads blob 10 and is repointed to blob 11, and a sweep lists blob 10. -/
def listing : Steps :=
  presigned 0 1 10 false ++ [.put 10] ++ presigned 0 1 11 false ++ [.scan 0 1]

theorem collects_only_unmapped_listing :
    (Runs.Along step (fun w e w' => Safe w e w') World.empty
      (listing ++ [.deleteObject 0 .deleted, .beginRow 0 1] ++ List.replicate 3 (.execute 1))) ∧
    ∃ w : World (Fin 2) Nat Nat Nat (Fin 1), Runs.exec step World.empty
      (listing ++ [.deleteObject 0 .deleted, .beginRow 0 1] ++ List.replicate 3 (.execute 1)) =
        some w ∧ w.stored 10 = false ∧ w.db.blobs.committed 10 = none := by
  refine ⟨collects_only_unmapped _ (by decide +kernel), ?_⟩
  exact Runs.exec_evaluates
    (P := fun w : World (Fin 2) Nat Nat Nat (Fin 1) =>
      w.stored 10 = false ∧ w.db.blobs.committed 10 = none) (by decide +kernel)

/-- After the scan part 2 presigns blob 10 and is told that it exists. Then the
sweep deletes the object. -/
theorem collects_promised :
    ¬ ∀ (as : Steps) (w : World (Fin 2) Nat Nat Nat (Fin 1)),
      Runs.exec step World.empty as = some w → ∀ h, w.owed h = true → w.stored h = true := by
  intro hall
  obtain ⟨w, hw, howed, hgone⟩ := Runs.exec_evaluates
    (P := fun w : World (Fin 2) Nat Nat Nat (Fin 1) => w.owed 10 = true ∧ w.stored 10 = false)
    (by decide +kernel : (Runs.exec step World.empty
      (listing ++ presigned 0 2 10 true ++ [.deleteObject 0 .deleted])).any _ = true)
  rw [hall _ w hw 10 howed] at hgone
  cases hgone

end Schedules

end YapStack.Relay.Gc
