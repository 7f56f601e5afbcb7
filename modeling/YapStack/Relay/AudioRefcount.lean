import YapStack.Foundation.Statements
import YapStack.Relay.AudioEffects

set_option linter.unusedSectionVars false

namespace YapStack.Relay.Audio

open Choke Table

variable {Tx Part Session Hash : Type*} [DecidableEq Tx] [DecidableEq Part] [DecidableEq Hash]
variable {s s' : State Tx Part Session Hash} {t u : Tx} {p : Presign Part Session Hash}
variable {old : Option Hash} {stored : Nat} {new : Bool}

/-- The number of parts that map to a hash. -/
def mappings (s : State Tx Part Session Hash) (h : Hash) : Nat :=
  s.objects.count (fun o => o.sha256 = h)

/-- The refcount invariant of the committed rows. -/
structure Consistent (s : State Tx Part Session Hash) : Prop where
  refcount : ∀ h b, s.blobs.committed h = some b → b.refcount = mappings s h
  released : ∀ h b, s.blobs.committed h = some b → (b.releasedAt ≠ none ↔ b.refcount = 0)
  blob : ∀ k o, s.objects.committed k = some o → s.blobs.committed o.sha256 ≠ none

/-- At its commit, a presign replaces the mapping it read before its writes,
and each of its two updates of a refcount has found its row. -/
def Settled (s : State Tx Part Session Hash) (t : Tx) (p : Presign Part Session Hash)
    (old : Option Hash) : Prop :=
  (s.objects.committed p.partId).map AudioObject.sha256 = old ∧
    (∀ oh ∈ old, oh ≠ p.sha256 → s.blobs.pending t oh ≠ none) ∧
    (old ≠ some p.sha256 → s.blobs.pending t p.sha256 ≠ none)

instance : Decidable (Settled s t p old) := inferInstanceAs (Decidable (_ ∧ _ ∧ _))

def Pc.commits : Pc Part Session Hash → Option (Presign Part Session Hash × Option Hash)
  | .ready p old _ _ => some (p, old)
  | _ => none

/-- If the step is the commit of a presign, it is a settled one. -/
def Undisturbed (s : State Tx Part Session Hash) : Action Tx Part Session Hash → Prop
  | .execute t => ∀ r ∈ (s.pc t).commits, Settled s t r.1 r.2
  | _ => True

instance decidableUndisturbed (s : State Tx Part Session Hash) :
    ∀ a, Decidable (Undisturbed s a)
  | .execute t => inferInstanceAs (Decidable (∀ r ∈ (s.pc t).commits, Settled s t r.1 r.2))
  | .presign _ _ => .isTrue trivial
  | .sweep _ _ _ _ => .isTrue trivial
  | .rollback _ => .isTrue trivial
  | .answer _ _ => .isTrue trivial

theorem mappings_zero (hc : Consistent s) {h : Hash} (hb : s.blobs.committed h = none) :
    mappings s h = 0 := by
  by_contra hne
  obtain ⟨k, _, hk⟩ := List.countP_pos_iff.mp (Nat.pos_of_ne_zero hne)
  obtain ⟨o, ho, hoh⟩ := (Option.any_eq_true _ _).mp hk
  exact hc.blob k o ho (of_decide_eq_true hoh ▸ hb)

/-- The mappings after the commit of a presign: one more to its hash, one less
to the hash it replaces. -/
theorem mappings_commit (hl : Local s t) (hpc : s.pc t = .ready p old stored new)
    (hold : (s.objects.committed p.partId).map AudioObject.sha256 = old)
    (c : Pc Part Session Hash) (h : Hash) :
    mappings (s.close t true c) h + (decide (old = some h)).toNat =
      mappings s h + (decide (p.sha256 = h)).toNat := by
  have hobj := hl.objects
  simp only [hpc, ObjectEffect, pointed] at hobj
  have hkey : p.partId ∈ s.objects.keys :=
    s.objects.listed_pending t p.partId (by simp [hobj])
  have hview : s.objects.view t p.partId = some ⟨p.sessionId, p.sha256⟩ :=
    view_of_pending (by simp [hobj])
  have hcount := commit_count (t := t) hkey (fun j hj => by simp [hobj, hj])
    (fun o => decide (o.sha256 = h))
  rw [hview] at hcount
  have hany : (s.objects.committed p.partId).any (fun o => decide (o.sha256 = h)) =
      decide (old = some h) := by
    rw [← hold]
    cases s.objects.committed p.partId <;> simp
  rw [hany] at hcount
  simpa [mappings, State.close, commit] using hcount

theorem close_committed_blob (s : State Tx Part Session Hash) (t : Tx)
    (c : Pc Part Session Hash) (h : Hash) :
    (s.close t true c).blobs.committed h = s.blobs.view t h := rfl

/-- What the commit of a settled presign leaves in the row of one blob. -/
theorem settled_row (hc : Consistent s) (hl : Local s t)
    (hpc : s.pc t = .ready p old stored new) (hs : Settled s t p old) (h : Hash) :
    s.blobs.view t h = s.blobs.committed h ∧ (old = some h ↔ p.sha256 = h) ∨
      (old = some h ∧ p.sha256 ≠ h ∧ ∃ b now, s.blobs.committed h = some b ∧
        s.blobs.view t h = some (dropRef now b)) ∨
      (old ≠ some h ∧ p.sha256 = h ∧ s.blobs.committed h = none ∧
        s.blobs.view t h = some (newBlob p.size)) ∨
      (old ≠ some h ∧ p.sha256 = h ∧ ∃ b, s.blobs.committed h = some b ∧
        s.blobs.view t h = some (addRef b)) := by
  have he := hl.blobs h
  simp only [hpc, BlobEffect] at he
  obtain (hn | ⟨ho, hne, b, now, hb, hp⟩) | ⟨hh, ⟨hcom, hp⟩ | ⟨ho, b, hb, hp⟩⟩ := he
  · refine Or.inl ⟨view_of_pending_none hn, fun ho => ?_, fun hh => ?_⟩
    · by_contra hne
      exact hs.2.1 h ho (Ne.symm hne) hn
    · by_contra ho
      exact hs.2.2 (hh ▸ ho) (hh ▸ hn)
  · exact Or.inr (Or.inl ⟨ho, Ne.symm hne, b, now, hb, view_of_pending hp⟩)
  · refine Or.inr (Or.inr (Or.inl ⟨fun ho => ?_, hh.symm, hcom, view_of_pending hp⟩))
    obtain ⟨o, hok, hoh⟩ := Option.map_eq_some_iff.mp (hs.1.trans ho)
    exact hc.blob p.partId o hok (hoh ▸ hcom)
  · exact Or.inr (Or.inr (Or.inr ⟨ho, hh.symm, b, hb, view_of_pending hp⟩))

/-- A mapping that is about to be replaced is counted. -/
theorem mappings_pos (hold : (s.objects.committed p.partId).map AudioObject.sha256 = old)
    {h : Hash} (ho : old = some h) : 0 < mappings s h := by
  obtain ⟨o, hok, hoh⟩ := Option.map_eq_some_iff.mp (hold.trans ho)
  exact count_pos hok (decide_eq_true hoh)

theorem presign_commit_consistent (hc : Consistent s) (hl : Local s t)
    (hpc : s.pc t = .ready p old stored new) (hs : Settled s t p old)
    (c : Pc Part Session Hash) : Consistent (s.close t true c) := by
  have hcount := mappings_commit hl hpc hs.1 c
  refine ⟨fun h b hb => ?_, fun h b hb => ?_, fun k o ho => ?_⟩
  · rw [close_committed_blob] at hb
    have hm := hcount h
    obtain ⟨hv, hiff⟩ | ⟨ho, hne, b', now, hb', hv⟩ | ⟨ho, hh, hb', hv⟩ | ⟨ho, hh, b', hb', hv⟩ :=
      settled_row hc hl hpc hs h
    · have hr := hc.refcount h b (hv ▸ hb)
      simp only [hiff] at hm
      omega
    · have hr := hc.refcount h b' hb'
      have hpos := mappings_pos hs.1 ho
      cases hv.symm.trans hb
      simp only [ho, hne, decide_true, decide_false, Bool.toNat_true, Bool.toNat_false] at hm
      simp only [dropRef]
      omega
    · have hz := mappings_zero hc hb'
      cases hv.symm.trans hb
      simp only [ho, hh, decide_true, decide_false, Bool.toNat_true, Bool.toNat_false] at hm
      simp only [newBlob]
      omega
    · have hr := hc.refcount h b' hb'
      cases hv.symm.trans hb
      simp only [ho, hh, decide_true, decide_false, Bool.toNat_true, Bool.toNat_false] at hm
      simp only [addRef]
      omega
  · rw [close_committed_blob] at hb
    obtain ⟨hv, _⟩ | ⟨ho, _, b', now, hb', hv⟩ | ⟨_, _, _, hv⟩ | ⟨_, _, b', hb', hv⟩ :=
      settled_row hc hl hpc hs h
    · exact hc.released h b (hv ▸ hb)
    · have hr := hc.refcount h b' hb'
      have hrel := hc.released h b' hb'
      have hpos := mappings_pos hs.1 ho
      cases hv.symm.trans hb
      have hnone : b'.releasedAt = none := by
        by_contra hne
        have := hrel.mp hne
        omega
      simp only [dropRef, hnone, and_true]
      split <;> simp <;> omega
    · cases hv.symm.trans hb
      simp [newBlob]
    · have hr := hc.refcount h b' hb'
      cases hv.symm.trans hb
      simp only [addRef, ne_eq, not_true_eq_false, false_iff]
      omega
  · have hview : s.objects.view t k = some o := ho
    rw [close_committed_blob]
    have hobj := hl.objects k
    simp only [hpc, ObjectEffect, pointed] at hobj
    have hrow : s.blobs.committed o.sha256 ≠ none ∨ p.sha256 = o.sha256 := by
      by_cases hk : k = p.partId
      · rw [if_pos hk] at hobj
        rw [view_of_pending hobj] at hview
        cases hview
        exact Or.inr rfl
      · rw [if_neg hk] at hobj
        rw [view_of_pending_none hobj] at hview
        exact Or.inl (hc.blob k o hview)
    obtain ⟨hv, hiff⟩ | ⟨_, _, _, _, _, hv⟩ | ⟨_, _, _, hv⟩ | ⟨_, _, _, _, hv⟩ :=
      settled_row hc hl hpc hs o.sha256
    · rw [hv]
      obtain hrow | hsha := hrow
      · exact hrow
      · obtain ⟨o', hok, hoh⟩ := Option.map_eq_some_iff.mp (hs.1.trans (hiff.mpr hsha))
        exact hoh ▸ hc.blob p.partId o' hok
    all_goals simp [hv]

theorem sweep_commit_consistent (hc : Consistent s) (hl : Local s t) (hpc : s.pc t = .swept)
    (c : Pc Part Session Hash) : Consistent (s.close t true c) := by
  have hblobs := hl.blobs
  have hobj := hl.objects
  simp only [hpc, BlobEffect, ObjectEffect] at hblobs hobj
  have hview : s.objects.view t = s.objects.committed :=
    funext fun k => view_of_pending_none (hobj k)
  have hmap : ∀ h, mappings (s.close t true c) h = mappings s h :=
    fun h => commit_count_of_none hobj _
  have hrow : ∀ h b, s.blobs.view t h = some b → s.blobs.committed h = some b := by
    intro h b hb
    obtain hn | ⟨_, _, _, hp⟩ := hblobs h
    · rwa [view_of_pending_none hn] at hb
    · rw [view_of_pending hp] at hb
      cases hb
  refine ⟨fun h b hb => ?_, fun h b hb => hc.released h b (hrow h b hb), fun k o ho => ?_⟩
  · rw [hmap h]
    exact hc.refcount h b (hrow h b hb)
  · have ho' : s.objects.committed k = some o := hview ▸ ho
    rw [close_committed_blob]
    obtain hn | ⟨b, hb, hle, _⟩ := hblobs o.sha256
    · rw [view_of_pending_none hn]
      exact hc.blob k o ho'
    · have hr := hc.refcount o.sha256 b hb
      have hpos : 0 < mappings s o.sha256 := count_pos ho' (by simp)
      omega

theorem statement_consistent (hc : Consistent s) (hst : Statement s t s') : Consistent s' := by
  have hb := hst.blobs.committed
  have hm : ∀ h, mappings s' h = mappings s h := fun h => hst.objects.count _
  refine ⟨fun h b hcom => ?_, fun h b hcom => ?_, fun k o ho => ?_⟩
  · rw [hm h]
    exact hc.refcount h b (hb ▸ hcom)
  · exact hc.released h b (hb ▸ hcom)
  · rw [hb]
    exact hc.blob k o (hst.objects.committed ▸ ho)

/-- The committed rows keep the refcount invariant, and every open transaction
has done to them what its place in the code says. -/
structure Invariant (s : State Tx Part Session Hash) : Prop where
  consistent : Consistent s
  local' : ∀ t, Local s t

theorem statement_invariant (hi : Invariant s) (hst : Statement s t s') (hl : Local s' t) :
    Invariant s' := by
  refine ⟨statement_consistent hi.consistent hst, fun u => ?_⟩
  by_cases hu : u = t
  · exact hu ▸ hl
  · obtain ⟨c, hpc⟩ := hst.pc
    exact local_of_isolated (hi.local' u) (hst.blobs.isolated hu) (hst.objects.isolated hu)
      (by rw [hpc, Function.update_of_ne hu])

theorem close_invariant (hi : Invariant s) (keep : Bool) (c : Pc Part Session Hash)
    (hc : Consistent (s.close t keep c)) (hb : ∀ h com, BlobEffect h none com c)
    (ho : ∀ k : Part, ObjectEffect k none c) : Invariant (s.close t keep c) := by
  refine ⟨hc, fun u => ?_⟩
  by_cases hu : u = t
  · exact hu ▸ local_close keep s t hb ho
  · exact local_of_isolated (hi.local' u) (close_isolated _ keep hu) (close_isolated _ keep hu)
      (Function.update_of_ne hu _ _)

theorem goto_invariant (hi : Invariant s) {c : Pc Part Session Hash}
    (hb : ∀ h pend com, BlobEffect h pend com (s.pc t) → BlobEffect h pend com c)
    (ho : ∀ k pend, ObjectEffect k pend (s.pc t) → ObjectEffect k pend c) :
    Invariant (s.goto t c) :=
  statement_invariant hi (goto_statement s t c)
    (local_goto (hi.local' t) (fun h => hb h _ _) (fun k => ho k _))

theorem isFree_effect {c : Pc Part Session Hash} (hf : c.isFree = true) :
    (∀ h pend com, BlobEffect h pend com c → pend = none) ∧
      ∀ k pend, ObjectEffect k pend c → pend = none := by
  cases c with
  | idle => exact ⟨fun _ _ _ he => he, fun _ _ he => he⟩
  | answered r => exact ⟨fun _ _ _ he => he, fun _ _ he => he⟩
  | _ => cases hf

theorem execute_invariant (hi : Invariant s) (hu : Undisturbed s (.execute t))
    (hs : execute s t = some s') : Invariant s' := by
  obtain hst | ⟨p, old, stored, new, hpc, rfl⟩ | ⟨hpc, rfl⟩ := execute_shape hs
  · exact statement_invariant hi hst (execute_local hs (hi.local' t))
  · exact close_invariant hi true _
      (presign_commit_consistent hi.consistent (hi.local' t) hpc (hu (p, old) (by simp [hpc, Pc.commits])) _)
      (fun _ _ => rfl) (fun _ => rfl)
  · exact close_invariant hi true _ (sweep_commit_consistent hi.consistent (hi.local' t) hpc _)
      (fun _ _ => rfl) (fun _ => rfl)

theorem step_invariant (s : State Tx Part Session Hash) (a : Action Tx Part Session Hash)
    (s' : State Tx Part Session Hash) (hi : Invariant s) (hu : Undisturbed s a)
    (hs : step s a = some s') : Invariant s' := by
  cases a with
  | presign t p =>
    obtain ⟨hf, rfl⟩ := by simpa [step] using hs
    obtain ⟨hb, ho⟩ := isFree_effect hf
    exact goto_invariant hi hb ho
  | sweep t hash size cutoff =>
    obtain ⟨hf, rfl⟩ := by simpa [step] using hs
    obtain ⟨hb, ho⟩ := isFree_effect hf
    exact goto_invariant hi hb ho
  | execute t => exact execute_invariant hi hu hs
  | rollback t =>
    obtain ⟨_, rfl⟩ := by simpa [step] using hs
    refine close_invariant hi false _ ⟨?_, ?_, ?_⟩ (fun _ _ => rfl) (fun _ => rfl)
    · exact hi.consistent.refcount
    · exact hi.consistent.released
    · exact hi.consistent.blob
  | answer t present =>
    simp only [step] at hs
    split at hs
    · rename_i hpc
      cases hs
      refine goto_invariant hi ?_ ?_
      · simp only [hpc, BlobEffect, imp_self, implies_true]
      · simp only [hpc, ObjectEffect, imp_self, implies_true]
    · cases hs

theorem empty_invariant : Invariant (State.empty : State Tx Part Session Hash) := by
  refine ⟨⟨?_, ?_, ?_⟩, fun t => ⟨fun h => rfl, fun k => rfl⟩⟩
  · intro h b hb
    cases hb
  · intro h b hb
    cases hb
  · intro k o ho
    cases ho

/-- In every run whose presigns commit undisturbed, the refcounts of the
committed rows are the numbers of mappings at every moment. -/
theorem refcount_mappings (as : List (Action Tx Part Session Hash))
    (hu : Runs.Along step (fun s a _ => Undisturbed s a) State.empty as)
    (hs : Runs.exec step State.empty as = some s) : Consistent s :=
  (Runs.exec_invariant_along (fun s a t hi hg => step_invariant s a t hi hg) empty_invariant
    hu hs).consistent

section Schedules

def presignOf (part hash : Nat) : Presign Nat Nat Nat :=
  ⟨⟨hash, 10, part, 0⟩, TenantLimits.unlimited, "", 0⟩

def statements (t : Fin 2) (n : Nat) : List (Action (Fin 2) Nat Nat Nat) :=
  List.replicate n (.execute t)

def wholePresign (t : Fin 2) (part hash n : Nat) : List (Action (Fin 2) Nat Nat Nat) :=
  .presign t (presignOf part hash) :: statements t n ++ [.answer t true]

/-- Two parts of one blob, the second repointed from another blob that the
sweep then deletes, with the two presigns of the shared blob overlapping. -/
def overlapping : List (Action (Fin 2) Nat Nat Nat) :=
  wholePresign 0 1 10 9 ++ wholePresign 0 2 20 9 ++
    [.presign 0 (presignOf 2 10), .presign 1 (presignOf 3 10)] ++ statements 0 2 ++
    statements 1 4 ++ statements 0 2 ++ statements 1 2 ++ statements 0 2 ++
    [.answer 1 true, .sweep 1 20 10 1] ++ statements 1 3

theorem refcount_mappings_overlapping :
    ∃ s : State (Fin 2) Nat Nat Nat, Runs.exec step State.empty overlapping = some s ∧
      (s.blobs.committed 10 = some ⟨10, 3, none⟩ ∧ s.blobs.committed 20 = none) ∧
      Consistent s := by
  obtain ⟨s, hs, hrows⟩ := Runs.exec_evaluates
    (P := fun s : State (Fin 2) Nat Nat Nat =>
      s.blobs.committed 10 = some ⟨10, 3, none⟩ ∧ s.blobs.committed 20 = none)
    (by decide +kernel : (Runs.exec step State.empty overlapping).any _ = true)
  exact ⟨s, hs, hrows, refcount_mappings overlapping (by decide +kernel) hs⟩

/-- Two presigns repoint part 1 away from blob 10, both after reading that it
maps there, so blob 10 loses two references and the sweep deletes it under part 2. -/
def staleRepoints : List (Action (Fin 2) Nat Nat Nat) :=
  wholePresign 0 1 10 9 ++ wholePresign 0 2 10 6 ++
    [.presign 0 (presignOf 1 11), .presign 1 (presignOf 1 12)] ++ statements 0 2 ++
    statements 1 2 ++ statements 0 7 ++ statements 1 7 ++
    [.answer 0 false, .sweep 0 10 10 1] ++ statements 0 3

theorem staleRepoints_inconsistent :
    ¬ ∀ (as : List (Action (Fin 2) Nat Nat Nat)) (s : State (Fin 2) Nat Nat Nat),
      Runs.exec step State.empty as = some s → (∀ t, (s.pc t).isOpen = false) →
        Consistent s := by
  intro hall
  obtain ⟨s, hs, hopen, hpart, hblob⟩ := Runs.exec_evaluates
    (P := fun s : State (Fin 2) Nat Nat Nat => (∀ t, (s.pc t).isOpen = false) ∧
      s.objects.committed 2 = some ⟨0, 10⟩ ∧ s.blobs.committed 10 = none)
    (by decide +kernel : (Runs.exec step State.empty staleRepoints).any _ = true)
  exact (hall staleRepoints s hs hopen).blob 2 ⟨0, 10⟩ hpart hblob

end Schedules

end YapStack.Relay.Audio
