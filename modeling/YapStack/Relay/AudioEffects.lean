import YapStack.Relay.Audio

set_option linter.unusedSectionVars false

namespace YapStack.Relay.Audio

open Choke Table

section Shape

variable {Tx Part Session Hash : Type*} [DecidableEq Tx] [DecidableEq Part] [DecidableEq Hash]
variable {s s' : State Tx Part Session Hash} {t u : Tx} {p : Presign Part Session Hash}
variable {blob : Option Int} {old : Option Hash} {size : Nat}

/-- One statement of `t`: at most one row of each table, and `t` moves on. -/
structure Statement (s : State Tx Part Session Hash) (t : Tx) (s' : State Tx Part Session Hash) :
    Prop where
  blobs : Touched t s.blobs s'.blobs
  objects : Touched t s.objects s'.objects
  pc : ∃ c, s'.pc = Function.update s.pc t c

theorem goto_statement (s : State Tx Part Session Hash) (t : Tx) (c : Pc Part Session Hash) :
    Statement s t (s.goto t c) :=
  ⟨.none, .none, c, rfl⟩

theorem releaseOld_cases (h : releaseOld s t p blob old = some s') :
    s' = s.goto t (.released p blob old) ∧ (∀ oh, old = some oh → oh = p.sha256) ∨
      ∃ oh blobs, old = some oh ∧ oh ≠ p.sha256 ∧
        s.blobs.modify t oh (fun _ => true) (fun b => some (dropRef p.now b)) = some blobs ∧
        s' = { s with blobs := blobs }.goto t (.released p blob old) := by
  unfold releaseOld at h
  split at h
  · exact Or.inl ⟨(Option.some.inj h).symm, by simp⟩
  · rename_i oh
    split at h
    · rename_i heq
      exact Or.inl ⟨(Option.some.inj h).symm, fun _ ho => Option.some.inj ho ▸ heq⟩
    · rename_i hne
      obtain ⟨blobs, hm, rfl⟩ := Option.map_eq_some_iff.mp h
      exact Or.inr ⟨oh, blobs, rfl, hne, hm, rfl⟩

theorem reference_cases (h : reference s t p old size = some s') :
    s' = s.goto t (.ready p old size false) ∧ old = some p.sha256 ∨
      ∃ blobs, old ≠ some p.sha256 ∧
        s.blobs.modify t p.sha256 (fun _ => true) (fun b => some (addRef b)) = some blobs ∧
        s' = { s with blobs := blobs }.goto t (.ready p old size false) := by
  unfold reference at h
  split at h
  · rename_i heq
    exact Or.inl ⟨(Option.some.inj h).symm, heq⟩
  · rename_i hne
    obtain ⟨blobs, hm, rfl⟩ := Option.map_eq_some_iff.mp h
    exact Or.inr ⟨blobs, hne, hm, rfl⟩

theorem insertBlob_cases (h : insertBlob s t p old = some s') :
    ∃ blobs new, s.blobs.insertIgnore t p.sha256 (newBlob p.size) = some (blobs, new) ∧
      s' = { s with blobs := blobs }.goto t (if new then .admitting p old .ensure else .conflicted p old) := by
  obtain ⟨⟨blobs, new⟩, hi, rfl⟩ := Option.map_eq_some_iff.mp h
  exact ⟨blobs, new, hi, rfl⟩

theorem pointPart_cases (h : pointPart s t p blob old = some s') :
    ∃ objects, s.objects.write t p.partId (some ⟨p.sessionId, p.sha256⟩) = some objects ∧
      s' = { s with objects := objects }.goto t (.mapped p blob old) := by
  obtain ⟨objects, hw, rfl⟩ := Option.map_eq_some_iff.mp h
  exact ⟨objects, hw, rfl⟩

/-- The statements on `tenant_usage` leave the blobs and the mappings alone. -/
def OnlyUsage (s : State Tx Part Session Hash) (t : Tx) (c : Pc Part Session Hash)
    (s' : State Tx Part Session Hash) : Prop :=
  ∃ usage, s' = { s with usage := usage }.goto t c

theorem admitBytes_cases {stage : Stage} (h : admitBytes s t p old stage = some s') :
    (∃ stage', OnlyUsage s t (.admitting p old stage') s') ∨
      OnlyUsage s t (.ready p old p.size true) s' ∨ ∃ r, OnlyUsage s t (.refused p r) s' := by
  obtain ⟨⟨usage, verdict⟩, _, rfl⟩ := Option.map_eq_some_iff.mp h
  cases verdict with
  | next stage' => exact Or.inl ⟨stage', usage, rfl⟩
  | admitted => exact Or.inr (Or.inl ⟨usage, rfl⟩)
  | refused r => exact Or.inr (Or.inr ⟨r, usage, rfl⟩)

theorem deleteBlob_cases {hash : Hash} {bytes cutoff : Int}
    (h : deleteBlob s t hash bytes cutoff = some s') :
    s' = s.goto t .swept ∨ ∃ blobs,
      s.blobs.modify t hash (releasedBefore cutoff) (fun _ => none) = some blobs ∧
      s' = { s with blobs := blobs }.goto t (.reclaiming bytes) := by
  unfold deleteBlob at h
  split at h
  · obtain ⟨blobs, hm, rfl⟩ := Option.map_eq_some_iff.mp h
    exact Or.inr ⟨blobs, hm, rfl⟩
  · exact Or.inl (Option.some.inj h).symm

theorem reclaimBytes_cases {bytes : Int} (h : reclaimBytes s t bytes = some s') :
    OnlyUsage s t .swept s' := by
  obtain ⟨usage, _, rfl⟩ := Option.map_eq_some_iff.mp h
  exact ⟨usage, rfl⟩

theorem OnlyUsage.statement {c : Pc Part Session Hash} (h : OnlyUsage s t c s') :
    Statement s t s' := by
  obtain ⟨usage, rfl⟩ := h
  exact ⟨.none, .none, c, rfl⟩

theorem blobs_statement {blobs : Table Tx Hash Blob} (h : Touched t s.blobs blobs)
    (c : Pc Part Session Hash) : Statement s t ({ s with blobs := blobs }.goto t c) :=
  ⟨h, .none, c, rfl⟩

/-- Every step but a commit or a rollback is one statement. -/
theorem execute_shape (h : execute s t = some s') :
    Statement s t s' ∨
      (∃ p old stored new, s.pc t = .ready p old stored new ∧
        s' = s.close t true (.committed p stored new)) ∨
      s.pc t = .swept ∧ s' = s.close t true .idle := by
  unfold execute at h
  cases hpc : s.pc t <;> simp only [hpc] at h
  case idle | refused | committed | answered => cases h
  case begun | blobRead | conflicted =>
    cases h
    exact Or.inl (goto_statement s t _)
  case mappingRead =>
    obtain ⟨rfl, _⟩ | ⟨_, _, _, _, hm, rfl⟩ := releaseOld_cases h
    · exact Or.inl (goto_statement s t _)
    · exact Or.inl (blobs_statement (modify_touched hm) _)
  case released =>
    obtain ⟨objects, hw, rfl⟩ := pointPart_cases h
    exact Or.inl ⟨.none, .row _ _ hw, _, rfl⟩
  case mapped p blob old =>
    cases blob with
    | none =>
      obtain ⟨blobs, new, hi, rfl⟩ := insertBlob_cases h
      exact Or.inl (blobs_statement (insertIgnore_touched hi) _)
    | some bytes =>
      obtain ⟨rfl, _⟩ | ⟨_, _, hm, rfl⟩ := reference_cases h
      · exact Or.inl (goto_statement s t _)
      · exact Or.inl (blobs_statement (modify_touched hm) _)
  case reread =>
    obtain ⟨rfl, _⟩ | ⟨_, _, hm, rfl⟩ := reference_cases h
    · exact Or.inl (goto_statement s t _)
    · exact Or.inl (blobs_statement (modify_touched hm) _)
  case admitting =>
    obtain ⟨_, hu⟩ | hu | ⟨_, hu⟩ := admitBytes_cases h <;> exact Or.inl hu.statement
  case ready p old stored new =>
    cases h
    exact Or.inr (Or.inl ⟨p, old, stored, new, rfl, rfl⟩)
  case deleting =>
    obtain rfl | ⟨_, hm, rfl⟩ := deleteBlob_cases h
    · exact Or.inl (goto_statement s t _)
    · exact Or.inl (blobs_statement (modify_touched hm) _)
  case reclaiming => exact Or.inl (reclaimBytes_cases h).statement
  case swept =>
    cases h
    exact Or.inr (Or.inr ⟨rfl, rfl⟩)

end Shape

section Effects

variable {Tx Part Session Hash : Type*} [DecidableEq Tx] [DecidableEq Part] [DecidableEq Hash]
variable {s s' : State Tx Part Session Hash} {t u : Tx} {p : Presign Part Session Hash}
variable {blob : Option Int} {old : Option Hash} {size : Nat} {h : Hash}
variable {pend : Option (Option Blob)} {com : Option Blob}

def Dropped (pend : Option (Option Blob)) (com : Option Blob) : Prop :=
  ∃ b now, com = some b ∧ pend = some (some (dropRef now b))

def Created (size : Nat) (pend : Option (Option Blob)) (com : Option Blob) : Prop :=
  com = none ∧ pend = some (some (newBlob size))

def Referenced (pend : Option (Option Blob)) (com : Option Blob) : Prop :=
  ∃ b, com = some b ∧ pend = some (some (addRef b))

def Deleted (pend : Option (Option Blob)) (com : Option Blob) : Prop :=
  ∃ b, com = some b ∧ b.refcount ≤ 0 ∧ pend = some none

/-- What a presign may have done to a blob other than the one it presigns. -/
def OldEffect (p : Presign Part Session Hash) (old : Option Hash) (h : Hash)
    (pend : Option (Option Blob)) (com : Option Blob) : Prop :=
  pend = none ∨ old = some h ∧ h ≠ p.sha256 ∧ Dropped pend com

/-- What an open transaction has done to the row of one blob. -/
def BlobEffect (h : Hash) (pend : Option (Option Blob)) (com : Option Blob) :
    Pc Part Session Hash → Prop
  | .released p _ old => OldEffect p old h pend com
  | .mapped p _ old => OldEffect p old h pend com
  | .conflicted p old => OldEffect p old h pend com
  | .reread p old _ => OldEffect p old h pend com
  | .admitting p old _ =>
    if h = p.sha256 then Created p.size pend com else OldEffect p old h pend com
  | .ready p old _ _ =>
    OldEffect p old h pend com ∨
      h = p.sha256 ∧ (Created p.size pend com ∨ old ≠ some h ∧ Referenced pend com)
  | .refused _ _ => True
  | .reclaiming _ => pend = none ∨ Deleted pend com
  | .swept => pend = none ∨ Deleted pend com
  | _ => pend = none

def pointed (p : Presign Part Session Hash) (k : Part) : Option (Option (AudioObject Session Hash)) :=
  if k = p.partId then some (some ⟨p.sessionId, p.sha256⟩) else none

/-- What an open transaction has done to the mapping of one part. -/
def ObjectEffect (k : Part) (pend : Option (Option (AudioObject Session Hash))) :
    Pc Part Session Hash → Prop
  | .mapped p _ _ => pend = pointed p k
  | .conflicted p _ => pend = pointed p k
  | .reread p _ _ => pend = pointed p k
  | .admitting p _ _ => pend = pointed p k
  | .ready p _ _ _ => pend = pointed p k
  | .refused _ _ => True
  | _ => pend = none

structure Local (s : State Tx Part Session Hash) (t : Tx) : Prop where
  blobs : ∀ h, BlobEffect h (s.blobs.pending t h) (s.blobs.committed h) (s.pc t)
  objects : ∀ k, ObjectEffect k (s.objects.pending t k) (s.pc t)

theorem OldEffect.of_none (p : Presign Part Session Hash) (old : Option Hash) (h : Hash)
    (com : Option Blob) : OldEffect p old h none com :=
  Or.inl rfl

/-- On a row that the transaction has not written, its effect reads nothing. -/
theorem blobEffect_none (c : Pc Part Session Hash) (com' : Option Blob)
    (he : BlobEffect h none com c) : BlobEffect h none com' c := by
  have hc : ∀ size, ¬ Created size none com := by
    rintro size ⟨_, hp⟩
    cases hp
  cases c <;> simp only [BlobEffect] at he ⊢
  case released | mapped | conflicted | reread => exact OldEffect.of_none _ _ _ _
  case admitting =>
    split at he
    · exact absurd he (hc _)
    · rename_i hne
      exact if_neg hne ▸ OldEffect.of_none _ _ _ _
  case ready => exact Or.inl (OldEffect.of_none _ _ _ _)
  case reclaiming | swept => exact Or.inl trivial

/-- The steps of the other transactions do not change what `t` has done. -/
theorem local_of_isolated (hl : Local s t) (hb : Isolated t s.blobs s'.blobs)
    (ho : Isolated t s.objects s'.objects) (hpc : s'.pc t = s.pc t) : Local s' t := by
  refine ⟨fun h => ?_, fun k => ?_⟩
  · rw [hpc, hb.pending]
    have he := hl.blobs h
    by_cases hp : s.blobs.pending t h = none
    · rw [hp] at he ⊢
      exact blobEffect_none _ _ he
    · rw [hb.committed h (Or.inl (s.blobs.owned t h hp))]
      exact he
  · rw [hpc, ho.pending]
    exact hl.objects k

theorem local_goto {c : Pc Part Session Hash} (hl : Local s t)
    (hb : ∀ h, BlobEffect h (s.blobs.pending t h) (s.blobs.committed h) (s.pc t) →
      BlobEffect h (s.blobs.pending t h) (s.blobs.committed h) c)
    (ho : ∀ k, ObjectEffect k (s.objects.pending t k) (s.pc t) →
      ObjectEffect k (s.objects.pending t k) c) : Local (s.goto t c) t := by
  refine ⟨fun h => ?_, fun k => ?_⟩
  · simpa [State.goto] using hb h (hl.blobs h)
  · simpa [State.goto] using ho k (hl.objects k)

theorem local_usage {c : Pc Part Session Hash} (hu : OnlyUsage s t c s') (hl : Local s t)
    (hb : ∀ h, BlobEffect h (s.blobs.pending t h) (s.blobs.committed h) (s.pc t) →
      BlobEffect h (s.blobs.pending t h) (s.blobs.committed h) c)
    (ho : ∀ k, ObjectEffect k (s.objects.pending t k) (s.pc t) →
      ObjectEffect k (s.objects.pending t k) c) : Local s' t := by
  obtain ⟨usage, rfl⟩ := hu
  exact local_goto (s := { s with usage := usage }) ⟨hl.blobs, hl.objects⟩ hb ho

theorem local_write {c : Pc Part Session Hash} {blobs : Table Tx Hash Blob} {k : Hash}
    {v : Option Blob} (hw : s.blobs.write t k v = some blobs) (hl : Local s t)
    (hk : BlobEffect k (some v) (s.blobs.committed k) c)
    (hb : ∀ h, h ≠ k → BlobEffect h (s.blobs.pending t h) (s.blobs.committed h) (s.pc t) →
      BlobEffect h (s.blobs.pending t h) (s.blobs.committed h) c)
    (ho : ∀ k, ObjectEffect k (s.objects.pending t k) (s.pc t) →
      ObjectEffect k (s.objects.pending t k) c) :
    Local ({ s with blobs := blobs }.goto t c) t := by
  refine ⟨fun h => ?_, fun k => ?_⟩
  · by_cases hh : h = k
    · subst h
      simpa [State.goto, write_pending hw, write_committed hw] using hk
    · simpa [State.goto, write_pending hw, write_committed hw, hh] using hb h hh (hl.blobs h)
  · simpa [State.goto] using ho k (hl.objects k)

theorem local_modify {c : Pc Part Session Hash} {blobs : Table Tx Hash Blob} {k : Hash}
    {q : Blob → Bool} {f : Blob → Option Blob} (hm : s.blobs.modify t k q f = some blobs)
    (hl : Local s t) (hp : s.blobs.pending t k = none)
    (hk : ∀ b, s.blobs.committed k = some b → q b = true →
      BlobEffect k (some (f b)) (s.blobs.committed k) c)
    (hb : ∀ h, BlobEffect h (s.blobs.pending t h) (s.blobs.committed h) (s.pc t) →
      BlobEffect h (s.blobs.pending t h) (s.blobs.committed h) c)
    (ho : ∀ k, ObjectEffect k (s.objects.pending t k) (s.pc t) →
      ObjectEffect k (s.objects.pending t k) c) :
    Local ({ s with blobs := blobs }.goto t c) t := by
  obtain rfl | ⟨b, hv, hq, hw⟩ := modify_cases hm
  · exact local_goto hl hb ho
  · rw [view_of_pending_none hp] at hv
    exact local_write hw hl (hk b hv hq) (fun h _ => hb h) ho

theorem releaseOld_local (hs : releaseOld s t p blob old = some s') (hl : Local s t)
    (hpc : s.pc t = .mappingRead p blob old) : Local s' t := by
  have hnone : ∀ h, s.blobs.pending t h = none := by
    simpa only [hpc, BlobEffect] using hl.blobs
  have hb : ∀ h, BlobEffect h (s.blobs.pending t h) (s.blobs.committed h) (s.pc t) →
      BlobEffect h (s.blobs.pending t h) (s.blobs.committed h) (.released p blob old) :=
    fun h _ => Or.inl (hnone h)
  have ho : ∀ k, ObjectEffect k (s.objects.pending t k) (s.pc t) →
      ObjectEffect k (s.objects.pending t k) (.released p blob old) := by
    simp only [hpc, ObjectEffect, imp_self, implies_true]
  obtain ⟨rfl, _⟩ | ⟨oh, blobs, rfl, hne, hm, rfl⟩ := releaseOld_cases hs
  · exact local_goto hl hb ho
  · refine local_modify hm hl (hnone oh) (fun b hc _ => ?_) hb ho
    exact Or.inr ⟨rfl, hne, b, p.now, hc, rfl⟩

theorem pointPart_local (hs : pointPart s t p blob old = some s') (hl : Local s t)
    (hpc : s.pc t = .released p blob old) : Local s' t := by
  obtain ⟨objects, hw, rfl⟩ := pointPart_cases hs
  have hnone : ∀ k, s.objects.pending t k = none := by
    simpa only [hpc, ObjectEffect] using hl.objects
  refine ⟨fun h => ?_, fun k => ?_⟩
  · have he := hl.blobs h
    simpa only [State.goto, Function.update_self, hpc, BlobEffect] using he
  · by_cases hk : k = p.partId
    · subst k
      simp [State.goto, ObjectEffect, pointed, write_pending hw]
    · simp [State.goto, ObjectEffect, pointed, write_pending hw, hk, hnone k]

/-- The new blob's row has not been written before `add_ref` or the insert. -/
theorem pending_sha_none (he : OldEffect p old p.sha256 pend com) : pend = none := by
  obtain hn | ⟨_, hne, _⟩ := he
  · exact hn
  · exact absurd rfl hne

theorem reference_local (hs : reference s t p old size = some s') (hl : Local s t)
    (hb : ∀ h, OldEffect p old h (s.blobs.pending t h) (s.blobs.committed h))
    (ho : ∀ k, s.objects.pending t k = pointed p k) : Local s' t := by
  have hb' : ∀ h, BlobEffect h (s.blobs.pending t h) (s.blobs.committed h) (s.pc t) →
      BlobEffect h (s.blobs.pending t h) (s.blobs.committed h) (.ready p old size false) :=
    fun h _ => Or.inl (hb h)
  have ho' : ∀ k, ObjectEffect k (s.objects.pending t k) (s.pc t) →
      ObjectEffect k (s.objects.pending t k) (.ready p old size false) := fun k _ => ho k
  obtain ⟨rfl, _⟩ | ⟨blobs, hne, hm, rfl⟩ := reference_cases hs
  · exact local_goto hl hb' ho'
  · refine local_modify hm hl (pending_sha_none (hb p.sha256)) (fun b hc _ => ?_) hb' ho'
    exact Or.inr ⟨rfl, Or.inr ⟨hne, b, hc, rfl⟩⟩

theorem insertBlob_local (hs : insertBlob s t p old = some s') (hl : Local s t)
    (hpc : s.pc t = .mapped p none old) : Local s' t := by
  have hb : ∀ h, OldEffect p old h (s.blobs.pending t h) (s.blobs.committed h) := by
    simpa only [hpc, BlobEffect] using hl.blobs
  have ho : ∀ k, s.objects.pending t k = pointed p k := by
    simpa only [hpc, ObjectEffect] using hl.objects
  obtain ⟨blobs, new, hi, rfl⟩ := insertBlob_cases hs
  obtain ⟨rfl, rfl, _⟩ | ⟨rfl, hv, hw⟩ := insertIgnore_cases hi
  · exact local_goto hl (fun h _ => hb h) (fun k _ => ho k)
  · have hp := pending_sha_none (hb p.sha256)
    rw [view_of_pending_none hp] at hv
    refine local_write hw hl ?_ (fun h hne _ => ?_) (fun k _ => ho k)
    · simp only [if_true, BlobEffect]
      exact ⟨hv, rfl⟩
    · simp only [if_true, BlobEffect, if_neg hne]
      exact hb h

theorem deleteBlob_local {hash : Hash} {bytes cutoff : Int}
    (hs : deleteBlob s t hash bytes cutoff = some s') (hl : Local s t)
    (hpc : s.pc t = .deleting hash bytes cutoff) : Local s' t := by
  have hnone : ∀ h, s.blobs.pending t h = none := by
    simpa only [hpc, BlobEffect] using hl.blobs
  have ho : ∀ k, s.objects.pending t k = none := by
    simpa only [hpc, ObjectEffect] using hl.objects
  obtain rfl | ⟨blobs, hm, rfl⟩ := deleteBlob_cases hs
  · exact local_goto hl (fun h _ => Or.inl (hnone h)) (fun k _ => ho k)
  · refine local_modify hm hl (hnone hash) (fun b hc hq => ?_) (fun h _ => Or.inl (hnone h))
      (fun k _ => ho k)
    simp only [releasedBefore, Bool.and_eq_true, decide_eq_true_eq] at hq
    exact Or.inr ⟨b, hc, hq.1, rfl⟩

theorem local_close (keep : Bool) (s : State Tx Part Session Hash) (t : Tx)
    {c : Pc Part Session Hash} (hb : ∀ h com, BlobEffect h none com c)
    (ho : ∀ k : Part, ObjectEffect k none c) : Local (s.close t keep c) t := by
  refine ⟨fun h => ?_, fun k => ?_⟩
  · simpa [State.close, close_pending] using hb h _
  · simpa [State.close, close_pending] using ho k

theorem execute_local (hs : execute s t = some s') (hl : Local s t) : Local s' t := by
  have hlb := hl.blobs
  have hlo := hl.objects
  unfold execute at hs
  cases hpc : s.pc t <;> simp only [hpc] at hs hlb hlo
  case idle | refused | committed | answered => cases hs
  case begun | blobRead =>
    cases hs
    exact local_goto hl (fun h _ => hlb h) (fun k _ => hlo k)
  case mappingRead => exact releaseOld_local hs hl hpc
  case released => exact pointPart_local hs hl hpc
  case mapped p blob old =>
    cases blob with
    | none => exact insertBlob_local hs hl hpc
    | some bytes => exact reference_local hs hl hlb hlo
  case conflicted =>
    cases hs
    exact local_goto hl (fun h _ => hlb h) (fun k _ => hlo k)
  case reread => exact reference_local hs hl hlb hlo
  case admitting p old stage =>
    obtain ⟨_, hu⟩ | hu | ⟨_, hu⟩ := admitBytes_cases hs
    · exact local_usage hu hl (fun h _ => hlb h) (fun k _ => hlo k)
    · refine local_usage hu hl (fun h _ => ?_) (fun k _ => hlo k)
      have he := hlb h
      simp only [BlobEffect] at he ⊢
      split at he
      · rename_i heq
        exact Or.inr ⟨heq, Or.inl he⟩
      · exact Or.inl he
    · exact local_usage hu hl (fun _ _ => trivial) (fun _ _ => trivial)
  case ready =>
    cases hs
    exact local_close true s t (fun _ _ => rfl) (fun _ => rfl)
  case deleting => exact deleteBlob_local hs hl hpc
  case reclaiming =>
    exact local_usage (reclaimBytes_cases hs) hl (fun h _ => hlb h) (fun k _ => hlo k)
  case swept =>
    cases hs
    exact local_close true s t (fun _ _ => rfl) (fun _ => rfl)

end Effects

end YapStack.Relay.Audio
