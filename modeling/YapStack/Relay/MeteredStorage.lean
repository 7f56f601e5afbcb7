import YapStack.Relay.Metering

set_option linter.unusedSectionVars false

namespace YapStack.Relay.Metering

open Choke Sequence Rows
open Audio (Blob addRef dropRef newBlob releasedBefore PresignQuery)
open Tenant (Snapshot SnapshotPresignRequest generation snapshotRow AppError)

variable {Req Sweep Client Part Session Hash : Type}
variable [DecidableEq Req] [DecidableEq Sweep]
variable [DecidableEq Client] [DecidableEq Part] [DecidableEq Hash]

def storage (usage : Option Usage) : Int := (usage.map Usage.storageBytes).getD 0

def changesetBytes (st : Store Client) : Int :=
  ((st.map (fun c => c.ciphertext.length)).sum : Nat)

/-- The bytes of all stored changesets, blobs and snapshots. -/
def Db.stored (db : Db Client Part Session Hash) : Int :=
  changesetBytes db.changesets + total (fun _ b => b.sizeBytes) db.blobs +
    total (fun _ r => r.sizeBytes) db.snapshots

section Choke

variable {usage : Option Usage} {i : Ingress} {u : Usage}

/-- What passing the choke point does to the counter of stored bytes. -/
structure Admitted (usage : Option Usage) (i : Ingress) (u : Usage) : Prop where
  added : u.storageBytes = storage usage + toI64 i.addedBytes
  within : ∀ n, i.limits.storageBytes = .max n → u.storageBytes ≤ toI64 n

theorem rolled_storageBytes (limits : TenantLimits) (u : Usage) :
    (rolled limits u).storageBytes = u.storageBytes := by
  unfold rolled
  split
  · rfl
  · split <;> rfl

theorem getD_storageBytes (usage : Option Usage) (now : Int) :
    (usage.getD (newUsage now)).storageBytes = storage usage := by
  cases usage <;> rfl

theorem admitUsage_ok (h : admitUsage usage i = .ok u) : Admitted usage i u := by
  simp only [admitUsage] at h
  split at h
  · cases h
  · split at h
    · cases h
    · split at h
      · rename_i hfits
        cases h
        refine ⟨?_, fun n hn => ?_⟩
        · simp only [reserve, rolled_storageBytes, getD_storageBytes]
        · exact reserve_within i.limits _ (toI64 n) _ (by rw [hn]; rfl) hfits
      · cases h

theorem Admitted.le (h : Admitted usage i u) {n : Nat} (hl : i.limits.storageBytes = .max n) :
    u.storageBytes ≤ n :=
  le_trans (h.within n hl) (min_le_left _ _)

end Choke

section Rows

variable {blobs blobs' : Rows Hash Blob} {now : Int}

/-- A blob row after a request: its size is the same, and it was not released before `now`
unless it already was. -/
def Aged (now : Int) (b b' : Blob) : Prop :=
  b'.sizeBytes = b.sizeBytes ∧ ∀ r ∈ b'.releasedAt, r < now → r ∈ b.releasedAt

/-- Every row was there before, or it is new and was not released before `now`. -/
def Kept (now : Int) (blobs blobs' : Rows Hash Blob) : Prop :=
  ∀ h b', blobs'.lookup h = some b' →
    (∃ b, blobs.lookup h = some b ∧ Aged now b b') ∨
      ((∀ r ∈ b'.releasedAt, now ≤ r) ∧ 0 ≤ b'.sizeBytes)

theorem aged_refl (now : Int) (b : Blob) : Aged now b b := ⟨rfl, fun _ hr _ => hr⟩

theorem addRef_aged (now : Int) (b : Blob) : Aged now b (addRef b) := ⟨rfl, by simp [addRef]⟩

theorem dropRef_aged (now : Int) (b : Blob) : Aged now b (dropRef now b) := by
  refine ⟨rfl, fun r hr hlt => ?_⟩
  simp only [dropRef] at hr
  split at hr
  · have hnow : now = r := Option.some.inj hr
    omega
  · exact hr

theorem kept_refl (now : Int) (blobs : Rows Hash Blob) : Kept now blobs blobs :=
  fun _ b hb => .inl ⟨b, hb, aged_refl now b⟩

theorem Kept.trans {blobs'' : Rows Hash Blob} (h : Kept now blobs blobs')
    (h' : Kept now blobs' blobs'') : Kept now blobs blobs'' := by
  intro k b'' hb''
  obtain ⟨b', hb', hsize, hrel⟩ | hnew := h' k b'' hb''
  · obtain ⟨b, hb, hsize', hrel'⟩ | ⟨hlate, hpos⟩ := h k b' hb'
    · exact .inl ⟨b, hb, hsize.trans hsize', fun r hr hlt => hrel' r (hrel r hr hlt) hlt⟩
    · refine .inr ⟨fun r hr => ?_, by omega⟩
      by_contra hlt
      exact hlt (hlate r (hrel r hr (by omega)))
  · exact .inr hnew

theorem modify_kept {g : Blob → Blob} (hg : ∀ b, Aged now b (g b)) (k : Hash) :
    Kept now blobs (blobs.modify k g) := by
  intro j b' hb'
  rw [lookup_modify] at hb'
  split at hb'
  · obtain ⟨b, hb, rfl⟩ := Option.map_eq_some_iff.mp hb'
    subst j
    exact .inl ⟨b, hb, hg b⟩
  · exact .inl ⟨b', hb', aged_refl now b'⟩

theorem insert_kept {b : Blob} (hb : b.releasedAt = none) (hpos : 0 ≤ b.sizeBytes) (k : Hash) :
    Kept now blobs (blobs.insert k b) := by
  intro j b' hb'
  by_cases hj : j = k
  · subst j
    rw [AList.lookup_insert, Option.some.injEq] at hb'
    subst b'
    exact .inr ⟨by simp [hb], hpos⟩
  · rw [AList.lookup_insert_ne hj] at hb'
    exact .inl ⟨b', hb', aged_refl now b'⟩

theorem erase_kept (k : Hash) : Kept now blobs (blobs.erase k) := by
  intro j b' hb'
  by_cases hj : j = k
  · subst j
    rw [AList.lookup_erase] at hb'
    cases hb'
  · rw [AList.lookup_erase_ne hj] at hb'
    exact .inl ⟨b', hb', aged_refl now b'⟩

end Rows

section Transactions

variable {db db' : Db Client Part Session Hash} {now : Int} {a : Account} {o : Outcome Client}
variable {q : PresignQuery Part Session Hash} {bytes : Nat}

theorem admitBytes_ok (h : admitBytes db now a bytes = .ok (db', o)) :
    ∃ u, Admitted db.usage (a.ingress bytes now) u ∧ db' = { db with usage := some u } ∧
      o = .admitted (a.ingress bytes now) := by
  simp only [admitBytes] at h
  split at h
  · cases h
  · rename_i u hu
    cases h
    exact ⟨u, admitUsage_ok hu, rfl, rfl⟩

theorem assign_addedBytes {ex : Existing Client} {n : Nat} {cs : List (PushChange Client)}
    {b : Assigned Client} (h : assign ex n cs = .ok b) :
    b.addedBytes ≤ (cs.map (fun e => e.ciphertext.length)).sum := by
  induction cs generalizing ex n b with
  | nil =>
    cases h
    simp [Assigned.addedBytes]
  | cons c cs ih =>
    simp only [assign] at h
    split at h
    · split at h
      · obtain ⟨b, hb, rfl⟩ := except_map_ok h
        have hle := ih hb
        simp only [Assigned.addedBytes, List.map_cons, List.sum_cons] at hle ⊢
        omega
      · cases h
    · obtain ⟨b, hb, rfl⟩ := except_map_ok h
      have hle := ih hb
      simp only [Assigned.addedBytes, List.map_cons, List.sum_cons] at hle ⊢
      omega

theorem changesetBytes_append (st more : Store Client) :
    changesetBytes (st ++ more) = changesetBytes st + changesetBytes more := by
  simp only [changesetBytes, List.map_append, List.sum_append]
  omega

theorem toI64_addedBytes {b : Assigned Client} (h : b.addedBytes ≤ Tenant.maxPushBytes) :
    toI64 b.addedBytes = changesetBytes (b.newRows.map Prod.snd) := by
  have heq : changesetBytes (b.newRows.map Prod.snd) = b.addedBytes := by
    simp only [changesetBytes, Assigned.addedBytes, List.map_map]
    rfl
  simp only [Tenant.maxPushBytes] at h
  rw [heq, toI64, i64Max]
  omega

/-- A push stores nothing, or it meters what it stores. -/
theorem push_ok {cs : List (PushChange Client)} (h : push db now a cs = .ok (db', o)) :
    (db' = db ∧ o = .unmetered) ∨
      ∃ i u more, i.limits = a.limits ∧ o = .admitted i ∧ Admitted db.usage i u ∧
        toI64 i.addedBytes = changesetBytes more ∧
        db' = { db with changesets := db.changesets ++ more, usage := some u } := by
  simp only [push] at h
  split at h
  · cases h
  · split at h
    · cases h
      exact .inl ⟨rfl, rfl⟩
    · split at h
      · cases h
      · rename_i hmax
        split at h
        · cases h
        · rename_i b hb
          split at h
          · cases h
            exact .inl ⟨rfl, rfl⟩
          · obtain ⟨⟨db₁, o₁⟩, hadm, heq⟩ := except_map_ok h
            obtain ⟨u, hu, rfl, rfl⟩ := admitBytes_ok hadm
            cases heq
            have hle := assign_addedBytes hb
            exact .inr ⟨_, u, b.newRows.map Prod.snd, rfl, rfl, hu, toI64_addedBytes (by omega),
              rfl⟩

theorem releaseOld_kept (db : Db Client Part Session Hash) (now : Int)
    (q : PresignQuery Part Session Hash) : Kept now db.blobs (releaseOld db now q) := by
  unfold releaseOld
  split
  · exact kept_refl now db.blobs
  · split
    · exact kept_refl now db.blobs
    · exact modify_kept (dropRef_aged now) _

theorem releaseOld_total (db : Db Client Part Session Hash) (now : Int)
    (q : PresignQuery Part Session Hash) :
    total (fun _ b => b.sizeBytes) (releaseOld db now q) =
      total (fun _ b => b.sizeBytes) db.blobs := by
  unfold releaseOld
  split
  · rfl
  · split
    · rfl
    · exact total_modify_of_eq (fun _ => rfl)

theorem releaseOld_lookup_none (now : Int) (h : db.blobs.lookup q.sha256 = none) :
    (releaseOld db now q).lookup q.sha256 = none := by
  unfold releaseOld
  split
  · exact h
  · split
    · exact h
    · rename_i hne
      rw [lookup_modify, if_neg (Ne.symm hne)]
      exact h

/-- What a presign does to the rows that are metered. -/
structure Presigned (now : Int) (a : Account) (db db' : Db Client Part Session Hash)
    (o : Outcome Client) : Prop where
  changesets : db'.changesets = db.changesets
  snapshots : db'.snapshots = db.snapshots
  blobs : Kept now db.blobs db'.blobs
  metered : (db'.usage = db.usage ∧ o = .unmetered ∧
      total (fun _ b => b.sizeBytes) db'.blobs = total (fun _ b => b.sizeBytes) db.blobs) ∨
    ∃ i u, i.limits = a.limits ∧ o = .admitted i ∧ Admitted db.usage i u ∧ db'.usage = some u ∧
      total (fun _ b => b.sizeBytes) db'.blobs =
        total (fun _ b => b.sizeBytes) db.blobs + toI64 i.addedBytes

theorem presignAudio_ok (h : presignAudio db now a q = .ok (db', o)) :
    Presigned now a db db' o := by
  simp only [presignAudio] at h
  split at h
  · split at h
    · cases h
      exact ⟨rfl, rfl, releaseOld_kept db now q, .inl ⟨rfl, rfl, releaseOld_total db now q⟩⟩
    · cases h
      refine ⟨rfl, rfl, (releaseOld_kept db now q).trans (modify_kept (addRef_aged now) _),
        .inl ⟨rfl, rfl, ?_⟩⟩
      exact (total_modify_of_eq (g := addRef) (fun _ => rfl)).trans (releaseOld_total db now q)
  · rename_i hnone
    obtain ⟨u, hu, rfl, rfl⟩ := admitBytes_ok h
    refine ⟨rfl, rfl, (releaseOld_kept db now q).trans (insert_kept rfl (toI64_nonneg _) _),
      .inr ⟨_, u, rfl, rfl, hu, rfl, ?_⟩⟩
    have htotal := total_insert_new (releaseOld_lookup_none now hnone)
      (f := fun _ (b : Blob) => b.sizeBytes) (v := newBlob q.size)
    rw [releaseOld_total] at htotal
    simp only [mapPart]
    rw [htotal, add_comm]
    rfl

theorem publish_ok {r : SnapshotPresignRequest Hash} (h : publish db now a r = .ok (db', o)) :
    ∃ i u, i.limits = a.limits ∧ i.addedBytes = r.size ∧ o = .admitted i ∧
      Admitted db.usage i u ∧
      db' = { db with
        snapshots := db.snapshots.insert (generation r) (snapshotRow r), usage := some u } := by
  obtain ⟨u, hu, rfl, rfl⟩ := admitBytes_ok h
  exact ⟨_, u, rfl, rfl, rfl, hu, rfl⟩

theorem repoint_ok {r : SnapshotPresignRequest Hash} {existingHash : Hash} {existingSize : Nat}
    (h : repoint db now a r existingHash existingSize = .ok (db', o)) :
    ∃ i u row, i.limits = a.limits ∧ i.addedBytes = repointDelta r existingSize ∧
      o = .admitted i ∧ Admitted db.usage i u ∧
      db.snapshots.lookup (generation r) = some row ∧ row.sha256 = existingHash ∧
      db' = { db with
        snapshots := db.snapshots.insert (generation r) (snapshotRow r), usage := some u } := by
  simp only [repoint] at h
  split at h
  · cases h
  · rename_i db₁ o₁ hadm
    obtain ⟨u, hu, rfl, rfl⟩ := admitBytes_ok hadm
    simp only at h
    split at h
    · cases h
    · rename_i row hrow
      split at h
      · rename_i hcas
        cases h
        exact ⟨_, u, row, rfl, rfl, rfl, hu, hrow, hcas, rfl⟩
      · cases h

theorem storage_reclaim (size : Int) (usage : Option Usage) :
    storage (usage.map (reclaim size)) = max 0 (storage usage - max size 0) ∨
      usage = none ∧ storage (usage.map (reclaim size)) = 0 := by
  cases usage with
  | none => exact .inr ⟨rfl, rfl⟩
  | some u => exact .inl rfl

theorem deleteRow_cases (db : Db Client Part Session Hash) (hash : Hash) (size cutoff : Int) :
    deleteRow db hash size cutoff = db ∨
      ∃ b, db.blobs.lookup hash = some b ∧ (∃ r ∈ b.releasedAt, r < cutoff) ∧
        deleteRow db hash size cutoff =
          { db with blobs := db.blobs.erase hash, usage := db.usage.map (reclaim size) } := by
  unfold deleteRow
  split
  · exact .inl rfl
  · rename_i b hb
    split
    · rename_i hrel
      simp only [releasedBefore, Bool.and_eq_true, Option.any_eq_true, decide_eq_true_eq] at hrel
      exact .inr ⟨b, hb, hrel.2, rfl⟩
    · exact .inl rfl

end Transactions

section Invariant

variable {s s' : State Req Sweep Client Part Session Hash}
variable {db' : Db Client Part Session Hash} {o : Outcome Client}
variable {act : Action Req Sweep Client Part Session Hash} {hw hw' : Int → Int}

def Presigning.request : Presigning Hash → SnapshotPresignRequest Hash
  | .found _ r _ _ => r
  | .repointing _ r _ _ => r

def Presigning.existingSize : Presigning Hash → Nat
  | .found _ _ _ size => size
  | .repointing _ _ _ size => size

/-- What the books of the relay say. `hw` is the most that each snapshot generation has
ever been: that much stays reserved. -/
structure Reserved (s : State Req Sweep Client Part Session Hash) (hw : Int → Int) : Prop where
  blobs : ∀ h b, s.db.blobs.lookup h = some b → 0 ≤ b.sizeBytes
  rows : ∀ g r, s.db.snapshots.lookup g = some r → 0 ≤ r.sizeBytes ∧ r.sizeBytes ≤ hw g
  presigns : ∀ t p, s.presigns t = some p →
    s.db.snapshots.lookup (generation p.request) ≠ none ∧
      (p.existingSize : Int) ≤ hw (generation p.request)
  listed : ∀ v rest cutoff, s.sweeps v = some (rest, cutoff) →
    cutoff ≤ s.clock ∧ ∀ e ∈ rest, ∀ b, s.db.blobs.lookup e.1 = some b →
      ∀ r ∈ b.releasedAt, r < cutoff → b.sizeBytes = e.2
  covered : changesetBytes s.db.changesets + total (fun _ b => b.sizeBytes) s.db.blobs +
    total (fun g _ => hw g) s.db.snapshots ≤ storage s.db.usage
  exact : s.repointed = false → storage s.db.usage = s.db.stored

theorem reserved_empty :
    Reserved (State.empty : State Req Sweep Client Part Session Hash) (fun _ => 0) := by
  refine ⟨?_, ?_, ?_, ?_, ?_, fun _ => rfl⟩
  · intro h b hb
    cases hb
  · intro g r hr
    cases hr
  · intro t p hp
    cases hp
  · intro v rest cutoff hv
    cases hv
  · exact le_refl 0

theorem Reserved.stored_le (h : Reserved s hw) : s.db.stored ≤ storage s.db.usage := by
  have hle : total (fun _ r => r.sizeBytes) s.db.snapshots ≤
      total (fun g _ => hw g) s.db.snapshots := total_le (fun g r hr => (h.rows g r hr).2)
  have hcov := h.covered
  unfold Db.stored
  omega

theorem changesetBytes_nonneg (st : Store Client) : 0 ≤ changesetBytes st := Int.natCast_nonneg _

/-- A listed blob keeps the size it was listed with, or it is no longer due. -/
theorem Reserved.listed_of_kept (h : Reserved s hw) (hk : Kept s.clock s.db.blobs db'.blobs)
    {v : Sweep} {rest : List (Hash × Int)} {cutoff : Int}
    (hv : s.sweeps v = some (rest, cutoff)) :
    cutoff ≤ s.clock ∧ ∀ e ∈ rest, ∀ b, db'.blobs.lookup e.1 = some b →
      ∀ r ∈ b.releasedAt, r < cutoff → b.sizeBytes = e.2 := by
  obtain ⟨hle, hlisted⟩ := h.listed v rest cutoff hv
  refine ⟨hle, fun e he b' hb' r hr hlt => ?_⟩
  obtain ⟨b, hb, hsize, hrel⟩ | ⟨hlate, _⟩ := hk e.1 b' hb'
  · rw [hsize]
    exact hlisted e he b hb r (hrel r hr (by omega)) hlt
  · have hle' := hlate r hr
    omega

/-- A transaction that keeps the snapshots, and whose other bytes are paid for. -/
theorem Reserved.commit (h : Reserved s hw) (hk : Kept s.clock s.db.blobs db'.blobs)
    (hs : db'.snapshots = s.db.snapshots)
    (hpaid : storage db'.usage - storage s.db.usage =
      changesetBytes db'.changesets - changesetBytes s.db.changesets +
        (total (fun _ b => b.sizeBytes) db'.blobs - total (fun _ b => b.sizeBytes) s.db.blobs)) :
    Reserved { s with db := db', last := o } hw := by
  refine ⟨fun k b' hb' => ?_, ?_, ?_, fun v rest cutoff hv => h.listed_of_kept hk hv, ?_, ?_⟩
  · obtain ⟨b, hb, hsize, _⟩ | ⟨_, hpos⟩ := hk k b' hb'
    · rw [hsize]
      exact h.blobs k b hb
    · exact hpos
  · simp only [hs]
    exact h.rows
  · simp only [hs]
    exact h.presigns
  · have hcov := h.covered
    simp only [hs]
    omega
  · intro hr
    have hx := h.exact hr
    simp only [Db.stored, hs] at hx ⊢
    omega

theorem Reserved.refuse (h : Reserved s hw) : Reserved { s with last := o } hw :=
  ⟨h.blobs, h.rows, h.presigns, h.listed, h.covered, h.exact⟩

theorem Reserved.push (h : Reserved s hw) {a : Account} {cs : List (PushChange Client)}
    (hp : push s.db s.clock a cs = .ok (db', o)) :
    Reserved { s with db := db', last := o } hw := by
  obtain ⟨rfl, rfl⟩ | ⟨i, u, more, _, rfl, hu, hmore, rfl⟩ := push_ok hp
  · exact h.refuse
  · refine h.commit (kept_refl s.clock s.db.blobs) rfl ?_
    simp only [changesetBytes_append, storage, Option.map_some, Option.getD_some, hu.added]
    omega

theorem Reserved.presignAudio (h : Reserved s hw) {a : Account}
    {q : PresignQuery Part Session Hash} (hp : presignAudio s.db s.clock a q = .ok (db', o)) :
    Reserved { s with db := db', last := o } hw := by
  have hq := presignAudio_ok hp
  refine h.commit hq.blobs hq.snapshots ?_
  rw [hq.changesets]
  obtain ⟨husage, _, htotal⟩ | ⟨i, u, _, _, hu, husage, htotal⟩ := hq.metered
  · rw [husage, htotal]
    omega
  · rw [husage, htotal]
    simp only [storage, Option.map_some, Option.getD_some, hu.added]
    omega

theorem total_update {V : Type} {rows : Rows Int V} {k : Int} (x : Int)
    (h : rows.lookup k = none) :
    total (fun g _ => Function.update hw k x g) rows = total (fun g _ => hw g) rows := by
  apply total_congr
  intro g v hv
  have hne : g ≠ k := by
    rintro rfl
    rw [h] at hv
    cases hv
  exact Function.update_of_ne hne x hw

theorem snapshotRow_sizeBytes (r : SnapshotPresignRequest Hash) :
    (snapshotRow r).sizeBytes = toI64 r.size := rfl

theorem Reserved.publish (h : Reserved s hw) {a : Account} {r : SnapshotPresignRequest Hash}
    (hnone : s.db.snapshots.lookup (generation r) = none)
    (hp : publish s.db s.clock a r = .ok (db', o)) :
    Reserved { s with db := db', last := o }
      (Function.update hw (generation r) (toI64 r.size)) := by
  obtain ⟨i, u, _, hbytes, rfl, hu, rfl⟩ := publish_ok hp
  have hadded := hu.added
  rw [hbytes] at hadded
  refine ⟨h.blobs, ?_, ?_, h.listed, ?_, ?_⟩
  · intro g row hrow
    by_cases hg : g = generation r
    · subst hg
      rw [AList.lookup_insert, Option.some.injEq] at hrow
      subst row
      rw [Function.update_self]
      exact ⟨toI64_nonneg r.size, le_refl _⟩
    · rw [AList.lookup_insert_ne hg] at hrow
      rw [Function.update_of_ne hg]
      exact h.rows g row hrow
  · intro t p ht
    obtain ⟨hsome, hle⟩ := h.presigns t p ht
    have hg : generation p.request ≠ generation r := fun heq => hsome (heq ▸ hnone)
    rw [AList.lookup_insert_ne hg, Function.update_of_ne hg]
    exact ⟨hsome, hle⟩
  · have hcov := h.covered
    simp only [total_insert_new hnone, total_update _ hnone, Function.update_self, storage,
      Option.map_some, Option.getD_some]
    simp only [storage] at hcov hadded
    omega
  · intro hr
    have hx := h.exact hr
    simp only [Db.stored, total_insert_new hnone, snapshotRow_sizeBytes, storage, Option.map_some,
      Option.getD_some]
    simp only [Db.stored, storage] at hx hadded
    omega

/-- Only what exceeds the size that was read is metered, and that size never exceeds what
is reserved. -/
theorem repointDelta_le (r : SnapshotPresignRequest Hash) {existingSize : Nat} {reserved : Int}
    (h : (existingSize : Int) ≤ reserved) :
    max reserved (toI64 r.size) ≤ reserved + toI64 (repointDelta r existingSize) := by
  simp only [toI64, i64Max, repointDelta]
  omega

theorem Reserved.repoint (h : Reserved s hw) {a : Account}
    {r : SnapshotPresignRequest Hash} {existingHash : Hash} {existingSize : Nat}
    (hread : (existingSize : Int) ≤ hw (generation r))
    (hp : repoint s.db s.clock a r existingHash existingSize = .ok (db', o)) :
    Reserved { s with db := db', last := o, repointed := true }
      (Function.update hw (generation r) (max (hw (generation r)) (toI64 r.size))) := by
  obtain ⟨i, u, row, _, hbytes, rfl, hu, hrow, _, rfl⟩ := repoint_ok hp
  have hadded := hu.added
  rw [hbytes] at hadded
  refine ⟨h.blobs, ?_, ?_, h.listed, ?_, fun hr => ?_⟩
  · intro g row' hrow'
    by_cases hg : g = generation r
    · subst hg
      rw [AList.lookup_insert, Option.some.injEq] at hrow'
      subst row'
      rw [Function.update_self]
      exact ⟨toI64_nonneg r.size, le_max_right _ _⟩
    · rw [AList.lookup_insert_ne hg] at hrow'
      rw [Function.update_of_ne hg]
      exact h.rows g row' hrow'
  · intro t' p ht'
    obtain ⟨hsome, hle⟩ := h.presigns t' p ht'
    by_cases hg : generation p.request = generation r
    · rw [hg, AList.lookup_insert, Function.update_self]
      rw [hg] at hle
      exact ⟨by simp, le_trans hle (le_max_left _ _)⟩
    · rw [AList.lookup_insert_ne hg, Function.update_of_ne hg]
      exact ⟨hsome, hle⟩
  · have hcov := h.covered
    have hdelta := repointDelta_le r hread
    have hold := total_erase hrow (f := fun g _ => hw g)
    simp only [total_insert, Function.update_self, storage, Option.map_some, Option.getD_some,
      total_update _ (AList.lookup_erase (generation r) s.db.snapshots)]
    simp only [storage] at hcov hadded
    omega
  · cases hr

theorem Reserved.leave (h : Reserved s hw) (t : Req)
    (next : Option (Presigning Hash) × Outcome Client)
    (hnext : ∀ p, next.1 = some p → s.db.snapshots.lookup (generation p.request) ≠ none ∧
      (p.existingSize : Int) ≤ hw (generation p.request)) :
    Reserved (s.leave t next) hw := by
  refine ⟨h.blobs, h.rows, fun t' p ht' => ?_, h.listed, h.covered, h.exact⟩
  have hp : Function.update s.presigns t next.1 t' = some p := ht'
  by_cases heq : t' = t
  · rw [heq, Function.update_self] at hp
    exact hnext p hp
  · rw [Function.update_of_ne heq] at hp
    exact h.presigns t' p hp

theorem Reserved.sweeps (h : Reserved s hw) (v : Sweep) (next : Option (List (Hash × Int) × Int))
    (hnext : ∀ rest cutoff, next = some (rest, cutoff) →
      cutoff ≤ s.clock ∧ ∀ e ∈ rest, ∀ b, s.db.blobs.lookup e.1 = some b →
        ∀ r ∈ b.releasedAt, r < cutoff → b.sizeBytes = e.2) :
    Reserved { s with sweeps := Function.update s.sweeps v next, last := .none } hw := by
  refine ⟨h.blobs, h.rows, h.presigns, fun v' rest cutoff hv' => ?_, h.covered, h.exact⟩
  have hp : Function.update s.sweeps v next v' = some (rest, cutoff) := hv'
  by_cases heq : v' = v
  · rw [heq, Function.update_self] at hp
    exact hnext rest cutoff hp
  · rw [Function.update_of_ne heq] at hp
    exact h.listed v' rest cutoff hp

theorem mem_eligible {db : Db Client Part Session Hash} {cutoff : Int} {e : Hash × Int}
    (h : e ∈ eligible db cutoff) : ∃ b, db.blobs.lookup e.1 = some b ∧ b.sizeBytes = e.2 := by
  obtain ⟨x, hx, rfl⟩ := List.mem_map.mp h
  exact ⟨x.2, lookup_of_mem (List.mem_filter.mp hx).1, rfl⟩

theorem Reserved.sweepBlob (h : Reserved s hw) {v : Sweep} {hash : Hash} {size cutoff : Int}
    {rest : List (Hash × Int)} (hv : s.sweeps v = some ((hash, size) :: rest, cutoff)) :
    Reserved { s with db := deleteRow s.db hash size cutoff, last := .none } hw := by
  obtain heq | ⟨b, hb, ⟨r, hr, hlt⟩, heq⟩ := deleteRow_cases s.db hash size cutoff
  · rw [heq]
    exact h.refuse
  · rw [heq]
    have hsize := (h.listed v _ cutoff hv).2 _ List.mem_cons_self b hb r hr hlt
    have hpos := h.blobs hash b hb
    have hrow := total_erase hb (f := fun _ b => b.sizeBytes)
    simp only at hsize
    refine h.commit (erase_kept hash) rfl ?_
    have hle := h.stored_le
    have hchanges := changesetBytes_nonneg s.db.changesets
    have hblobs : 0 ≤ total (fun _ b => b.sizeBytes) (s.db.blobs.erase hash) := by
      apply total_nonneg
      intro k b' hb'
      by_cases hk : k = hash
      · rw [hk, AList.lookup_erase] at hb'
        cases hb'
      · rw [AList.lookup_erase_ne hk] at hb'
        exact h.blobs k b' hb'
    have hsnapshots : 0 ≤ total (fun _ r => r.sizeBytes) s.db.snapshots :=
      total_nonneg (fun g r hr => (h.rows g r hr).1)
    simp only [Db.stored] at hle
    obtain hst | ⟨hnone, hst⟩ := storage_reclaim size s.db.usage
    · dsimp only
      rw [hst]
      omega
    · have hzero : storage s.db.usage = 0 := by rw [hnone]; rfl
      dsimp only
      rw [hst]
      omega

theorem Reserved.step (h : Reserved s hw) (hst : step s act = some s') :
    ∃ hw', Reserved s' hw' := by
  cases act with
  | tick d =>
    cases hst
    refine ⟨hw, h.blobs, h.rows, h.presigns, fun v rest cutoff hv => ?_, h.covered, h.exact⟩
    obtain ⟨hle, hl⟩ := h.listed v rest cutoff hv
    exact ⟨by dsimp only; omega, hl⟩
  | push a cs =>
    cases hst
    cases hp : Metering.push s.db s.clock a cs with
    | error e => exact ⟨hw, h.refuse⟩
    | ok r => exact ⟨hw, h.push hp⟩
  | presignAudio a q =>
    cases hst
    cases hp : Metering.presignAudio s.db s.clock a q with
    | error e => exact ⟨hw, h.refuse⟩
    | ok r => exact ⟨hw, h.presignAudio hp⟩
  | presignSnapshot t a r =>
    simp only [Metering.step] at hst
    split at hst
    · cases hst
    · split at hst
      · rename_i hnone
        cases hst
        cases hp : Metering.publish s.db s.clock a r with
        | error e => exact ⟨hw, h.refuse⟩
        | ok r => exact ⟨_, h.publish hnone hp⟩
      · rename_i row hrow
        cases hst
        refine ⟨hw, h.leave t _ (fun p hp => ?_)⟩
        cases hp
        obtain ⟨hpos, hle⟩ := h.rows _ row hrow
        simp only [Presigning.request, Presigning.existingSize, hrow]
        exact ⟨by simp, by omega⟩
  | head t present =>
    simp only [Metering.step] at hst
    split at hst
    · rename_i a r existingHash existingSize ht
      cases hst
      refine ⟨hw, h.leave t _ (fun p hp => ?_)⟩
      simp only [afterHead] at hp
      split at hp
      · cases hp
      · split at hp
        · cases hp
        · cases hp
          have hfound := h.presigns t _ ht
          exact hfound
    · cases hst
  | repoint t =>
    simp only [Metering.step] at hst
    split at hst
    · rename_i a r existingHash existingSize ht
      cases hst
      have hleft : Reserved (s.leave t (none, .none)) hw := h.leave t _ (fun p hp => by cases hp)
      cases hp : Metering.repoint s.db s.clock a r existingHash existingSize with
      | error e =>
        refine ⟨hw, hleft.blobs, hleft.rows, hleft.presigns, hleft.listed, hleft.covered,
          fun hr => ?_⟩
        have hbefore : s.repointed = false := by
          simpa [State.leave, Except.isOk, Except.toBool] using hr
        exact hleft.exact hbefore
      | ok result =>
        have hres := hleft.repoint (h.presigns t _ ht).2 hp
        refine ⟨_, hres.blobs, hres.rows, hres.presigns, hres.listed, hres.covered, fun hr => ?_⟩
        simp [Except.isOk, Except.toBool] at hr
    · cases hst
  | scan v grace =>
    simp only [Metering.step] at hst
    split at hst
    · cases hst
    · cases hst
      refine ⟨hw, h.sweeps v _ (fun rest cutoff hnext => ?_)⟩
      cases hnext
      refine ⟨by omega, fun e he b hb _ _ _ => ?_⟩
      obtain ⟨b', hb', hsize⟩ := mem_eligible he
      rw [hb, Option.some.injEq] at hb'
      rw [hb', hsize]
  | sweepBlob v objectDeleted =>
    simp only [Metering.step] at hst
    split at hst
    · cases hst
    · cases hst
      exact ⟨hw, h.sweeps v none (fun rest cutoff hnext => by cases hnext)⟩
    · rename_i hash size rest cutoff hv
      cases hst
      have hdb : Reserved { s with
          db := if objectDeleted then deleteRow s.db hash size cutoff else s.db
          last := .none } hw := by
        cases objectDeleted with
        | false => exact h.refuse
        | true => exact h.sweepBlob hv
      refine ⟨hw, hdb.sweeps v _ (fun rest' cutoff' hnext => ?_)⟩
      cases hnext
      obtain ⟨hle, hl⟩ := hdb.listed v _ _ hv
      exact ⟨hle, fun e he => hl e (List.mem_cons_of_mem _ he)⟩

end Invariant

section Answers

variable {s s' : State Req Sweep Client Part Session Hash}
variable {db db' : Db Client Part Session Hash} {o : Outcome Client}
variable {act : Action Req Sweep Client Part Session Hash} {now : Int} {a : Account}

/-- What the outcome of a request says about its rows. -/
structure Answered (db db' : Db Client Part Session Hash) (o : Outcome Client) : Prop where
  refused : ∀ e, o = .refused e → db' = db
  unmetered : o = .unmetered → db'.usage = db.usage ∧ db'.stored = db.stored
  admitted : ∀ i n, o = .admitted i → i.limits.storageBytes = .max n → (n : Int) ≤ i64Max →
    storage db'.usage ≤ n

theorem answered_quiet : Answered db db' (.none : Outcome Client) :=
  ⟨(by simp), (by simp), (by simp)⟩

theorem answered_refused (e : AppError Client) : Answered db db (.refused e) :=
  ⟨fun _ _ => rfl, (by simp), (by simp)⟩

theorem answered_unmetered (husage : db'.usage = db.usage) (hstored : db'.stored = db.stored) :
    Answered db db' (.unmetered : Outcome Client) :=
  ⟨(by simp), fun _ => ⟨husage, hstored⟩, (by simp)⟩

theorem Admitted.answered {usage : Option Usage} {i : Ingress} {u : Usage}
    (h : Admitted usage i u) (hu : db'.usage = some u) :
    Answered db db' (.admitted i : Outcome Client) := by
  refine ⟨(by simp), (by simp), fun j n hj hl _ => ?_⟩
  cases hj
  rw [hu]
  exact h.le hl

theorem push_answered {cs : List (PushChange Client)} (h : push db now a cs = .ok (db', o)) :
    Answered db db' o := by
  obtain ⟨rfl, rfl⟩ | ⟨i, u, more, _, rfl, hu, _, rfl⟩ := push_ok h
  · exact answered_unmetered rfl rfl
  · exact hu.answered rfl

theorem presignAudio_answered {q : PresignQuery Part Session Hash}
    (h : presignAudio db now a q = .ok (db', o)) : Answered db db' o := by
  have hq := presignAudio_ok h
  obtain ⟨husage, rfl, htotal⟩ | ⟨i, u, _, rfl, hu, husage, _⟩ := hq.metered
  · refine answered_unmetered husage ?_
    rw [Db.stored, Db.stored, hq.changesets, hq.snapshots, htotal]
  · exact hu.answered husage

theorem publish_answered {r : SnapshotPresignRequest Hash}
    (h : publish db now a r = .ok (db', o)) : Answered db db' o := by
  obtain ⟨i, u, _, _, rfl, hu, rfl⟩ := publish_ok h
  exact hu.answered rfl

theorem repoint_answered {r : SnapshotPresignRequest Hash} {existingHash : Hash}
    {existingSize : Nat} (h : repoint db now a r existingHash existingSize = .ok (db', o)) :
    Answered db db' o := by
  obtain ⟨i, u, _, _, _, rfl, hu, _, _, rfl⟩ := repoint_ok h
  exact hu.answered rfl

theorem settle_answered {r : Result Client Part Session Hash}
    (h : ∀ db' o, r = .ok (db', o) → Answered s.db db' o) :
    Answered s.db (s.settle r).db (s.settle r).last := by
  cases r with
  | error e => exact answered_refused e
  | ok p => exact h p.1 p.2 rfl

theorem step_answered (hst : step s act = some s') : Answered s.db s'.db s'.last := by
  cases act with
  | tick d =>
    cases hst
    exact answered_quiet
  | push a cs =>
    cases hst
    exact settle_answered (fun _ _ hr => push_answered hr)
  | presignAudio a q =>
    cases hst
    exact settle_answered (fun _ _ hr => presignAudio_answered hr)
  | presignSnapshot t a r =>
    simp only [step] at hst
    split at hst
    · cases hst
    · split at hst
      · cases hst
        exact settle_answered (fun _ _ hr => publish_answered hr)
      · cases hst
        exact answered_quiet
  | head t present =>
    simp only [step] at hst
    split at hst
    · cases hst
      simp only [State.leave, afterHead]
      split
      · exact answered_unmetered rfl rfl
      · split
        · exact answered_refused _
        · exact answered_quiet
    · cases hst
  | repoint t =>
    simp only [step] at hst
    split at hst
    · cases hst
      exact settle_answered (s := s.leave t (none, .none)) (fun _ _ hr => repoint_answered hr)
    · cases hst
  | scan v grace =>
    simp only [step] at hst
    split at hst
    · cases hst
    · cases hst
      exact answered_quiet
  | sweepBlob v objectDeleted =>
    simp only [step] at hst
    split at hst
    · cases hst
    · cases hst
      exact answered_quiet
    · cases hst
      exact answered_quiet

end Answers

/-- What the counters of a relay say after a step. -/
structure Metered (s s' : State Req Sweep Client Part Session Hash) : Prop where
  covered : s'.db.stored ≤ storage s'.db.usage
  exact : s'.repointed = false → storage s'.db.usage = s'.db.stored
  answered : Answered s.db s'.db s'.last

/-- In every serial run: stored bytes are covered by the counter, exactly so while no snapshot
was re-pointed; a refused request changes no row; and what the choke point admits stays
within the limit it was admitted under. -/
theorem storage_never_falls_below (as : List (Action Req Sweep Client Part Session Hash)) :
    Runs.Along step (fun s _ s' => Metered s s') State.empty as := by
  refine Runs.along_of_invariant (I := fun s => ∃ hw, Reserved s hw) (g := fun _ _ _ => True)
    (fun s act s' hs _ hst => ?_) (fun s act s' hs _ hst => ?_) ⟨_, reserved_empty⟩
    (Runs.along_true State.empty as)
  · obtain ⟨hw, h⟩ := hs
    exact h.step hst
  · obtain ⟨hw, h⟩ := hs
    obtain ⟨hw', h'⟩ := h.step hst
    exact ⟨h'.stored_le, h'.exact, step_answered hst⟩

end YapStack.Relay.Metering
