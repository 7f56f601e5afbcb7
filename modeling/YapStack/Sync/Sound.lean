import YapStack.Sync.World

set_option linter.unusedSectionVars false

namespace YapStack.Sync

open Relay.Sequence

variable {Client : Type} [DecidableEq Client] (cfg : Config Client)

/-- The row is in the changeset that a blob of this device opens to. -/
def Inside (clientSeq : Int) (blob : Bytes) (r : ChangeRow) : Prop :=
  ∃ cs, openBlob cfg.cipher cfg.clientId clientSeq blob = .ok cs ∧ r ∈ cs.rows

def InOutbox (o : Outbox) (r : ChangeRow) : Prop :=
  ∃ e ∈ o.entries, e.acked = false ∧ Inside cfg e.clientSeq e.ciphertext r

def InRelay (relay : Store Client) (r : ChangeRow) : Prop :=
  ∃ c ∈ relay, c.clientId = cfg.clientId ∧ Inside cfg c.clientSeq c.ciphertext r

/-- A row of the change log that this device wrote itself. -/
def Own (db : LocalDb) (r : ChangeRow) : Prop :=
  r ∈ db.log.map Subtype.val ∧ r.siteId = some cfg.siteId

/-- The row will be captured, or waits in the outbox, or is at the relay. -/
def Safe (relay : Store Client) (db : LocalDb) (r : ChangeRow) : Prop :=
  db.pushWatermark < r.version ∨ InOutbox cfg db.outbox r ∨ InRelay cfg relay r

/-- An acked entry is at the relay, byte for byte, at its `changeset_seq`. -/
def AckedStored (relay : Store Client) (e : OutboxEntry) : Prop :=
  e.acked = true → ∃ s, e.changesetSeq = some s ∧
    relay.Holds s (cfg.clientId, e.clientSeq) e.ciphertext

structure DbSound (relay : Store Client) (db : LocalDb) : Prop where
  acked : ∀ e ∈ db.outbox.entries, AckedStored cfg relay e
  safe : ∀ r, Own cfg db r → Safe cfg relay db r
  versions : ∀ r ∈ db.log.map Subtype.val, 0 < r.version ∧ r.version ≤ db.dbVersion
  watermark : db.pushWatermark ≤ db.dbVersion
  positive : 0 ≤ db.dbVersion

/-- What an ack says of the entry it names. -/
def AckSound (relay : Store Client) (o : Outbox) (a : PushAck Client) : Prop :=
  ∀ e ∈ o.entries, e.clientSeq = a.clientSeq →
    relay.Holds a.changesetSeq (cfg.clientId, e.clientSeq) e.ciphertext

/-- A capture under way: what is above the watermark is in an entry, or in a
chunk still to come, or newer than all of these. -/
structure Capturing (db : LocalDb) (committedWm : Int) (pending : List (List ChangeRow)) :
    Prop where
  watermark : committedWm = db.pushWatermark
  sorted : pending.flatten.Pairwise (fun a b => a.version ≤ b.version)
  nonempty : ∀ chunk ∈ pending, chunk ≠ []
  bound : ∀ r ∈ pending.flatten, r.version ≤ db.dbVersion
  covered : ∀ r, Own cfg db r → db.pushWatermark < r.version →
    InOutbox cfg db.outbox r ∨ r ∈ pending.flatten ∨ ∀ p ∈ pending.flatten, p.version < r.version

def PointSound (relay : Store Client) (db : LocalDb) : Point Client → Prop
  | .enqueue _ committedWm pending => Capturing cfg db committedWm pending
  | .ack todo resp _ _ _ =>
    (∀ a ∈ todo, AckSound cfg relay db.outbox a) ∧ ∀ a ∈ resp.acks, AckSound cfg relay db.outbox a
  | .awaitTail (.deduplicated resp _ _) => ∀ a ∈ resp.acks, AckSound cfg relay db.outbox a
  | _ => True

variable {cfg} {relay : Store Client} {db : LocalDb} {o : Outbox} {r : ChangeRow}
variable {a : PushAck Client} {p : Point Client}

theorem inRelay_of_holds {s : Nat} {q : Int} {blob : Bytes}
    (h : relay.Holds s (cfg.clientId, q) blob) (hr : Inside cfg q blob r) : InRelay cfg relay r := by
  obtain ⟨c, hrow, hkey, rfl⟩ := h
  simp only [Store.row] at hrow
  split at hrow
  · cases hrow
  · obtain ⟨hid, rfl⟩ := Prod.mk.inj hkey
    exact ⟨c, List.mem_of_getElem? hrow, hid, hr⟩

theorem pointSound_of_neutral (h : p.isNeutral = true) : PointSound cfg relay db p := by
  cases p with
  | awaitTail use =>
    cases use with
    | deduplicated resp applied total => cases h
    | _ => trivial
  | enqueue job wm pending => cases h
  | ack todo resp applied total deduplicated => cases h
  | _ => trivial

section Append

variable {more : List (PushChange Client)}

theorem Safe.append (h : Safe cfg relay db r) : Safe cfg (relay ++ more) db r := by
  refine h.imp_right (fun h => h.imp_right ?_)
  rintro ⟨c, hc, hid, hin⟩
  exact ⟨c, List.mem_append_left more hc, hid, hin⟩

theorem DbSound.append (h : DbSound cfg relay db) : DbSound cfg (relay ++ more) db := by
  refine ⟨fun e he hacked => ?_, fun r hr => (h.safe r hr).append, h.versions, h.watermark,
    h.positive⟩
  obtain ⟨s, hs, hholds⟩ := h.acked e he hacked
  exact ⟨s, hs, hholds.append⟩

theorem AckSound.append (h : AckSound cfg relay o a) : AckSound cfg (relay ++ more) o a :=
  fun e he hq => (h e he hq).append

theorem pointSound_append (h : PointSound cfg relay db p) :
    PointSound cfg (relay ++ more) db p := by
  cases p with
  | awaitTail use =>
    cases use with
    | deduplicated resp applied total => exact fun a ha => (h a ha).append
    | _ => trivial
  | enqueue job wm pending => exact h
  | ack todo resp applied total deduplicated =>
    exact ⟨fun a ha => (h.1 a ha).append, fun a ha => (h.2 a ha).append⟩
  | _ => trivial

end Append

section Write

variable {removed : ChangeRow → Bool} {added : List StoredRow} {version : Int}

theorem mem_log_write (h : r ∈ (db.write removed added version).log.map Subtype.val) :
    r ∈ db.log.map Subtype.val ∨ r ∈ added.map Subtype.val := by
  simp only [LocalDb.write, List.map_append, List.mem_append] at h
  refine h.imp_left (fun h => ?_)
  obtain ⟨stored, hs, rfl⟩ := List.mem_map.mp h
  exact List.mem_map_of_mem (List.mem_filter.mp hs).1

theorem version_of_added (hadded : ∀ s ∈ added, s.val.version = version)
    (h : r ∈ added.map Subtype.val) : r.version = version := by
  obtain ⟨stored, hs, rfl⟩ := List.mem_map.mp h
  exact hadded stored hs

theorem DbSound.write (h : DbSound cfg relay db) (hversion : db.dbVersion < version)
    (hadded : ∀ s ∈ added, s.val.version = version) :
    DbSound cfg relay (db.write removed added version) := by
  have hwm := h.watermark
  have hpos := h.positive
  refine ⟨h.acked, fun r hr => ?_, fun r hr => ?_, ?_, ?_⟩
  · obtain hold | hnew := mem_log_write hr.1
    · exact h.safe r ⟨hold, hr.2⟩
    · left
      have hv := version_of_added hadded hnew
      simp only [LocalDb.write]
      omega
  · simp only [LocalDb.write]
    obtain hold | hnew := mem_log_write hr
    · have hv := h.versions r hold
      omega
    · have hv := version_of_added hadded hnew
      omega
  · simp only [LocalDb.write]
    omega
  · simp only [LocalDb.write]
    omega

theorem Capturing.write {committedWm : Int} {pending : List (List ChangeRow)}
    (h : Capturing cfg db committedWm pending) (hversion : db.dbVersion < version)
    (hadded : ∀ s ∈ added, s.val.version = version) :
    Capturing cfg (db.write removed added version) committedWm pending := by
  refine ⟨h.watermark, h.sorted, h.nonempty, fun r hr => ?_, fun r hr hlt => ?_⟩
  · have hb := h.bound r hr
    simp only [LocalDb.write]
    omega
  · obtain hold | hnew := mem_log_write hr.1
    · exact h.covered r ⟨hold, hr.2⟩ hlt
    · refine Or.inr (Or.inr (fun p hp => ?_))
      have hb := h.bound p hp
      have hv := version_of_added hadded hnew
      omega

theorem pointSound_write (h : PointSound cfg relay db p) (hversion : db.dbVersion < version)
    (hadded : ∀ s ∈ added, s.val.version = version) :
    PointSound cfg relay (db.write removed added version) p := by
  cases p with
  | awaitTail use => cases use <;> exact h
  | enqueue job wm pending => exact Capturing.write h hversion hadded
  | ack todo resp applied total deduplicated => exact h
  | _ => trivial

end Write

/-- A reseed rewinds the watermark below every row, so that nothing it drops is lost. -/
theorem DbSound.reseed (h : DbSound cfg relay db) (target : Int) :
    DbSound cfg relay (db.reseedCounterToTail target) := by
  refine ⟨fun e he => h.acked e (Outbox.mem_dropUnacked.mp he).1, fun r hr => ?_, h.versions,
    h.positive, h.positive⟩
  exact Or.inl (h.versions r hr.1).1

section Chunk

variable {draw : Draw} {schemaVersion engineVersion committedWm : Int} {chunk : List ChangeRow}
variable {pending : List (List ChangeRow)} {db' : LocalDb} {nextWm : Option Int}

/-- Every version in the chunks still to come is above a watermark that the chunk closes. -/
theorem below_pending {v : Int} (hsorted : pending.flatten.Pairwise (fun a b => a.version ≤ b.version))
    (hnonempty : ∀ c ∈ pending, c ≠ [])
    (hclosed : ∀ n, (pending.head?.bind List.head?).map ChangeRow.version = some n → v < n)
    (hr : r ∈ pending.flatten) : v < r.version := by
  cases pending with
  | nil => cases hr
  | cons next rest =>
    cases next with
    | nil => exact absurd rfl (hnonempty [] List.mem_cons_self)
    | cons first others =>
      have hv := hclosed first.version rfl
      rw [List.flatten_cons, List.cons_append] at hsorted hr
      obtain rfl | hr := List.mem_cons.mp hr
      · exact hv
      · have hle := (List.pairwise_cons.mp hsorted).1 r hr
        omega

/-- What a chunk's transaction leaves for the rows above the old watermark. -/
theorem committed_covered (h : Capturing cfg db committedWm (chunk :: pending))
    (hfits : Changeset.Fits ⟨chunk⟩)
    (hok : db.insertChunk cfg.cipher cfg.clientId draw schemaVersion engineVersion chunk = .ok db')
    (hr : Own cfg db r) (hlt : db.pushWatermark < r.version) :
    InOutbox cfg db'.outbox r ∨ r ∈ pending.flatten ∨
      ∀ p ∈ chunk ++ pending.flatten, p.version < r.version := by
  obtain ⟨e, outbox, rfl, hinsert, hacked, _, hopen⟩ := LocalDb.insertChunk_ok hok
  obtain ⟨f, hf, hfa, hin⟩ | hmem | hnew := h.covered r hr hlt
  · exact Or.inl ⟨f, (Outbox.mem_insert hinsert).mpr (Or.inl hf), hfa, hin⟩
  · rw [List.flatten_cons, List.mem_append] at hmem
    obtain hmem | hmem := hmem
    · exact Or.inl ⟨e, (Outbox.mem_insert hinsert).mpr (Or.inr rfl), hacked, ⟨chunk⟩, hopen hfits,
        hmem⟩
    · exact Or.inr (Or.inl hmem)
  · rw [List.flatten_cons] at hnew
    exact Or.inr (Or.inr hnew)

variable (cfg) in
theorem insertChunk_frame
    (hok : db.insertChunk cfg.cipher cfg.clientId draw schemaVersion engineVersion chunk = .ok db') :
    db'.log = db.log ∧ db'.dbVersion = db.dbVersion ∧ db'.pushWatermark = db.pushWatermark ∧
      (∀ f, InOutbox cfg db.outbox f → InOutbox cfg db'.outbox f) ∧
      ∀ f ∈ db'.outbox.entries, f ∈ db.outbox.entries ∨ f.acked = false := by
  obtain ⟨e, outbox, rfl, hinsert, hacked, _, _⟩ := LocalDb.insertChunk_ok hok
  refine ⟨rfl, rfl, rfl, fun r hr => ?_, fun f hf => ?_⟩
  · obtain ⟨f, hf, hfa, hin⟩ := hr
    exact ⟨f, (Outbox.mem_insert hinsert).mpr (Or.inl hf), hfa, hin⟩
  · refine ((Outbox.mem_insert hinsert).mp hf).imp_right (fun hfe => ?_)
    rw [hfe]
    exact hacked

/-- The watermark of a chunk's transaction never goes back, and stays at or below the clock. -/
theorem committed_watermark (hc : Capturing cfg db committedWm (chunk :: pending))
    (hle : db.pushWatermark ≤ db.dbVersion)
    (hwm : nextWm = (chunkCommitWatermark chunk
      ((pending.head?.bind List.head?).map ChangeRow.version)).filter (fun v => committedWm < v)) :
    db.pushWatermark ≤ nextWm.getD db.pushWatermark ∧
      nextWm.getD db.pushWatermark ≤ db.dbVersion := by
  cases nextWm with
  | none => exact ⟨le_refl _, hle⟩
  | some v =>
    obtain ⟨hv, hlt⟩ := Option.filter_eq_some_iff.mp hwm.symm
    obtain ⟨⟨q, hq, rfl⟩, _⟩ := chunkCommitWatermark_closed hv
    have hbound := hc.bound q (by rw [List.flatten_cons]; exact List.mem_append_left _ hq)
    have hgt : committedWm < q.version := of_decide_eq_true hlt
    rw [hc.watermark] at hgt
    exact ⟨hgt.le, hbound⟩

/-- A row that the new watermark passes is in the outbox. -/
theorem committed_passed (hc : Capturing cfg db committedWm (chunk :: pending))
    (hfits : Changeset.Fits ⟨chunk⟩)
    (hok : db.insertChunk cfg.cipher cfg.clientId draw schemaVersion engineVersion chunk = .ok db')
    (hwm : nextWm = (chunkCommitWatermark chunk
      ((pending.head?.bind List.head?).map ChangeRow.version)).filter (fun v => committedWm < v))
    (hr : Own cfg db r) (hlt : db.pushWatermark < r.version)
    (hle : r.version ≤ nextWm.getD db.pushWatermark) : InOutbox cfg db'.outbox r := by
  cases nextWm with
  | none =>
    simp only [Option.getD_none] at hle
    omega
  | some v =>
    simp only [Option.getD_some] at hle
    obtain ⟨hv, _⟩ := Option.filter_eq_some_iff.mp hwm.symm
    obtain ⟨⟨q, hq, rfl⟩, hclosed⟩ := chunkCommitWatermark_closed hv
    have hsorted := hc.sorted
    rw [List.flatten_cons] at hsorted
    obtain hin | hmem | hnew := committed_covered hc hfits hok hr hlt
    · exact hin
    · have habove := below_pending (List.pairwise_append.mp hsorted).2.1
        (fun c hm => hc.nonempty c (List.mem_cons_of_mem _ hm)) hclosed hmem
      omega
    · have habove := hnew q (List.mem_append_left _ hq)
      omega

/-- A chunk's transaction moves the watermark only over rows that are in the outbox. -/
theorem DbSound.commit (h : DbSound cfg relay db)
    (hc : Capturing cfg db committedWm (chunk :: pending)) (hfits : Changeset.Fits ⟨chunk⟩)
    (hok : db.insertChunk cfg.cipher cfg.clientId draw schemaVersion engineVersion chunk = .ok db')
    (hwm : nextWm = (chunkCommitWatermark chunk
      ((pending.head?.bind List.head?).map ChangeRow.version)).filter (fun v => committedWm < v)) :
    DbSound cfg relay { db' with pushWatermark := nextWm.getD db'.pushWatermark } := by
  obtain ⟨hlog, hversion, hold, hmono, hunacked⟩ := insertChunk_frame cfg hok
  obtain ⟨hgrow, hclock⟩ := committed_watermark hc h.watermark hwm
  refine ⟨fun e he hacked => ?_, fun r hr => ?_, ?_, ?_, ?_⟩
  · obtain he | he := hunacked e he
    · exact h.acked e he hacked
    · rw [he] at hacked
      cases hacked
  · have hr : Own cfg db r := ⟨hlog ▸ hr.1, hr.2⟩
    by_cases hlt : nextWm.getD db'.pushWatermark < r.version
    · exact Or.inl hlt
    · rw [hold] at hlt
      refine Or.inr ?_
      obtain hs | hs | hs := h.safe r hr
      · have hin := committed_passed hc hfits hok hwm hr hs (by omega)
        exact Or.inl hin
      · exact Or.inl (hmono r hs)
      · exact Or.inr hs
  · simpa only [hlog, hversion] using h.versions
  · simpa only [hold, hversion] using hclock
  · simpa only [hversion] using h.positive

theorem Capturing.commit (h : DbSound cfg relay db)
    (hc : Capturing cfg db committedWm (chunk :: pending)) (hfits : Changeset.Fits ⟨chunk⟩)
    (hok : db.insertChunk cfg.cipher cfg.clientId draw schemaVersion engineVersion chunk = .ok db')
    (hwm : nextWm = (chunkCommitWatermark chunk
      ((pending.head?.bind List.head?).map ChangeRow.version)).filter (fun v => committedWm < v)) :
    Capturing cfg { db' with pushWatermark := nextWm.getD db'.pushWatermark }
      (nextWm.getD committedWm) pending := by
  obtain ⟨hlog, hversion, hold, _, _⟩ := insertChunk_frame cfg hok
  obtain ⟨hgrow, _⟩ := committed_watermark hc h.watermark hwm
  have hsorted := hc.sorted
  have hbound := hc.bound
  rw [List.flatten_cons] at hsorted hbound
  refine ⟨?_, (List.pairwise_append.mp hsorted).2.1,
    fun c hm => hc.nonempty c (List.mem_cons_of_mem _ hm), fun r hr => ?_, fun r hr hlt => ?_⟩
  · simp only [hold, hc.watermark]
  · simp only [hversion]
    exact hbound r (List.mem_append_right _ hr)
  · have hr : Own cfg db r := ⟨hlog ▸ hr.1, hr.2⟩
    simp only [hold] at hlt
    refine (committed_covered hc hfits hok hr (by omega)).imp_right (fun hin => ?_)
    exact hin.imp_right (fun hnew p hp => hnew p (List.mem_append_right _ hp))

end Chunk

theorem Capturing.start (h : DbSound cfg relay db) :
    Capturing cfg db db.pushWatermark
      (planCaptureChunks (readLocalChangesSince cfg.siteId db.log db.pushWatermark)) := by
  refine ⟨rfl, ?_, fun c hm => (planCaptureChunks_bounded hm).1, fun r hr => ?_,
    fun r hr hlt => ?_⟩
  · rw [planCaptureChunks_flatten]
    exact readLocalChangesSince_sorted
  · rw [planCaptureChunks_flatten, mem_readLocalChangesSince] at hr
    exact (h.versions r hr.1).2
  · rw [planCaptureChunks_flatten, mem_readLocalChangesSince]
    exact Or.inr (Or.inl ⟨hr.1, hr.2, hlt⟩)

/-- An ack that tells the truth moves an entry's rows from the outbox to the relay. -/
theorem DbSound.ack (h : DbSound cfg relay db) (ha : AckSound cfg relay db.outbox a) :
    DbSound cfg relay { db with outbox := db.outbox.ack a.clientSeq a.changesetSeq } := by
  refine ⟨fun f hf => ?_, fun r hr => ?_, h.versions, h.watermark, h.positive⟩
  · obtain ⟨e, he, rfl⟩ := Outbox.mem_ack.mp hf
    simp only [Outbox.ackEntry]
    split
    · rename_i hq
      exact fun _ => ⟨a.changesetSeq, rfl, ha e he hq⟩
    · exact h.acked e he
  · refine (h.safe r hr).imp_right (fun hs => ?_)
    obtain ⟨e, he, hea, hin⟩ | hs := hs
    · by_cases hq : e.clientSeq = a.clientSeq
      · exact Or.inr (inRelay_of_holds (ha e he hq) hin)
      · refine Or.inl ⟨e, Outbox.mem_ack.mpr ⟨e, he, ?_⟩, hea, hin⟩
        rw [Outbox.ackEntry, if_neg hq]
    · exact Or.inr hs

theorem AckSound.ack {b : PushAck Client} (h : AckSound cfg relay o b) (q : Int) (s : Nat) :
    AckSound cfg relay (o.ack q s) b := by
  intro f hf hfq
  obtain ⟨e, he, rfl⟩ := Outbox.mem_ack.mp hf
  simp only [Outbox.ackEntry_clientSeq, Outbox.ackEntry_ciphertext] at hfq ⊢
  exact h e he hfq

/-- The acks of an answer that acknowledges a batch tell the truth about the outbox. -/
theorem ackSound_of_acknowledges {b : Batch} {acks : List (PushAck Client)}
    (hb : b.Prefix o)
    (h : List.Forall₂ (Acknowledges relay) (b.entries.map (OutboxEntry.change cfg.clientId)) acks)
    (ha : a ∈ acks) : AckSound cfg relay o a := by
  intro f hf hfq
  obtain ⟨i, hi, rfl⟩ := List.mem_iff_getElem.mp ha
  have hlen := h.length_eq
  have hi' : i < b.entries.length := by
    rw [List.length_map] at hlen
    omega
  obtain ⟨hkey, hholds⟩ := h.get (by simpa using hi') hi
  have he : b.entries[i] ∈ o.entries :=
    (Outbox.mem_unacked.mp (hb.first.subset (List.getElem_mem hi'))).1
  simp only [List.get_eq_getElem, List.getElem_map] at hkey hholds
  have hseq : f.clientSeq = b.entries[i].clientSeq := hfq.trans (Prod.mk.inj hkey).2
  obtain rfl := List.inj_on_of_nodup_map o.primaryKey hf he hseq
  exact hholds

end YapStack.Sync
