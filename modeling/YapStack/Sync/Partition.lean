import Mathlib.Algebra.GroupWithZero.Nat
import YapStack.Sync.Change
import YapStack.Sync.CaptureRuns

set_option linter.unusedSectionVars false

namespace YapStack.Sync

section Partition

variable {buf chunk : List ChangeRow} {acc : Nat} {lvl : Int} {rows : List ChangeRow}

/-- The limits of one chunk. A row that is too large for the byte budget goes alone. -/
structure Bounded (chunk : List ChangeRow) : Prop where
  nonempty : chunk ≠ []
  level : ∀ r ∈ chunk, ∀ q ∈ chunk, r.level = q.level
  rows : chunk.length ≤ chunkRows
  bytes : 1 < chunk.length → (Changeset.encode ⟨chunk⟩).length ≤ chunkPlaintextBudget

/-- The accumulators of the plan belong to the open chunk. -/
structure Open (buf : List ChangeRow) (acc : Nat) (lvl : Int) : Prop where
  size : acc = (Changeset.encode ⟨buf⟩).length
  level : ∀ r ∈ buf, r.level = lvl
  rows : buf.length ≤ chunkRows
  bytes : 1 < buf.length → acc ≤ chunkPlaintextBudget

theorem length_putBytes (b : Bytes) : (putBytes b).length = 4 + b.length := by
  rw [putBytes, List.length_append, Bytes.length_be]

theorem length_putI64 (i : Int64) : (putI64 i).length = 8 :=
  Bytes.length_be 8 _

theorem length_u64be (n : UInt64) : (Bytes.u64be n).length = 8 :=
  Bytes.length_be 8 _

theorem length_row (r : ChangeRow) : r.encode.length = rowEncodedSize r := by
  obtain ⟨table, pk, cid, val, colVersion, dbVersion, siteId, cl, seq⟩ := r
  cases val <;> cases siteId <;>
    simp only [ChangeRow.encode, Value.encode, encodeSite, rowEncodedSize, List.length_append,
      List.length_cons, List.length_nil, length_putBytes, length_putI64, length_u64be] <;> omega

/-- The byte budget measures what the codec writes. -/
theorem length_encode (rows : List ChangeRow) :
    (Changeset.encode ⟨rows⟩).length = 4 + (rows.map rowEncodedSize).sum := by
  simp only [Changeset.encode, List.length_append, Bytes.length_be, List.length_flatMap, length_row]

theorem length_encode_append (rows : List ChangeRow) (r : ChangeRow) :
    (Changeset.encode ⟨rows ++ [r]⟩).length =
      (Changeset.encode ⟨rows⟩).length + rowEncodedSize r := by
  simp only [length_encode, List.map_append, List.sum_append, List.map_singleton,
    List.sum_singleton]
  omega

theorem open_nil : Open [] 4 0 :=
  ⟨by simp [length_encode], by simp, by simp, by simp⟩

theorem open_single (r : ChangeRow) : Open [r] (4 + rowEncodedSize r) r.level :=
  ⟨by simp [length_encode], by simp, by simp [chunkRows], by simp⟩

theorem Open.bounded (h : Open buf acc lvl) (hne : buf ≠ []) : Bounded buf :=
  ⟨hne, fun r hr q hq => (h.level r hr).trans (h.level q hq).symm, h.rows, fun hlong =>
    h.size ▸ h.bytes hlong⟩

theorem Open.push (h : Open buf acc lvl) {r : ChangeRow}
    (hkeep : ¬(buf ≠ [] ∧
      (r.level ≠ lvl ∨ chunkRows ≤ buf.length ∨ chunkPlaintextBudget < acc + rowEncodedSize r))) :
    Open (buf ++ [r]) (acc + rowEncodedSize r) r.level := by
  by_cases hne : buf = []
  · subst hne
    have hsingle := open_single r
    rwa [show acc = 4 by simpa [length_encode] using h.size]
  · have hlimits := (not_and.mp hkeep) hne
    simp only [not_or, not_not, Nat.not_le, Nat.not_lt] at hlimits
    obtain ⟨hlevel, hrows, hbytes⟩ := hlimits
    refine ⟨?_, fun q hq => ?_, ?_, fun _ => hbytes⟩
    · rw [length_encode_append, h.size]
    · obtain hq | hq := List.mem_append.mp hq
      · rw [h.level q hq, hlevel]
      · rw [List.mem_singleton.mp hq]
    · rw [List.length_append, List.length_singleton]
      omega

/-- What ends a chunk would break one of its limits. -/
theorem Open.full (h : Open buf acc lvl) {r : ChangeRow} (hne : buf ≠ [])
    (hflush : r.level ≠ lvl ∨ chunkRows ≤ buf.length ∨
      chunkPlaintextBudget < acc + rowEncodedSize r) : ¬Bounded (buf ++ [r]) := by
  intro hb
  have hpos := List.length_pos_iff.mpr hne
  have hlen : (buf ++ [r]).length = buf.length + 1 := by simp
  obtain hlevel | hrows | hbytes := hflush
  · obtain ⟨q, hq⟩ := List.exists_mem_of_ne_nil buf hne
    apply hlevel
    rw [← h.level q hq]
    exact hb.level r (by simp) q (List.mem_append_left _ hq)
  · have hmax := hb.rows
    omega
  · have hmax := hb.bytes (by omega)
    rw [length_encode_append, ← h.size] at hmax
    omega

theorem planFrom_chunks (h : Open buf acc lvl) :
    ∀ chunk ∈ planFrom buf acc lvl rows, Bounded chunk := by
  induction rows generalizing buf acc lvl with
  | nil =>
    intro chunk hc
    simp only [planFrom] at hc
    split at hc
    · cases hc
    · rename_i hne
      rw [List.mem_singleton.mp hc]
      exact h.bounded hne
  | cons r rows ih =>
    intro chunk hc
    simp only [planFrom] at hc
    split at hc
    · rename_i hflush
      obtain rfl | hc := List.mem_cons.mp hc
      · exact h.bounded hflush.1
      · exact ih (open_single r) chunk hc
    · rename_i hkeep
      exact ih (h.push hkeep) chunk hc

/-- The first chunk starts with what is in the open one. -/
theorem planFrom_head (hne : buf ≠ []) (acc : Nat) (lvl : Int) (rows : List ChangeRow) :
    ∃ chunk chunks, planFrom buf acc lvl rows = chunk :: chunks ∧ buf <+: chunk := by
  induction rows generalizing buf acc lvl with
  | nil => exact ⟨buf, [], by simp [planFrom, hne], List.prefix_refl buf⟩
  | cons r rows ih =>
    simp only [planFrom]
    split
    · exact ⟨buf, _, rfl, List.prefix_refl buf⟩
    · obtain ⟨chunk, chunks, heq, hpre⟩ :=
        ih (by simp : buf ++ [r] ≠ []) (acc + rowEncodedSize r) r.level
      exact ⟨chunk, chunks, heq, (List.prefix_append buf [r]).trans hpre⟩

theorem planFrom_greedy (h : Open buf acc lvl) :
    (planFrom buf acc lvl rows).IsChain (fun c d => ∀ next ∈ d.head?, ¬Bounded (c ++ [next])) := by
  induction rows generalizing buf acc lvl with
  | nil =>
    simp only [planFrom]
    split
    · exact List.IsChain.nil
    · exact List.IsChain.singleton buf
  | cons r rows ih =>
    simp only [planFrom]
    split
    · rename_i hflush
      have hrest := ih (open_single r)
      obtain ⟨chunk, chunks, heq, hpre⟩ := planFrom_head (by simp : [r] ≠ [])
        (4 + rowEncodedSize r) r.level rows
      rw [heq] at hrest ⊢
      refine List.isChain_cons_cons.mpr ⟨fun next hnext => ?_, hrest⟩
      obtain ⟨tail, rfl⟩ := hpre
      cases hnext
      exact h.full hflush.1 hflush.2
    · rename_i hkeep
      exact ih (h.push hkeep)

/-- The plan is a partition of the rows into chunks within the limits, it could not put the next
row into any chunk, and the byte limit is measured in what the codec writes. -/
theorem plan_is_greedy_partition (rows : List ChangeRow) :
    (planCaptureChunks rows).flatten = rows ∧
      (∀ chunk ∈ planCaptureChunks rows, Bounded chunk) ∧
      (planCaptureChunks rows).IsChain (fun c d => ∀ next ∈ d.head?, ¬Bounded (c ++ [next])) ∧
      ∀ chunk : List ChangeRow,
        (Changeset.encode ⟨chunk⟩).length = 4 + (chunk.map rowEncodedSize).sum :=
  ⟨planCaptureChunks_flatten rows, planFrom_chunks open_nil, planFrom_greedy open_nil, length_encode⟩

end Partition

section PushableEntries

/-- A request with this entry alone is within both limits of the relay. -/
def OutboxEntry.Pushable (e : OutboxEntry) : Prop :=
  e.ciphertext.length ≤ maxPushBytes ∧ b64Len e.ciphertext.length ≤ pushWireBudget

/-- The largest `rowEncodedSize` whose entry is within the limits. -/
def maxRowSize : Nat := 1124850

variable {Client : Type} (cfg : Config Client) (job : Job)

/-- Every entry that a chunk of the plan becomes can be pushed, and never stops the push. -/
def EntriesPushable (rows : List ChangeRow) : Prop :=
  ∀ chunk ∈ planCaptureChunks rows, ∀ db draw db',
    LocalDb.insertChunk cfg.cipher cfg.clientId draw job.schemaVersion job.engineVersion chunk db =
        .ok db' →
      ∀ e ∈ db'.outbox.entries, e ∉ db.outbox.entries →
        e.Pushable ∧ ∀ o : Outbox, o.unacked.head? = some e → ∀ q n, planBatch o ≠ .oversized q n

variable {cfg job} {rows chunk : List ChangeRow} {e : OutboxEntry} {db db' : LocalDb} {draw : Draw}

theorem pushable_iff : e.Pushable ↔ e.ciphertext.length ≤ 1125000 := by
  simp only [OutboxEntry.Pushable, b64Len, maxPushBytes, pushWireBudget]
  omega

/-- The push stops at its first entry exactly when that entry is not pushable. -/
theorem planBatch_oversized_iff {o : Outbox} (hfirst : o.unacked.head? = some e) :
    (∀ q n, planBatch o ≠ .oversized q n) ↔ e.Pushable := by
  obtain ⟨rest, hunacked⟩ := List.head?_eq_some_iff.mp hfirst
  have htake : o.unacked.take maxPushChanges = e :: rest.take 999 := by
    rw [hunacked]
    rfl
  simp only [planBatch, htake, OutboxEntry.Pushable]
  split
  · rename_i hbig
    refine ⟨fun h => absurd rfl (h _ _), fun h => ?_⟩
    omega
  · rename_i hsmall
    refine ⟨fun _ => by omega, fun _ q n => ?_⟩
    simp

/-- What a chunk becomes: the encoded chunk and 146 bytes. -/
theorem insertChunk_entry
    (h : db.insertChunk cfg.cipher cfg.clientId draw job.schemaVersion job.engineVersion chunk =
      .ok db') :
    ∃ e, db'.outbox.entries = db.outbox.entries ++ [e] ∧ e ∉ db.outbox.entries ∧
      e.ciphertext.length = (Changeset.encode ⟨chunk⟩).length + 146 := by
  obtain ⟨blob, outbox, hblob, hinsert, rfl⟩ := LocalDb.insertChunk_eq_ok.mp h
  simp only [Outbox.insert] at hinsert
  split at hinsert
  · cases hinsert
  · rename_i hnew
    cases hinsert
    refine ⟨_, rfl, fun hold => hnew (List.mem_map_of_mem hold), ?_⟩
    rw [ChangesetCipher.length_encrypt hblob, wrappedKeyLen]
    omega

theorem size_le_sum {r : ChangeRow} (hr : r ∈ chunk) :
    rowEncodedSize r ≤ (chunk.map rowEncodedSize).sum := by
  obtain ⟨before, after, rfl⟩ := List.append_of_mem hr
  simp only [List.map_append, List.map_cons, List.sum_append, List.sum_cons]
  omega

/-- The byte budget keeps a chunk of several rows far below the limits, so only the size of a row
that goes alone matters. -/
theorem chunk_within_iff (h : chunk ∈ planCaptureChunks rows) :
    (Changeset.encode ⟨chunk⟩).length + 146 ≤ 1125000 ↔
      ∀ r ∈ chunk, rowEncodedSize r ≤ maxRowSize := by
  have hb := planFrom_chunks open_nil chunk h
  have hsize := length_encode chunk
  by_cases hlong : 1 < chunk.length
  · have hbytes := hb.bytes hlong
    refine ⟨fun _ r hr => ?_, fun _ => ?_⟩
    · have hle := size_le_sum hr
      simp only [maxRowSize, chunkPlaintextBudget] at hbytes ⊢
      omega
    · simp only [chunkPlaintextBudget] at hbytes
      omega
  · obtain ⟨r, rfl⟩ := List.length_eq_one_iff.mp (by
      have hpos := List.length_pos_iff.mpr hb.nonempty
      omega : chunk.length = 1)
    simp only [List.map_singleton, List.sum_singleton] at hsize
    simp only [List.mem_singleton, forall_eq, maxRowSize, hsize]
    omega

theorem entry_pushable_iff (hc : chunk ∈ planCaptureChunks rows)
    (h : db.insertChunk cfg.cipher cfg.clientId draw job.schemaVersion job.engineVersion chunk =
      .ok db') (he : e ∈ db'.outbox.entries) (hnew : e ∉ db.outbox.entries) :
    e.Pushable ↔ ∀ r ∈ chunk, rowEncodedSize r ≤ maxRowSize := by
  obtain ⟨f, hentries, _, hlen⟩ := insertChunk_entry h
  rw [hentries] at he
  obtain he | he := List.mem_append.mp he
  · exact absurd he hnew
  · rw [List.mem_singleton.mp he, pushable_iff, hlen]
    exact chunk_within_iff hc

variable (job) in
/-- Where the encryption succeeds, every chunk becomes an entry of the empty database. -/
theorem insertChunk_empty (hseals : CaptureRun.Seals cfg [draw] [chunk]) :
    ∃ db' e, LocalDb.insertChunk cfg.cipher cfg.clientId draw job.schemaVersion job.engineVersion
      chunk LocalDb.empty = .ok db' ∧ e ∈ db'.outbox.entries ∧ e ∉ LocalDb.empty.outbox.entries := by
  obtain ⟨blob, hblob⟩ := hseals chunk (by simp) draw (by simp)
    (LocalDb.empty.clientSeq + 1)
  obtain ⟨outbox, hinsert⟩ : ∃ outbox, LocalDb.empty.outbox.insert
      ⟨LocalDb.empty.clientSeq + 1, blob, job.schemaVersion, job.engineVersion, false, none,
        chunkLevel chunk⟩ = some outbox :=
    ⟨_, dif_neg List.not_mem_nil⟩
  have hok := LocalDb.insertChunk_eq_ok.mpr ⟨blob, outbox, hblob, hinsert, rfl⟩
  exact ⟨_, _, hok, (Outbox.mem_insert hinsert).mpr (Or.inr rfl), List.not_mem_nil⟩

/-- Chunking bounds no single row: the entries of a plan can all be pushed exactly when no row
alone is too large for a request. -/
theorem entriesPushable_iff (hseals : CaptureRun.Seals cfg [draw] (planCaptureChunks rows)) :
    EntriesPushable cfg job rows ↔ ∀ r ∈ rows, rowEncodedSize r ≤ maxRowSize := by
  constructor
  · intro h r hr
    rw [← planCaptureChunks_flatten rows] at hr
    obtain ⟨chunk, hc, hrc⟩ := List.mem_flatten.mp hr
    have hchunk : CaptureRun.Seals cfg [draw] [chunk] := fun d hd =>
      hseals d (List.mem_singleton.mp hd ▸ hc)
    obtain ⟨db', e, hok, he, hnew⟩ := insertChunk_empty job hchunk
    exact (entry_pushable_iff hc hok he hnew).mp (h chunk hc _ _ _ hok e he hnew).1 r hrc
  · intro h chunk hc db draw db' hok e he hnew
    have hpush : e.Pushable := by
      apply (entry_pushable_iff hc hok he hnew).mpr
      intro r hr
      apply h
      rw [← planCaptureChunks_flatten rows]
      exact List.mem_flatten.mpr ⟨chunk, hc, hr⟩
    exact ⟨hpush, fun o hfirst => (planBatch_oversized_iff hfirst).mpr hpush⟩

theorem plain_seals (draws : List Draw) (chunks : List (List ChangeRow)) :
    CaptureRun.Seals CaptureRun.plainConfig draws chunks :=
  fun _ _ _ _ _ => ⟨_, rfl⟩

theorem entriesPushable_straddled :
    EntriesPushable CaptureRun.plainConfig ⟨1, 1⟩ CaptureRun.straddled :=
  (entriesPushable_iff (plain_seals [Draw.blank] _)).mpr (by decide)

def noteRow (body : String) : ChangeRow :=
  ⟨"notes", [1], "body", .text body, 1, 1, some [1], 1, 0⟩

theorem length_le_noteRow (body : String) :
    (Bytes.utf8 body).length ≤ rowEncodedSize (noteRow body) := by
  simp only [rowEncodedSize, noteRow]
  omega

theorem planCaptureChunks_single (r : ChangeRow) : planCaptureChunks [r] = [[r]] := by
  simp [planCaptureChunks, planFrom]

theorem large_row_unpushable {r : ChangeRow} (hlarge : maxRowSize < rowEncodedSize r) :
    ¬EntriesPushable CaptureRun.plainConfig ⟨1, 1⟩ [r] := by
  intro h
  have hc : [r] ∈ planCaptureChunks [r] := by
    rw [planCaptureChunks_single]
    exact List.mem_singleton_self _
  obtain ⟨db', e, hok, he, hnew⟩ := insertChunk_empty ⟨1, 1⟩ (plain_seals [Draw.blank] [[r]])
  have hpush := (h _ hc _ _ _ hok e he hnew).1
  have hsmall := (entry_pushable_iff hc hok he hnew).mp hpush r (List.mem_singleton_self _)
  omega

/-- A note of 1,200,000 characters. -/
theorem large_note_stops_push :
    ¬EntriesPushable CaptureRun.plainConfig ⟨1, 1⟩
      [noteRow (String.ofList (List.replicate 1200000 'a'))] := by
  apply large_row_unpushable
  have hbytes := Bytes.length_le_utf8 (List.replicate 1200000 'a')
  rw [List.length_replicate] at hbytes
  have hlong : maxRowSize < 1200000 := by decide
  exact hlong.trans_le (hbytes.trans (length_le_noteRow _))

end PushableEntries

end YapStack.Sync
