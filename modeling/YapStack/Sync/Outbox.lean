import YapStack.Sync.Change
import YapStack.Sync.Crypto
import YapStack.Sync.Transport

set_option linter.unusedSectionVars false

namespace YapStack.Sync

open Relay.Sequence

def maxPushChanges : Nat := 1000

def maxPushBytes : Nat := 5 * 1024 * 1024

def pushWireBudget : Nat := 1500000

def pushMaxEntriesPerCycle : Nat := 100000

/-- The length of the padded base64 encoding. -/
def b64Len (raw : Nat) : Nat := (raw + 2) / 3 * 4

structure OutboxEntry where
  clientSeq : Int
  ciphertext : Bytes
  schemaVersion : Int
  engineVersion : Int
  acked : Bool
  changesetSeq : Option Nat
  requiredSyncCapability : Int
  deriving DecidableEq

/-- `_yapstack_outbox`, whose primary key is `client_seq`. -/
structure Outbox where
  entries : List OutboxEntry
  primaryKey : (entries.map OutboxEntry.clientSeq).Nodup

namespace Outbox

def empty : Outbox := ⟨[], List.nodup_nil⟩

/-- Insert a row, unless its key is taken. -/
def insert (o : Outbox) (e : OutboxEntry) : Option Outbox :=
  if h : e.clientSeq ∈ o.entries.map OutboxEntry.clientSeq then none
  else some ⟨o.entries ++ [e], by
    rw [List.map_append]
    exact List.Nodup.append o.primaryKey (List.nodup_singleton _)
      (by simpa [List.disjoint_singleton] using h)⟩

def ackEntry (clientSeq : Int) (changesetSeq : Nat) (e : OutboxEntry) : OutboxEntry :=
  if e.clientSeq = clientSeq then { e with acked := true, changesetSeq := some changesetSeq } else e

@[simp] theorem ackEntry_clientSeq (q : Int) (s : Nat) (e : OutboxEntry) :
    (ackEntry q s e).clientSeq = e.clientSeq := by
  simp only [ackEntry]
  split <;> rfl

@[simp] theorem ackEntry_ciphertext (q : Int) (s : Nat) (e : OutboxEntry) :
    (ackEntry q s e).ciphertext = e.ciphertext := by
  simp only [ackEntry]
  split <;> rfl

@[simp] theorem ackEntry_requiredSyncCapability (q : Int) (s : Nat) (e : OutboxEntry) :
    (ackEntry q s e).requiredSyncCapability = e.requiredSyncCapability := by
  simp only [ackEntry]
  split <;> rfl

/-- `UPDATE _yapstack_outbox SET acked=1, changeset_seq=.. WHERE client_seq=..` -/
def ack (o : Outbox) (clientSeq : Int) (changesetSeq : Nat) : Outbox :=
  ⟨o.entries.map (ackEntry clientSeq changesetSeq), by
    have h : OutboxEntry.clientSeq ∘ ackEntry clientSeq changesetSeq = OutboxEntry.clientSeq := by
      funext e
      exact ackEntry_clientSeq clientSeq changesetSeq e
    rw [List.map_map, h]
    exact o.primaryKey⟩

/-- `DELETE FROM _yapstack_outbox WHERE acked=0` -/
def dropUnacked (o : Outbox) : Outbox :=
  ⟨o.entries.filter (fun e => e.acked), o.primaryKey.sublist (List.filter_sublist.map _)⟩

/-- The unacked entries in `client_seq` order. -/
def unacked (o : Outbox) : List OutboxEntry :=
  (o.entries.filter (fun e => !e.acked)).insertionSort (fun a b => a.clientSeq ≤ b.clientSeq)

theorem mem_unacked {o : Outbox} {e : OutboxEntry} :
    e ∈ o.unacked ↔ e ∈ o.entries ∧ e.acked = false := by
  simp only [unacked, List.mem_insertionSort, List.mem_filter, Bool.not_eq_true']

theorem mem_insert {o p : Outbox} {e f : OutboxEntry} (h : o.insert e = some p) :
    f ∈ p.entries ↔ f ∈ o.entries ∨ f = e := by
  simp only [insert] at h
  split at h
  · cases h
  · cases h
    rw [List.mem_append, List.mem_singleton]

theorem mem_ack {o : Outbox} {q : Int} {s : Nat} {f : OutboxEntry} :
    f ∈ (o.ack q s).entries ↔ ∃ e ∈ o.entries, ackEntry q s e = f := by
  simp only [ack, List.mem_map]

theorem mem_dropUnacked {o : Outbox} {f : OutboxEntry} :
    f ∈ o.dropUnacked.entries ↔ f ∈ o.entries ∧ f.acked = true := by
  simp only [dropUnacked, List.mem_filter]

end Outbox

structure Batch where
  entries : List OutboxEntry
  level : Int

def OutboxEntry.change {Client : Type} (clientId : Client) (e : OutboxEntry) :
    PushChange Client :=
  ⟨clientId, e.clientSeq, e.ciphertext, e.schemaVersion, e.engineVersion⟩

/-- The entries that join a batch of `count` entries and these sizes, in order. -/
def fillBatch (level : Int) (count wire raw : Nat) : List OutboxEntry → List OutboxEntry
  | [] => []
  | e :: es =>
    let rawLen := e.ciphertext.length
    if e.requiredSyncCapability ≠ level ∨ maxPushChanges ≤ count ∨
        pushWireBudget < wire + b64Len rawLen ∨ maxPushBytes < raw + rawLen then []
    else e :: fillBatch level (count + 1) (wire + b64Len rawLen) (raw + rawLen) es

inductive Planned
  | drained
  | oversized (clientSeq : Int) (size : Nat)
  | batch (b : Batch)

/-- The next batch. Its first entry goes whatever the budgets, unless it alone
is too large for any request. -/
def planBatch (o : Outbox) : Planned :=
  match o.unacked.take maxPushChanges with
  | [] => .drained
  | first :: rest =>
    let raw := first.ciphertext.length
    let wire := b64Len raw
    if pushWireBudget < wire ∨ maxPushBytes < raw then .oversized first.clientSeq wire
    else
      .batch ⟨first :: fillBatch first.requiredSyncCapability 1 wire raw rest,
        first.requiredSyncCapability⟩

/-- A batch of the unacked entries: the first so many of them, all at its level. -/
structure Batch.Prefix (b : Batch) (o : Outbox) : Prop where
  nonempty : b.entries ≠ []
  first : b.entries <+: o.unacked
  level : ∀ e ∈ b.entries, e.requiredSyncCapability = b.level

theorem fillBatch_prefix (level : Int) (count wire raw : Nat) (es : List OutboxEntry) :
    fillBatch level count wire raw es <+: es ∧
      ∀ e ∈ fillBatch level count wire raw es, e.requiredSyncCapability = level := by
  induction es generalizing count wire raw with
  | nil => exact ⟨List.prefix_refl [], by simp [fillBatch]⟩
  | cons e es ih =>
    simp only [fillBatch]
    split
    · exact ⟨List.nil_prefix, by simp⟩
    · rename_i hfits
      obtain ⟨hpre, hlevel⟩ := ih (count + 1) (wire + b64Len e.ciphertext.length)
        (raw + e.ciphertext.length)
      refine ⟨List.cons_prefix_cons.mpr ⟨rfl, hpre⟩, fun f hf => ?_⟩
      obtain rfl | hf := List.mem_cons.mp hf
      · by_contra hne
        exact hfits (Or.inl hne)
      · exact hlevel f hf

theorem planBatch_heads {o : Outbox} {b : Batch} (h : planBatch o = .batch b) : b.Prefix o := by
  simp only [planBatch] at h
  split at h
  · cases h
  · rename_i first rest hmetas
    split at h
    · cases h
    · cases h
      obtain ⟨hpre, hlevel⟩ := fillBatch_prefix first.requiredSyncCapability 1
        (b64Len first.ciphertext.length) first.ciphertext.length rest
      have htake : first :: rest <+: o.unacked := hmetas ▸ List.take_prefix _ _
      refine ⟨by simp, (List.cons_prefix_cons.mpr ⟨rfl, hpre⟩).trans htake, fun e he => ?_⟩
      obtain rfl | he := List.mem_cons.mp he
      · rfl
      · exact hlevel e he

/-- The durable state of the push side: the change log and the sync tables. -/
structure LocalDb where
  log : List StoredRow
  dbVersion : Int
  pushWatermark : Int
  clientSeq : Int
  outbox : Outbox

/-- Open an outbox blob of `(client_id, client_seq)`. An error names the stage that failed. -/
def openBlob {Client : Type} (cipher : ChangesetCipher Client) (clientId : Client) (clientSeq : Int)
    (blob : Bytes) : Except String Changeset :=
  match cipher.decrypt clientId clientSeq blob with
  | .error _ => .error "decrypt/authenticate"
  | .ok pt =>
    match Changeset.decode pt with
    | .error _ => .error "changeset decode"
    | .ok cs => .ok cs

def chunkLevel (rows : List ChangeRow) : Int := ((rows.map ChangeRow.level).max?).getD 0

theorem level_le_chunkLevel {rows : List ChangeRow} {r : ChangeRow} (h : r ∈ rows) :
    r.level ≤ chunkLevel rows := by
  have hmem : r.level ∈ rows.map ChangeRow.level := List.mem_map_of_mem h
  cases hmax : (rows.map ChangeRow.level).max? with
  | none => simp [List.max?_eq_none_iff.mp hmax] at hmem
  | some m =>
    rw [chunkLevel, hmax]
    exact (List.max?_eq_some_iff.mp hmax).2 _ hmem

theorem chunkLevel_nonneg (rows : List ChangeRow) : 0 ≤ chunkLevel rows := by
  cases rows with
  | nil => exact le_refl _
  | cons r rows =>
    exact (tableSyncCapability_nonneg r.table).trans (level_le_chunkLevel List.mem_cons_self)

namespace LocalDb

def empty : LocalDb := ⟨[], 0, 0, 0, Outbox.empty⟩

/-- A write or a merge: some rows of the log go, others come under a new `db_version`. -/
def write (db : LocalDb) (removed : ChangeRow → Bool) (added : List StoredRow) (version : Int) :
    LocalDb :=
  { db with
    log := db.log.filter (fun r => !removed r.val) ++ added
    dbVersion := version }

section InsertChunk

variable {Client : Type} (cipher : ChangesetCipher Client) (clientId : Client) (draw : Draw)
variable (schemaVersion engineVersion : Int) (rows : List ChangeRow) (db : LocalDb)

/-- Encrypt one chunk into a fresh entry under the next `client_seq`. -/
def insertChunk : Except SyncError LocalDb :=
  let seq := db.clientSeq + 1
  match cipher.encrypt draw clientId seq (Changeset.encode ⟨rows⟩) with
  | .error e => .error (.crypto e)
  | .ok blob =>
    match db.outbox.insert
        ⟨seq, blob, schemaVersion, engineVersion, false, none, chunkLevel rows⟩ with
    | none => .error .database
    | some outbox => .ok { db with clientSeq := seq, outbox := outbox }

end InsertChunk

/-- Jump the counter to the relay's tail, rewind the watermark and drop what is unacked. -/
def reseedCounterToTail (db : LocalDb) (target : Int) : LocalDb :=
  { db with clientSeq := target, pushWatermark := 0, outbox := db.outbox.dropUnacked }

variable {Client : Type} {cipher : ChangesetCipher Client} {clientId : Client} {draw : Draw}
variable {schemaVersion engineVersion : Int} {rows : List ChangeRow} {db db' : LocalDb}

theorem openBlob_encrypt {clientSeq : Int} {blob : Bytes} (hfits : Changeset.Fits ⟨rows⟩)
    (h : cipher.encrypt draw clientId clientSeq (Changeset.encode ⟨rows⟩) = .ok blob) :
    openBlob cipher clientId clientSeq blob = .ok ⟨rows⟩ := by
  have hdecode := decode_encode hfits []
  rw [List.append_nil] at hdecode
  simp only [openBlob, ChangesetCipher.decrypt_encrypt h, hdecode]

theorem insertChunk_eq_ok :
    db.insertChunk cipher clientId draw schemaVersion engineVersion rows = .ok db' ↔
      ∃ blob outbox,
        cipher.encrypt draw clientId (db.clientSeq + 1) (Changeset.encode ⟨rows⟩) = .ok blob ∧
        db.outbox.insert ⟨db.clientSeq + 1, blob, schemaVersion, engineVersion, false, none,
          chunkLevel rows⟩ = some outbox ∧
        { db with clientSeq := db.clientSeq + 1, outbox := outbox } = db' := by
  simp only [insertChunk]
  split
  · rename_i e he
    simp [he]
  · rename_i blob hblob
    split
    · rename_i hinsert
      simp [hblob, hinsert]
    · rename_i outbox hinsert
      simp [hblob, hinsert]

/-- What a chunk's transaction adds: one unacked entry, whose blob opens to the chunk. -/
theorem insertChunk_ok
    (h : db.insertChunk cipher clientId draw schemaVersion engineVersion rows = .ok db') :
    ∃ e outbox, db' = { db with clientSeq := db.clientSeq + 1, outbox := outbox } ∧
      db.outbox.insert e = some outbox ∧ e.acked = false ∧
      e.requiredSyncCapability = chunkLevel rows ∧
      (Changeset.Fits ⟨rows⟩ → openBlob cipher clientId e.clientSeq e.ciphertext = .ok ⟨rows⟩) := by
  obtain ⟨blob, outbox, hblob, hinsert, rfl⟩ := insertChunk_eq_ok.mp h
  exact ⟨_, outbox, rfl, hinsert, rfl, rfl, fun hfits => openBlob_encrypt hfits hblob⟩

end LocalDb

end YapStack.Sync
