import Mathlib.Data.List.Dedup
import YapStack.Sync.Change

namespace YapStack.Sync

/-- What `is_crr` and `column_exists` read of the local database. -/
structure LocalSchema where
  crrs : List String
  columns : List (String × String)

namespace LocalSchema

variable (sc : LocalSchema)

def isCrr (table : String) : Bool := sc.crrs.contains table

def columnExists (table col : String) : Bool := sc.columns.contains (table, col)

/-- The table is a CRR here, and the column is the sentinel or exists. -/
def ready (table cid : String) : Bool :=
  sc.isCrr table && (cid == sentinelCid || sc.columnExists table cid)

/-- Readiness never goes back. -/
def add (tables : List String) (cols : List (String × String)) : LocalSchema :=
  ⟨tables ++ sc.crrs, cols ++ sc.columns⟩

end LocalSchema

/-- `is_crr` by table, for one merge or one replay pass. -/
abbrev CrrCache := List (String × Bool)

namespace CrrCache

def isCrr (sc : LocalSchema) (crr : CrrCache) (table : String) : Bool × CrrCache :=
  match crr.lookup table with
  | some known => (known, crr)
  | none => (sc.isCrr table, (table, sc.isCrr table) :: crr)

def Agrees (sc : LocalSchema) (crr : CrrCache) : Prop :=
  ∀ table known, crr.lookup table = some known → known = sc.isCrr table

variable {sc : LocalSchema} {crr : CrrCache}

theorem agrees_nil : Agrees sc [] := (fun _ _ h => by cases h)

theorem isCrr_fst (h : crr.Agrees sc) (table : String) : (crr.isCrr sc table).1 = sc.isCrr table := by
  simp only [isCrr]
  split
  · rename_i known hk
    exact h table known hk
  · rfl

theorem Agrees.isCrr_snd (h : crr.Agrees sc) (table : String) :
    Agrees sc (crr.isCrr sc table).2 := by
  simp only [isCrr]
  split
  · exact h
  · intro t known hk
    rw [List.lookup_cons] at hk
    split at hk
    · rename_i ht
      rw [beq_iff_eq] at ht
      cases hk
      rw [ht]
    · exact h t known hk

end CrrCache

def isDeferrable (sc : LocalSchema) (crr : CrrCache) (r : ChangeRow) : Bool × CrrCache :=
  let p := crr.isCrr sc r.table
  if !p.1 then (true, p.2)
  else if r.cid == sentinelCid then (false, p.2)
  else (!sc.columnExists r.table r.cid, p.2)

/-- The `(table, pk)` whose rows apply in arrival order. -/
abbrev RowKey := String × Bytes

def ChangeRow.key (r : ChangeRow) : RowKey := (r.table, r.pk)

/-- A row of `_yapstack_pending_changes`. `arrival` is history: which of the
arrived rows it holds. -/
structure Stashed where
  id : Nat
  tbl : String
  cid : String
  rowBlob : Bytes
  arrival : Nat

/-- The part of the database that merges and replays write. `arrived` and
`applied` are history: the rows that merges took in, and which of them
`apply_change` succeeded on. -/
structure Inbox where
  pending : List Stashed
  nextId : Nat
  replayWaiting : Option Nat
  replayFailed : Option Nat
  arrived : List ChangeRow
  applied : List Nat

namespace Inbox

def empty : Inbox := ⟨[], 1, none, none, [], []⟩

/-- `apply_change` on the next arriving row. -/
def apply (i : Inbox) (r : ChangeRow) : Inbox :=
  { i with arrived := i.arrived ++ [r], applied := i.applied ++ [i.arrived.length] }

end Inbox

/-- `SQLITE_MAX_LENGTH`. -/
def maxBlobLength : Nat := 1000000000

def stash (i : Inbox) (r : ChangeRow) : Option Inbox :=
  let blob := (Changeset.mk [r]).encode
  if blob.length ≤ maxBlobLength then
    some { i with
      pending := i.pending ++ [⟨i.nextId, r.table, r.cid, blob, i.arrived.length⟩]
      nextId := i.nextId + 1
      arrived := i.arrived ++ [r] }
  else none

def firstRow (blob : Bytes) : Option ChangeRow :=
  (Changeset.decode blob).toOption.bind (fun cs => cs.rows.head?)

/-- The keys of the stashed rows of a CRR whose column exists. -/
def stashedKeysOf (sc : LocalSchema) (pending : List Stashed) (table : String) : List RowKey :=
  (pending.filter (fun s =>
    s.tbl == table && (s.cid == sentinelCid || sc.columnExists table s.cid))).filterMap
      (fun s => (firstRow s.rowBlob).map ChangeRow.key)

def readyStashedKeys (sc : LocalSchema) (pending : List Stashed) :
    CrrCache → List String → List RowKey × CrrCache
  | crr, [] => ([], crr)
  | crr, table :: tables =>
    let p := crr.isCrr sc table
    let q := readyStashedKeys sc pending p.2 tables
    if p.1 then (stashedKeysOf sc pending table ++ q.1, q.2) else q

def Changeset.tables (cs : Changeset) : List String := (cs.rows.map ChangeRow.table).dedup

/-- An open `merge_changeset` transaction, with the rows it has yet to take in. -/
structure MergeTx where
  cs : Changeset
  work : Inbox
  stashedReady : List RowKey
  crr : CrrCache
  rest : List ChangeRow
  applied : Nat
  quarantined : Nat

def beginMerge (sc : LocalSchema) (db : Inbox) (cs : Changeset) : MergeTx :=
  let p := readyStashedKeys sc db.pending [] cs.tables
  ⟨cs, db, p.1, p.2, cs.rows, 0, 0⟩

/-- The row is applied or stashed. No result is the error that ends the merge. -/
def applyOrQuarantine (sc : LocalSchema) (m : MergeTx) (r : ChangeRow) (applies : Bool) :
    Option MergeTx :=
  let behindStashed := !m.stashedReady.isEmpty && m.stashedReady.contains r.key
  let p := if behindStashed then (true, m.crr) else isDeferrable sc m.crr r
  if p.1 then
    (stash m.work r).map (fun i =>
      { m with work := i, crr := p.2, quarantined := m.quarantined + 1 })
  else if applies then
    some { m with work := m.work.apply r, crr := p.2, applied := m.applied + 1 }
  else none

structure ReplayReport where
  replayed : Nat
  waiting : Nat
  failed : Nat
  blocked : Nat

/-- A running `replay_pending`, with the candidates it has yet to try. -/
structure ReplayPass where
  candidates : List (Nat × Bytes)
  crr : CrrCache
  failedKeys : List RowKey
  report : ReplayReport

def beginReplay (db : Inbox) : ReplayPass :=
  ⟨db.pending.map (fun s => (s.id, s.rowBlob)), [], [], ⟨0, 0, 0, 0⟩⟩

def deletePending (db : Inbox) (id : Nat) : Inbox :=
  { db with pending := db.pending.filter (fun s => s.id ≠ id) }

/-- Apply a stashed row and delete it, in one transaction. -/
def applyPending (db : Inbox) (id : Nat) : Inbox :=
  { deletePending db id with
    applied := db.applied ++ (db.pending.filter (fun s => s.id = id)).map Stashed.arrival }

/-- One candidate of a replay pass: the database, and the pass unless it ends
in an error. -/
def replayRow (sc : LocalSchema) (db : Inbox) (p : ReplayPass) (id : Nat) (blob : Bytes)
    (rest : List (Nat × Bytes)) (applies : Bool) : Inbox × Option ReplayPass :=
  match Changeset.decode blob with
  | .error _ => (db, none)
  | .ok cs =>
    match cs.rows.head? with
    | none => (deletePending db id, some { p with candidates := rest })
    | some r =>
      if p.failedKeys.contains r.key then
        (db, some { p with
          candidates := rest
          report := { p.report with blocked := p.report.blocked + 1 } })
      else
        let d := isDeferrable sc p.crr r
        if d.1 then
          (db, some { p with
            candidates := rest
            crr := d.2
            report := { p.report with waiting := p.report.waiting + 1 } })
        else if applies then
          (applyPending db id, some { p with
            candidates := rest
            crr := d.2
            report := { p.report with replayed := p.report.replayed + 1 } })
        else
          (db, some { p with
            candidates := rest
            crr := d.2
            failedKeys := r.key :: p.failedKeys
            report := { p.report with failed := p.report.failed + 1 } })

/-- A missing count stays missing while it is zero. -/
def persistCount (current : Option Nat) (n : Nat) : Option Nat :=
  if current.isNone && n = 0 then none else some n

def persistReplayOutcome (db : Inbox) (report : ReplayReport) : Inbox :=
  { db with
    replayWaiting := persistCount db.replayWaiting report.waiting
    replayFailed := persistCount db.replayFailed (report.failed + report.blocked) }

variable {sc : LocalSchema} {crr : CrrCache} {r : ChangeRow}

theorem isDeferrable_fst (h : crr.Agrees sc) (r : ChangeRow) :
    (isDeferrable sc crr r).1 = !sc.ready r.table r.cid := by
  have hc := CrrCache.isCrr_fst h r.table
  cases hb : sc.isCrr r.table <;> rw [hb] at hc <;>
    cases hs : r.cid == sentinelCid <;>
      simp [isDeferrable, LocalSchema.ready, hc, hb, hs]

theorem isDeferrable_agrees (h : crr.Agrees sc) (r : ChangeRow) :
    CrrCache.Agrees sc (isDeferrable sc crr r).2 := by
  have hc := h.isCrr_snd r.table
  simp only [isDeferrable]
  split
  · exact hc
  · split <;> exact hc

theorem readyStashedKeys_agrees {pending : List Stashed} (tables : List String)
    (h : crr.Agrees sc) : CrrCache.Agrees sc (readyStashedKeys sc pending crr tables).2 := by
  induction tables generalizing crr with
  | nil => exact h
  | cons table tables ih =>
    have hrest := ih (h.isCrr_snd table)
    simp only [readyStashedKeys]
    split <;> exact hrest

/-- Every ready stashed row of the tables holds its key back. -/
theorem mem_readyStashedKeys {pending : List Stashed} {tables : List String} (h : crr.Agrees sc)
    {s : Stashed} (hs : s ∈ pending) (ht : s.tbl ∈ tables) (hr : sc.ready s.tbl s.cid = true)
    (hf : firstRow s.rowBlob = some r) : r.key ∈ (readyStashedKeys sc pending crr tables).1 := by
  simp only [LocalSchema.ready, Bool.and_eq_true] at hr
  obtain ⟨hcrr, hcid⟩ := hr
  induction tables generalizing crr with
  | nil => cases ht
  | cons table tables ih =>
    have hc := CrrCache.isCrr_fst h table
    simp only [readyStashedKeys]
    obtain rfl | ht := List.mem_cons.mp ht
    · rw [hc, hcrr, if_pos rfl]
      apply List.mem_append_left
      have hmem : s ∈ pending.filter (fun u =>
          u.tbl == s.tbl && (u.cid == sentinelCid || sc.columnExists s.tbl u.cid)) := by
        rw [List.mem_filter]
        exact ⟨hs, by simp [hcid]⟩
      exact List.mem_filterMap.mpr ⟨s, hmem, by rw [hf]; rfl⟩
    · have hrest := ih (h.isCrr_snd table) ht
      split
      · exact List.mem_append_right _ hrest
      · exact hrest

theorem mem_tables {cs : Changeset} (h : r ∈ cs.rows) : r.table ∈ cs.tables :=
  List.mem_dedup.mpr (List.mem_map_of_mem h)

/-- A row that SQLite stores reads back. -/
theorem fits_of_stored (h : (Changeset.mk [r]).encode.length ≤ maxBlobLength) :
    (Changeset.mk [r]).Fits := by
  have hbound : maxBlobLength < 256 ^ 4 := by decide
  simp only [Changeset.encode, List.flatMap_cons, List.flatMap_nil, List.append_nil,
    List.length_append, Bytes.length_be, ChangeRow.encode, putBytes] at h
  refine ⟨by simp, ?_⟩
  intro a ha
  rw [List.mem_singleton.mp ha]
  refine ⟨?_, ?_, ?_, ?_, ?_⟩
  · rw [Fits]
    omega
  · rw [Fits]
    omega
  · rw [Fits]
    omega
  · cases hv : r.val with
    | text s =>
      simp only [hv, Value.encode, putBytes, List.length_cons, List.length_append] at h
      simp only [Value.Fits, Fits]
      omega
    | blob b =>
      simp only [hv, Value.encode, putBytes, List.length_cons, List.length_append] at h
      simp only [Value.Fits, Fits]
      omega
    | null => trivial
    | integer i => trivial
    | real bits => trivial
  · intro s hs
    simp only [hs, encodeSite, putBytes, List.length_cons, List.length_append] at h
    rw [Fits]
    omega

theorem decode_stored (h : (Changeset.mk [r]).encode.length ≤ maxBlobLength) :
    Changeset.decode (Changeset.mk [r]).encode = .ok ⟨[r]⟩ := by
  have hread := decode_encode (fits_of_stored h) []
  rwa [List.append_nil] at hread

end YapStack.Sync
