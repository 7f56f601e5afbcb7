import Mathlib.Data.List.Basic
import Mathlib.Data.List.Sort
import YapStack.Foundation.Codec

namespace YapStack.Sync

section Change

section Change

open Codec

/-- A SQLite value. A real is its bit pattern. -/
inductive Value
  | null
  | integer (i : Int64)
  | real (bits : UInt64)
  | text (s : String)
  | blob (b : Bytes)
  deriving DecidableEq

/-- One `crsql_changes` row. -/
structure ChangeRow where
  table : String
  pk : Bytes
  cid : String
  val : Value
  colVersion : Int64
  dbVersion : Int64
  siteId : Option Bytes
  cl : Int64
  seq : Int64
  deriving DecidableEq

structure Changeset where
  rows : List ChangeRow
  deriving DecidableEq

/-- The `cid` of a row-level create or delete. -/
def sentinelCid : String := "-1"

def putBytes (b : Bytes) : Bytes := Bytes.be 4 b.length ++ b

def putI64 (i : Int64) : Bytes := Bytes.u64be i.toUInt64

def Value.encode : Value → Bytes
  | .null => [0]
  | .integer i => 1 :: putI64 i
  | .real bits => 2 :: Bytes.u64be bits
  | .text s => 3 :: putBytes (Bytes.utf8 s)
  | .blob b => 4 :: putBytes b

def encodeSite : Option Bytes → Bytes
  | none => [0]
  | some s => 1 :: putBytes s

def ChangeRow.encode (r : ChangeRow) : Bytes :=
  putBytes (Bytes.utf8 r.table) ++ (putBytes r.pk ++ (putBytes (Bytes.utf8 r.cid) ++
    (r.val.encode ++ (putI64 r.colVersion ++ (putI64 r.dbVersion ++ (encodeSite r.siteId ++
      (putI64 r.cl ++ putI64 r.seq)))))))

def Changeset.encode (cs : Changeset) : Bytes :=
  Bytes.be 4 cs.rows.length ++ cs.rows.flatMap ChangeRow.encode

def takeBytes : Reader String Bytes := takeBlock "truncated length" "truncated bytes"

def takeI64 : Reader String Int64 := fun b =>
  (takeBe 8 "truncated i64" b).map (fun p => ((UInt64.ofNat p.1).toInt64, p.2))

def takeU8 : Reader String UInt8 := fun b =>
  match b with
  | [] => .error "truncated u8"
  | x :: rest => .ok (x, rest)

def takeText (notUtf8 : String) : Reader String String := fun b =>
  (takeBytes b).bind (fun p =>
    match Bytes.fromUtf8 p.1 with
    | none => .error notUtf8
    | some s => .ok (s, p.2))

def takeValue : Reader String Value := fun b =>
  (takeU8 b).bind (fun p =>
    if p.1 = 0 then .ok (.null, p.2)
    else if p.1 = 1 then (takeI64 p.2).map (fun q => (.integer q.1, q.2))
    else if p.1 = 2 then (takeI64 p.2).map (fun q => (.real q.1.toUInt64, q.2))
    else if p.1 = 3 then (takeText "text not utf8" p.2).map (fun q => (.text q.1, q.2))
    else if p.1 = 4 then (takeBytes p.2).map (fun q => (.blob q.1, q.2))
    else .error ("bad value tag " ++ toString p.1.toNat))

def takeSite : Reader String (Option Bytes) := fun b =>
  (takeU8 b).bind (fun p =>
    if p.1 = 0 then .ok (none, p.2)
    else if p.1 = 1 then (takeBytes p.2).map (fun q => (some q.1, q.2))
    else .error ("bad site tag " ++ toString p.1.toNat))

def takeRow : Reader String ChangeRow := fun b => do
  let (table, b) ← takeText "table not utf8" b
  let (pk, b) ← takeBytes b
  let (cid, b) ← takeText "cid not utf8" b
  let (val, b) ← takeValue b
  let (colVersion, b) ← takeI64 b
  let (dbVersion, b) ← takeI64 b
  let (siteId, b) ← takeSite b
  let (cl, b) ← takeI64 b
  let (seq, b) ← takeI64 b
  return (⟨table, pk, cid, val, colVersion, dbVersion, siteId, cl, seq⟩, b)

/-- Bytes after the last row are ignored. -/
def Changeset.decode (buf : Bytes) : Except String Changeset := do
  let (n, b) ← takeBe 4 "truncated header" buf
  let (rows, _) ← takeMany takeRow n b
  return ⟨rows⟩

/-- The length fits the four bytes it is written in. -/
def Fits (b : Bytes) : Prop := b.length < 256 ^ 4

def Value.Fits : Value → Prop
  | .text s => Sync.Fits (Bytes.utf8 s)
  | .blob b => Sync.Fits b
  | _ => True

structure ChangeRow.Fits (r : ChangeRow) : Prop where
  table : Sync.Fits (Bytes.utf8 r.table)
  pk : Sync.Fits r.pk
  cid : Sync.Fits (Bytes.utf8 r.cid)
  val : r.val.Fits
  site : ∀ s, r.siteId = some s → Sync.Fits s

structure Changeset.Fits (cs : Changeset) : Prop where
  count : cs.rows.length < 256 ^ 4
  rows : ∀ r ∈ cs.rows, r.Fits

theorem takeBytes_takes {b : Bytes} (h : Fits b) : Takes takeBytes (putBytes b) b :=
  takeBlock_takes _ _ h

theorem takeI64_takes (i : Int64) : Takes takeI64 (putI64 i) i := by
  intro rest
  have hlt : i.toUInt64.toNat < 256 ^ 8 := i.toUInt64.toNat_lt
  have hread := takeBe_takes "truncated i64" hlt rest
  simp [takeI64, putI64, Bytes.u64be, hread, Except.map]

theorem takeText_takes (e : String) {s : String} (h : Fits (Bytes.utf8 s)) :
    Takes (takeText e) (putBytes (Bytes.utf8 s)) s := by
  intro rest
  simp only [takeText, takeBytes_takes h rest, Except.bind, Bytes.fromUtf8_utf8]

theorem takeValue_takes {v : Value} (h : v.Fits) : Takes takeValue v.encode v := by
  intro rest
  cases v with
  | null => rfl
  | integer i =>
    simp [Value.encode, takeValue, takeU8, Except.bind, takeI64_takes i rest, Except.map]
  | real bits =>
    have hread := takeI64_takes bits.toInt64 rest
    simp only [putI64, UInt64.toUInt64_toInt64] at hread
    simp [Value.encode, takeValue, takeU8, Except.bind, hread, Except.map]
  | text s =>
    simp [Value.encode, takeValue, takeU8, Except.bind, takeText_takes _ h rest, Except.map]
  | blob b =>
    simp [Value.encode, takeValue, takeU8, Except.bind, takeBytes_takes h rest, Except.map]

theorem takeSite_takes {site : Option Bytes} (h : ∀ s, site = some s → Fits s) :
    Takes takeSite (encodeSite site) site := by
  intro rest
  cases site with
  | none => rfl
  | some s =>
    simp [encodeSite, takeSite, takeU8, Except.bind, takeBytes_takes (h s rfl) rest, Except.map]

theorem takeRow_takes {r : ChangeRow} (h : r.Fits) : Takes takeRow r.encode r := by
  intro rest
  simp only [ChangeRow.encode, List.append_assoc, takeRow, bind, Except.bind, pure, Except.pure,
    takeText_takes _ h.table _, takeBytes_takes h.pk _, takeText_takes _ h.cid _,
    takeValue_takes h.val _, takeI64_takes _ _, takeSite_takes h.site _]

theorem decode_encode {cs : Changeset} (h : cs.Fits) (rest : Bytes) :
    Changeset.decode (cs.encode ++ rest) = .ok cs := by
  have hmany := takeMany_takes (fun r hr => takeRow_takes (h.rows r hr)) rest
  simp only [Changeset.encode, List.append_assoc, Changeset.decode, bind, Except.bind, pure,
    Except.pure, takeBe_takes "truncated header" h.count _, hmany]

end Change

section ChangeExact

open Codec

theorem takeI64_returns : Returns takeI64 putI64 (fun _ => True) := by
  intro b i rest h
  obtain ⟨⟨n, rest'⟩, hn, heq⟩ := map_ok.mp h
  cases heq
  obtain ⟨hlt, rfl⟩ := takeBe_returns 8 _ b n rest' hn
  refine ⟨trivial, ?_⟩
  have hnat : (UInt64.ofNat n).toNat = n := by
    rw [UInt64.toNat_ofNat']
    exact Nat.mod_eq_of_lt hlt
  simp only [putI64, Bytes.u64be, UInt64.toUInt64_toInt64, hnat]

theorem takeU8_returns : Returns takeU8 (fun x => [x]) (fun _ => True) := by
  intro b x rest h
  cases b with
  | nil => cases h
  | cons y b =>
    cases h
    exact ⟨trivial, rfl⟩

theorem takeText_returns (e : String) :
    Returns (takeText e) (fun s => putBytes (Bytes.utf8 s)) (fun s => Fits (Bytes.utf8 s)) := by
  intro b s rest h
  obtain ⟨⟨a, rest'⟩, ha, hs⟩ := bind_ok.mp h
  dsimp only at hs
  split at hs
  · cases hs
  · rename_i s' htext
    cases hs
    obtain ⟨hfits, rfl⟩ := takeBlock_returns _ _ b a rest ha
    dsimp only
    rw [Bytes.utf8_fromUtf8 htext]
    exact ⟨hfits, rfl⟩

theorem takeValue_returns : Returns takeValue Value.encode Value.Fits := by
  intro b v rest h
  obtain ⟨⟨tag, b'⟩, htag, hread⟩ := bind_ok.mp h
  obtain ⟨-, rfl⟩ := takeU8_returns b tag b' htag
  dsimp only at hread
  split at hread
  · rename_i heq
    cases hread
    exact ⟨trivial, by rw [heq]; rfl⟩
  split at hread
  · rename_i heq
    obtain ⟨⟨i, rest'⟩, hi, hv⟩ := map_ok.mp hread
    cases hv
    obtain ⟨-, rfl⟩ := takeI64_returns b' i rest' hi
    exact ⟨trivial, by rw [heq]; rfl⟩
  split at hread
  · rename_i heq
    obtain ⟨⟨i, rest'⟩, hi, hv⟩ := map_ok.mp hread
    cases hv
    obtain ⟨-, rfl⟩ := takeI64_returns b' i rest' hi
    exact ⟨trivial, by rw [heq]; rfl⟩
  split at hread
  · rename_i heq
    obtain ⟨⟨s, rest'⟩, hs, hv⟩ := map_ok.mp hread
    cases hv
    obtain ⟨hfits, rfl⟩ := takeText_returns _ b' s rest' hs
    exact ⟨hfits, by rw [heq]; rfl⟩
  split at hread
  · rename_i heq
    obtain ⟨⟨a, rest'⟩, ha, hv⟩ := map_ok.mp hread
    cases hv
    obtain ⟨hfits, rfl⟩ := takeBlock_returns _ _ b' a rest' ha
    exact ⟨hfits, by rw [heq]; rfl⟩
  · cases hread

theorem takeSite_returns :
    Returns takeSite encodeSite (fun site => ∀ s, site = some s → Fits s) := by
  intro b site rest h
  obtain ⟨⟨tag, b'⟩, htag, hread⟩ := bind_ok.mp h
  obtain ⟨-, rfl⟩ := takeU8_returns b tag b' htag
  dsimp only at hread
  split at hread
  · rename_i heq
    cases hread
    exact ⟨by simp, by rw [heq]; rfl⟩
  split at hread
  · rename_i heq
    obtain ⟨⟨a, rest'⟩, ha, hs⟩ := map_ok.mp hread
    cases hs
    obtain ⟨hfits, rfl⟩ := takeBlock_returns _ _ b' a rest' ha
    refine ⟨fun s hs => ?_, by rw [heq]; rfl⟩
    cases hs
    exact hfits
  · cases hread

theorem takeRow_returns : Returns takeRow ChangeRow.encode ChangeRow.Fits := by
  intro b r rest h
  obtain ⟨⟨table, b1⟩, h1, h⟩ := bind_ok.mp h
  obtain ⟨⟨pk, b2⟩, h2, h⟩ := bind_ok.mp h
  obtain ⟨⟨cid, b3⟩, h3, h⟩ := bind_ok.mp h
  obtain ⟨⟨val, b4⟩, h4, h⟩ := bind_ok.mp h
  obtain ⟨⟨colVersion, b5⟩, h5, h⟩ := bind_ok.mp h
  obtain ⟨⟨dbVersion, b6⟩, h6, h⟩ := bind_ok.mp h
  obtain ⟨⟨siteId, b7⟩, h7, h⟩ := bind_ok.mp h
  obtain ⟨⟨cl, b8⟩, h8, h⟩ := bind_ok.mp h
  obtain ⟨⟨seq, b9⟩, h9, h⟩ := bind_ok.mp h
  cases h
  obtain ⟨htable, rfl⟩ := takeText_returns _ b table b1 h1
  obtain ⟨hpk, rfl⟩ := takeBlock_returns _ _ b1 pk b2 h2
  obtain ⟨hcid, rfl⟩ := takeText_returns _ b2 cid b3 h3
  obtain ⟨hval, rfl⟩ := takeValue_returns b3 val b4 h4
  obtain ⟨-, rfl⟩ := takeI64_returns b4 colVersion b5 h5
  obtain ⟨-, rfl⟩ := takeI64_returns b5 dbVersion b6 h6
  obtain ⟨hsite, rfl⟩ := takeSite_returns b6 siteId b7 h7
  obtain ⟨-, rfl⟩ := takeI64_returns b7 cl b8 h8
  obtain ⟨-, rfl⟩ := takeI64_returns b8 seq rest h9
  refine ⟨⟨htable, hpk, hcid, hval, hsite⟩, ?_⟩
  simp only [ChangeRow.encode, putBytes, List.append_assoc]

/-- The decoder accepts what starts with an encoding, and nothing else. -/
theorem decode_ok_iff (b : Bytes) (cs : Changeset) :
    Changeset.decode b = .ok cs ↔ cs.Fits ∧ cs.encode <+: b := by
  constructor
  · intro h
    obtain ⟨⟨n, b'⟩, hn, h⟩ := bind_ok.mp h
    obtain ⟨⟨rows, rest⟩, hrows, h⟩ := bind_ok.mp h
    cases h
    obtain ⟨hlt, rfl⟩ := takeBe_returns 4 _ b n b' hn
    obtain ⟨⟨rfl, hfits⟩, rfl⟩ := takeMany_returns takeRow_returns n b' rows rest hrows
    exact ⟨⟨hlt, hfits⟩, rest, by simp only [Changeset.encode, List.append_assoc]⟩
  · rintro ⟨hfits, rest, rfl⟩
    exact decode_encode hfits rest

end ChangeExact

end Change

section Capture

section Schema

def syncTables : List String :=
  ["sessions", "segments", "notes", "note_versions", "folders", "session_folders",
    "chat_messages", "dictation_history", "tags", "session_tags", "session_audio_parts", "shares"]

def cutoverSyncTableCount : Nat := 12

/-- Synced tables that need a level above `tableReadinessLevel`. -/
def gatedSyncTables : List (String × Int) := []

def tableReadinessLevel : Int := 1

/-- The sync capability level that rows of a table need. A table that is not
listed needs the table-readiness quarantine. -/
def tableSyncCapability (table : String) : Int :=
  if (syncTables.take cutoverSyncTableCount).contains table then 0
  else ((gatedSyncTables.find? (fun t => t.1 = table)).map Prod.snd).getD tableReadinessLevel

theorem tableSyncCapability_nonneg (table : String) : 0 ≤ tableSyncCapability table := by
  simp only [tableSyncCapability, gatedSyncTables, List.find?_nil, Option.map_none,
    Option.getD_none, tableReadinessLevel]
  split <;> omega

end Schema

section Capture

/-- A row as SQLite holds it: no value is too long for the codec. -/
abbrev StoredRow := {r : ChangeRow // r.Fits}

def chunkRows : Nat := 5000

def chunkPlaintextBudget : Nat := 512 * 1024

def ChangeRow.version (r : ChangeRow) : Int := r.dbVersion.toInt

def ChangeRow.level (r : ChangeRow) : Int := tableSyncCapability r.table

/-- The order `(db_version, seq)`. -/
def ChangeRow.Before (a b : ChangeRow) : Prop :=
  a.version < b.version ∨ (a.version = b.version ∧ a.seq.toInt ≤ b.seq.toInt)

instance : DecidableRel ChangeRow.Before := fun _ _ => inferInstanceAs (Decidable (_ ∨ _))

/-- This device's own rows above `since`, in `(db_version, seq)` order. -/
def readLocalChangesSince (siteId : Bytes) (log : List StoredRow) (since : Int) :
    List ChangeRow :=
  ((log.map Subtype.val).filter
    (fun r => r.siteId = some siteId ∧ since < r.version)).insertionSort ChangeRow.Before

/-- The bytes one row adds to an encoded changeset. -/
def rowEncodedSize (r : ChangeRow) : Nat :=
  let val := match r.val with
    | .null => 1
    | .integer _ => 1 + 8
    | .real _ => 1 + 8
    | .text s => 1 + 4 + (Bytes.utf8 s).length
    | .blob b => 1 + 4 + b.length
  let site := 1 + (match r.siteId with
    | none => 0
    | some s => 4 + s.length)
  (4 + (Bytes.utf8 r.table).length) + (4 + r.pk.length) + (4 + (Bytes.utf8 r.cid).length) +
    val + 8 + 8 + site + 8 + 8

/-- The chunks of the rows still to come, after the open chunk `buf` of `acc` bytes. -/
def planFrom (buf : List ChangeRow) (acc : Nat) (bufLevel : Int) :
    List ChangeRow → List (List ChangeRow)
  | [] => if buf = [] then [] else [buf]
  | row :: rows =>
    let sz := rowEncodedSize row
    if buf ≠ [] ∧
        (row.level ≠ bufLevel ∨ chunkRows ≤ buf.length ∨ chunkPlaintextBudget < acc + sz) then
      buf :: planFrom [row] (4 + sz) row.level rows
    else planFrom (buf ++ [row]) (acc + sz) row.level rows

def planCaptureChunks (rows : List ChangeRow) : List (List ChangeRow) := planFrom [] 4 0 rows

/-- The highest `db_version` that a chunk closes, given the first of the next chunk. -/
def chunkCommitWatermark (chunk : List ChangeRow) (nextChunkFirst : Option Int) : Option Int :=
  match chunk.getLast? with
  | none => none
  | some last =>
    match nextChunkFirst with
    | some next =>
      if next ≤ last.version then (chunk.reverse.map ChangeRow.version).find? (fun v => v < next)
      else some last.version
    | none => some last.version

variable {siteId : Bytes} {log : List StoredRow} {since : Int} {r : ChangeRow}
variable {chunk : List ChangeRow} {next : Option Int} {v : Int}

theorem mem_readLocalChangesSince :
    r ∈ readLocalChangesSince siteId log since ↔
      r ∈ log.map Subtype.val ∧ r.siteId = some siteId ∧ since < r.version := by
  simp only [readLocalChangesSince, List.mem_insertionSort, List.mem_filter, decide_eq_true_eq]

theorem readLocalChangesSince_sorted :
    (readLocalChangesSince siteId log since).Pairwise (fun a b => a.version ≤ b.version) := by
  have htotal : Std.Total ChangeRow.Before := ⟨fun a b => by simp only [ChangeRow.Before]; omega⟩
  have htrans : IsTrans ChangeRow ChangeRow.Before :=
    ⟨fun a b c => by simp only [ChangeRow.Before]; omega⟩
  apply (List.pairwise_insertionSort ChangeRow.Before _).imp
  intro a b hab
  simp only [ChangeRow.Before] at hab
  omega

theorem planFrom_flatten (buf : List ChangeRow) (acc : Nat) (lvl : Int) (rows : List ChangeRow) :
    (planFrom buf acc lvl rows).flatten = buf ++ rows := by
  induction rows generalizing buf acc lvl with
  | nil =>
    simp only [planFrom]
    split <;> simp_all
  | cons row rows ih =>
    simp only [planFrom]
    split
    · simp [ih]
    · simp [ih]

theorem planCaptureChunks_flatten (rows : List ChangeRow) :
    (planCaptureChunks rows).flatten = rows :=
  planFrom_flatten [] 4 0 rows

/-- No chunk is empty and none has more than `chunkRows` rows. -/
theorem planFrom_bounded {buf : List ChangeRow} {acc : Nat} {lvl : Int} {rows : List ChangeRow}
    (hbuf : buf.length ≤ chunkRows) (h : chunk ∈ planFrom buf acc lvl rows) :
    chunk ≠ [] ∧ chunk.length ≤ chunkRows := by
  induction rows generalizing buf acc lvl with
  | nil =>
    simp only [planFrom] at h
    split at h
    · cases h
    · rename_i hne
      rw [List.mem_singleton.mp h]
      exact ⟨hne, hbuf⟩
  | cons row rows ih =>
    simp only [planFrom] at h
    split at h
    · rename_i hflush
      obtain rfl | h := List.mem_cons.mp h
      · exact ⟨hflush.1, hbuf⟩
      · exact ih (by simp [chunkRows]) h
    · rename_i hkeep
      refine ih ?_ h
      by_cases hne : buf = []
      · simp [hne, chunkRows]
      · rw [List.length_append, List.length_singleton]
        by_contra hlong
        exact hkeep ⟨hne, Or.inr (Or.inl (by omega))⟩

theorem planCaptureChunks_bounded {rows : List ChangeRow} (h : chunk ∈ planCaptureChunks rows) :
    chunk ≠ [] ∧ chunk.length ≤ chunkRows :=
  planFrom_bounded (by simp) h

/-- A committed watermark is the version of a row of its chunk, below the next chunk's first. -/
theorem chunkCommitWatermark_closed (h : chunkCommitWatermark chunk next = some v) :
    (∃ r ∈ chunk, r.version = v) ∧ ∀ n, next = some n → v < n := by
  simp only [chunkCommitWatermark] at h
  split at h
  · cases h
  · rename_i last hlast
    have hmem := List.mem_of_getLast? hlast
    split at h
    · rename_i n
      split at h
      · have hv := List.mem_of_find?_eq_some h
        have hlt := List.find?_some h
        obtain ⟨r, hr, rfl⟩ := List.mem_map.mp hv
        refine ⟨⟨r, List.mem_reverse.mp hr, rfl⟩, fun m hm => ?_⟩
        cases hm
        exact of_decide_eq_true hlt
      · rename_i hgt
        cases h
        refine ⟨⟨last, hmem, rfl⟩, fun m hm => ?_⟩
        cases hm
        omega
    · cases h
      exact ⟨⟨last, hmem, rfl⟩, fun m hm => by cases hm⟩

/-- The last chunk closes its highest version. -/
theorem chunkCommitWatermark_last (hne : chunk ≠ [])
    (hsorted : chunk.Pairwise (fun a b => a.version ≤ b.version)) :
    ∃ last ∈ chunk, chunkCommitWatermark chunk none = some last.version ∧
      ∀ r ∈ chunk, r.version ≤ last.version := by
  obtain ⟨last, hlast⟩ := List.getLast?_isSome.mpr hne |> Option.isSome_iff_exists.mp
  refine ⟨last, List.mem_of_getLast? hlast, by simp only [chunkCommitWatermark, hlast], ?_⟩
  obtain ⟨front, rfl⟩ := List.getLast?_eq_some_iff.mp hlast
  intro r hr
  obtain hr | hr := List.mem_append.mp hr
  · exact (List.pairwise_append.mp hsorted).2.2 r hr last (by simp)
  · rw [List.mem_singleton.mp hr]

end Capture

end Capture

end YapStack.Sync
