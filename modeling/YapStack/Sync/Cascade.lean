import Mathlib.Data.Finset.Card
import Mathlib.Data.Finset.Filter
import Mathlib.Data.Finset.Image
import YapStack.Foundation.Cascade
import YapStack.Sync.Crr

set_option linter.unusedSectionVars false

namespace YapStack.Sync.Cascade

open Crr

/-- A foreign-key column, the table it refers to and the key column there. -/
structure Ref where
  fk : String
  parent : String
  ppk : String
  deriving DecidableEq

/-- `(child, fk_col, parent, parent_pk, fk_nullable)`. -/
def cascadeDelete : List (String × String × String × String × Bool) :=
  [("segments", "session_id", "sessions", "id", false),
    ("notes", "session_id", "sessions", "id", false),
    ("note_versions", "note_id", "notes", "id", false),
    ("chat_messages", "session_id", "sessions", "id", true),
    ("session_audio_parts", "session_id", "sessions", "id", false),
    ("shares", "folder_id", "folders", "id", false)]

/-- `(child, (fk_a, parent_a), (fk_b, parent_b))`. -/
def cascadeJunction : List (String × (String × String) × (String × String)) :=
  [("session_folders", ("session_id", "sessions"), ("folder_id", "folders")),
    ("session_tags", ("session_id", "sessions"), ("tag_id", "tags"))]

/-- `(table, fk_col, parent, parent_pk)`. -/
def setNull : List (String × String × String × String) :=
  [("folders", "parent_id", "folders", "id"), ("sessions", "folder_id", "folders", "id")]

/-- The primary key of each table that the lists name. -/
def pkColumns (table : String) : List String :=
  if table = "session_folders" then ["session_id", "folder_id"]
  else if table = "session_tags" then ["session_id", "tag_id"]
  else ["id"]

/-- The tables that the lists name. -/
def tables : List String :=
  cascadeDelete.flatMap (fun r => [r.1, r.2.2.1]) ++
    cascadeJunction.flatMap (fun r => [r.1, r.2.1.2, r.2.2.2]) ++
    setNull.flatMap (fun r => [r.1, r.2.2.1])

variable {V : Type} [LinearOrder V]

abbrev CrrTable (V : Type) := Replica (List V) String V

/-- The synced tables of one device. A key lists the values of the primary key's columns, and a row
exists exactly while its causal length is odd. -/
structure Database (V : Type) [LinearOrder V] where
  isCrr : String → Bool
  table : String → CrrTable V
  wellFormed : ∀ t k, ((table t).row k).WellFormed
  keyed : ∀ t, ∀ k ∈ (table t).keys, k.length = (pkColumns t).length

/-- The row is known to be deleted: its sentinel has an even causal length. -/
def Tombstoned (row : Row String V) : Prop := 0 < row.cl ∧ row.cl % 2 = 0

instance (row : Row String V) : Decidable (Tombstoned row) :=
  inferInstanceAs (Decidable (_ ∧ _))

structure CascadeStats where
  deleted : Nat
  nulled : Nat
  skipped : Nat
  deriving DecidableEq

variable (null : V)

/-- A column of a row: of its primary key, or of its cells. -/
def columnValue (table : String) (key : List V) (cells : String → Cell V) (col : String) : V :=
  match (pkColumns table).idxOf? col with
  | some i => key.getD i null
  | none => (cells col).value

namespace Database

variable (db : Database V)

def row (t : String) (k : List V) : Row String V := (db.table t).row k

/-- `SELECT p."ppk" FROM "parent__crsql_pks" p JOIN "parent__crsql_clock" c ..` -/
def provenDeletedPks (parent ppk : String) : Finset V :=
  ((db.table parent).keys.filter (fun k => Tombstoned (db.row parent k))).image
    (fun k => columnValue null parent k (blank (fun _ => null)) ppk)

/-- `"fk" IN (..)`, which `NULL` never satisfies. -/
def refersProven (child : String) (key : List V) (cells : String → Cell V) (ref : Ref) : Bool :=
  let v := columnValue null child key cells ref.fk
  decide (v ≠ null) && decide (v ∈ db.provenDeletedPks null ref.parent ref.ppk)

/-- The rows that a `DELETE` or an `UPDATE` of `child` selects. -/
def selects (child : String) (refs : List Ref) (key : List V) : Bool :=
  match (db.row child key).cells with
  | none => false
  | some cells => refs.any (db.refersProven null child key cells)

def selected (child : String) (refs : List Ref) : Finset (List V) :=
  (db.table child).keys.filter (fun k => db.selects null child refs k = true)

variable {null db} {child t : String} {refs : List Ref} {k : List V}

theorem live_of_selects (h : db.selects null child refs k = true) :
    ∃ cells, (db.row child k).cells = some cells ∧
      refs.any (db.refersProven null child k cells) = true := by
  simp only [selects] at h
  split at h
  · cases h
  · rename_i cells hcells
    exact ⟨cells, hcells, h⟩

theorem mem_keys_of_cells {cells : String → Cell V} (h : (db.row t k).cells = some cells) :
    k ∈ (db.table t).keys := by
  by_contra hk
  rw [row, (db.table t).known k hk] at h
  cases h

theorem mem_keys_of_selects (k : List V) (h : db.selects null child refs k = true) :
    k ∈ (db.table child).keys := by
  obtain ⟨cells, hcells, _⟩ := live_of_selects h
  exact mem_keys_of_cells hcells

theorem odd_of_cells {cells : String → Cell V} (h : (db.row t k).cells = some cells) :
    (db.row t k).cl % 2 = 1 :=
  (db.wellFormed t k).mp (by rw [row] at h; simp [h])

variable (null db child refs)

/-- `DELETE FROM "child" WHERE .. IN (..) OR ..` -/
def delete : Database V where
  isCrr := db.isCrr
  table := Function.update db.table child
    ((db.table child).deleteWhere (db.selects null child refs) mem_keys_of_selects)
  wellFormed t k := by
    by_cases ht : t = child
    · subst ht
      rw [Function.update_self]
      simp only [Replica.deleteWhere]
      split
      · rename_i hs
        obtain ⟨cells, hcells, _⟩ := live_of_selects hs
        have hodd := odd_of_cells hcells
        simp only [row] at hodd
        simp only [Row.WellFormed, Row.deleted, Option.isSome_none, Bool.false_eq_true, false_iff]
        omega
      · exact db.wellFormed t k
    · rw [Function.update_of_ne ht]
      exact db.wellFormed t k
  keyed t k hk := by
    by_cases ht : t = child
    · subst ht
      rw [Function.update_self] at hk
      exact db.keyed t k hk
    · rw [Function.update_of_ne ht] at hk
      exact db.keyed t k hk

/-- `UPDATE "table" SET "fk" = NULL` in the rows that `p` selects. -/
def nullWhere (t : CrrTable V) (col : String) (p : List V → Bool) : CrrTable V where
  keys := t.keys
  row k :=
    if p k then
      { t.row k with
        cells := (t.row k).cells.map (fun cells =>
          Function.update cells col ((cells col).updated null)) }
    else t.row k
  known k hk := by
    rw [t.known k hk]
    split <;> rfl

def nullOut (ref : Ref) : Database V where
  isCrr := db.isCrr
  table := Function.update db.table child
    (nullWhere null (db.table child) ref.fk (db.selects null child [ref]))
  wellFormed t k := by
    by_cases ht : t = child
    · subst ht
      rw [Function.update_self]
      simp only [nullWhere]
      split
      · simpa [Row.WellFormed] using db.wellFormed t k
      · exact db.wellFormed t k
    · rw [Function.update_of_ne ht]
      exact db.wellFormed t k
  keyed t k hk := by
    by_cases ht : t = child
    · subst ht
      rw [Function.update_self] at hk
      exact db.keyed t k hk
    · rw [Function.update_of_ne ht] at hk
      exact db.keyed t k hk

def ready (tables : List String) : Bool := tables.all db.isCrr

end Database

/-- A relationship whose child rows go with a parent. It runs only when every table it names is a
CRR. -/
def deleteStep (acc : Database V × CascadeStats) (child : String) (refs : List Ref) :
    Database V × CascadeStats :=
  if acc.1.ready (child :: refs.map Ref.parent) then
    (acc.1.delete null child refs,
      { acc.2 with deleted := acc.2.deleted + (acc.1.selected null child refs).card })
  else (acc.1, { acc.2 with skipped := acc.2.skipped + 1 })

def nullStep (acc : Database V × CascadeStats) (table : String) (ref : Ref) :
    Database V × CascadeStats :=
  if acc.1.ready [table, ref.parent] then
    (acc.1.nullOut null table ref,
      { acc.2 with nulled := acc.2.nulled + (acc.1.selected null table [ref]).card })
  else (acc.1, { acc.2 with skipped := acc.2.skipped + 1 })

def cascadeGc (db : Database V) : Database V × CascadeStats :=
  let deleted := cascadeDelete.foldl
    (fun acc (child, fk, parent, ppk, _) => deleteStep null acc child [⟨fk, parent, ppk⟩])
    (db, ⟨0, 0, 0⟩)
  let junctions := cascadeJunction.foldl
    (fun acc (child, (fka, pa), (fkb, pb)) =>
      deleteStep null acc child [⟨fka, pa, "id"⟩, ⟨fkb, pb, "id"⟩])
    deleted
  setNull.foldl (fun acc (table, fk, parent, ppk) => nullStep null acc table ⟨fk, parent, ppk⟩)
    junctions

end YapStack.Sync.Cascade
