import YapStack.Foundation.Faulty
import YapStack.Migrations.Schema

namespace YapStack.Migrations

open Faulty Faulty.Prog

def cutoverTables : List Name :=
  ["sessions", "segments", "notes", "note_versions", "folders", "session_folders",
    "chat_messages", "dictation_history", "tags", "session_tags", "session_audio_parts", "shares"]

/-- `later`: the tables that a build has appended since cutover. -/
def syncTables (later : List Name) : List Name := cutoverTables ++ later

/-- A row of `_sqlx_migrations`. `written` is the schema it was written in. -/
structure Entry where
  version : ℤ
  written : Schema

/-- `altered` is a history: the migrations whose wrapped `ALTER TABLE` has run. -/
structure Db where
  schema : Schema
  recorded : List Entry
  altered : List ℤ

def Db.versions (d : Db) : List ℤ := d.recorded.map Entry.version

/-- A connection with the transaction that is open on it. `plain` and `unclean` are histories: the
statements of migrations that ran outside cr-sqlite's wrapping, and whether the `PRAGMA` that puts
`foreign_keys` back has failed, or the `ROLLBACK` of a conversion or of a wrapped alter. -/
structure Conn where
  durable : Db
  work : Option Db
  foreignKeys : Bool
  plain : List (Schema × Schema)
  unclean : Bool

namespace Conn

def view (c : Conn) : Db := c.work.getD c.durable

def put (c : Conn) (d : Db) : Conn :=
  match c.work with
  | some _ => { c with work := some d }
  | none => { c with durable := d }

def lost (c : Conn) : Conn := { c with unclean := true }

end Conn

abbrev Exec (α : Type) := Prog Conn Failure α

def query {α : Type} (f : Schema → α) : Exec α :=
  act .failed id (fun c => .ok (f c.view.schema, c))

def update (f : Bool → Db → Except Failure Db) : Exec Unit :=
  act .failed id (fun c => (f c.foreignKeys c.view).map (fun d => ((), c.put d)))

/-- A statement on the schema that is not a migration's own. -/
def define (f : Bool → Schema → Except Failure Schema) : Exec Unit :=
  update (fun fk d => (f fk d.schema).map (fun S => { d with schema := S }))

/-- A statement of a migration, run as it stands. -/
def executeBatch (x : Text) : Exec Unit :=
  act .failed id (fun c => (x.means.exec c.foreignKeys c.view.schema).map (fun S =>
    ((), { c.put { c.view with schema := S } with plain := (c.view.schema, S) :: c.plain })))

def beginTx : Exec Unit :=
  act .failed id (fun c =>
    match c.work with
    | none => .ok ((), { c with work := some c.durable })
    | some _ => .error .failed)

def commitTx : Exec Unit :=
  act .failed id (fun c =>
    match c.work with
    | some d => .ok ((), { c with durable := d, work := none })
    | none => .error .failed)

def rollbackTx (lost : Conn → Conn) : Exec Unit :=
  act .failed lost (fun c =>
    match c.work with
    | some _ => .ok ((), { c with work := none })
    | none => .error .failed)

def readForeignKeys : Exec Bool := act .failed id (fun c => .ok (c.foreignKeys, c))

/-- `PRAGMA foreign_keys`: nothing happens inside a transaction. -/
def setForeignKeys (lost : Conn → Conn) (fk : Bool) : Exec Unit :=
  act .failed lost (fun c =>
    .ok ((), match c.work with
      | some _ => c
      | none => { c with foreignKeys := fk }))

/-- The end of a transaction that was not committed. -/
def dropTx : Exec Unit := do
  if ← look (fun c => c.work.isSome) then
    let _ ← (rollbackTx Conn.lost).attempt
    done ()
  else done ()

/-- `body` says whether it wants to commit. -/
def transaction (body : Exec Bool) : Exec Bool := do
  beginTx
  match ← body.attempt with
  | .ok true =>
    match ← commitTx.attempt with
    | .ok _ => done true
    | .error e =>
      dropTx
      raise e
  | .ok false =>
    dropTx
    done false
  | .error e =>
    dropTx
    raise e

section Crsql

/-- A table whose triggers are there counts as converted. -/
def crsqlAsCrr (t : Name) (S : Schema) : Except Failure Schema :=
  match S.tables t with
  | none => .error .failed
  | some T =>
    if !S.isTableCompatible t then .error .failed
    else if (S.slots t).isSome then .ok S
    else .ok { S with
      clocks := Function.update S.clocks t true
      slots := Function.update S.slots t (some T.columns) }

def crsqlBeginAlter (t : Name) (S : Schema) : Schema :=
  { S with slots := Function.update S.slots t none }

def crsqlCommitAlter (t : Name) (S : Schema) : Except Failure Schema :=
  match S.tables t with
  | none => .error .failed
  | some T =>
    if !S.clocks t || !S.isTableCompatible t then .error .failed
    else .ok { S with slots := Function.update S.slots t (some T.columns) }

/-- The dance around an `ALTER TABLE` of migration `v`. -/
def crsqlAlter (v : ℤ) (t : Name) (x : Text) : Exec Bool :=
  transaction (do
    define (fun _ S => .ok (crsqlBeginAlter t S))
    define (fun fk S => x.means.exec fk S)
    update (fun _ d => (crsqlCommitAlter t d.schema).map (fun S =>
      { d with schema := S, altered := v :: d.altered }))
    done true)

end Crsql

section Rebuild

def secondaryIndexSql (t : Name) (S : Schema) : List (Name × Index) :=
  S.indexes.filter (fun p => p.2.table == t && p.2.declared && !p.2.unique)

/-- The shape of the live table without its foreign keys. -/
def deriveRebuildBody (t : Name) (S : Schema) : Except Failure Table :=
  match S.tables t with
  | none => .error .failed
  | some T => if T.textKey && !T.columns.isEmpty then .ok ⟨T.columns, true, []⟩ else .error .failed

def copyRows (src dst : Name) (S : Schema) : Except Failure Schema :=
  match S.tables src, S.tables dst with
  | some T, some U => .ok (S.putTable dst
      { U with rows := U.rows ++ T.rows.map (fun r => { r with owners := [] }) })
  | _, _ => .error .failed

def dropTableStmt (t : Name) (fk : Bool) (S : Schema) : Except Failure Schema :=
  if (S.tables t).isSome then .ok (S.dropTable fk t) else .error .failed

def rebuildName (t : Name) : Name := t ++ "__crr_rebuild"

/-- `false`: the table is a CRR already. -/
def rebuild (t : Name) : Exec Bool := do
  if ← query (fun S => S.isCrr t) then done false
  else
    if ← query (fun S => (S.tables t).isSome) then
      let triggers ← query (fun S => S.triggers.filter (fun p => p.2 == t))
      let slots ← query (fun S => S.slots t)
      let indexes ← query (secondaryIndexSql t)
      match ← query (deriveRebuildBody t) with
      | .error e => raise e
      | .ok T =>
        define (fun _ S => S.createTable false (rebuildName t) T.columns T.textKey false)
        define (fun _ S => copyRows t (rebuildName t) S)
        define (fun fk S => dropTableStmt t fk S)
        define (fun _ S => S.alterTable (rebuildName t) (.renameTo t))
        forEach (fun p => define (fun _ S => S.createTrigger p.1 t)) triggers
        define (fun _ S => .ok { S with slots := Function.update S.slots t slots })
        forEach (fun p => define (fun _ S => S.createIndex false false p.1 t)) indexes
        done true
    else raise .failed

def transformAndCrrify (t : Name) : Exec Unit := do
  if ← transaction (rebuild t) then
    let _ ← transaction (do
      define (fun _ S => crsqlAsCrr t S)
      done true)
    done ()
  else done ()

def ensureCrr (t : Name) : Exec Unit := do
  let fk ← readForeignKeys
  setForeignKeys id false
  let res ← (transformAndCrrify t).attempt
  let restored ← (setForeignKeys Conn.lost fk).attempt
  match res, restored with
  | .error e, _ => raise e
  | .ok _, .error e => raise e
  | .ok _, .ok _ => done ()

def crrifyPresentTables : List Name → Exec Unit
  | [] => done ()
  | t :: ts => do
    if ← query (fun S => (S.tables t).isSome) then
      if ← query (fun S => S.isCrr t) then crrifyPresentTables ts
      else
        ensureCrr t
        crrifyPresentTables ts
    else crrifyPresentTables ts

/-- The boot heal. -/
def ensureSyncTablesCrr (later : List Name) : Exec Unit := do
  if (← query (fun S => (syncTables later).filter S.isCrr)).isEmpty then done ()
  else crrifyPresentTables (syncTables later)

end Rebuild

section Checks

def isBareIdent (t : Name) : Bool :=
  match t.toList with
  | [] => false
  | c :: cs => (c.isLower || c == '_') &&
      (c :: cs).all (fun c => c.isLower || c.isDigit || c == '_')

def isSyncIndexName (t : Name) : Bool :=
  4 < t.toList.length && "idx_".toList.isPrefixOf t.toList && isBareIdent t &&
    t.toList.tails.all (fun s => !"__crsql".toList.isPrefixOf s)

inductive ObjectKind
  | index
  | table
  | trigger
  deriving DecidableEq

/-- The object that holds a name, and the table it is on. -/
def Schema.owner (S : Schema) (n : Name) : Option (ObjectKind × Name) :=
  match S.indexes.lookup n, S.tables n, S.triggers.lookup n with
  | some ix, _, _ => some (.index, ix.table)
  | none, some _, _ => some (.table, n)
  | none, none, some t => some (.trigger, t)
  | none, none, none => none

def Schema.mayDrop (S : Schema) (i t : Name) : Bool :=
  match S.owner i with
  | none => true
  | some (kind, u) => kind == .index && u == t &&
      (S.indexes.lookup i).any (fun ix => ix.declared && !ix.unique)

def Schema.mayCreate (S : Schema) (i t : Name) : Bool :=
  match S.owner i with
  | none => true
  | some (kind, u) => kind == .index && u == t

/-- A guarded index statement with bare names, not UNIQUE, on a table that `onTable` accepts. -/
def isIndexStmt (onTable : Name → Bool) : Statement → Bool
  | .createIndex true false i t => isSyncIndexName i && isBareIdent t && onTable t
  | .dropIndex true i => isSyncIndexName i
  | _ => false

def createdIndex (i : Name) : Statement → Option Name
  | .createIndex _ _ j t => if j = i then some t else none
  | _ => none

/-- Every dropped index is created again later, and may be dropped. -/
def dropsJudged (S : Schema) : List Statement → Bool
  | [] => true
  | .dropIndex _ i :: later =>
    (later.findSome? (createdIndex i)).any (fun t => S.mayDrop i t) && dropsJudged S later
  | _ :: later => dropsJudged S later

def createsJudged (S : Schema) : Statement → Bool
  | .createIndex _ _ i t => S.mayCreate i t
  | _ => true

def validateIndexStatements (S : Schema) (onTable : Name → Bool) (sts : List Statement) : Bool :=
  sts.all (isIndexStmt onTable) && dropsJudged S sts && sts.all (createsJudged S)

def validateSyncIndexMigration (later : List Name) (m : Migration) (S : Schema) : Bool :=
  validateIndexStatements S (fun t => (syncTables later).contains t) (m.sql.map Text.means)

def createsTable (t : Name) : Statement → Bool
  | .createTable true u _ _ unique => u == t && isBareIdent t && !unique
  | _ => false

/-- Only a table that was added after cutover may be created. -/
def validateCreateSyncTableMigration (later : List Name) (m : Migration) (t : Name)
    (S : Schema) : Bool :=
  later.contains t &&
    match m.sql with
    | [] => false
    | x :: xs => createsTable t x.means &&
        validateIndexStatements S (fun u => u == t) (xs.map Text.means)

def parseIndexName : Statement → Option SchemaObject
  | .createIndex true _ i t => if isSyncIndexName i && isBareIdent t then some (.index i) else none
  | _ => none

def recordableEffects (m : Migration) : List SchemaObject :=
  match m.kind with
  | .createSyncTable t => .table t :: m.sql.filterMap (fun x => parseIndexName x.means)
  | .plain | .syncIndex => m.schemaEffects

def SchemaObject.onTable : SchemaObject → Option Name
  | .table t | .column t _ | .virtualTable t => some t
  | .index _ | .trigger _ => none

def schemaEffectsPresent (later : List Name) (effects : List SchemaObject) (S : Schema) : Bool :=
  effects.all (fun o => S.present o &&
    match o.onTable with
    | none => true
    | some t => !S.isCrr "sessions" || !(syncTables later).contains t ||
        (S.isCrr t && !S.crrTriggersAreStale t))

def parseSingleAlterTable : List Text → Option (Text × Name)
  | [x] =>
    match x.means with
    | .alterTable t _ => some (x, t)
    | _ => none
  | _ => none

def mentionsSyncTable (later : List Name) (sql : List Text) : Bool :=
  (syncTables later).any (fun t => sql.any (fun x => x.words.contains t))

end Checks

section Runner

variable (later : List Name)

def recordMigration (m : Migration) : Exec Unit :=
  update (fun _ d =>
    if m.version ∈ d.versions then .error .alreadyThere
    else .ok { d with recorded := d.recorded ++ [⟨m.version, d.schema⟩] })

/-- The statements and the bookkeeping row in one transaction. -/
def applyPlainly (sql : List Text) (m : Migration) : Exec Unit := do
  beginTx
  match ← (do
      forEach executeBatch sql
      recordMigration m : Exec Unit).attempt with
  | .ok _ => commitTx
  | .error e =>
    let _ ← (rollbackTx id).attempt
    raise e

def applyCreateSyncTableOnCrr (m : Migration) (t : Name) : Exec Unit :=
  match m.sql with
  | [] => raise .refused
  | create :: indexes => do
    executeBatch create
    ensureCrr t
    applyPlainly indexes m

/-- A plain migration on a database with CRRs. -/
def applyPlainOnCrr (m : Migration) : Exec Unit :=
  match parseSingleAlterTable m.sql with
  | some (x, t) =>
    if (syncTables later).contains t then do
      let _ ← crsqlAlter m.version t x
      recordMigration m
    else if mentionsSyncTable later m.sql then raise .refused
    else applyPlainly m.sql m
  | none =>
    if mentionsSyncTable later m.sql then raise .refused
    else applyPlainly m.sql m

def applyMigration (m : Migration) : Exec Unit :=
  match m.kind with
  | .plain => do
    if ← query (fun S => S.isCrr "sessions") then applyPlainOnCrr later m
    else applyPlainly m.sql m
  | .syncIndex => do
    if ← query (validateSyncIndexMigration later m) then applyPlainly m.sql m
    else raise .refused
  | .createSyncTable t => do
    if ← query (validateCreateSyncTableMigration later m t) then
      if ← query (fun S => S.isCrr "sessions") then applyCreateSyncTableOnCrr m t
      else applyPlainly m.sql m
    else raise .refused

def recordIfSchemaPresent (m : Migration) : Exec Bool :=
  if (recordableEffects m).isEmpty then done false
  else do
    match ← (query (schemaEffectsPresent later (recordableEffects m))).attempt with
    | .ok true =>
      match ← (recordMigration m).attempt with
      | .ok _ => done true
      | .error _ => done false
    | _ => done false

/-- What the runner reports of one migration. `present`: it could not apply, but everything it
creates was there. -/
inductive Line
  | applied (v : ℤ)
  | present (v : ℤ) (e : Failure)
  | failed (v : ℤ) (e : Failure)
  deriving DecidableEq

def migrate (m : Migration) : Exec Line := do
  match ← (applyMigration later m).attempt with
  | .ok _ => done (.applied m.version)
  | .error e =>
    if ← recordIfSchemaPresent later m then done (.present m.version e)
    else done (.failed m.version e)

def migrateEach (applied : List ℤ) : List Migration → Exec (List Line)
  | [] => done []
  | m :: ms =>
    if m.version ∈ applied then migrateEach applied ms
    else do
      let line ← migrate later m
      let lines ← migrateEach applied ms
      done (line :: lines)

def runMigrationsList (ms : List Migration) : Exec (List Line) := do
  -- `CREATE TABLE IF NOT EXISTS _sqlx_migrations`
  query (fun _ => ())
  let applied ← act .failed id (fun c => .ok (c.view.versions, c))
  migrateEach later applied ms

/-- The migrations that a run applied, as it returns them. -/
def newlyApplied (lines : List Line) : List ℤ :=
  lines.filterMap (fun l => match l with
    | .applied v => some v
    | _ => none)

end Runner

/-- Between two launches. -/
structure World where
  durable : Db
  plain : List (Schema × Schema)

/-- A launch opens a connection and runs the migrations, or the drain starts and heals. -/
inductive Event
  | run (fk : Bool) (fates : List Fate)
  | heal (fk : Bool) (fates : List Fate)

namespace World

def connect (w : World) (fk : Bool) : Conn := ⟨w.durable, none, fk, w.plain, false⟩

/-- A transaction that is open when the connection goes is rolled back. -/
def close (c : Conn) : World := ⟨c.durable, c.plain⟩

def step (later : List Name) (ms : List Migration) (w : World) : Event → World
  | .run fk fates => close (runMigrationsList later ms fates (w.connect fk)).state
  | .heal fk fates => close (ensureSyncTablesCrr later fates (w.connect fk)).state

def after (later : List Name) (ms : List Migration) (w : World) (events : List Event) : World :=
  events.foldl (step later ms) w

end World

end YapStack.Migrations
