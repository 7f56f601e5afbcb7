import YapStack.Relay.AudioRefcount

set_option linter.unusedSectionVars false

namespace YapStack.Relay.Gc

open Audio

variable {Tx Part Session Hash Sweep : Type*}

/-- Where one sweep is: the eligible blobs it has listed, the blob whose object
it has just deleted, or the transaction that deletes that blob's row. -/
inductive SweepPoint (Tx Hash : Type*) where
  | idle
  | listed (rest : List (Hash × Int)) (cutoff : Int)
  | gone (hash : Hash) (size : Int) (rest : List (Hash × Int)) (cutoff : Int)
  | row (t : Tx) (rest : List (Hash × Int)) (cutoff : Int)

def SweepPoint.rest : SweepPoint Tx Hash → List (Hash × Int)
  | .idle => []
  | .listed rest _ => rest
  | .gone _ _ rest _ => rest
  | .row _ rest _ => rest

/-- The outcome of the request that deletes an object. Any error keeps the row,
whether or not the request had an effect. -/
inductive Outcome where
  | deleted
  | failed (landed : Bool)

def Outcome.landed : Outcome → Bool
  | .deleted => true
  | .failed landed => landed

/-- The relay, its object storage and its sweeps. `owed`, `cleared` and
`remapped` are history: the hashes whose upload a client may rely on, the hash
whose object was deleted before a row transaction began, and the hashes that a
presign has mapped since a sweep's scan. -/
structure World (Tx Part Session Hash Sweep : Type*) where
  db : State Tx Part Session Hash
  stored : Hash → Bool
  head : Tx → Option Bool
  issued : Hash → Bool
  sweeps : Sweep → SweepPoint Tx Hash
  owed : Hash → Bool
  cleared : Tx → Option Hash
  remapped : Sweep → Hash → Bool

def World.empty : World Tx Part Session Hash Sweep :=
  ⟨.empty, fun _ => false, fun _ => none, fun _ => false, fun _ => .idle, fun _ => false,
    fun _ => none, fun _ _ => false⟩

inductive Event (Tx Part Session Hash Sweep : Type*) where
  | presign (t : Tx) (p : Presign Part Session Hash)
  | execute (t : Tx)
  | rollback (t : Tx)
  | head (t : Tx) (ok : Bool)
  | answer (t : Tx)
  | put (hash : Hash)
  | scan (v : Sweep) (cutoff : Int)
  | deleteObject (v : Sweep) (outcome : Outcome)
  | beginRow (v : Sweep) (t : Tx)
  | endRow (v : Sweep)
  | crash (v : Sweep)

variable [DecidableEq Tx] [DecidableEq Part] [DecidableEq Hash] [DecidableEq Sweep]

/-- The eligible blobs in the committed rows, with their sizes. -/
def eligible (s : State Tx Part Session Hash) (cutoff : Int) : List (Hash × Int) :=
  s.blobs.keys.filterMap (fun h => ((s.blobs.committed h).filter (releasedBefore cutoff)).map
    (fun b => (h, b.sizeBytes)))

/-- A hash stays owed as long as some part maps to it. -/
def owedAfter (w : World Tx Part Session Hash Sweep) (db : State Tx Part Session Hash)
    (granted : Option Hash) (h : Hash) : Bool :=
  (w.owed h || granted == some h) && decide (0 < mappings db h)

/-- The hash that a transaction's commit maps a part to. -/
def commitHash (s : State Tx Part Session Hash) (t : Tx) : Option Hash :=
  (s.pc t).commits.map (fun r => r.1.sha256)

def urlKey (r : PresignResponse Hash) : Option Hash := r.uploadUrl.map UploadUrl.objectKey

def step (w : World Tx Part Session Hash Sweep) :
    Event Tx Part Session Hash Sweep → Option (World Tx Part Session Hash Sweep)
  | .presign t p =>
    (Audio.step w.db (.presign t p)).map (fun db =>
      { w with db := db, head := Function.update w.head t none })
  | .execute t =>
    (Audio.step w.db (.execute t)).map (fun db =>
      { w with
        db := db
        owed := owedAfter w db none
        remapped := fun v h => w.remapped v h || commitHash w.db t == some h })
  | .rollback t => (Audio.step w.db (.rollback t)).map (fun db => { w with db := db })
  | .head t ok =>
    match w.db.pc t with
    | .committed p _ false =>
      let present := w.stored p.sha256 && ok
      some { w with
        head := Function.update w.head t (some present)
        owed := owedAfter w w.db (if present then some p.sha256 else none) }
    | _ => none
  | .answer t =>
    match w.db.pc t with
    | .committed p stored new =>
      match (if new then some false else w.head t) with
      | none => none
      | some present =>
        (Audio.step w.db (.answer t present)).map (fun db =>
          { w with
            db := db
            issued := fun h => w.issued h || urlKey (respond p stored new present) == some h })
    | _ => none
  | .put hash =>
    if w.issued hash then
      some { w with
        stored := Function.update w.stored hash true
        owed := owedAfter w w.db (some hash) }
    else none
  | .scan v cutoff =>
    match w.sweeps v with
    | .idle =>
      some { w with
        sweeps := Function.update w.sweeps v (.listed (eligible w.db cutoff) cutoff)
        remapped := Function.update w.remapped v (fun _ => false) }
    | _ => none
  | .deleteObject v outcome =>
    match w.sweeps v with
    | .listed ((hash, size) :: rest) cutoff =>
      let stored :=
        if outcome.landed then Function.update w.stored hash false else w.stored
      match outcome with
      | .deleted =>
        some { w with
          stored := stored
          sweeps := Function.update w.sweeps v (.gone hash size rest cutoff) }
      | .failed _ =>
        some { w with
          stored := stored
          sweeps := Function.update w.sweeps v (.listed rest cutoff) }
    | _ => none
  | .beginRow v t =>
    match w.sweeps v with
    | .gone hash size rest cutoff =>
      (Audio.step w.db (.sweep t hash size cutoff)).map (fun db =>
        { w with
          db := db
          sweeps := Function.update w.sweeps v (.row t rest cutoff)
          cleared := Function.update w.cleared t (some hash) })
    | _ => none
  | .endRow v =>
    match w.sweeps v with
    | .row t rest cutoff =>
      if (w.db.pc t).isFree then
        some { w with sweeps := Function.update w.sweeps v (.listed rest cutoff) }
      else none
    | .listed [] _ => some { w with sweeps := Function.update w.sweeps v .idle }
    | _ => none
  | .crash v => some { w with sweeps := Function.update w.sweeps v .idle }

/-- A presign that commits is undisturbed, and no presign has mapped a part to a
listed hash between the scan and the request that deletes its object. -/
def Guarded (w : World Tx Part Session Hash Sweep) : Event Tx Part Session Hash Sweep → Prop
  | .execute t => Undisturbed w.db (.execute t)
  | .deleteObject v _ => ∀ r ∈ (w.sweeps v).rest.head?, w.remapped v r.1 = false
  | _ => True

instance decidableGuarded (w : World Tx Part Session Hash Sweep) :
    ∀ e, Decidable (Guarded w e)
  | .execute t => inferInstanceAs (Decidable (Undisturbed w.db (.execute t)))
  | .deleteObject v _ =>
    inferInstanceAs (Decidable (∀ r ∈ (w.sweeps v).rest.head?, w.remapped v r.1 = false))
  | .presign _ _ => .isTrue trivial
  | .rollback _ => .isTrue trivial
  | .head _ _ => .isTrue trivial
  | .answer _ => .isTrue trivial
  | .put _ => .isTrue trivial
  | .scan _ _ => .isTrue trivial
  | .beginRow _ _ => .isTrue trivial
  | .endRow _ => .isTrue trivial
  | .crash _ => .isTrue trivial

end YapStack.Relay.Gc
