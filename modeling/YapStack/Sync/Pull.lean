import YapStack.Sync.Outbox
import YapStack.Sync.Replay

set_option linter.unusedSectionVars false

namespace YapStack.Sync

open Relay.Sequence

/-- The text forms on the wire: base64 ciphertext and client ids. -/
structure WireText (Client : Type) where
  b64Encode : Bytes → String
  b64Decode : String → Option Bytes
  clientText : Client → String
  parseClient : String → Option Client
  parse_text : ∀ c, parseClient (clientText c) = some c

structure PulledChange (Client : Type) where
  changesetSeq : Nat
  clientId : Client
  clientSeq : Int
  ciphertext : String
  schemaVersion : Int
  engineVersion : Int

structure PullResponse (Client : Type) where
  changes : List (PulledChange Client)
  nextSeq : Nat
  hasMore : Bool

/-- A row of `_yapstack_crypto_quarantine`. -/
structure CryptoRow where
  changesetSeq : Nat
  authorClientId : String
  clientSeq : Int
  ciphertext : String
  schemaVersion : Int
  engineVersion : Int
  detail : String

def pullLimit : Nat := 500

/-- The relay clamps the limit of a request. -/
def clampLimit (limit : Nat) : Nat := max 1 (min limit 2000)

section Wire

variable {Client : Type} (wire : WireText Client)

def pulledChange (row : PushChange Client × Nat) : PulledChange Client :=
  ⟨row.2, row.1.clientId, row.1.clientSeq, wire.b64Encode row.1.ciphertext, row.1.schemaVersion,
    row.1.engineVersion⟩

/-- The rows after a cursor, each with its seq. -/
def readChanges (st : Store Client) (since limit : Nat) : List (PushChange Client × Nat) :=
  ((st.drop since).zipIdx (since + 1)).take limit

/-- One page of the relay. -/
def pullPage (st : Store Client) (since limit : Nat) : PullResponse Client :=
  let limit := clampLimit limit
  let rows := readChanges st since (limit + 1)
  let changes := (rows.take limit).map (pulledChange wire)
  ⟨changes, (changes.getLast?.map PulledChange.changesetSeq).getD since, limit < rows.length⟩

def decodePulledChangeset (cipher : ChangesetCipher Client) (pc : PulledChange Client) :
    Except String Changeset :=
  match wire.b64Decode pc.ciphertext with
  | none => .error "ciphertext base64"
  | some blob => openBlob cipher pc.clientId pc.clientSeq blob

def cryptoRow (pc : PulledChange Client) (detail : String) : CryptoRow :=
  ⟨pc.changesetSeq, wire.clientText pc.clientId, pc.clientSeq, pc.ciphertext, pc.schemaVersion,
    pc.engineVersion, detail⟩

/-- `INSERT OR IGNORE` by `changeset_seq`. -/
def quarantineUndecryptable (rows : List CryptoRow) (pc : PulledChange Client) (detail : String) :
    List CryptoRow :=
  if rows.any (fun row => row.changesetSeq = pc.changesetSeq) then rows
  else rows ++ [cryptoRow wire pc detail]

/-- The wire shape of a quarantined changeset, if its author parses. -/
def CryptoRow.change (row : CryptoRow) : Option (PulledChange Client) :=
  (wire.parseClient row.authorClientId).map (fun author =>
    ⟨row.changesetSeq, author, row.clientSeq, row.ciphertext, row.schemaVersion,
      row.engineVersion⟩)

end Wire

structure PullReport where
  applied : Nat
  quarantined : Nat
  cryptoQuarantined : Nat

structure QuarantineRetryReport where
  recovered : Nat
  stillFailing : Nat

/-- Where a running `pull_direction` is. -/
inductive PullPoint (Client : Type)
  | top
  | asked (since : Nat)
  | page (rest : List (PulledChange Client)) (nextSeq : Nat) (hasMore : Bool)
  | merging (pc : PulledChange Client) (rest : List (PulledChange Client)) (nextSeq : Nat)
      (hasMore : Bool)

structure PullCycle (Client : Type) where
  cipher : ChangesetCipher Client
  report : PullReport
  point : PullPoint Client

/-- Where a running `retry_crypto_quarantine` is. -/
inductive RetryPoint
  | rows (rest : List CryptoRow)
  | merging (row : CryptoRow) (rest : List CryptoRow)
  | deleting (row : CryptoRow) (rest : List CryptoRow)

structure RetryPass (Client : Type) where
  cipher : ChangesetCipher Client
  report : QuarantineRetryReport
  point : RetryPoint

def PullPoint.isMerging {Client : Type} : PullPoint Client → Bool
  | .merging _ _ _ _ => true
  | _ => false

def RetryPoint.isMerging : RetryPoint → Bool
  | .merging _ _ => true
  | _ => false

def PullCycle.merged {Client : Type} (m : MergeTx) (c : PullCycle Client) : PullCycle Client :=
  match c.point with
  | .merging _ rest nextSeq hasMore =>
    { c with
      report := { c.report with
        applied := c.report.applied + m.applied
        quarantined := c.report.quarantined + m.quarantined }
      point := .page rest nextSeq hasMore }
  | _ => c

def RetryPass.merged {Client : Type} (c : RetryPass Client) : RetryPass Client :=
  match c.point with
  | .merging row rest => { c with point := .deleting row rest }
  | _ => c

/-- One device that pulls from a relay. `used` is history: the ciphers of all
cycles and passes so far. -/
structure Puller (Client : Type) where
  relay : Store Client
  inbox : Quarantine
  crypto : List CryptoRow
  watermark : Nat
  pull : Option (PullCycle Client)
  retry : Option (RetryPass Client)
  used : List (ChangesetCipher Client)

namespace Puller

inductive Event (Client : Type)
  | commit (rows : Store Client)
  | beginPull (cipher : ChangesetCipher Client)
  | readWatermark
  | answer
  | nextChange
  | setWatermark
  | failPull
  | beginRetry (cipher : ChangesetCipher Client)
  | nextRow
  | deleteRow
  | failRetry
  | mergeRow (applies : Bool)
  | commitMerge
  | failMerge
  | replay (e : Quarantine.Event)
  | crash

variable {Client : Type} (wire : WireText Client)

def init (schema : LocalSchema) (relay : Store Client) : Puller Client :=
  ⟨relay, Quarantine.init schema, [], 0, none, none, []⟩

def changesInOrder (rows : List CryptoRow) : List CryptoRow :=
  rows.insertionSort (fun a b => a.changesetSeq ≤ b.changesetSeq)

/-- The pull takes the next change of its page: it is quarantined, or its merge begins. -/
def takeChange (p : Puller Client) (cycle : PullCycle Client) (pc : PulledChange Client)
    (rest : List (PulledChange Client)) (nextSeq : Nat) (hasMore : Bool) :
    Option (Puller Client) :=
  match decodePulledChangeset wire cycle.cipher pc with
  | .error detail =>
    if p.inbox.merge.isSome then none
    else some { p with
      crypto := quarantineUndecryptable wire p.crypto pc detail
      pull := some { cycle with
        report := { cycle.report with cryptoQuarantined := cycle.report.cryptoQuarantined + 1 }
        point := .page rest nextSeq hasMore } }
  | .ok cs =>
    (Quarantine.step p.inbox (.beginMerge cs)).map (fun inbox =>
      { p with inbox := inbox, pull := some { cycle with point := .merging pc rest nextSeq hasMore } })

/-- The pass takes the next quarantined changeset: it stays, or its merge begins. -/
def takeRow (p : Puller Client) (pass : RetryPass Client) (row : CryptoRow)
    (rest : List CryptoRow) : Option (Puller Client) :=
  let stillFailing := some { p with
    retry := some { pass with
      report := { pass.report with stillFailing := pass.report.stillFailing + 1 }
      point := .rows rest } }
  match row.change wire with
  | none => stillFailing
  | some pc =>
    match decodePulledChangeset wire pass.cipher pc with
    | .error _ => stillFailing
    | .ok cs =>
      (Quarantine.step p.inbox (.beginMerge cs)).map (fun inbox =>
        { p with inbox := inbox, retry := some { pass with point := .merging row rest } })

/-- The call whose merge this was goes on. -/
def merged (p : Puller Client) (m : MergeTx) : Puller Client :=
  { p with pull := p.pull.map (PullCycle.merged m), retry := p.retry.map RetryPass.merged }

/-- The call whose merge failed ends with its error. -/
def mergeFailed (p : Puller Client) : Puller Client :=
  { p with
    pull := p.pull.filter (fun c => !c.point.isMerging)
    retry := p.retry.filter (fun c => !c.point.isMerging) }

/-- The events of a replay pass and of a migration. -/
def isReplay : Quarantine.Event → Bool
  | .beginReplay | .replayRow _ | .endReplay | .abortReplay | .migrate _ _ => true
  | _ => false

def step (p : Puller Client) : Event Client → Option (Puller Client)
  | .commit rows => some { p with relay := p.relay ++ rows }
  | .beginPull cipher =>
    match p.pull with
    | some _ => none
    | none => some { p with pull := some ⟨cipher, ⟨0, 0, 0⟩, .top⟩, used := cipher :: p.used }
  | .readWatermark =>
    match p.pull with
    | some ⟨cipher, report, .top⟩ => some { p with pull := some ⟨cipher, report, .asked p.watermark⟩ }
    | _ => none
  | .answer =>
    match p.pull with
    | some ⟨cipher, report, .asked since⟩ =>
      let resp := pullPage wire p.relay since pullLimit
      if resp.changes.isEmpty then some { p with pull := none }
      else some { p with
        pull := some ⟨cipher, report, .page resp.changes resp.nextSeq resp.hasMore⟩ }
    | _ => none
  | .nextChange =>
    match p.pull with
    | some ⟨cipher, report, .page (pc :: rest) nextSeq hasMore⟩ =>
      takeChange wire p ⟨cipher, report, .page (pc :: rest) nextSeq hasMore⟩ pc rest nextSeq hasMore
    | _ => none
  | .setWatermark =>
    match p.inbox.merge, p.pull with
    | none, some ⟨cipher, report, .page [] nextSeq hasMore⟩ =>
      some { p with
        watermark := nextSeq
        pull := if hasMore then some ⟨cipher, report, .top⟩ else none }
    | _, _ => none
  | .failPull =>
    if p.pull.any (fun c => c.point.isMerging) then none else some { p with pull := none }
  | .beginRetry cipher =>
    match p.retry with
    | some _ => none
    | none => some { p with
        retry := some ⟨cipher, ⟨0, 0⟩, .rows (changesInOrder p.crypto)⟩, used := cipher :: p.used }
  | .nextRow =>
    match p.retry with
    | some ⟨_, _, .rows []⟩ => some { p with retry := none }
    | some ⟨cipher, report, .rows (row :: rest)⟩ =>
      takeRow wire p ⟨cipher, report, .rows (row :: rest)⟩ row rest
    | _ => none
  | .deleteRow =>
    match p.inbox.merge, p.retry with
    | none, some ⟨cipher, report, .deleting row rest⟩ =>
      some { p with
        crypto := p.crypto.filter (fun c => c.changesetSeq ≠ row.changesetSeq)
        retry := some ⟨cipher, { report with recovered := report.recovered + 1 }, .rows rest⟩ }
    | _, _ => none
  | .failRetry =>
    if p.retry.any (fun c => c.point.isMerging) then none else some { p with retry := none }
  | .mergeRow applies =>
    (Quarantine.step p.inbox (.mergeRow applies)).map (fun inbox =>
      if inbox.merge.isNone then mergeFailed { p with inbox := inbox } else { p with inbox := inbox })
  | .commitMerge =>
    match p.inbox.merge with
    | none => none
    | some m =>
      (Quarantine.step p.inbox .commitMerge).map (fun inbox => merged { p with inbox := inbox } m)
  | .failMerge =>
    (Quarantine.step p.inbox .abortMerge).map (fun inbox => mergeFailed { p with inbox := inbox })
  | .replay e =>
    if isReplay e then (Quarantine.step p.inbox e).map (fun inbox => { p with inbox := inbox })
    else none
  | .crash =>
    (Quarantine.step p.inbox .crash).map (fun inbox =>
      { p with inbox := inbox, pull := none, retry := none })

end Puller

end YapStack.Sync
