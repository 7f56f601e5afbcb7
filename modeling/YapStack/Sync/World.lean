import YapStack.Sync.DeviceSteps

set_option linter.unusedSectionVars false

namespace YapStack.Sync

open Relay.Sequence

variable {Client : Type} [DecidableEq Client]

/-- `GET /sync/completeness` over the relay's changesets: its tip, and the
highest `client_seq` of every client. -/
def completeness (st : Store Client) : CompletenessResponse Client :=
  let maxSeq := st.length
  let count := st.length
  { maxChangesetSeq := maxSeq
    count := count
    contiguous := maxSeq == count
    perClient := (st.map PushChange.clientId).dedup.map (fun c =>
      (c, (((st.filter (fun r => r.clientId = c)).map PushChange.clientSeq).max?).getD 0)) }

/-- A device, the copies made of its database, the relay's changesets, every
request that has left the device, and every answer the relay gave to a push. -/
structure World (Client : Type) where
  device : Device Client
  backups : List LocalDb
  relay : Store Client
  sent : List (Request Client)
  answers : List (List (PushChange Client) × PushResponse Client)

namespace World

/-- A step of the world. `device` is a step of the device in which the relay
answers nothing but errors. -/
inductive Event (Client : Type)
  | device (input : Input Client)
  | pushAnswered (k : Nat)
  | tailAnswered (k : Nat)
  | backup
  | restore (k : Nat)
  | serve (k : Nat)
  | other (changes : List (PushChange Client))

def empty : World Client := ⟨Device.opened LocalDb.empty, [], [], [], []⟩

end World

def Reply.isError {α : Type} : Reply α → Bool
  | .response _ (.payload _) => false
  | _ => true

/-- The input does not stand for a successful answer of the relay to a push or
to a completeness request. -/
def Input.unanswered : Input Client → Bool
  | .tail reply => reply.isError
  | .pushed reply => reply.isError
  | _ => true

namespace World

variable (cfg : Config Client)

/-- The request that leaves the device in this step. -/
def leaving (d : Device Client) : Input Client → List (Request Client)
  | .advance _ _ => (d.request cfg).toList
  | _ => []

def drive (w : World Client) (input : Input Client) : Option (World Client) :=
  (w.device.step cfg input).map (fun d =>
    { w with device := d, sent := w.sent ++ leaving cfg w.device input })

/-- The relay handles a push: it stores the batch and answers, or refuses it. -/
def serve (w : World Client) (changes : List (PushChange Client)) : World Client :=
  match w.relay.push changes with
  | .error _ => w
  | .ok (relay, acks) =>
    { w with relay := relay, answers := w.answers ++ [(changes, ⟨acks, relay.length⟩)] }

def step (w : World Client) : Event Client → Option (World Client)
  | .device input => if input.unanswered then w.drive cfg input else none
  | .pushAnswered k =>
    w.answers[k]?.bind (fun answer =>
      if w.device.point.batch.map (fun b => b.entries.map (OutboxEntry.change cfg.clientId)) =
          some answer.1 then
        w.drive cfg (.pushed (.response 200 (.payload answer.2)))
      else none)
  | .tailAnswered k =>
    w.drive cfg (.tail (.response 200 (.payload (completeness (w.relay.take k)))))
  | .backup => some { w with backups := w.backups ++ [w.device.db] }
  | .restore k =>
    w.backups[k]?.map (fun db =>
      { w with device := { w.device with db := db, queue := [], point := .idle } })
  | .serve k =>
    w.sent[k]?.bind (fun r =>
      match r with
      | .push changes _ => some (w.serve changes)
      | .raise _ => none)
  | .other changes =>
    match w.relay.push changes with
    | .error _ => some w
    | .ok (relay, _) => some { w with relay := relay }

end World

end YapStack.Sync
