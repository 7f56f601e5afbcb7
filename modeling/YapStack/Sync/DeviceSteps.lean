import YapStack.Sync.Device

set_option linter.unusedSectionVars false

namespace YapStack.Sync

open Relay.Sequence

/-- A point that carries no batch, no chunk and no ack. -/
def Point.isNeutral {Client : Type} : Point Client → Bool
  | .idle => true
  | .awaitTail (.start _) => true
  | .awaitTail .conflict => true
  | .reseed _ _ => true
  | .capture _ => true
  | .plan _ => true
  | .pull _ => true
  | _ => false

/-- The batch that a point carries. -/
def Point.batch {Client : Type} : Point Client → Option Batch
  | .askRaise b _ _ => some b
  | .awaitRaise b _ _ => some b
  | .send b _ _ => some b
  | .awaitPush b _ _ => some b
  | _ => none

/-- The chunks that a point has still to commit. -/
def Point.chunks {Client : Type} : Point Client → List (List ChangeRow)
  | .enqueue _ _ pending => pending
  | _ => []

theorem Point.batch_of_neutral {Client : Type} {p : Point Client} (h : p.isNeutral = true) :
    p.batch = none := by
  cases p <;> first | rfl | cases h

theorem Point.chunks_of_neutral {Client : Type} {p : Point Client} (h : p.isNeutral = true) :
    p.chunks = [] := by
  cases p <;> first | rfl | cases h

namespace Device

variable {Client : Type} [DecidableEq Client]

/-- The cycle goes on at a neutral point, and nothing else has changed. -/
structure Rests (d d' : Device Client) : Prop where
  db : d'.db = d.db
  session : d'.session = d.session
  queue : ∀ st ∈ d'.queue, st = .markSeqReconciled ∨ st = .clearSeqReconciled
  point : d'.point.isNeutral = true

/-- What one step of a device can do. -/
inductive Moved (cfg : Config Client) (d : Device Client) : Input Client → Device Client → Prop
  | wrote {removed added version} (hversion : d.db.dbVersion < version)
      (hadded : ∀ r ∈ added, r.val.version = version) :
      Moved cfg d (.write removed added version)
        { d with db := d.db.write removed added version }
  | ran {draw nowMs st queue} (hq : d.queue = st :: queue) :
      Moved cfg d (.advance draw nowMs) { d with session := d.session.run st, queue := queue }
  | respawned : Moved cfg d .respawn { d with session := Session.opened, queue := [], point := .idle }
  | rested {input d'} (hr : Rests d d') (hi : input ≠ .respawn)
      (hq : d.queue = [] ∨ input = .fail) : Moved cfg d input d'
  | folded {pushError relayCapability pullError} (hq : d.queue = []) :
      Moved cfg d (.pulled relayCapability pullError)
        (d.goTo (foldCycle pushError pullError relayCapability) .idle)
  | reseeded {draw nowMs target queue point} (hq : d.queue = [])
      (hqueue : ∀ st ∈ queue, st = SessionStatement.markSeqReconciled)
      (hpoint : Point.isNeutral point = true) :
      Moved cfg d (.advance draw nowMs)
        ({ d with db := d.db.reseedCounterToTail target }.goTo queue point)
  | captured {draw nowMs job} (hq : d.queue = []) :
      Moved cfg d (.advance draw nowMs)
        (d.goTo [] (.enqueue job d.db.pushWatermark
          (planCaptureChunks (readLocalChangesSince cfg.siteId d.db.log d.db.pushWatermark))))
  | committed {draw nowMs job committedWm chunk pending db nextWm} (hq : d.queue = [])
      (hp : d.point = .enqueue job committedWm (chunk :: pending))
      (hok : d.db.insertChunk cfg.cipher cfg.clientId draw job.schemaVersion job.engineVersion
        chunk = .ok db)
      (hwm : nextWm = (chunkCommitWatermark chunk
        ((pending.head?.bind List.head?).map ChangeRow.version)).filter
          (fun v => committedWm < v)) :
      Moved cfg d (.advance draw nowMs)
        ({ d with db := { db with pushWatermark := nextWm.getD db.pushWatermark } }.goTo []
          (.enqueue job (nextWm.getD committedWm) pending))
  | plannedOpen {draw nowMs total b} (hq : d.queue = []) (hb : planBatch d.db.outbox = .batch b)
      (hlevel : b.level = 0) : Moved cfg d (.advance draw nowMs) (d.goTo [] (.send b total false))
  | plannedGated {draw nowMs total b} (hq : d.queue = []) (hb : planBatch d.db.outbox = .batch b)
      (hlevel : b.level ≠ 0)
      (hclear : ∀ refused, d.session.raiseBackoff nowMs = some refused → b.level < refused.level) :
      Moved cfg d (.advance draw nowMs)
        ({ d with clock := nowMs }.goTo []
          (if d.session.capabilityGateProven then .send b total false else .askRaise b total false))
  | asked {draw nowMs b total retry} (hq : d.queue = []) (hp : d.point = .askRaise b total retry) :
      Moved cfg d (.advance draw nowMs) (d.goTo [] (.awaitRaise b total retry))
  | sent {draw nowMs b total retry} (hq : d.queue = []) (hp : d.point = .send b total retry) :
      Moved cfg d (.advance draw nowMs) (d.goTo [] (.awaitPush b total retry))
  | granted {b total retry reply nowMs levels} (hq : d.queue = [])
      (hp : d.point = .awaitRaise b total retry) (hr : receiveRaise b.level reply = .ok levels)
      (hlevel : b.level ≤ levels.requiredSyncCapability) :
      Moved cfg d (.raised reply nowMs)
        (d.goTo [.markCapabilityGateProven, .clearRaiseBackoff] (.send b total retry))
  | refused {b total retry reply nowMs refusal proof point} (hq : d.queue = [])
      (hp : d.point = .awaitRaise b total retry) (hpoint : Point.isNeutral point = true)
      (hproof : proof = [] ∨ (proof = [SessionStatement.markCapabilityGateProven] ∧
        ∃ l blockers, receiveRaise b.level reply = .error (.capabilityBlocked l blockers))) :
      Moved cfg d (.raised reply nowMs)
        ({ d with clock := nowMs }.goTo
          (proof ++ [SessionStatement.recordRefusedRaise ⟨b.level, refusal⟩ nowMs]) point)
  | floored {b total reply e} (hq : d.queue = []) (hp : d.point = .awaitPush b total false)
      (hr : receive b.level reply = .error e) (he : e.isCapabilityFloor = true)
      (hlevel : b.level ≠ 0) :
      Moved cfg d (.pushed reply) (d.goTo [.markCapabilityGateProven] (.askRaise b total true))
  | answered {b total retry reply resp} (hq : d.queue = [])
      (hp : d.point = .awaitPush b total retry) (hr : receive b.level reply = .ok resp) :
      Moved cfg d (.pushed reply)
        (d.goTo [] (.ack (resp.acks.filter (fun a => !a.deduplicated)) resp 0 total false))
  | acked {draw nowMs a todo resp applied total deduplicated} (hq : d.queue = [])
      (hp : d.point = .ack (a :: todo) resp applied total deduplicated) :
      Moved cfg d (.advance draw nowMs)
        ({ d with
            db := { d.db with outbox := d.db.outbox.ack a.clientSeq a.changesetSeq } }.goTo []
          (.ack todo resp (applied + 1) total deduplicated))
  | checked {draw nowMs resp applied total} (hq : d.queue = [])
      (hp : d.point = .ack [] resp applied total false) :
      Moved cfg d (.advance draw nowMs) (d.goTo [] (.awaitTail (.deduplicated resp applied total)))
  | kept {reply resp applied total} (hq : d.queue = [])
      (hp : d.point = .awaitTail (.deduplicated resp applied total)) :
      Moved cfg d (.tail reply)
        (d.goTo [.markSeqReconciled]
          (.ack (resp.acks.filter (fun a => a.deduplicated)) resp applied total true))

variable {cfg : Config Client} {d : Device Client} {b : Batch} {use : TailUse Client}
variable {total : Nat} {retry : Bool} {nowMs : Int} {draw : Draw}

theorem goTo_rests {queue : List SessionStatement} {point : Point Client}
    (hq : ∀ st ∈ queue, st = .markSeqReconciled ∨ st = .clearSeqReconciled)
    (hp : Point.isNeutral point = true) : Rests d (d.goTo queue point) :=
  ⟨rfl, rfl, hq, hp⟩

theorem goTo_nil_rests {point : Point Client} (hp : Point.isNeutral point = true) :
    Rests d (d.goTo [] point) :=
  goTo_rests (by simp) hp

theorem pushFailed_rests (d : Device Client) (e : SyncError) : Rests d (d.pushFailed e) := by
  simp only [pushFailed]
  split
  · exact goTo_rests (by simp) rfl
  · exact goTo_nil_rests rfl

theorem failed_rests (d : Device Client) : Rests d d.failed := by
  simp only [failed]
  split
  · exact goTo_nil_rests rfl
  · exact goTo_nil_rests rfl

theorem endBatch_rests (d : Device Client) (resp : PushResponse Client) (total : Nat) :
    Rests d (d.endBatch resp total) := by
  simp only [endBatch]
  split
  · exact goTo_nil_rests rfl
  · exact goTo_nil_rests rfl

theorem afterTail_regressed (use : TailUse Client) : (afterTail use true).isNeutral = true := by
  cases use <;> rfl

theorem receiveTail_moved {reply : Reply (CompletenessResponse Client)} (hq : d.queue = [])
    (hp : d.point = .awaitTail use) : Moved cfg d (.tail reply) (d.receiveTail cfg use reply) := by
  simp only [receiveTail]
  split
  · exact .rested (goTo_nil_rests rfl) (by simp) (Or.inl hq)
  · cases use with
    | conflict => exact .rested (goTo_nil_rests rfl) (by simp) (Or.inl hq)
    | start job =>
      dsimp only
      split
      · exact .rested (goTo_rests (by simp) rfl) (by simp) (Or.inl hq)
      · exact .rested (goTo_nil_rests rfl) (by simp) (Or.inl hq)
    | deduplicated resp applied total =>
      dsimp only
      split
      · exact .kept hq hp
      · exact .rested (goTo_nil_rests rfl) (by simp) (Or.inl hq)

theorem receiveRaise_blocked {level l : Int} {blockers : List CapabilityBlocker}
    {reply : Reply SyncCapabilityLevels}
    (h : receiveRaise level reply = .error (.capabilityBlocked l blockers)) : l = level := by
  cases reply with
  | sendFailed unreachable => cases unreachable <;> cases h
  | response status body =>
    simp only [receiveRaise] at h
    split at h
    · cases h
    · exact receive_blocked h

theorem receiveRaised_moved {reply : Reply SyncCapabilityLevels} (hq : d.queue = [])
    (hp : d.point = .awaitRaise b total retry) :
    Moved cfg d (.raised reply nowMs) (d.receiveRaised b total retry reply nowMs) := by
  simp only [receiveRaised]
  split
  · rename_i levels hr
    split
    · rename_i hlevel
      exact .granted hq hp hr hlevel
    · exact .refused hq hp rfl (Or.inl rfl)
  · exact .refused hq hp rfl (Or.inl rfl)
  · rename_i l blockers hr
    obtain rfl := receiveRaise_blocked hr
    exact .refused hq hp rfl (Or.inr ⟨rfl, _, _, hr⟩)
  · exact .rested (pushFailed_rests _ _) (by simp) (Or.inl hq)

theorem receivePushed_moved {reply : Reply (PushResponse Client)} (hq : d.queue = [])
    (hp : d.point = .awaitPush b total retry) :
    Moved cfg d (.pushed reply) (d.receivePushed b total retry reply) := by
  simp only [receivePushed]
  split
  · rename_i resp hr
    exact .answered hq hp hr
  · rename_i e hr
    split
    · rename_i hfloor
      obtain ⟨hlevel, rfl, he⟩ := hfloor
      exact .floored hq hp hr he hlevel
    · exact .rested (pushFailed_rests _ _) (by simp) (Or.inl hq)

theorem planNext_moved (hq : d.queue = []) :
    Moved cfg d (.advance draw nowMs) (d.planNext total nowMs) := by
  simp only [planNext]
  split
  · exact .rested (goTo_nil_rests rfl) (by simp) (Or.inl hq)
  · exact .rested (goTo_nil_rests rfl) (by simp) (Or.inl hq)
  · rename_i b hb
    split
    · rename_i hlevel
      exact .plannedOpen hq hb hlevel
    · rename_i hlevel
      split
      · exact .rested ⟨rfl, rfl, by simp [goTo], rfl⟩ (by simp) (Or.inl hq)
      · rename_i hnone
        refine .plannedGated hq hb hlevel (fun refused hr => ?_)
        rw [hr, Option.filter_some] at hnone
        split at hnone
        · cases hnone
        · rename_i hgt
          simpa using hgt

theorem commitChunk_moved {job : Job} {committedWm : Int} {chunk : List ChangeRow}
    {pending : List (List ChangeRow)} (hq : d.queue = [])
    (hp : d.point = .enqueue job committedWm (chunk :: pending)) :
    Moved cfg d (.advance draw nowMs) (d.commitChunk cfg job committedWm chunk pending draw) := by
  simp only [commitChunk]
  split
  · exact .rested (goTo_nil_rests rfl) (by simp) (Or.inl hq)
  · rename_i db hok
    exact .committed hq hp hok rfl

theorem advance_moved {d' : Device Client} (hq : d.queue = [])
    (h : d.advance cfg draw nowMs = some d') : Moved cfg d (.advance draw nowMs) d' := by
  simp only [advance] at h
  split at h
  · cases h
    exact .reseeded hq (by simp) (afterTail_regressed _)
  · cases h
    split
    · exact .rested (goTo_nil_rests rfl) (by simp) (Or.inl hq)
    · exact .captured hq
  · cases h
    exact .rested (goTo_nil_rests rfl) (by simp) (Or.inl hq)
  · rename_i hp
    cases h
    exact commitChunk_moved hq hp
  · cases h
    exact planNext_moved hq
  · rename_i hp
    cases h
    exact .asked hq hp
  · rename_i hp
    cases h
    exact .sent hq hp
  · rename_i hp
    cases h
    exact .acked hq hp
  · rename_i hp
    split at h
    · rename_i hdedup
      obtain ⟨rfl, _⟩ := hdedup
      cases h
      exact .checked hq hp
    · cases h
      exact .rested (endBatch_rests _ _ _) (by simp) (Or.inl hq)
  · cases h

theorem step_moved {d' : Device Client} {input : Input Client}
    (h : d.step cfg input = some d') : Moved cfg d input d' := by
  cases input with
  | write removed added version =>
    simp only [step] at h
    split at h
    · rename_i hw
      cases h
      exact .wrote hw.1 hw.2
    · cases h
  | drain job =>
    simp only [step] at h
    split at h
    · rename_i hq hp
      cases h
      refine .rested (goTo_nil_rests ?_) (by simp) (Or.inl hq)
      split <;> rfl
    · cases h
  | advance draw nowMs =>
    simp only [step] at h
    split at h
    · rename_i st queue hq
      cases h
      exact .ran hq
    · rename_i hq
      exact advance_moved hq h
  | tail reply =>
    simp only [step] at h
    split at h
    · rename_i hq hp
      cases h
      exact receiveTail_moved hq hp
    · cases h
  | raised reply nowMs =>
    simp only [step] at h
    split at h
    · rename_i hq hp
      cases h
      exact receiveRaised_moved hq hp
    · cases h
  | pushed reply =>
    simp only [step] at h
    split at h
    · rename_i hq hp
      cases h
      exact receivePushed_moved hq hp
    · cases h
  | pulled relayCapability pullError =>
    simp only [step] at h
    split at h
    · rename_i hq hp
      cases h
      exact .folded hq
    · cases h
  | fail =>
    simp only [step] at h
    split at h
    · cases h
      exact .rested (failed_rests _) (by simp) (Or.inr rfl)
    · cases h
  | respawn =>
    cases h
    exact .respawned

/-- The batch in hand is the front of the outbox, and every chunk fits the codec. -/
structure WellFormed (d : Device Client) : Prop where
  batch : ∀ b, d.point.batch = some b → b.Prefix d.db.outbox
  chunks : ∀ chunk ∈ d.point.chunks, Changeset.Fits ⟨chunk⟩

theorem planCaptureChunks_fits {siteId : Bytes} {log : List StoredRow} {since : Int}
    {chunk : List ChangeRow}
    (h : chunk ∈ planCaptureChunks (readLocalChangesSince siteId log since)) :
    Changeset.Fits ⟨chunk⟩ := by
  have hlength := (planCaptureChunks_bounded h).2
  refine ⟨?_, fun r hr => ?_⟩
  · exact lt_of_le_of_lt hlength (by decide)
  · have hflat : r ∈ (planCaptureChunks (readLocalChangesSince siteId log since)).flatten :=
      List.mem_flatten.mpr ⟨chunk, h, hr⟩
    rw [planCaptureChunks_flatten] at hflat
    obtain ⟨stored, _, rfl⟩ := List.mem_map.mp (mem_readLocalChangesSince.mp hflat).1
    exact stored.property

theorem wellFormed_of_empty (hbatch : d.point.batch = none) (hchunks : d.point.chunks = []) :
    d.WellFormed := by
  refine ⟨fun b hb => ?_, fun chunk hc => ?_⟩
  · rw [hbatch] at hb
    cases hb
  · rw [hchunks] at hc
    cases hc

theorem wellFormed_of_neutral (h : d.point.isNeutral = true) : d.WellFormed :=
  wellFormed_of_empty (Point.batch_of_neutral h) (Point.chunks_of_neutral h)

theorem wellFormed_step {d' : Device Client} {input : Input Client} (hw : d.WellFormed)
    (h : Moved cfg d input d') : d'.WellFormed := by
  have hbatch : ∀ {b}, d.point.batch = some b → b.Prefix d.db.outbox := fun hb => hw.batch _ hb
  cases h with
  | wrote => exact ⟨hw.batch, hw.chunks⟩
  | ran => exact ⟨hw.batch, hw.chunks⟩
  | respawned => exact wellFormed_of_neutral rfl
  | rested hr => exact wellFormed_of_neutral hr.point
  | folded => exact wellFormed_of_neutral rfl
  | reseeded _ _ hpoint => exact wellFormed_of_neutral hpoint
  | captured => exact ⟨fun b hb => (by cases hb), fun chunk hc => planCaptureChunks_fits hc⟩
  | committed _ hp =>
    refine ⟨fun b hb => (by cases hb), fun chunk hc => hw.chunks chunk ?_⟩
    rw [hp]
    exact List.mem_cons_of_mem _ hc
  | plannedOpen _ hb =>
    refine ⟨fun b h => ?_, fun chunk hc => (by cases hc)⟩
    cases h
    exact planBatch_heads hb
  | plannedGated _ hb =>
    refine ⟨fun b h => ?_, fun chunk hc => ?_⟩
    · simp only [goTo] at h
      split at h <;> cases h <;> exact planBatch_heads hb
    · simp only [goTo] at hc
      split at hc <;> cases hc
  | asked _ hp =>
    refine ⟨fun b h => ?_, fun chunk hc => (by cases hc)⟩
    exact hbatch (by rw [hp]; exact h)
  | sent _ hp =>
    refine ⟨fun b h => ?_, fun chunk hc => (by cases hc)⟩
    exact hbatch (by rw [hp]; exact h)
  | granted _ hp =>
    refine ⟨fun b h => ?_, fun chunk hc => (by cases hc)⟩
    exact hbatch (by rw [hp]; exact h)
  | refused _ _ hpoint => exact wellFormed_of_neutral hpoint
  | floored _ hp =>
    refine ⟨fun b h => ?_, fun chunk hc => (by cases hc)⟩
    exact hbatch (by rw [hp]; exact h)
  | answered => exact wellFormed_of_empty rfl rfl
  | acked => exact wellFormed_of_empty rfl rfl
  | checked => exact wellFormed_of_empty rfl rfl
  | kept => exact wellFormed_of_empty rfl rfl

end Device

end YapStack.Sync
