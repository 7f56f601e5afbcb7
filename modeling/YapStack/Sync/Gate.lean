import YapStack.Sync.DeviceSteps

set_option linter.unusedSectionVars false

namespace YapStack.Sync.Device

open Relay.Sequence

variable {Client : Type} [DecidableEq Client] (cfg : Config Client)

/-- The answer to a raise shows that the relay enforces the gate. -/
def raiseProves (level : Int) (reply : Reply SyncCapabilityLevels) : Bool :=
  match receiveRaise level reply with
  | .ok levels => level ≤ levels.requiredSyncCapability
  | .error (.capabilityBlocked _ _) => true
  | .error _ => false

/-- The answer to a gated batch shows that the relay enforces the gate. -/
def floorProves (level : Int) (reply : Reply (PushResponse Client)) : Bool :=
  match receive level reply with
  | .ok _ => false
  | .error e => level ≠ 0 && e.isCapabilityFloor

/-- Whether this connection has seen proof that the relay enforces the gate,
since it opened and since a cycle last folded in a network error. -/
def proofSeen (seen : Bool) (d : Device Client) : Input Client → Bool
  | .advance _ _ => seen && d.queue.head? ≠ some .forgetProof
  | .raised reply _ => seen || (d.point.batch.any (fun b => raiseProves b.level reply))
  | .pushed reply => seen || (d.point.batch.any (fun b => floorProves b.level reply))
  | .pulled _ pullError => seen || pullError.any SyncError.isUpdateRequired
  | .respawn => false
  | _ => seen

/-- A refused raise at or below this level is backing off. -/
def Held (s : Session) (clock level : Int) : Prop :=
  ∃ refused, s.raiseBackoff clock = some refused ∧ refused.level ≤ level

/-- The change opens, and every row in it needs at most this level. -/
def Covers (clientSeq : Int) (blob : Bytes) (level : Int) : Prop :=
  ∃ cs, openBlob cfg.cipher cfg.clientId clientSeq blob = .ok cs ∧
    ∀ r ∈ cs.rows, tableSyncCapability r.table ≤ level

/-- The changes are the first so many unacked entries, all of this level. -/
def Front (o : Outbox) (changes : List (PushChange Client)) (level : Int) : Prop :=
  ∃ n, 0 < n ∧ changes = (o.unacked.take n).map (OutboxEntry.change cfg.clientId) ∧
    ∀ e ∈ o.unacked.take n, e.requiredSyncCapability = level

/-- What may leave a device, given whether it has seen proof of the gate. -/
def Allowed (d : Device Client) (seen : Bool) : Request Client → Prop
  | .raise level => ¬ Held d.session d.clock level
  | .push changes level =>
    Front cfg d.db.outbox changes level ∧
      (∀ c ∈ changes, Covers cfg c.clientSeq c.ciphertext level) ∧
      (0 < level → seen = true) ∧ ¬ Held d.session d.clock level

structure EntryCovered (e : OutboxEntry) : Prop where
  covers : Covers cfg e.clientSeq e.ciphertext e.requiredSyncCapability
  level : 0 ≤ e.requiredSyncCapability

/-- A batch is on its way to its request, and no refusal holds it. -/
structure Preparing (s : Session) (clock : Int) (queue : List SessionStatement) (b : Batch) :
    Prop where
  only : ∀ st ∈ queue, st = .markCapabilityGateProven ∨ st = .clearRaiseBackoff
  clear : .clearRaiseBackoff ∈ queue ∨ ¬ Held s clock b.level

def Proving (s : Session) (queue : List SessionStatement) : Prop :=
  s.capabilityGateProven = true ∨ .markCapabilityGateProven ∈ queue

/-- What holds of a connection while the cycle stands at this point with a batch. -/
def GatedAt (s : Session) (clock : Int) (queue : List SessionStatement) : Point Client → Prop
  | .askRaise b _ _ => 0 < b.level ∧ Preparing s clock queue b
  | .awaitRaise b _ _ => 0 < b.level ∧ Preparing s clock queue b
  | .send b _ _ => Preparing s clock queue b ∧ (0 < b.level → Proving s queue)
  | .awaitPush b _ _ => Preparing s clock queue b
  | _ => True

/-- What a connection and its statements still to run say of the gate. -/
structure SessionGated (s : Session) (queue : List SessionStatement) (seen : Bool) : Prop where
  proven : s.capabilityGateProven = true → seen = true
  proving : .markCapabilityGateProven ∈ queue → seen = true
  order : queue.Pairwise (fun st next => st = .forgetProof → next ≠ .markCapabilityGateProven)
  levels : ∀ b, s.backoff = some b → 0 < b.level
  refusals : ∀ refused nowMs, .recordRefusedRaise refused nowMs ∈ queue → 0 < refused.level

structure Gated (d : Device Client) (seen : Bool) : Prop where
  wellFormed : d.WellFormed
  entries : ∀ e ∈ d.db.outbox.entries, EntryCovered cfg e
  session : SessionGated d.session d.queue seen
  point : GatedAt d.session d.clock d.queue d.point

section Session

variable {s : Session} {clock level : Int} {queue : List SessionStatement} {st : SessionStatement}
variable {b : Batch} {seen seen' : Bool} {p : Point Client}

theorem gatedAt_of_empty (h : p.batch = none) : GatedAt s clock queue p := by
  cases p <;> trivial

theorem not_held_of_open (h : SessionGated s queue seen) (hlevel : level ≤ 0) :
    ¬ Held s clock level := by
  rintro ⟨refused, hr, hle⟩
  obtain ⟨b, hb, hbl⟩ := Session.raiseBackoff_level hr
  have hpos := h.levels b hb
  omega

theorem Preparing.ran (h : Preparing s clock (st :: queue) b) :
    Preparing (s.run st) clock queue b := by
  refine ⟨fun t ht => h.only t (List.mem_cons_of_mem st ht), ?_⟩
  obtain rfl | rfl := h.only st List.mem_cons_self
  · exact h.clear.imp (fun hc => by simpa using hc) (fun hc => hc)
  · right
    rintro ⟨refused, hr, _⟩
    cases hr

theorem Proving.ran (h : Proving s (st :: queue)) (hne : st ≠ .forgetProof) :
    Proving (s.run st) queue := by
  obtain hp | hp := h
  · left
    cases st <;> first | exact hp | rfl | exact absurd rfl hne
  · obtain rfl | hp := List.mem_cons.mp hp
    · exact Or.inl rfl
    · exact Or.inr hp

theorem gatedAt_ran (h : GatedAt s clock (st :: queue) p) : GatedAt (s.run st) clock queue p := by
  cases p with
  | askRaise b total retry => exact ⟨h.1, h.2.ran⟩
  | awaitRaise b total retry => exact ⟨h.1, h.2.ran⟩
  | send b total retry =>
    refine ⟨h.1.ran, fun hl => (h.2 hl).ran ?_⟩
    rintro rfl
    have hst := h.1.only .forgetProof List.mem_cons_self
    simp at hst
  | awaitPush b total retry => exact h.ran
  | _ => trivial

theorem sessionGated_ran (h : SessionGated s (st :: queue) seen) :
    SessionGated (s.run st) queue (seen && st ≠ .forgetProof) := by
  obtain ⟨hhead, horder⟩ := List.pairwise_cons.mp h.order
  refine ⟨fun hp => ?_, fun hm => ?_, horder, fun b hb => ?_, fun refused nowMs hr => ?_⟩
  · by_cases hf : st = .forgetProof
    · subst hf
      cases hp
    · have hseen : seen = true := by
        by_cases hm : st = .markCapabilityGateProven
        · exact h.proving (by simp [hm])
        · apply h.proven
          cases st <;> first | exact hp | exact absurd rfl hm | exact absurd rfl hf
      simp [hseen, hf]
  · have hseen := h.proving (List.mem_cons_of_mem st hm)
    have hne : st ≠ .forgetProof := fun hf => hhead _ hm hf rfl
    simp [hseen, hne]
  · obtain ⟨c, hc, hl⟩ | ⟨refused, nowMs, rfl, hl⟩ := Session.run_backoff_level hb
    · rw [← hl]
      exact h.levels c hc
    · rw [← hl]
      exact h.refusals refused nowMs List.mem_cons_self
  · exact h.refusals refused nowMs (List.mem_cons_of_mem st hr)

/-- New statements that do not touch the proof, or that set it once it is seen. -/
theorem SessionGated.queued (h : SessionGated s [] seen) (hseen : seen = true → seen' = true)
    (hmark : .markCapabilityGateProven ∈ queue → seen' = true)
    (hforget : .forgetProof ∉ queue)
    (hrefused : ∀ refused nowMs, .recordRefusedRaise refused nowMs ∈ queue → 0 < refused.level) :
    SessionGated s queue seen' := by
  refine ⟨fun hp => hseen (h.proven hp), hmark, ?_, h.levels, hrefused⟩
  apply List.pairwise_of_forall_mem_list
  rintro st hst next hnext rfl
  exact absurd hst hforget

theorem SessionGated.shrink (h : SessionGated s queue seen) : SessionGated s [] seen :=
  ⟨h.proven, by simp, List.Pairwise.nil, h.levels, by simp⟩

theorem sessionGated_folded {pushError pullError : Option SyncError}
    {relayCapability : Option SyncCapabilityLevels} (h : SessionGated s [] seen) :
    SessionGated s (foldCycle pushError pullError relayCapability)
      (seen || pullError.any SyncError.isUpdateRequired) := by
  have hnote : ∀ st ∈ (relayCapability.map noteRelayCapability).getD [],
      ∃ levels, st = .endBackoff levels ∨ st = .rememberLevels levels := by
    cases relayCapability with
    | none => simp
    | some levels => exact fun st hst => ⟨levels, by simpa [noteRelayCapability] using hst⟩
  refine ⟨fun hp => by simp [h.proven hp], fun hm => ?_, ?_, h.levels, fun refused nowMs hr => ?_⟩
  · simp only [foldCycle, forgetCapabilityGate, List.mem_append] at hm
    obtain hm | hm | hm := hm
    · split at hm
      · rename_i hu
        simp [hu]
      · cases hm
    · split at hm <;> simp at hm
    · obtain ⟨levels, hst | hst⟩ := hnote _ hm <;> cases hst
  · refine List.pairwise_append.mpr ⟨?_, List.pairwise_append.mpr ⟨?_, ?_, ?_⟩, ?_⟩
    · split <;> simp
    · simp only [forgetCapabilityGate]
      split <;> simp
    · apply List.pairwise_of_forall_mem_list
      intro st hst next _ hf
      obtain ⟨levels, h | h⟩ := hnote st hst <;> rw [h] at hf <;> cases hf
    · intro st _ next hnext _ hf
      obtain ⟨levels, h | h⟩ := hnote next hnext <;> rw [h] at hf <;> cases hf
    · intro st hst next _ hf
      split at hst
      · rw [List.mem_singleton.mp hst] at hf
        cases hf
      · cases hst
  · simp only [foldCycle, forgetCapabilityGate, List.mem_append] at hr
    obtain hr | hr | hr := hr
    · split at hr <;> simp at hr
    · split at hr <;> simp at hr
    · obtain ⟨levels, hst | hst⟩ := hnote _ hr <;> cases hst

end Session

variable {cfg} {d d' : Device Client} {seen : Bool} {b : Batch} {input : Input Client}

/-- A batch's level is the level of one of its entries. -/
theorem batch_level_nonneg (h : ∀ e ∈ d.db.outbox.entries, EntryCovered cfg e)
    (hb : b.Prefix d.db.outbox) : 0 ≤ b.level := by
  obtain ⟨e, he⟩ := List.exists_mem_of_ne_nil _ hb.nonempty
  have hmem := (Outbox.mem_unacked.mp (hb.first.subset he)).1
  rw [← hb.level e he]
  exact (h e hmem).level

theorem entryCovered_ack {q : Int} {n : Nat} {e : OutboxEntry} (h : EntryCovered cfg e) :
    EntryCovered cfg (Outbox.ackEntry q n e) := by
  refine ⟨?_, ?_⟩
  · simpa using h.covers
  · simpa using h.level

theorem entryCovered_inserted {draw : Draw} {schemaVersion engineVersion : Int}
    {chunk : List ChangeRow} {db : LocalDb} (h : ∀ e ∈ d.db.outbox.entries, EntryCovered cfg e)
    (hfits : Changeset.Fits ⟨chunk⟩)
    (hok : d.db.insertChunk cfg.cipher cfg.clientId draw schemaVersion engineVersion chunk =
      .ok db) : ∀ e ∈ db.outbox.entries, EntryCovered cfg e := by
  obtain ⟨e, outbox, rfl, hinsert, _, hlevel, hopen⟩ := LocalDb.insertChunk_ok hok
  intro f hf
  obtain hf | rfl := (Outbox.mem_insert hinsert).mp hf
  · exact h f hf
  · refine ⟨⟨⟨chunk⟩, hopen hfits, fun r hr => ?_⟩, ?_⟩
    · rw [hlevel]
      exact level_le_chunkLevel hr
    · rw [hlevel]
      exact chunkLevel_nonneg chunk

theorem proofSeen_of_seen (hi : input ≠ .respawn) (hq : d.queue = [] ∨ input = .fail)
    (h : seen = true) : proofSeen seen d input = true := by
  subst h
  cases input with
  | advance draw nowMs =>
    obtain hq | hq := hq
    · simp [proofSeen, hq]
    · cases hq
  | respawn => exact absurd rfl hi
  | _ => rfl

theorem Gated.rested (h : Gated cfg d seen) (hr : Rests d d') (hi : input ≠ .respawn)
    (hq : d.queue = [] ∨ input = .fail) : Gated cfg d' (proofSeen seen d input) := by
  refine ⟨wellFormed_of_neutral hr.point, ?_, ?_, gatedAt_of_empty (Point.batch_of_neutral hr.point)⟩
  · rw [hr.db]
    exact h.entries
  · rw [hr.session]
    refine h.session.shrink.queued (proofSeen_of_seen hi hq) (fun hm => ?_) (fun hf => ?_)
      (fun refused nowMs hm => ?_)
    · obtain hm | hm := hr.queue _ hm <;> cases hm
    · obtain hf | hf := hr.queue _ hf <;> cases hf
    · obtain hm | hm := hr.queue _ hm <;> cases hm

theorem proofSeen_advance {draw : Draw} {nowMs : Int} (hq : d.queue = []) :
    proofSeen seen d (.advance draw nowMs) = seen := by
  simp [proofSeen, hq]

theorem SessionGated.reconciled {s : Session} {queue : List SessionStatement}
    (h : SessionGated s [] seen) (hq : ∀ st ∈ queue, st = .markSeqReconciled) :
    SessionGated s queue seen := by
  refine h.queued (fun hseen => hseen) (fun hm => ?_) (fun hf => ?_) (fun refused nowMs hr => ?_)
  · cases hq _ hm
  · cases hq _ hf
  · cases hq _ hr

theorem Preparing.not_held {s : Session} {clock : Int} (h : Preparing s clock [] b) :
    ¬ Held s clock b.level := by
  obtain hc | hc := h.clear
  · cases hc
  · exact hc

theorem preparing_of_not_held {s : Session} {clock : Int} {queue : List SessionStatement}
    (hq : ∀ st ∈ queue, st = .markCapabilityGateProven) (h : ¬ Held s clock b.level) :
    Preparing s clock queue b :=
  ⟨fun st hst => Or.inl (hq st hst), Or.inr h⟩

theorem raiseProves_seen {total : Nat} {retry : Bool} {reply : Reply SyncCapabilityLevels}
    {nowMs : Int} (hpt : d.point = .awaitRaise b total retry)
    (h : raiseProves b.level reply = true) : proofSeen seen d (.raised reply nowMs) = true := by
  simp [proofSeen, hpt, Point.batch, h]

theorem gated_step (h : Gated cfg d seen) (hm : Moved cfg d input d') :
    Gated cfg d' (proofSeen seen d input) := by
  have hwell := wellFormed_step h.wellFormed hm
  have hs := h.session
  have hp := h.point
  cases hm with
  | wrote => exact ⟨hwell, h.entries, hs, hp⟩
  | ran hq =>
    rw [hq] at hs hp
    refine ⟨hwell, h.entries, ?_, gatedAt_ran hp⟩
    simpa [proofSeen, hq] using sessionGated_ran hs
  | respawned =>
    refine ⟨hwell, h.entries, ?_, trivial⟩
    exact ⟨by simp [Session.opened], by simp, List.Pairwise.nil, by simp [Session.opened], by simp⟩
  | rested hr hi hq => exact h.rested hr hi hq
  | folded hq =>
    rw [hq] at hs
    exact ⟨hwell, h.entries, sessionGated_folded hs, trivial⟩
  | reseeded hq hqueue hpoint =>
    rw [hq] at hs
    rw [proofSeen_advance hq]
    refine ⟨hwell, fun e he => h.entries e (Outbox.mem_dropUnacked.mp he).1,
      hs.reconciled hqueue, gatedAt_of_empty (Point.batch_of_neutral hpoint)⟩
  | captured hq =>
    rw [hq] at hs
    rw [proofSeen_advance hq]
    exact ⟨hwell, h.entries, hs, trivial⟩
  | committed hq hpt hok =>
    rw [hq] at hs
    rw [proofSeen_advance hq]
    have hfits := h.wellFormed.chunks _ (by rw [hpt]; exact List.mem_cons_self)
    exact ⟨hwell, fun e he => entryCovered_inserted h.entries hfits hok e he, hs, trivial⟩
  | plannedOpen hq hb hlevel =>
    rw [hq] at hs
    rw [proofSeen_advance hq]
    refine ⟨hwell, h.entries, hs, ?_, fun hpos => by omega⟩
    exact preparing_of_not_held (fun st hst => by cases hst) (not_held_of_open hs (by omega))
  | @plannedGated draw nowMs total b hq hb hlevel hclear =>
    rw [hq] at hs
    rw [proofSeen_advance hq]
    refine ⟨hwell, h.entries, hs, ?_⟩
    have hpos : 0 < b.level := by
      have hnonneg := batch_level_nonneg h.entries (planBatch_heads hb)
      omega
    have hprep : Preparing d.session nowMs [] b := by
      refine preparing_of_not_held (fun st hst => by cases hst) ?_
      rintro ⟨refused, hr, hle⟩
      have hlt := hclear refused hr
      omega
    simp only [goTo]
    split
    · rename_i hproven
      exact ⟨hprep, fun _ => Or.inl hproven⟩
    · exact ⟨hpos, hprep⟩
  | asked hq hpt =>
    rw [hq] at hs hp
    rw [hpt] at hp
    rw [proofSeen_advance hq]
    exact ⟨hwell, h.entries, hs, hp⟩
  | sent hq hpt =>
    rw [hq] at hs hp
    rw [hpt] at hp
    rw [proofSeen_advance hq]
    exact ⟨hwell, h.entries, hs, hp.1⟩
  | @granted b total retry reply nowMs levels hq hpt hr hlevel =>
    rw [hq] at hs
    have hseen : proofSeen seen d (.raised reply nowMs) = true :=
      raiseProves_seen hpt (by simp [raiseProves, hr, hlevel])
    refine ⟨hwell, h.entries, ?_, ⟨by simp [goTo], Or.inl (by simp [goTo])⟩,
      fun _ => Or.inr (by simp [goTo])⟩
    exact hs.queued (fun _ => hseen) (fun _ => hseen) (by simp [goTo]) (by simp [goTo])
  | @refused b total retry reply nowMs refusal proof point hq hpt hpoint hproof =>
    rw [hq] at hs
    rw [hpt] at hp
    refine ⟨hwell, h.entries, ?_, gatedAt_of_empty (Point.batch_of_neutral hpoint)⟩
    have hstatement : ∀ st ∈ proof ++ [SessionStatement.recordRefusedRaise ⟨b.level, refusal⟩ nowMs],
        (st = .markCapabilityGateProven ∧ proofSeen seen d (.raised reply nowMs) = true) ∨
          st = .recordRefusedRaise ⟨b.level, refusal⟩ nowMs := by
      intro st hst
      obtain rfl | ⟨rfl, l, blockers, hr⟩ := hproof
      · exact Or.inr (by simpa using hst)
      · have hseen : proofSeen seen d (.raised reply nowMs) = true :=
          raiseProves_seen hpt (by simp [raiseProves, hr])
        simpa [hseen] using hst
    refine hs.queued (fun hseen => by simp [proofSeen, hseen]) (fun hm => ?_) (fun hf => ?_)
      (fun refused _ hr => ?_)
    · obtain ⟨_, hseen⟩ | hm := hstatement _ hm
      · exact hseen
      · cases hm
    · obtain ⟨hf, _⟩ | hf := hstatement _ hf <;> cases hf
    · obtain ⟨hr, _⟩ | hr := hstatement _ hr <;> cases hr
      exact hp.1
  | @floored b total reply e hq hpt hr he hlevel =>
    rw [hq] at hs hp
    rw [hpt] at hp
    have hseen : proofSeen seen d (.pushed reply) = true := by
      simp [proofSeen, hpt, Point.batch, floorProves, hr, he, hlevel]
    have hnonneg := batch_level_nonneg h.entries
      (h.wellFormed.batch b (by rw [hpt]; rfl))
    have hpos : 0 < b.level := by omega
    refine ⟨hwell, h.entries, ?_, hpos, preparing_of_not_held (by simp [goTo]) hp.not_held⟩
    exact hs.queued (fun _ => hseen) (fun _ => hseen) (by simp [goTo]) (by simp [goTo])
  | answered hq hpt hr =>
    rw [hq] at hs
    refine ⟨hwell, h.entries, ?_, trivial⟩
    exact hs.queued (fun hseen => by simp [proofSeen, hseen]) (by simp [goTo]) (by simp [goTo])
      (by simp [goTo])
  | acked hq hpt =>
    rw [hq] at hs
    rw [proofSeen_advance hq]
    refine ⟨hwell, fun f hf => ?_, hs, trivial⟩
    obtain ⟨e, he, rfl⟩ := Outbox.mem_ack.mp hf
    exact entryCovered_ack (h.entries e he)
  | checked hq hpt =>
    rw [hq] at hs
    rw [proofSeen_advance hq]
    exact ⟨hwell, h.entries, hs, trivial⟩
  | kept hq hpt =>
    rw [hq] at hs
    exact ⟨hwell, h.entries, hs.reconciled (fun st hst => List.mem_singleton.mp hst), trivial⟩

theorem gated_opened : Gated cfg (opened LocalDb.empty) false := by
  refine ⟨wellFormed_of_neutral rfl, fun e he => (by cases he), ?_, trivial⟩
  exact ⟨by simp [opened, Session.opened], by simp [opened], List.Pairwise.nil,
    by simp [opened, Session.opened], by simp [opened]⟩

theorem covers_of_mem (h : Gated cfg d seen) (hb : b.Prefix d.db.outbox) {c : PushChange Client}
    (hc : c ∈ b.entries.map (OutboxEntry.change cfg.clientId)) :
    Covers cfg c.clientSeq c.ciphertext b.level := by
  obtain ⟨e, he, rfl⟩ := List.mem_map.mp hc
  have hmem := (Outbox.mem_unacked.mp (hb.first.subset he)).1
  have hcovers := (h.entries e hmem).covers
  rw [hb.level e he] at hcovers
  exact hcovers

theorem front_of_heads (hb : b.Prefix d.db.outbox) :
    Front cfg d.db.outbox (b.entries.map (OutboxEntry.change cfg.clientId)) b.level := by
  have htake := List.prefix_iff_eq_take.mp hb.first
  refine ⟨b.entries.length, List.length_pos_of_ne_nil hb.nonempty, ?_, fun e he => ?_⟩
  · rw [← htake]
  · rw [← htake] at he
    exact hb.level e he

/-- Whatever leaves a gated device may leave it. -/
theorem request_allowed (h : Gated cfg d seen) {r : Request Client}
    (hr : d.request cfg = some r) : Allowed cfg d seen r := by
  have hs := h.session
  have hp := h.point
  simp only [request] at hr
  split at hr
  · rename_i b total retry hq hpt
    cases hr
    rw [hq, hpt] at hp
    exact hp.2.not_held
  · rename_i b total retry hq hpt
    cases hr
    have hb := h.wellFormed.batch b (by rw [hpt]; rfl)
    rw [hq, hpt] at hp
    refine ⟨front_of_heads hb, fun c hc => covers_of_mem h hb hc, fun hpos => ?_,
      hp.1.not_held⟩
    obtain hproven | hproven := hp.2 hpos
    · exact hs.proven hproven
    · cases hproven
  · cases hr

variable (cfg) in
/-- In every run of a device, with any answers of the relay, every batch that
leaves it is the front of its unacked entries, at one level that covers every
row in it; a gated one only leaves once this connection has seen proof of the
gate; and nothing leaves at or above a level that is backing off. -/
theorem gated_publication (inputs : List (Input Client)) :
    Runs.Along (Runs.watch (step cfg) proofSeen)
      (fun p input _ => ∀ draw nowMs r, input = .advance draw nowMs →
        p.1.request cfg = some r → Allowed cfg p.1 p.2 r)
      (opened LocalDb.empty, false) inputs := by
  apply Runs.along_of_invariant (I := fun p : Device Client × Bool => Gated cfg p.1 p.2)
    (g := fun _ _ _ => True) _ _ gated_opened (Runs.along_true _ _)
  · intro p input q hp _ hstep
    obtain ⟨hd, hseen⟩ := (Runs.watch_eq_some proofSeen p q input).mp hstep
    rw [hseen]
    exact gated_step hp (step_moved hd)
  · intro p input q hp _ _ draw nowMs r _ hr
    exact request_allowed hp hr

end YapStack.Sync.Device
