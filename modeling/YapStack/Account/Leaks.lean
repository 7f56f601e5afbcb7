import YapStack.Account.Binding
import YapStack.Foundation.Runs

namespace YapStack.Account

open YapStack.Runs

namespace State

variable {s t : State} {i : ℕ} {d : Drain}

/-- The binding a drain was spawned under is in force, it acts with its own account's
credentials, and nobody is changing the binding. -/
def AtHome (s : State) (d : Drain) : Prop :=
  d.binding = s.bindings ∧ d.bearer = d.tenant ∧ ∀ k ∈ s.tasks, k.rebinds = false

/-- Nothing another account left behind in the two stashes would be read as `tenant`'s. -/
def NoLeftovers (db : Database) (tenant : ℕ) : Prop :=
  (∀ r ∈ db.pending, r.binding = some tenant) ∧
    ∀ q ∈ db.quarantine, (∃ k ∈ q.changeset.opens, k.1 = tenant) → q.binding = some tenant

instance (s : State) (d : Drain) : Decidable (AtHome s d) := by
  unfold AtHome
  infer_instance

instance (db : Database) (tenant : ℕ) : Decidable (NoLeftovers db tenant) := by
  unfold NoLeftovers
  infer_instance

/-- The condition: a drain acts only under its own binding, and a binding is recorded only
when the stashes hold nothing of another. -/
def Kept (s : State) (e : Event) (_ : State) : Prop :=
  match e with
  | .capture i _ | .readBatch i _ | .push i _ | .pull i | .receive i _ | .endPage i _
  | .replay i _ => ∀ d ∈ s.drains i, AtHome s d
  | .act (.recordBinding c) => NoLeftovers s.db c.session.tenant
  | _ => True

instance (s : State) (e : Event) (t : State) : Decidable (Kept s e t) := by
  unfold Kept
  split <;> infer_instance

/-- What never happens once the database is bound to a tenant. -/
def LeakFree (s : State) (e : Event) (_ : State) : Prop :=
  match e with
  | .push i _ => ∀ d ∈ s.drains i, s.db.bound = some d.bearer → ∀ x ∈ d.batch, x.tenant = d.bearer
  | .pull i => ∀ d ∈ s.drains i, s.db.bound = some d.bearer → s.pulled = false →
    s.db.pullWatermark = 0
  | .replay i row => ∀ d ∈ s.drains i, s.db.bound = some d.tenant →
    ∀ r ∈ s.db.pending, r.row = row → r.binding = some d.tenant
  | .retryCryptoQuarantine => ∀ r ∈ s.session, s.db.bound = some r.tenant →
    ∀ q ∈ s.db.quarantine, q.changeset.opens = some (r.tenant, r.keyEpoch) →
      q.binding = some r.tenant
  | _ => True

instance (s : State) (e : Event) (t : State) : Decidable (LeakFree s e t) := by
  unfold LeakFree
  split <;> infer_instance

/-- What the bound tenant finds in the database. -/
structure Clean (db : Database) (pulled : Bool) (tenant : ℕ) : Prop where
  outbox : ∀ x ∈ db.outbox, x.tenant = tenant
  first : pulled = false → db.pullWatermark = 0
  pending : ∀ r ∈ db.pending, r.binding = some tenant
  quarantine : ∀ q ∈ db.quarantine, (∃ k ∈ q.changeset.opens, k.1 = tenant) →
    q.binding = some tenant

/-- What a drain of the binding in force has in hand. -/
structure DrainOk (s : State) (d : Drain) : Prop where
  known : d.binding ≤ s.bindings
  bound : d.binding = s.bindings → s.db.bound = some d.tenant
  batch : d.binding = s.bindings → ∀ x ∈ d.batch, x.tenant = d.tenant
  since : d.binding = s.bindings → d.since.isSome = true → s.pulled = true

/-- What the statements of a reconciliation have done so far. -/
def TaskOk (s : State) : Task → Prop
  | .resetPushWatermark _ | .clearOutbox _ => s.db.pullWatermark = 0
  | .recordBinding _ => s.db.pullWatermark = 0 ∧ s.db.outbox = []
  | .spawnDrain c b => b ≤ s.bindings ∧ (b = s.bindings → s.db.bound = some c.session.tenant)
  | _ => True

structure Inv (s : State) : Prop where
  clean : ∀ tenant, s.db.bound = some tenant → Clean s.db s.pulled tenant
  drains : ∀ i d, s.drains i = some d → DrainOk s d
  tasks : ∀ k ∈ s.tasks, TaskOk s k

theorem DrainOk.of_same (h : DrainOk s d) (hbound : t.db.bound = s.db.bound)
    (hb : t.bindings = s.bindings) (hp : s.pulled = true → t.pulled = true) : DrainOk t d where
  known := hb ▸ h.known
  bound he := hbound ▸ h.bound (hb ▸ he)
  batch he := h.batch (hb ▸ he)
  since he hs := hp (h.since (hb ▸ he) hs)

theorem TaskOk.of_same {k : Task} (h : TaskOk s k) (hdb : t.db = s.db)
    (hb : t.bindings = s.bindings) : TaskOk t k := by
  cases k <;> simp only [TaskOk, hdb, hb] at h ⊢ <;> exact h

theorem TaskOk.of_quiet {k : Task} (h : TaskOk s k) (hquiet : k.rebinds = false)
    (hbound : t.db.bound = s.db.bound) (hb : t.bindings = s.bindings) : TaskOk t k := by
  cases k with
  | spawnDrain c b =>
    simp only [TaskOk, hbound, hb] at h ⊢
    exact h
  | resetPullWatermark c | resetPushWatermark c | clearOutbox c | recordBinding c => cases hquiet
  | _ => trivial

theorem setDrain_eq_some {j : ℕ} {o : Option Drain} (h : (s.setDrain i o).drains j = some d) :
    (j = i ∧ o = some d) ∨ s.drains j = some d := by
  by_cases hj : j = i
  · subst hj
    exact .inl ⟨rfl, by simpa [setDrain] using h⟩
  · exact .inr (by simpa [setDrain, hj] using h)

/-- An event that leaves the database alone. -/
theorem Inv.of_db (h : Inv s) (hdb : t.db = s.db) (hb : t.bindings = s.bindings)
    (hp : t.pulled = s.pulled) (hd : ∀ i d, t.drains i = some d → DrainOk s d)
    (hk : ∀ k ∈ t.tasks, TaskOk s k) : Inv t where
  clean tenant he := by
    rw [hdb, hp]
    exact h.clean tenant (hdb ▸ he)
  drains i d hi := (hd i d hi).of_same (by rw [hdb]) hb (fun he => hp ▸ he)
  tasks k hk' := (hk k hk').of_same hdb hb

/-- A step of a drain at home. -/
theorem Inv.of_home (h : Inv s) (hh : AtHome s d) (hbound : t.db.bound = s.db.bound)
    (hb : t.bindings = s.bindings) (hk : t.tasks = s.tasks)
    (hclean : ∀ tenant, s.db.bound = some tenant → Clean s.db s.pulled tenant →
      Clean t.db t.pulled tenant)
    (hd : ∀ i d, t.drains i = some d → DrainOk t d) : Inv t where
  clean tenant he := hclean tenant (hbound ▸ he) (h.clean tenant (hbound ▸ he))
  drains := hd
  tasks k hk' := by
    rw [hk] at hk'
    exact (h.tasks k hk').of_quiet (hh.2.2 k hk') hbound hb

theorem AtHome.bound (hh : AtHome s d) (h : Inv s) (hi : s.drains i = some d) :
    s.db.bound = some d.tenant := (h.drains i d hi).bound hh.1

theorem capture_inv {w : ℕ} (h : Inv s) (hi : s.drains i = some d) (hh : AtHome s d) :
    Inv { s with db := s.db.enqueueLocal d.tenant w } := by
  refine h.of_home hh rfl rfl rfl (fun tenant he hc => ?_) (fun j d' hj => ?_)
  · obtain rfl : d.tenant = tenant := Option.some.inj ((hh.bound h hi).symm.trans he)
    refine ⟨fun x hx => ?_, hc.first, hc.pending, hc.quarantine⟩
    rcases List.mem_append.mp hx with hold | hnew
    · exact hc.outbox x hold
    · obtain rfl := List.mem_singleton.mp hnew
      rfl
  · exact (h.drains j d' hj).of_same rfl rfl id

theorem readBatch_inv {n : ℕ} (h : Inv s) (hi : s.drains i = some d) (hh : AtHome s d) :
    Inv (s.setDrain i (some { d with
      batch := (s.db.outbox.filter (fun x => !x.acked)).take n })) := by
  refine h.of_db rfl rfl rfl (fun j d' hj => ?_) h.tasks
  rcases setDrain_eq_some hj with ⟨rfl, he⟩ | hold
  · obtain rfl := Option.some.inj he
    have hok := h.drains j d hi
    refine ⟨hok.known, hok.bound, fun _ x hx => ?_, hok.since⟩
    have hmem := List.mem_of_mem_filter (List.mem_of_mem_take hx)
    exact (h.clean d.tenant (hh.bound h hi)).outbox x hmem
  · exact h.drains j d' hold

theorem ack_tenants {db : Database} {batch : List OutboxEntry} {tenant : ℕ}
    (h : ∀ x ∈ db.outbox, x.tenant = tenant) :
    ∀ x ∈ (db.ack batch).outbox, x.tenant = tenant := by
  intro x hx
  obtain ⟨y, hy, rfl⟩ := List.mem_map.mp hx
  split
  · exact h y hy
  · exact h y hy

theorem push_inv {acked : Bool} (h : Inv s) (hi : s.drains i = some d) (hh : AtHome s d)
    (ht : s.drainStep i d (.push i acked) = some t) : Inv t := by
  obtain rfl := Option.some.inj ht
  have hd : ∀ j d', (s.setDrain i (some { d with batch := [] })).drains j = some d' →
      DrainOk s d' := by
    intro j d' hj
    rcases setDrain_eq_some hj with ⟨rfl, he⟩ | hold
    · obtain rfl := Option.some.inj he
      have hok := h.drains j d hi
      exact ⟨hok.known, hok.bound, (fun _ _ h => by cases h), hok.since⟩
    · exact h.drains j d' hold
  cases acked with
  | false => exact h.of_db rfl rfl rfl hd h.tasks
  | true =>
    refine h.of_home hh rfl rfl rfl (fun tenant he hc => ?_)
      (fun j d' hj => (hd j d' hj).of_same rfl rfl id)
    exact ⟨ack_tenants hc.outbox, hc.first, hc.pending, hc.quarantine⟩

theorem pull_inv (h : Inv s) (hi : s.drains i = some d) (hh : AtHome s d) :
    Inv { s.setDrain i (some { d with since := some s.db.pullWatermark }) with
      pulled := s.pulled || decide (s.db.bound = some d.bearer) } := by
  have hbound := hh.bound h hi
  have hpulled : (s.pulled || decide (s.db.bound = some d.bearer)) = true := by
    simp [hh.2.1, hbound]
  rw [hpulled]
  refine h.of_home hh rfl rfl rfl (fun tenant _ hc => ?_) (fun j d' hj => ?_)
  · exact ⟨hc.outbox, (by rintro ⟨⟩), hc.pending, hc.quarantine⟩
  · rcases setDrain_eq_some hj with ⟨rfl, he⟩ | hold
    · obtain rfl := Option.some.inj he
      have hok := h.drains j d hi
      exact ⟨hok.known, hok.bound, hok.batch, fun _ _ => rfl⟩
    · exact (h.drains j d' hold).of_same rfl rfl (fun _ => rfl)

theorem Clean.mergeChangeset {db : Database} {pulled : Bool} {tenant : ℕ} {c : Changeset}
    (h : Clean db pulled tenant) (hb : db.bound = some tenant) :
    Clean (db.mergeChangeset c) pulled tenant := by
  refine ⟨h.outbox, h.first, fun r hr => ?_, h.quarantine⟩
  rcases List.mem_append.mp hr with hold | hnew
  · exact h.pending r hold
  · obtain ⟨row, -, rfl⟩ := List.mem_map.mp hnew
    exact hb

theorem Clean.quarantineUndecryptable {db : Database} {pulled : Bool} {tenant : ℕ}
    {c : Changeset} (h : Clean db pulled tenant) (hb : db.bound = some tenant) :
    Clean (db.quarantineUndecryptable c) pulled tenant := by
  unfold Database.quarantineUndecryptable
  split
  · exact h
  · refine ⟨h.outbox, h.first, h.pending, fun q hq ho => ?_⟩
    rcases List.mem_append.mp hq with hold | hnew
    · exact h.quarantine q hold ho
    · obtain rfl := List.mem_singleton.mp hnew
      exact hb

theorem quarantineUndecryptable_bound (db : Database) (c : Changeset) :
    (db.quarantineUndecryptable c).bound = db.bound := by
  unfold Database.quarantineUndecryptable
  split <;> rfl

theorem receive_inv {c : Changeset} (h : Inv s) (hh : AtHome s d) :
    Inv { s with
      db := if c.opens = some (d.tenant, d.keyEpoch) then s.db.mergeChangeset c
        else s.db.quarantineUndecryptable c } := by
  split
  · refine h.of_home hh rfl rfl rfl (fun tenant he hc => hc.mergeChangeset he) ?_
    exact fun j d' hj => (h.drains j d' hj).of_same rfl rfl id
  · have hbound := quarantineUndecryptable_bound s.db c
    refine h.of_home hh hbound rfl rfl (fun tenant he hc => hc.quarantineUndecryptable he) ?_
    exact fun j d' hj => (h.drains j d' hj).of_same hbound rfl id

theorem endPage_inv {nextSeq : ℕ} (h : Inv s) (hi : s.drains i = some d) (hh : AtHome s d)
    (hs : d.since.isSome = true) :
    Inv { s.setDrain i (some { d with since := none }) with
      db := { s.db with pullWatermark := nextSeq } } := by
  have hok := h.drains i d hi
  have hpulled := hok.since hh.1 hs
  refine h.of_home hh rfl rfl rfl (fun tenant _ hc => ?_) (fun j d' hj => ?_)
  · refine ⟨hc.outbox, fun hfirst => ?_, hc.pending, hc.quarantine⟩
    exact absurd (hpulled.symm.trans hfirst) (by rintro ⟨⟩)
  · rcases setDrain_eq_some hj with ⟨rfl, he⟩ | hold
    · obtain rfl := Option.some.inj he
      exact ⟨hok.known, hok.bound, hok.batch, (fun _ h => by cases h)⟩
    · exact (h.drains j d' hold).of_same rfl rfl id

theorem replay_inv {row : ℕ} (h : Inv s) (hh : AtHome s d) :
    Inv { s with db := { s.db with pending := s.db.pending.filter (fun r => r.row ≠ row) } } := by
  refine h.of_home hh rfl rfl rfl (fun tenant _ hc => ?_) ?_
  · exact ⟨hc.outbox, hc.first, fun r hr => hc.pending r (List.mem_of_mem_filter hr),
      hc.quarantine⟩
  · exact fun j d' hj => (h.drains j d' hj).of_same rfl rfl id

theorem refresh_inv {bearer : ℕ} (h : Inv s) (hi : s.drains i = some d) :
    Inv (s.setDrain i (some { d with bearer := bearer })) := by
  refine h.of_db rfl rfl rfl (fun j d' hj => ?_) h.tasks
  rcases setDrain_eq_some hj with ⟨rfl, he⟩ | hold
  · obtain rfl := Option.some.inj he
    have hok := h.drains j d hi
    exact ⟨hok.known, hok.bound, hok.batch, hok.since⟩
  · exact h.drains j d' hold

theorem exit_inv (h : Inv s) : Inv (s.setDrain i none) := by
  refine h.of_db rfl rfl rfl (fun j d' hj => ?_) h.tasks
  rcases setDrain_eq_some hj with ⟨-, he⟩ | hold
  · cases he
  · exact h.drains j d' hold

theorem mergeAll_keeps (pulled : Bool) (tenant : ℕ) (qs : List Quarantined) (db : Database) :
    (qs.foldl (fun d q => d.mergeChangeset q.changeset) db).bound = db.bound ∧
      (db.bound = some tenant → Clean db pulled tenant →
        Clean (qs.foldl (fun d q => d.mergeChangeset q.changeset) db) pulled tenant) := by
  induction qs generalizing db with
  | nil => exact ⟨rfl, fun _ h => h⟩
  | cons q qs ih =>
    obtain ⟨hbound, hclean⟩ := ih (db.mergeChangeset q.changeset)
    exact ⟨hbound, fun hb h => hclean hb (h.mergeChangeset hb)⟩

theorem mergeAll_pullWatermark (qs : List Quarantined) (db : Database) :
    (qs.foldl (fun d q => d.mergeChangeset q.changeset) db).pullWatermark = db.pullWatermark ∧
      (qs.foldl (fun d q => d.mergeChangeset q.changeset) db).outbox = db.outbox := by
  induction qs generalizing db with
  | nil => exact ⟨rfl, rfl⟩
  | cons q qs ih => exact ih (db.mergeChangeset q.changeset)

theorem TaskOk.of_durable {k : Task} (h : TaskOk s k) (hbound : t.db.bound = s.db.bound)
    (hwm : t.db.pullWatermark = s.db.pullWatermark) (ho : t.db.outbox = s.db.outbox)
    (hb : t.bindings = s.bindings) : TaskOk t k := by
  cases k <;> simp only [TaskOk, hbound, hwm, ho, hb] at h ⊢ <;> exact h

theorem retry_inv {tenant keyEpoch : ℕ} (h : Inv s) :
    Inv { s with db := s.db.retryCryptoQuarantine tenant keyEpoch } := by
  let opened := s.db.quarantine.filter (fun q => q.changeset.opens = some (tenant, keyEpoch))
  let kept := { s.db with
    quarantine := s.db.quarantine.filter (fun q => q.changeset.opens ≠ some (tenant, keyEpoch)) }
  have hbound := (mergeAll_keeps s.pulled tenant opened kept).1
  obtain ⟨hwm, ho⟩ := mergeAll_pullWatermark opened kept
  refine ⟨fun b he => ?_, fun j d' hj => ?_, fun k hk => ?_⟩
  · have he' : s.db.bound = some b := hbound.symm.trans he
    have hc := h.clean b he'
    refine (mergeAll_keeps _ _ opened kept).2 he' ⟨hc.outbox, hc.first, hc.pending, fun q hq => ?_⟩
    exact hc.quarantine q (List.mem_of_mem_filter hq)
  · exact (h.drains j d' hj).of_same hbound rfl id
  · exact (h.tasks k hk).of_durable hbound hwm ho rfl

theorem drainStep_inv {e : Event} (h : Inv s) (hi : s.drains i = some d)
    (he : e.drain = some i) (hg : Kept s e t) (ht : s.drainStep i d e = some t) : Inv t := by
  cases e with
  | capture j w =>
    obtain rfl := Option.some.inj he
    obtain rfl := Option.some.inj ht
    exact capture_inv h hi (hg d hi)
  | readBatch j n =>
    obtain rfl := Option.some.inj he
    obtain rfl := Option.some.inj ht
    exact readBatch_inv h hi (hg d hi)
  | push j acked =>
    obtain rfl := Option.some.inj he
    exact push_inv h hi (hg d hi) ht
  | pull j =>
    obtain rfl := Option.some.inj he
    obtain rfl := Option.some.inj ht
    exact pull_inv h hi (hg d hi)
  | receive j c =>
    obtain rfl := Option.some.inj he
    simp only [drainStep, Option.ite_none_right_eq_some, Option.some.injEq] at ht
    obtain ⟨-, rfl⟩ := ht
    exact receive_inv h (hg d hi)
  | endPage j nextSeq =>
    obtain rfl := Option.some.inj he
    simp only [drainStep, Option.ite_none_right_eq_some, Option.some.injEq] at ht
    obtain ⟨hs, rfl⟩ := ht
    exact endPage_inv h hi (hg d hi) hs
  | replay j row =>
    obtain rfl := Option.some.inj he
    obtain rfl := Option.some.inj ht
    exact replay_inv h (hg d hi)
  | refresh j =>
    simp only [drainStep, Option.ite_none_right_eq_some] at ht
    obtain ⟨-, ht⟩ := ht
    obtain ⟨r, -, rfl⟩ := Option.map_eq_some_iff.mp ht
    exact refresh_inv h hi
  | exit j => exact Option.some.inj ht ▸ exit_inv h
  | _ => cases ht

/-- What one statement of a command does to the state, and the task it leaves. -/
structure Acts (s t : State) (ks : List Task) : Prop where
  clean : ∀ tenant, t.db.bound = some tenant → Clean t.db t.pulled tenant
  drains : ∀ i d, t.drains i = some d → DrainOk t d
  others : ∀ k, TaskOk s k → TaskOk t k
  next : ∀ k ∈ ks, TaskOk t k

theorem Acts.of_same {ks : List Task} (h : Inv s) (hks : ∀ k ∈ ks, TaskOk s k) :
    Acts s s ks :=
  ⟨h.clean, h.drains, fun _ hk => hk, hks⟩

theorem recordBinding_acts {c : Caller} (h : Inv s) (hk : TaskOk s (.recordBinding c))
    (hg : NoLeftovers s.db c.session.tenant) :
    Acts s { s with
      db := { s.db with bound := some c.session.tenant }
      bindings := s.bindings + 1
      pulled := false } [.spawnDrain c (s.bindings + 1)] := by
  obtain ⟨hwm, hout⟩ := hk
  refine ⟨fun tenant he => ?_, fun j d' hj => ?_, fun k hok => ?_, fun k hk => ?_⟩
  · obtain rfl := Option.some.inj he
    exact ⟨by simp [hout], fun _ => hwm, hg.1, hg.2⟩
  · have hknown := (h.drains j d' hj).known
    have hold : d'.binding ≠ s.bindings + 1 := by omega
    exact ⟨Nat.le_succ_of_le hknown, fun he => absurd he hold, fun he => absurd he hold,
      fun he => absurd he hold⟩
  · cases k with
    | spawnDrain c' b =>
      have hold : b ≠ s.bindings + 1 := by
        have hle := hok.1
        omega
      exact ⟨Nat.le_succ_of_le hok.1, fun he => absurd he hold⟩
    | _ => exact hok
  · obtain rfl := List.mem_singleton.mp hk
    exact ⟨Nat.le_refl _, fun _ => rfl⟩

theorem spawn_acts {c : Caller} {b : ℕ} (h : Inv s) (hk : TaskOk s (.spawnDrain c b)) :
    Acts s (s.spawn c b) [.install c s.nextDrain] := by
  refine ⟨h.clean, fun j d' hj => ?_, fun k hok => ?_, fun k hk => ?_⟩
  · have hj' : (s.setDrain s.nextDrain (some
        ⟨c.session.tenant, c.session.keyEpoch, c.session.tenant, b, [], none⟩)).drains j =
          some d' := hj
    rcases setDrain_eq_some hj' with ⟨-, he⟩ | hold
    · obtain rfl := Option.some.inj he
      exact ⟨hk.1, hk.2, (by simp), (by simp)⟩
    · exact (h.drains j d' hold).of_same rfl rfl id
  · exact hok.of_same rfl rfl
  · obtain rfl := List.mem_singleton.mp hk
    trivial

/-- A step that changes what the commands keep outside the database. -/
theorem acts_of_db {ks : List Task} (h : Inv s) (hdb : t.db = s.db)
    (hb : t.bindings = s.bindings) (hp : t.pulled = s.pulled) (hd : t.drains = s.drains)
    (hks : ∀ k ∈ ks, TaskOk s k) : Acts s t ks where
  clean tenant he := by
    rw [hdb, hp]
    exact h.clean tenant (hdb ▸ he)
  drains i d hi := (h.drains i d (hd ▸ hi)).of_same (by rw [hdb]) hb (fun he => hp ▸ he)
  others k hk := hk.of_same hdb hb
  next k hk := (hks k hk).of_same hdb hb

theorem resetPullWatermark_acts {c : Caller} (h : Inv s) :
    Acts s { s with db := { s.db with pullWatermark := 0 } } [.resetPushWatermark c] := by
  refine ⟨fun tenant he => ?_, fun j d' hj => ?_, fun k hok => ?_, fun k hk => ?_⟩
  · have hc := h.clean tenant he
    exact ⟨hc.outbox, fun _ => rfl, hc.pending, hc.quarantine⟩
  · exact (h.drains j d' hj).of_same rfl rfl id
  · cases k with
    | resetPushWatermark c' | clearOutbox c' => rfl
    | recordBinding c' => exact ⟨rfl, hok.2⟩
    | _ => exact hok
  · obtain rfl := List.mem_singleton.mp hk
    rfl

theorem resetPushWatermark_acts {c : Caller} (h : Inv s)
    (hk : TaskOk s (.resetPushWatermark c)) :
    Acts s { s with db := { s.db with pushWatermark := 0 } } [.clearOutbox c] := by
  refine ⟨fun tenant he => ?_, fun j d' hj => ?_, fun k hok => ?_, fun k hk' => ?_⟩
  · have hc := h.clean tenant he
    exact ⟨hc.outbox, hc.first, hc.pending, hc.quarantine⟩
  · exact (h.drains j d' hj).of_same rfl rfl id
  · exact hok.of_durable rfl rfl rfl rfl
  · obtain rfl := List.mem_singleton.mp hk'
    exact hk

theorem clearOutbox_acts {c : Caller} (h : Inv s) (hk : TaskOk s (.clearOutbox c)) :
    Acts s { s with db := { s.db with outbox := [] } } [.recordBinding c] := by
  refine ⟨fun tenant he => ?_, fun j d' hj => ?_, fun k hok => ?_, fun k hk' => ?_⟩
  · have hc := h.clean tenant he
    exact ⟨(fun _ h => by cases h), hc.first, hc.pending, hc.quarantine⟩
  · exact (h.drains j d' hj).of_same rfl rfl id
  · cases k with
    | recordBinding c' => exact ⟨hok.1, rfl⟩
    | _ => exact hok
  · obtain rfl := List.mem_singleton.mp hk'
    exact ⟨hk, rfl⟩

theorem act_acts {k : Task} {ks : List Task} (h : Inv s) (hk : TaskOk s k)
    (hg : ∀ c, k = .recordBinding c → NoLeftovers s.db c.session.tenant)
    (ht : s.act k = some (t, ks)) : Acts s t ks := by
  cases k with
  | readBinding c =>
    simp only [act] at ht
    split at ht
    · rename_i hbound
      obtain ⟨rfl, rfl⟩ := Prod.mk.inj (Option.some.inj ht)
      refine Acts.of_same h (fun k hk => ?_)
      obtain rfl := List.mem_singleton.mp hk
      exact ⟨Nat.le_refl _, fun _ => hbound⟩
    · obtain ⟨rfl, rfl⟩ := Prod.mk.inj (Option.some.inj ht)
      refine Acts.of_same h (fun k hk => ?_)
      obtain rfl := List.mem_singleton.mp hk
      trivial
  | resetPullWatermark c =>
    obtain ⟨rfl, rfl⟩ := Prod.mk.inj (Option.some.inj ht)
    exact resetPullWatermark_acts h
  | resetPushWatermark c =>
    obtain ⟨rfl, rfl⟩ := Prod.mk.inj (Option.some.inj ht)
    exact resetPushWatermark_acts h hk
  | clearOutbox c =>
    obtain ⟨rfl, rfl⟩ := Prod.mk.inj (Option.some.inj ht)
    exact clearOutbox_acts h hk
  | recordBinding c =>
    obtain ⟨rfl, rfl⟩ := Prod.mk.inj (Option.some.inj ht)
    exact recordBinding_acts h hk (hg c rfl)
  | spawnDrain c b =>
    obtain ⟨rfl, rfl⟩ := Prod.mk.inj (Option.some.inj ht)
    exact spawn_acts h hk
  | install c drain =>
    obtain ⟨rfl, rfl⟩ := Prod.mk.inj (Option.some.inj ht)
    refine acts_of_db h rfl rfl rfl rfl (fun k hk => ?_)
    split at hk
    · cases hk
    · obtain rfl := List.mem_singleton.mp hk
      trivial
  | stopPrevious c drain =>
    simp only [act, Option.ite_none_right_eq_some, Option.some.injEq, Prod.mk.injEq] at ht
    obtain ⟨-, rfl, rfl⟩ := ht
    refine Acts.of_same h (fun k hk => ?_)
    obtain rfl := List.mem_singleton.mp hk
    trivial
  | storeEnabled c =>
    obtain ⟨rfl, rfl⟩ := Prod.mk.inj (Option.some.inj ht)
    exact acts_of_db h rfl rfl rfl rfl (fun _ h => by cases h)
  | stop drain signOut =>
    simp only [act, Option.ite_none_right_eq_some, Option.some.injEq, Prod.mk.injEq] at ht
    obtain ⟨-, rfl, rfl⟩ := ht
    exact acts_of_db h rfl rfl rfl rfl (fun _ h => by cases h)

theorem act_inv {k : Task} (h : Inv s) (hg : Kept s (.act k) t)
    (ht : step s (.act k) = some t) : Inv t := by
  simp only [step] at ht
  split at ht
  · rename_i hk
    obtain ⟨⟨u, ks⟩, hact, rfl⟩ := Option.map_eq_some_iff.mp ht
    have hacts := act_acts h (h.tasks k hk) (fun c hc => by subst hc; exact hg) hact
    refine ⟨hacts.clean, fun j d hj => (hacts.drains j d hj).of_same rfl rfl id, ?_⟩
    intro k' hk'
    rcases List.mem_append.mp hk' with hnew | hold
    · exact (hacts.next k' hnew).of_same rfl rfl
    · exact (hacts.others k' (h.tasks k' (List.mem_of_mem_erase hold))).of_same rfl rfl
  · cases ht

theorem cons_task_inv {k : Task} (h : Inv s) (hk : TaskOk s k) :
    ∀ k' ∈ k :: s.tasks, TaskOk s k' := by
  intro k' hk'
  rcases List.mem_cons.mp hk' with rfl | hold
  · exact hk
  · exact h.tasks k' hold

theorem step_inv {e : Event} (h : Inv s) (hg : Kept s e t) (ht : step s e = some t) :
    Inv t := by
  cases e with
  | signIn r =>
    obtain rfl := Option.some.inj ht
    exact h.of_db rfl rfl rfl h.drains h.tasks
  | enable =>
    obtain ⟨r, -, rfl⟩ := Option.map_eq_some_iff.mp ht
    exact h.of_db rfl rfl rfl h.drains (cons_task_inv h trivial)
  | restart =>
    obtain rfl := Option.some.inj ht
    refine h.of_db rfl rfl rfl (fun _ _ h => by cases h) (fun k hk => ?_)
    obtain ⟨r, -, rfl⟩ := List.mem_map.mp hk
    trivial
  | signOut =>
    obtain rfl := Option.some.inj ht
    exact h.of_db rfl rfl rfl h.drains (cons_task_inv h trivial)
  | disable =>
    obtain rfl := Option.some.inj ht
    exact h.of_db rfl rfl rfl h.drains (cons_task_inv h trivial)
  | act k => exact act_inv h hg ht
  | retryCryptoQuarantine =>
    obtain ⟨r, -, rfl⟩ := Option.map_eq_some_iff.mp ht
    exact retry_inv h
  | _ =>
    obtain ⟨d, hi, ht⟩ := Option.bind_eq_some_iff.mp ht
    exact drainStep_inv h hi rfl hg ht

theorem step_leakFree {e : Event} (h : Inv s) (hg : Kept s e t) : LeakFree s e t := by
  cases e with
  | push i acked =>
    intro d hi _ x hx
    have hh : AtHome s d := hg d hi
    exact ((h.drains i d hi).batch hh.1 x hx).trans hh.2.1.symm
  | pull i =>
    intro d hi hbound hfirst
    exact (h.clean d.bearer hbound).first hfirst
  | replay i row =>
    intro d hi hbound r hr _
    exact (h.clean d.tenant hbound).pending r hr
  | retryCryptoQuarantine =>
    intro r _ hbound q hq ho
    exact (h.clean r.tenant hbound).quarantine q hq ⟨_, ho, rfl⟩
  | _ => trivial

/-- From a database no account is bound to, whatever its tables hold, a run that meets the
condition leaks nothing from one account to another. -/
theorem kept_bindings_leak_nothing {s₀ : State} {as : List Event} (hb : s₀.db.bound = none)
    (hd : s₀.drains = fun _ => none) (hk : s₀.tasks = []) (hg : Along step Kept s₀ as) :
    Along step LeakFree s₀ as := by
  have hinit : Inv s₀ := ⟨by simp [hb], by simp [hd], by simp [hk]⟩
  have hstep : ∀ s e t, Inv s → Kept s e t → step s e = some t → Inv t :=
    fun _ _ _ h hg ht => step_inv h hg ht
  have hout : ∀ s e t, Inv s → Kept s e t → step s e = some t → LeakFree s e t :=
    fun _ _ _ h hg _ => step_leakFree h hg
  exact along_of_invariant hstep hout hinit hg

/-- A database that was never synced, on a device nobody has signed in to. -/
def new : State :=
  ⟨⟨none, 0, 0, 0, [], [], []⟩, none, fun _ => none, 0, none, [], 0, false⟩

def account (tenant : ℕ) : Session := ⟨tenant, 1, false⟩

/-- `sync_enable` of an account the database is not bound to, up to its running drain. -/
def enableFresh (tenant drain binding : ℕ) (previous : Option ℕ) : List Event :=
  let c : Caller := ⟨account tenant, false⟩
  [.enable, .act (.readBinding c), .act (.resetPullWatermark c), .act (.resetPushWatermark c),
    .act (.clearOutbox c), .act (.recordBinding c), .act (.spawnDrain c binding),
    .act (.install c drain), .act (.stopPrevious c previous), .act (.storeEnabled c)]

def cycle (drain nextSeq : ℕ) (c : Changeset) : List Event :=
  [.capture drain 1, .readBatch drain 9, .push drain true, .pull drain, .receive drain c,
    .endPage drain nextSeq]

def leave (drain : ℕ) : List Event := [.signOut, .exit drain, .act (.stop (some drain) true)]

/-- Account 1 syncs and signs out, and account 2 takes the database over after a crash amid
its reconciliation. -/
def orderlySwitch : List Event :=
  [.signIn (account 1)] ++ enableFresh 1 0 1 none ++ cycle 0 40 ⟨40, some (1, 1), []⟩ ++ leave 0 ++
    [.signIn (account 2), .enable, .act (.readBinding ⟨account 2, false⟩),
      .act (.resetPullWatermark ⟨account 2, false⟩), .restart] ++
    enableFresh 2 1 2 none ++ cycle 1 7 ⟨7, some (2, 1), []⟩

theorem kept_bindings_leak_nothing_switch :
    (∃ u, exec step new orderlySwitch = some u ∧ u.db.bound = some 2 ∧
      u.db.pullWatermark = 7) ∧ Along step LeakFree new orderlySwitch :=
  ⟨exec_evaluates (by decide +kernel),
    kept_bindings_leak_nothing rfl rfl rfl (by decide +kernel)⟩

/-- Account 1 stashes a row it cannot apply yet and signs out; account 2 takes the database
over. -/
def switchWithStash : List Event :=
  [.signIn (account 1)] ++ enableFresh 1 0 1 none ++ cycle 0 40 ⟨40, some (1, 1), [8]⟩ ++ leave 0 ++
    [.signIn (account 2)] ++ enableFresh 2 1 2 none

theorem stash_survives_switch :
    (∃ u, exec step new switchWithStash = some u ∧ u.db.bound = some 2 ∧
      u.db.pending = [⟨8, some 1⟩]) ∧
      (exec step new (switchWithStash ++ [.replay 1 8])).isSome = true ∧
        ¬ Along step LeakFree new (switchWithStash ++ [.replay 1 8]) :=
  ⟨exec_evaluates (by decide +kernel), by decide +kernel, by decide +kernel⟩

/-- A drain that outlives the switch captures between two statements of it, and the next
account's drain pushes the entry. -/
example : ¬ Along step LeakFree new
    ([.signIn (account 1)] ++ enableFresh 1 0 1 none ++ [.signIn (account 2), .enable,
      .act (.readBinding ⟨account 2, false⟩), .act (.resetPullWatermark ⟨account 2, false⟩),
      .act (.resetPushWatermark ⟨account 2, false⟩), .act (.clearOutbox ⟨account 2, false⟩),
      .capture 0 1, .act (.recordBinding ⟨account 2, false⟩),
      .act (.spawnDrain ⟨account 2, false⟩ 2), .readBatch 1 9, .push 1 true]) := by
  decide +kernel

end State

end YapStack.Account
