import YapStack.Relay.Pages

set_option linter.unusedSectionVars false

namespace YapStack.Relay.Cursor

open Capability Sequence Table Tenant

section Machine

variable {Tx Client Hash R : Type} [DecidableEq Tx] [DecidableEq Client] [DecidableEq Hash]
variable [DecidableEq R]

/-- A client that pulls: the cursor is the last `next_seq` it received. -/
structure Reader (Tx Client : Type) where
  cursor : Int
  received : List (Nat × Changeset Client)
  waiting : Option Tx

structure State (Tx Client Hash R : Type) where
  tenant : Tenant.State Tx Client Hash
  readers : R → Reader Tx Client

def State.empty : State Tx Client Hash R := ⟨.empty, fun _ => ⟨0, [], none⟩⟩

inductive Action (Tx Client Hash R : Type) where
  | tenant (a : Tenant.Action Tx Client Hash)
  | pull (r : R) (t : Tx) (h : Headers) (c : Call Client Hash) (limit : Option Int)
  | receive (r : R)
  | lose (r : R)

/-- A page moves the cursor; any other answer leaves it where it is. -/
def Reader.answered (rd : Reader Tx Client) : Answer Client Hash → Reader Tx Client
  | .page p _ => ⟨p.nextSeq, rd.received ++ p.changes, none⟩
  | _ => { rd with waiting := none }

/-- Any step of the relay, or a step of a reader, which has one pull out at a time. -/
def step (s : State Tx Client Hash R) : Action Tx Client Hash R → Option (State Tx Client Hash R)
  | .tenant a => (Tenant.step s.tenant a).map (fun tenant => { s with tenant := tenant })
  | .pull r t h c limit =>
    match (s.readers r).waiting with
    | some _ => none
    | none =>
      (Tenant.step s.tenant (.receive t h { c with op := .pull (s.readers r).cursor limit })).map
        (fun tenant =>
          ⟨tenant, Function.update s.readers r { s.readers r with waiting := some t }⟩)
  | .receive r =>
    match (s.readers r).waiting with
    | none => none
    | some t =>
      match s.tenant.pc t with
      | .answered _ a =>
        some { s with readers := Function.update s.readers r ((s.readers r).answered a) }
      | _ => none
  | .lose r =>
    some { s with readers := Function.update s.readers r { s.readers r with waiting := none } }

end Machine

section Awaits

variable {Tx Client Hash R : Type} [DecidableEq Tx] [DecidableEq Client] [DecidableEq Hash]
variable [DecidableEq R]
variable {s s' : Tenant.State Tx Client Hash} {t u : Tx} {c : Call Client Hash} {l : Levels}
variable {st st' : Store Client} {p q : Pc Client Hash} {k : Nat} {a : Answer Client Hash}
variable {com com' : Nat → Option (Changeset Client)} {o : Outcome Client Hash}

/-- What a pull from the cursor `k` may be answered. -/
def AnswerOf (com : Nat → Option (Changeset Client)) (k : Nat) : Answer Client Hash → Prop
  | .page p tip => PageAt com k p tip
  | _ => True

def Pulls (k : Nat) (c : Call Client Hash) : Prop := ∃ limit, c.op = .pull k limit

/-- Where the transaction of a pull from the cursor `k` stands. -/
def Awaits (com : Nat → Option (Changeset Client)) (k : Nat) : Pc Client Hash → Prop
  | .bootstrap c | .lock c => Pulls k c
  | .holding c _ (.ready o) => Pulls k c ∧ ∃ a, o = .answer a ∧ AnswerOf com k a
  | .holding c _ _ => Pulls k c
  | .answered _ a => AnswerOf com k a
  | .failed _ _ => True
  | _ => False

theorem AnswerOf.kept (h : AnswerOf com k a) (hk : ∀ j r, com j = some r → com' j = some r) :
    AnswerOf com' k a := by
  cases a with
  | page p tip =>
    obtain ⟨n, hc, hn, ht⟩ := h
    exact ⟨n, hc.kept hk, hn, ht⟩
  | _ => trivial

theorem Awaits.kept (h : Awaits com k p) (hk : ∀ j r, com j = some r → com' j = some r) :
    Awaits com' k p := by
  cases p with
  | holding c l w =>
    cases w with
    | ready o =>
      obtain ⟨hp, a, ho, ha⟩ := h
      exact ⟨hp, a, ho, ha.kept hk⟩
    | _ => exact h
  | answered c a => exact AnswerOf.kept h hk
  | failed c e => trivial
  | bootstrap | lock => exact h
  | idle | caller | between | editing => cases h

/-- The read of a page happens under the floor lock, and returns what is committed then. -/
theorem readPage_answer (hs : Stored s st) (hb : Blank s.changesets t) (hk : k ≤ st.length)
    (limit : Option Int) :
    AnswerOf s.changesets.committed k (readPage s t l k limit : Answer Client Hash) := by
  rw [readPage, maxSeq_eq hs hb]
  exact pullResponse_page (readChanges_contiguous hs hb hk _) hk

theorem afterRecord_awaits (hs : Stored s st) (hb : Blank s.changesets t) (hk : k ≤ st.length)
    (hp : Pulls k c) (h : afterRecord s t c l = some s') :
    Awaits s.changesets.committed k (s'.pc t) := by
  have hp' := hp
  obtain ⟨limit, ho⟩ := hp
  simp only [afterRecord, ho, Option.some.injEq] at h
  subst h
  simp only [gatedRead, Tenant.State.goto, Function.update_self]
  split
  · exact ⟨hp', _, rfl, trivial⟩
  · exact ⟨hp', _, rfl, readPage_answer hs hb hk limit⟩

theorem work_awaits {w : Work Client Hash} (hi : DenseInvariant s st) (hk : k ≤ st.length)
    (hpc : s.pc t = .holding c l w) (ha : Awaits s.changesets.committed k (s.pc t))
    (h : work s t c l w = some s') : Awaits s.changesets.committed k (s'.pc t) := by
  have hself : ∀ (r : Tenant.State Tx Client Hash) (p : Pc Client Hash), (r.goto t p).pc t = p :=
    fun r p => Function.update_self _ _ _
  rw [hpc] at ha
  unfold work at h
  split at h
  · obtain ⟨limit, ho⟩ := ha
    simp only [afterLock, ho, Option.some.injEq] at h
    rw [← h, hself]
    exact ⟨limit, ho⟩
  · obtain ⟨_, _, _, rfl⟩ := insertSeq_cases h
    exact (hself _ _).symm ▸ ha
  · obtain ⟨_, _, rfl | ⟨_, _, rfl⟩⟩ := lockSeq_cases h
    · exact (hself _ _).symm ▸ trivial
    · exact (hself _ _).symm ▸ ha
  · obtain ⟨limit, ho⟩ := ha
    simp only [ho] at h
    cases h
  · rename_i next stage
    obtain ⟨_, _, ⟨_, rfl⟩ | rfl | ⟨_, rfl⟩⟩ := admitBytes_cases h
    · exact (hself _ _).symm ▸ ha
    · rw [hself]
      obtain ⟨limit, ho⟩ := ha
      cases next <;> simp only [afterAdmit, ho] <;> exact ⟨limit, ho⟩
    · exact (hself _ _).symm ▸ trivial
  · obtain ⟨limit, ho⟩ := ha
    simp only [ho] at h
    cases h
  · obtain ⟨_, _, rfl⟩ := advanceSeq_cases h
    exact (hself _ _).symm ▸ ⟨ha, _, rfl, trivial⟩
  · obtain ⟨limit, ho⟩ := ha
    simp only [ho] at h
    cases h
  · obtain ⟨limit, ho⟩ := ha
    simp only [ho] at h
    cases h
  · obtain ⟨limit, ho⟩ := ha
    simp only [ho] at h
    cases h
  · obtain rfl | ⟨_, _, _, rfl⟩ := recordLevel_cases h
    · exact (hself _ _).symm ▸ ha
    · exact (hself _ _).symm ▸ ha
  · exact afterRecord_awaits hi.stored (known hi hpc).1 hk ha h
  · obtain ⟨limit, ho⟩ := ha
    simp only [ho] at h
    cases h
  · cases h
    simp only [Tenant.State.close, Function.update_self]
    trivial
  · obtain ⟨_, a, rfl, ha⟩ := ha
    cases h
    simp only [Tenant.State.close, Function.update_self]
    exact ha

/-- A statement of the pull itself. -/
theorem execute_awaits (hi : DenseInvariant s st) (hk : k ≤ st.length)
    (ha : Awaits s.changesets.committed k (s.pc t)) (h : execute s t = some s') :
    Awaits s.changesets.committed k (s'.pc t) := by
  have hself : ∀ (r : Tenant.State Tx Client Hash) (p : Pc Client Hash), (r.goto t p).pc t = p :=
    fun r p => Function.update_self _ _ _
  have hwork : ∀ c l w, s.pc t = .holding c l w → work s t c l w = some s' →
      Awaits s.changesets.committed k (s'.pc t) := fun c l w hpc hw => work_awaits hi hk hpc ha hw
  unfold execute at h
  split at h
  · rename_i hpc
    rw [hpc] at ha
    cases ha
  · rename_i hpc
    rw [hpc] at ha
    obtain ⟨_, _, _, rfl⟩ := bootstrapFloor_cases h
    exact (hself _ _).symm ▸ ha
  · rename_i hpc
    rw [hpc] at ha
    obtain ⟨_, _, rfl | ⟨_, _, rfl⟩⟩ := lockFloor_cases h
    · exact (hself _ _).symm ▸ trivial
    · exact (hself _ _).symm ▸ ha
  · exact hwork _ _ _ (by assumption) h
  · rename_i hpc
    rw [hpc] at ha
    cases ha
  · cases h

theorem rolledBack_awaits (ha : Awaits com k p) (ho : p.isOpen = true) :
    Awaits com' k (rolledBack p) := by
  cases p with
  | answered | idle | between => cases ho
  | editing => cases ha
  | _ => trivial

/-- Whatever step the relay takes, a pull from `k` stays on its way to a page for `k`. -/
theorem step_awaits {b : Tenant.Action Tx Client Hash} (hi : DenseInvariant s st)
    (hk : k ≤ st.length) (ha : Awaits s.changesets.committed k (s.pc t))
    (h : Tenant.step s b = some s') : Awaits s'.changesets.committed k (s'.pc t) := by
  have hkept : ∀ j r, s.changesets.committed j = some r → s'.changesets.committed j = some r :=
    fun j r hj => committed_kept hi h hj
  by_cases ht : t = b.tx
  · subst ht
    cases b with
    | execute t => exact (execute_awaits hi hk ha h).kept hkept
    | receive t hd c =>
      simp only [Tenant.step, Action.tx] at h ha
      split at h
      · rename_i hpc
        rw [hpc] at ha
        cases ha
      · cases h
    | respond t now present =>
      simp only [Tenant.step, Action.tx] at h ha
      split at h
      · rename_i hpc
        rw [hpc] at ha
        cases ha
      · cases h
    | rollback t =>
      simp only [Tenant.step] at h
      split at h
      · rename_i ho
        cases h
        simp only [Tenant.State.close, Action.tx, Function.update_self]
        exact rolledBack_awaits ha ho
      · cases h
    | edit t =>
      simp only [Tenant.step, Action.tx] at h ha
      split at h
      · rename_i hpc
        rw [hpc] at ha
        cases ha
      · cases h
    | setDevice t d label platform status =>
      simp only [Tenant.step, Action.tx] at h ha
      split at h
      · rename_i hpc
        rw [hpc] at ha
        cases ha
      · cases h
  · rw [(step_undisturbed h ht).pc]
    exact ha.kept hkept

end Awaits

section Theorem

variable {Tx Client Hash R : Type} [DecidableEq Tx] [DecidableEq Client] [DecidableEq Hash]
variable [DecidableEq R]
variable {s s' : State Tx Client Hash R} {st st' : Store Client}

/-- The reader has the changesets `1 .. k` for its cursor `k`, and waits for what follows. -/
def ReaderAt (tenant : Tenant.State Tx Client Hash) (rd : Reader Tx Client) : Prop :=
  ∃ k : Nat, rd.cursor = k ∧ Contiguous tenant.changesets.committed 0 k rd.received ∧
    ∀ t, rd.waiting = some t → Awaits tenant.changesets.committed k (tenant.pc t)

structure CursorInvariant (s : State Tx Client Hash R) (st : Store Client) : Prop where
  dense : DenseInvariant s.tenant st
  readers : ∀ r, ReaderAt s.tenant (s.readers r)

theorem contiguous_le {tenant : Tenant.State Tx Client Hash} {k : Nat}
    {rows : List (Nat × Changeset Client)} (hs : Stored tenant st)
    (h : Contiguous tenant.changesets.committed 0 k rows) : k ≤ st.length := by
  by_cases hk : k = 0
  · omega
  · have hm : k ∈ rows.map Prod.fst := by
      rw [h.seqs, List.mem_range'_1]
      omega
    obtain ⟨e, he, rfl⟩ := List.mem_map.mp hm
    exact ((committed_iff hs e.1).mp (by rw [h.stored e he]; simp)).2

theorem readerAt_step {b : Tenant.Action Tx Client Hash} {tenant tenant' : Tenant.State Tx Client Hash}
    {rd : Reader Tx Client} (hi : DenseInvariant tenant st) (hr : ReaderAt tenant rd)
    (h : Tenant.step tenant b = some tenant') : ReaderAt tenant' rd := by
  obtain ⟨k, hk, hc, hw⟩ := hr
  refine ⟨k, hk, hc.kept (fun j r hj => committed_kept hi h hj), fun t ht => ?_⟩
  exact step_awaits hi (contiguous_le hi.stored hc) (hw t ht) h

theorem readers_update {tenant : Tenant.State Tx Client Hash} {readers : R → Reader Tx Client}
    {r : R} {rd : Reader Tx Client} (hi : DenseInvariant tenant st)
    (h : ∀ r, ReaderAt tenant (readers r)) (hr : ReaderAt tenant rd) :
    CursorInvariant ⟨tenant, Function.update readers r rd⟩ st := by
  refine ⟨hi, fun q => ?_⟩
  by_cases hq : q = r
  · subst q
    simpa only [Function.update_self] using hr
  · simpa only [Function.update_of_ne hq] using h q

theorem answered_readerAt {tenant : Tenant.State Tx Client Hash} {rd : Reader Tx Client} {t : Tx}
    {c : Call Client Hash} {a : Answer Client Hash} (hr : ReaderAt tenant rd)
    (hw : rd.waiting = some t) (hpc : tenant.pc t = .answered c a) :
    ReaderAt tenant (rd.answered a) := by
  obtain ⟨k, hk, hc, hwait⟩ := hr
  have ha := hwait t hw
  rw [hpc] at ha
  have hstay : ReaderAt tenant { rd with waiting := none } := ⟨k, hk, hc, (fun _ h => by cases h)⟩
  cases a with
  | page p tip =>
    obtain ⟨n, hn, hnext, _⟩ := ha
    refine ⟨k + n, hnext, ?_, (fun _ h => by cases h)⟩
    have hzero : Contiguous tenant.changesets.committed (0 + k) n p.changes := by
      rwa [Nat.zero_add]
    exact hc.append hzero
  | pushed | head | presigned | levels | error => exact hstay

theorem receive_awaits {c : Call Client Hash} {h : Headers} {limit : Option Int} {k : Nat}
    (com : Nat → Option (Changeset Client)) :
    Awaits com k (receive ({ c with op := .pull k limit } : Call Client Hash) h) := by
  simp only [receive, receiveGated]
  split
  · trivial
  · exact ⟨limit, rfl⟩

theorem step_invariant {a : Action Tx Client Hash R} (hi : CursorInvariant s st)
    (h : step s a = some s') : ∃ st', CursorInvariant s' st' := by
  cases a with
  | tenant b =>
    obtain ⟨tenant, hb, rfl⟩ := Option.map_eq_some_iff.mp h
    obtain ⟨st', hd, _⟩ := step_dense hi.dense hb
    exact ⟨st', hd, fun r => readerAt_step hi.dense (hi.readers r) hb⟩
  | pull r t hd c limit =>
    simp only [step] at h
    split at h
    · cases h
    · obtain ⟨tenant, hb, rfl⟩ := Option.map_eq_some_iff.mp h
      obtain ⟨st', hdense, _⟩ := step_dense hi.dense hb
      refine ⟨st', readers_update hdense
        (fun q => readerAt_step hi.dense (hi.readers q) hb) ?_⟩
      obtain ⟨k, hk, hc, _⟩ := readerAt_step hi.dense (hi.readers r) hb
      refine ⟨k, hk, hc, fun u hu => ?_⟩
      cases hu
      simp only [Tenant.step] at hb
      split at hb
      · cases hb
        simp only [Tenant.State.goto, Function.update_self, hk]
        exact receive_awaits _
      · cases hb
  | receive r =>
    simp only [step] at h
    split at h
    · cases h
    · rename_i t hw
      split at h
      · rename_i c a hpc
        cases h
        exact ⟨st, readers_update hi.dense hi.readers
          (answered_readerAt (hi.readers r) hw hpc)⟩
      · cases h
  | lose r =>
    cases h
    obtain ⟨k, hk, hc, _⟩ := hi.readers r
    exact ⟨st, readers_update hi.dense hi.readers ⟨k, hk, hc, (fun _ h => by cases h)⟩⟩

theorem empty_invariant : CursorInvariant (State.empty : State Tx Client Hash R) [] :=
  ⟨empty_dense, fun _ => ⟨0, rfl, ⟨rfl, (fun _ h => by cases h)⟩, (fun _ h => by cases h)⟩⟩

/-- What every step guarantees of the sequence and of its readers. -/
structure SequenceRules (s : State Tx Client Hash R) (a : Action Tx Client Hash R)
    (s' : State Tx Client Hash R) : Prop where
  dense : ∃ n, (∀ k, s'.tenant.changesets.committed k ≠ none ↔ 1 ≤ k ∧ k ≤ n) ∧
    (s'.tenant.seq.committed ()).getD 1 = n + 1
  pairs : ∀ j k q r, s'.tenant.changesets.committed j = some q →
    s'.tenant.changesets.committed k = some r → q.change.key = r.change.key → j = k
  kept : ∀ k r, s.tenant.changesets.committed k = some r →
    s'.tenant.changesets.committed k = some r
  order : ∀ j k, s.tenant.changesets.committed j ≠ none → s.tenant.changesets.committed k = none →
    s'.tenant.changesets.committed k ≠ none → j < k
  received : ∀ r, ∃ k : Nat, (s'.readers r).cursor = k ∧
    Contiguous s'.tenant.changesets.committed 0 k (s'.readers r).received
  /-- The tip of a page is the last seq committed when the page is read. -/
  read : ∀ t c l since limit p tip, a = .tenant (.execute t) →
    s.tenant.pc t = .holding c l .recorded → c.op = .pull since limit →
    s'.tenant.pc t = .holding c l (.ready (.answer (.page p tip))) →
    ∀ k, s.tenant.changesets.committed k ≠ none ↔ 1 ≤ k ∧ k ≤ tip
  tip : ∀ r t c p tip, a = .receive r → (s.readers r).waiting = some t →
    s.tenant.pc t = .answered c (.page p tip) → p.hasMore = false → (s'.readers r).cursor = tip

theorem row_of_committed {tenant : Tenant.State Tx Client Hash} {k : Nat} {r : Changeset Client}
    (hs : Stored tenant st) (h : tenant.changesets.committed k = some r) :
    st.row k = some r.change := by
  rw [← hs.rows k, h, Option.map_some]

theorem committed_unique {tenant : Tenant.State Tx Client Hash} {j k : Nat}
    {q r : Changeset Client} (hs : Stored tenant st) (hj : tenant.changesets.committed j = some q)
    (hk : tenant.changesets.committed k = some r) (heq : q.change.key = r.change.key) : j = k := by
  have hqj : st.Holds j q.change.key q.change.ciphertext :=
    ⟨q.change, row_of_committed hs hj, rfl, rfl⟩
  have hrk : st.Holds k q.change.key r.change.ciphertext :=
    ⟨r.change, row_of_committed hs hk, heq.symm, rfl⟩
  exact holds_unique hs.unique hqj hrk

/-- The steps that leave the relay as it is. -/
theorem tenant_kept {a : Action Tx Client Hash R} (hi : CursorInvariant s st)
    (h : step s a = some s') {k : Nat} {r : Changeset Client}
    (hk : s.tenant.changesets.committed k = some r) :
    s'.tenant.changesets.committed k = some r := by
  cases a with
  | tenant b =>
    obtain ⟨tenant, hb, rfl⟩ := Option.map_eq_some_iff.mp h
    exact committed_kept hi.dense hb hk
  | pull r t hd c limit =>
    simp only [step] at h
    split at h
    · cases h
    · obtain ⟨tenant, hb, rfl⟩ := Option.map_eq_some_iff.mp h
      exact committed_kept hi.dense hb hk
  | receive r =>
    simp only [step] at h
    split at h
    · cases h
    · split at h
      · cases h
        exact hk
      · cases h
  | lose r =>
    cases h
    exact hk

theorem read_tip {t : Tx} {c : Call Client Hash} {l : Levels} {since : Int} {limit : Option Int}
    {p : PullResponse Client} {tip : Nat} (hi : CursorInvariant s st)
    (hpc : s.tenant.pc t = .holding c l .recorded) (ho : c.op = .pull since limit)
    (h : step s (.tenant (.execute t)) = some s')
    (hp : s'.tenant.pc t = .holding c l (.ready (.answer (.page p tip)))) : tip = st.length := by
  obtain ⟨tenant, hb, rfl⟩ := Option.map_eq_some_iff.mp h
  simp only [Tenant.step, execute, hpc, work, afterRecord, ho, Option.some.injEq] at hb
  subst hb
  simp only [gatedRead, Tenant.State.goto, Function.update_self, Pc.holding.injEq, true_and] at hp
  have hq : Quiet s.tenant.seq s.tenant.changesets t := known hi.dense hpc
  split at hp
  · cases hp
  · simp only [readPage, Work.ready.injEq, Outcome.answer.injEq, Answer.page.injEq] at hp
    rw [← hp.2, maxSeq_eq hi.dense.stored hq.1]

theorem step_sequence {a : Action Tx Client Hash R} (hi : CursorInvariant s st)
    (h : step s a = some s') : SequenceRules s a s' := by
  obtain ⟨st', hi'⟩ := step_invariant hi h
  refine ⟨⟨st'.length, committed_iff hi'.dense.stored, hi'.dense.stored.next⟩,
    fun j k q r hj hk => committed_unique hi'.dense.stored hj hk,
    fun k r hk => tenant_kept hi h hk, fun j k hj hk hk' => ?_, fun r => ?_, ?_, ?_⟩
  · have hjn := (committed_iff hi.dense.stored j).mp hj
    have hkn := (committed_iff hi'.dense.stored k).mp hk'
    by_contra hlt
    exact (committed_iff hi.dense.stored k).mpr ⟨hkn.1, by omega⟩ hk
  · obtain ⟨k, hk, hc, _⟩ := hi'.readers r
    exact ⟨k, hk, hc⟩
  · rintro t c l since limit p tip rfl hpc ho hp k
    rw [read_tip hi hpc ho h hp]
    exact committed_iff hi.dense.stored k
  · rintro r t c p tip rfl hw hpc hmore
    obtain ⟨k, hk, hc, hwait⟩ := hi.readers r
    have ha := hwait t hw
    rw [hpc] at ha
    obtain ⟨n, _, hnext, htip⟩ := ha
    simp only [step, hw, hpc, Option.some.injEq] at h
    subst h
    simp only [Function.update_self, Reader.answered, hnext, htip hmore]

/-- In every interleaving of pushes and pulls the sequence is dense and in commit
order, and every reader has received exactly the changesets up to its cursor. -/
theorem sequence_dense (as : List (Action Tx Client Hash R)) :
    Runs.Along step SequenceRules State.empty as :=
  Runs.along_of_invariant (I := fun s => ∃ st, CursorInvariant s st)
    (fun _ _ _ hi _ h => hi.elim fun _ hi => step_invariant hi h)
    (fun _ _ _ hi _ h => hi.elim fun _ hi => step_sequence hi h)
    ⟨[], empty_invariant⟩ (Runs.along_true _ as)

end Theorem

end YapStack.Relay.Cursor
