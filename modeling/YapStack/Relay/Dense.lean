import YapStack.Foundation.Statements
import YapStack.Relay.TenantSteps

set_option linter.unusedSectionVars false

namespace YapStack.Relay.Tenant

open Capability Sequence Table

section Invariant

variable {Tx Client Hash : Type} [DecidableEq Client]

def Blank (changesets : Table Tx Nat (Changeset Client)) (t : Tx) : Prop :=
  ∀ k, changesets.pending t k = none

/-- The counter row has not been written, but for the bootstrap. -/
def Boot (seq : Table Tx Unit Nat) (t : Tx) : Prop :=
  seq.pending t () = none ∨ seq.pending t () = some (some 1) ∧ seq.committed () = none

/-- `t` has inserted exactly `rows`, at the seqs after the store's. -/
def Wrote (changesets : Table Tx Nat (Changeset Client)) (t : Tx) (st : Store Client)
    (rows : List (PushChange Client)) : Prop :=
  ∀ k, (changesets.pending t k).map (Option.map Changeset.change) =
    (if st.length < k then rows[k - (st.length + 1)]? else none).map some

/-- The batch of `c` resolves to `a` over the store. -/
def Assigns (c : Call Client Hash) (st : Store Client) (a : Assigned Client) : Prop :=
  ∃ changes level, c.op = .push changes level ∧
    assign st.existing (st.length + 1) changes = .ok a

section At

variable (seq : Table Tx Unit Nat) (changesets : Table Tx Nat (Changeset Client)) (t : Tx)
variable (st : Store Client) (c : Call Client Hash)

def Quiet : Prop := Blank changesets t ∧ seq.pending t () = none

/-- A push that has the counter row locked, and has not advanced it. -/
def Numbering : Prop := seq.owner () = some t ∧ seq.view t () = some (st.length + 1)

def AnswerAt : Answer Client Hash → Prop
  | .pushed r => ∃ a, Assigns c st a ∧ r = ⟨a.acks, a.nextSeq - 1⟩ ∧
      Wrote changesets t st (a.newRows.map Prod.snd) ∧ seq.owner () = some t ∧
        (seq.view t ()).getD 1 = st.length + 1 + a.newRows.length
  | _ => Quiet seq changesets t

def OutcomeAt : Outcome Client Hash → Prop
  | .answer a => AnswerAt seq changesets t st c a
  | _ => Quiet seq changesets t

def MeteredAt : Metered Client → Prop
  | .changes a => Blank changesets t ∧ Numbering seq t st ∧ Assigns c st a
  | _ => Quiet seq changesets t

def WorkAt : Work Client Hash → Prop
  | .lockSeq => Blank changesets t ∧ Boot seq t
  | .numbered next => Blank changesets t ∧ Numbering seq t st ∧ next = st.length + 1
  | .admitting next _ => MeteredAt seq changesets t st c next
  | .inserting a rest => Numbering seq t st ∧ Assigns c st a ∧
      ∃ done, a.newRows = done ++ rest ∧ Wrote changesets t st (done.map Prod.snd)
  | .ready o => OutcomeAt seq changesets t st c o
  | _ => Quiet seq changesets t

/-- What a transaction has written to the sequence, and what it knows of the store. -/
def SeqAt : Pc Client Hash → Prop
  | .holding c _ w => WorkAt seq changesets t st c w
  | .failed _ _ => True
  | _ => Quiet seq changesets t

end At

/-- The committed rows are those of the store, and the counter row is one past them. -/
structure Stored (s : State Tx Client Hash) (st : Store Client) : Prop where
  rows : ∀ k, (s.changesets.committed k).map Changeset.change = st.row k
  next : (s.seq.committed ()).getD 1 = st.length + 1
  unique : st.Unique

structure DenseInvariant (s : State Tx Client Hash) (st : Store Client) : Prop where
  stored : Stored s st
  writes : ∀ t, SeqAt s.seq s.changesets t st (s.pc t)

theorem wrote_nil {changesets : Table Tx Nat (Changeset Client)} {t : Tx} {st : Store Client} :
    Wrote changesets t st [] ↔ Blank changesets t := by
  constructor
  · intro h k
    simpa using h k
  · intro h k
    simp [h k]

theorem describes_ext {ex ex' : Existing Client} {st : Store Client} (h : Describes ex st)
    (h' : Describes ex' st) : ex = ex' := by
  funext key
  apply Option.ext
  rintro ⟨seq, ct⟩
  exact (h key seq ct).trans (h' key seq ct).symm

end Invariant

section Others

variable {Tx Client Hash : Type} [DecidableEq Tx] [DecidableEq Client] [DecidableEq Hash]
variable {s s' : State Tx Client Hash} {t u : Tx} {c : Call Client Hash} {l : Levels}
variable {seq seq' : Table Tx Unit Nat} {changesets changesets' : Table Tx Nat (Changeset Client)}
variable {st st' : Store Client} {p : Pc Client Hash}

theorem quiet_of_isolated (h : Quiet seq changesets u) (hs : Isolated u seq seq')
    (hc : Isolated u changesets changesets') : Quiet seq' changesets' u := by
  refine ⟨fun k => ?_, ?_⟩
  · rw [hc.pending]
    exact h.1 k
  · rw [hs.pending]
    exact h.2

theorem boot_of_isolated (h : Boot seq u) (hs : Isolated u seq seq') : Boot seq' u := by
  obtain hn | ⟨hp, hc⟩ := h
  · exact Or.inl (by rw [hs.pending, hn])
  · refine Or.inr ⟨by rw [hs.pending, hp], ?_⟩
    rw [hs.committed () (holds_of_pending (by simp [hp])), hc]

theorem blank_of_isolated (h : Blank changesets u) (hc : Isolated u changesets changesets') :
    Blank changesets' u := by
  intro k
  rw [hc.pending]
  exact h k

theorem wrote_of_isolated {rows : List (PushChange Client)} (h : Wrote changesets u st rows)
    (hc : Isolated u changesets changesets') : Wrote changesets' u st rows := by
  intro k
  rw [hc.pending]
  exact h k

/-- Whoever has the counter row locked sees the store stand still. -/
theorem seqAt_of_isolated (h : SeqAt seq changesets u st p) (hs : Isolated u seq seq')
    (hc : Isolated u changesets changesets') (hst : seq.owner () = some u → st' = st) :
    SeqAt seq' changesets' u st' p := by
  have hnumbering : Numbering seq u st → Numbering seq' u st :=
    fun hn => ⟨hs.owner () hn.1, (hs.view (Or.inl hn.1)).trans hn.2⟩
  cases p with
  | holding c l w =>
    cases w with
    | lockSeq => exact ⟨blank_of_isolated h.1 hc, boot_of_isolated h.2 hs⟩
    | numbered next =>
      obtain ⟨hb, hn, rfl⟩ := h
      rw [hst hn.1]
      exact ⟨blank_of_isolated hb hc, hnumbering hn, rfl⟩
    | admitting next stage =>
      cases next with
      | changes a =>
        obtain ⟨hb, hn, ha⟩ := h
        rw [hst hn.1]
        exact ⟨blank_of_isolated hb hc, hnumbering hn, ha⟩
      | publish | repoint => exact quiet_of_isolated h hs hc
    | inserting a rest =>
      obtain ⟨hn, ha, done, hd, hw⟩ := h
      rw [hst hn.1]
      exact ⟨hnumbering hn, ha, done, hd, wrote_of_isolated hw hc⟩
    | ready o =>
      cases o with
      | answer r =>
        cases r with
        | pushed r =>
          obtain ⟨a, ha, hr, hw, ho, hv⟩ := h
          rw [hst ho]
          refine ⟨a, ha, hr, wrote_of_isolated hw hc, hs.owner () ho, ?_⟩
          rw [hs.view (Or.inl ho)]
          exact hv
        | page | head | presigned | levels | error => exact quiet_of_isolated h hs hc
      | gated | found | latest => exact quiet_of_isolated h hs hc
    | locked | bootstrapSeq | existing | insertSnapshot | swap | recording | recorded | scanned
      | raised => exact quiet_of_isolated h hs hc
  | failed c e => trivial
  | idle | caller | bootstrap | lock | between | answered | editing =>
    exact quiet_of_isolated h hs hc

theorem stored_congr (h : Stored s st) (hc : s'.changesets.committed = s.changesets.committed)
    (hs : s'.seq.committed = s.seq.committed) : Stored s' st :=
  ⟨fun k => by rw [hc, h.rows k], by rw [hs, h.next], h.unique⟩

/-- A statement of `t` that leaves the store as it is. -/
theorem statement_dense (hi : DenseInvariant s st) (hs : Statement s t p s')
    (hl : SeqAt s'.seq s'.changesets t st p) : DenseInvariant s' st := by
  refine ⟨stored_congr hi.stored hs.changesets_touched.committed hs.seq_touched.committed,
    fun u => ?_⟩
  by_cases hu : u = t
  · subst u
    exact hs.pc_self.symm ▸ hl
  · have hd := hs.undisturbed hu
    rw [hd.pc]
    exact seqAt_of_isolated (hi.writes u) hd.seq hd.changesets (fun _ => rfl)

theorem read_dense (hi : DenseInvariant s st) (hl : SeqAt s.seq s.changesets t st p) :
    DenseInvariant (s.goto t p) st :=
  statement_dense hi .read hl

/-- The end of `t`, which may have extended the store if it had the counter row locked. -/
theorem close_dense {keep : Bool} (hi : DenseInvariant s st) (hst : Stored (s.close t keep p) st')
    (ho : st' ≠ st → s.seq.owner () = some t)
    (hl : ∀ (seq : Table Tx Unit Nat) (changesets : Table Tx Nat (Changeset Client)),
      Quiet seq changesets t → SeqAt seq changesets t st' p) :
    DenseInvariant (s.close t keep p) st' := by
  refine ⟨hst, fun u => ?_⟩
  by_cases hu : u = t
  · subst u
    simp only [State.close, Function.update_self]
    refine hl _ _ ⟨fun k => ?_, ?_⟩
    · rw [close_pending]
    · rw [close_pending]
  · have hd := close_undisturbed s keep p hu
    rw [hd.pc]
    refine seqAt_of_isolated (hi.writes u) hd.seq hd.changesets (fun how => ?_)
    by_contra hne
    rw [ho hne, Option.some.injEq] at how
    exact hu how.symm

theorem close_stored_quiet (hi : DenseInvariant s st) (hq : Quiet s.seq s.changesets t)
    (keep : Bool) : Stored (s.close t keep p) st := by
  have hc : (s.changesets.close t keep).committed = s.changesets.committed := by
    cases keep with
    | false => rfl
    | true => exact funext fun k => view_of_pending_none (hq.1 k)
  have hs : (s.seq.close t keep).committed = s.seq.committed := by
    cases keep with
    | false => rfl
    | true => exact funext fun _ => view_of_pending_none hq.2
  exact stored_congr hi.stored hc hs

theorem rollback_stored (hi : DenseInvariant s st) : Stored (s.close t false p) st :=
  stored_congr hi.stored rfl rfl

/-- Once the new rows are in, the store holds them after the old ones. -/
theorem row_of_wrote {rows : List (PushChange Client)} (hs : Stored s st)
    (hw : Wrote s.changesets t st rows) (k : Nat) :
    (s.changesets.view t k).map Changeset.change = Store.row (st ++ rows) k := by
  have hk := hw k
  cases hp : s.changesets.pending t k with
  | none =>
    rw [hp] at hk
    rw [view_of_pending_none hp, hs.rows k]
    by_cases hl : st.length < k
    · rw [if_pos hl] at hk
      have hn : rows[k - (st.length + 1)]? = none := by simpa using hk.symm
      have hlen := List.getElem?_eq_none_iff.mp hn
      simp only [Store.row]
      rw [List.getElem?_eq_none (by omega), List.getElem?_eq_none (by simp; omega)]
    · simp only [Store.row]
      split
      · rfl
      · rw [List.getElem?_append_left (by omega)]
  | some v =>
    rw [hp] at hk
    rw [view_of_pending hp]
    split at hk
    · rename_i hl
      simp only [Option.map_some] at hk
      cases hr : rows[k - (st.length + 1)]? with
      | none => rw [hr] at hk; cases hk
      | some r =>
        rw [hr, Option.map_some, Option.some.injEq] at hk
        rw [hk, Store.row, if_neg (by omega), List.getElem?_append_right (by omega),
          show k - 1 - st.length = k - (st.length + 1) by omega, hr]
    · cases hk

theorem assigns_pushes {a : Assigned Client} (h : Assigns c st a) :
    ∃ changes level, c.op = .push changes level ∧
      st.push changes = .ok (st ++ a.newRows.map Prod.snd, a.acks) := by
  obtain ⟨changes, level, ho, ha⟩ := h
  exact ⟨changes, level, ho, by simp [Store.push, ha, Except.map]⟩

/-- The commit of a push is a push of its batch to the store. -/
theorem push_stored {r : PushResponse Client} (hi : DenseInvariant s st)
    (hpc : s.pc t = .holding c l (.ready (.answer (.pushed r)))) :
    ∃ changes level st', c.op = .push changes level ∧ st.push changes = .ok (st', r.acks) ∧
      Stored (s.close t true p) st' ∧ s.seq.owner () = some t := by
  have hl := hi.writes t
  rw [hpc] at hl
  obtain ⟨a, ha, rfl, hw, ho, hv⟩ := hl
  obtain ⟨changes, level, hop, hpush⟩ := assigns_pushes ha
  refine ⟨changes, level, _, hop, hpush, ⟨fun k => ?_, ?_, ?_⟩, ho⟩
  · exact row_of_wrote hi.stored hw k
  · simp only [List.length_append, List.length_map]
    exact hv.trans (by omega)
  · exact (push_pushed hi.stored.unique hpush).unique

end Others

end YapStack.Relay.Tenant
