import YapStack.Relay.Dense

set_option linter.unusedSectionVars false

namespace YapStack.Relay.Tenant

open Capability Sequence Table

section Own

variable {Tx Client Hash : Type} [DecidableEq Tx] [DecidableEq Client] [DecidableEq Hash]
variable {s s' : State Tx Client Hash} {t u : Tx} {c : Call Client Hash} {l : Levels}
variable {st st' : Store Client} {p : Pc Client Hash} {w w' : Work Client Hash}

theorem holds_unique {k k' : Nat} {key : Client × Int} {ct ct' : Bytes} (hu : st.Unique)
    (h : st.Holds k key ct) (h' : st.Holds k' key ct') : k = k' := by
  have hk := (existing_describes hu key k ct).mpr h
  have hk' := (existing_describes hu key k' ct').mpr h'
  rw [hk, Option.some.injEq, Prod.mk.injEq] at hk'
  exact hk'.1

theorem view_holds {k : Nat} {r : Changeset Client} (hs : Stored s st)
    (hb : Blank s.changesets t) (hv : s.changesets.view t k = some r) :
    st.Holds k r.change.key r.change.ciphertext := by
  rw [view_of_pending_none (hb k)] at hv
  refine ⟨r.change, ?_, rfl, rfl⟩
  rw [← hs.rows k, hv, Option.map_some]

/-- The query for the stored pairs finds what the store holds. -/
theorem readExisting_describes (hs : Stored s st) (hb : Blank s.changesets t) :
    Describes (readExisting s.changesets t) st := by
  intro key seq ct
  constructor
  · intro h
    simp only [readExisting, Option.bind_eq_some_iff, Option.map_eq_some_iff,
      Prod.mk.injEq] at h
    obtain ⟨k, hk, r, hv, rfl, rfl⟩ := h
    obtain ⟨r', hv', hkey⟩ := mem_scan.mp (List.mem_of_head? hk)
    rw [hv, Option.some.injEq] at hv'
    subst r'
    exact of_decide_eq_true hkey ▸ view_holds hs hb hv
  · intro hh
    obtain ⟨e, hr, rfl, rfl⟩ := hh
    rw [← hs.rows seq, Option.map_eq_some_iff] at hr
    obtain ⟨r, hc, rfl⟩ := hr
    have hv : s.changesets.view t seq = some r := (view_of_pending_none (hb seq)).trans hc
    have hm : seq ∈ s.changesets.scan t (fun _ c => c.change.key = r.change.key) :=
      mem_scan.mpr ⟨r, hv, by simp⟩
    simp only [readExisting]
    cases hh : (s.changesets.scan t (fun _ c => c.change.key = r.change.key)).head? with
    | none =>
      rw [List.head?_eq_none_iff.mp hh] at hm
      cases hm
    | some k =>
      obtain ⟨r', hv', hkey⟩ := mem_scan.mp (List.mem_of_head? hh)
      have hheld := view_holds hs hb hv'
      rw [of_decide_eq_true hkey] at hheld
      obtain rfl := holds_unique hs.unique hheld (view_holds hs hb hv)
      simp [hv]

theorem known (hi : DenseInvariant s st) (hpc : s.pc t = .holding c l w) :
    WorkAt s.seq s.changesets t st c w := by
  have hl := hi.writes t
  rwa [hpc] at hl

theorem insertSeq_dense (hi : DenseInvariant s st) (hpc : s.pc t = .holding c l .bootstrapSeq)
    (h : insertSeq s t c l = some s') : DenseInvariant s' st := by
  obtain ⟨hb, hn⟩ : Quiet s.seq s.changesets t := known hi hpc
  obtain ⟨tb, b, hins, rfl⟩ := insertSeq_cases h
  refine statement_dense hi (.seq (insertIgnore_touched hins)) ⟨hb, ?_⟩
  obtain ⟨_, rfl, _⟩ | ⟨_, hv, hw⟩ := insertIgnore_cases hins
  · exact Or.inl hn
  · rw [view_of_pending_none hn] at hv
    exact Or.inr ⟨write_pending_self hw, (congrFun (write_committed hw) ()).trans hv⟩

theorem lockSeq_dense (hi : DenseInvariant s st) (hpc : s.pc t = .holding c l .lockSeq)
    (h : lockSeq s t c l = some s') : DenseInvariant s' st := by
  obtain ⟨hb, hboot⟩ : Blank s.changesets t ∧ Boot s.seq t := known hi hpc
  obtain ⟨tb, hlock, rfl | ⟨next, hv, rfl⟩⟩ := lockSeq_cases h
  · exact statement_dense hi (.seq (.lock _ hlock)) trivial
  · have hnext : next = st.length + 1 := by
      have hst := hi.stored.next
      rw [lock_view hlock] at hv
      obtain hn | ⟨hp, hc⟩ := hboot
      · rw [view_of_pending_none hn] at hv
        rwa [hv, Option.getD_some] at hst
      · rw [view_of_pending hp, Option.some.injEq] at hv
        rw [hc, Option.getD_none] at hst
        omega
    subst hnext
    exact statement_dense hi (.seq (.lock _ hlock)) ⟨hb, ⟨lock_holds hlock, hv⟩, rfl⟩

theorem resolve_dense {changes : List (PushChange Client)} {level : Int} {next : Nat}
    (hi : DenseInvariant s st) (hpc : s.pc t = .holding c l (.numbered next))
    (ho : c.op = .push changes level) : DenseInvariant (resolve s t c l changes next) st := by
  obtain ⟨hb, hn, rfl⟩ :
      Blank s.changesets t ∧ Numbering s.seq t st ∧ next = st.length + 1 := known hi hpc
  have hex : readExisting s.changesets t = st.existing :=
    describes_ext (readExisting_describes hi.stored hb) (existing_describes hi.stored.unique)
  unfold resolve
  split
  · exact read_dense hi trivial
  · rename_i a ha
    rw [hex] at ha
    have hassigns : Assigns c st a := ⟨changes, level, ho, ha⟩
    split
    · rename_i hrows
      refine read_dense hi ⟨a, hassigns, rfl, ?_, hn.1, ?_⟩
      · rw [hrows]
        exact wrote_nil.mpr hb
      · rw [hrows, hn.2]
        rfl
    · exact read_dense hi ⟨hb, hn, hassigns⟩

/-- The next row of a batch goes in right after the rows already inserted. -/
theorem next_seq {a : Assigned Client} {done rest : List (Nat × PushChange Client)}
    {row : Nat × PushChange Client} (hi : DenseInvariant s st) (ha : Assigns c st a)
    (hd : a.newRows = done ++ row :: rest) : row.1 = st.length + 1 + done.length := by
  obtain ⟨changes, level, _, h⟩ := ha
  have hx := assign_extends (existing_describes hi.stored.unique) h
  have hget : (a.newRows.map Prod.fst)[done.length]? = some row.1 := by
    rw [hd]
    simp
  rw [hx.seqs, List.getElem?_eq_some_iff] at hget
  obtain ⟨hlt, hget⟩ := hget
  simpa using hget.symm

theorem wrote_next {rows : List (PushChange Client)} {e : PushChange Client} {level : Int}
    {k : Nat} {tb : Table Tx Nat (Changeset Client)} (h : Wrote s.changesets t st rows)
    (hk : k = st.length + 1 + rows.length)
    (hw : s.changesets.write t k (some ⟨e, level⟩) = some tb) :
    Wrote tb t st (rows ++ [e]) := by
  intro j
  by_cases hj : j = k
  · subst j
    have hlt : st.length < k := by omega
    have hidx : k - (st.length + 1) = rows.length := by omega
    rw [write_pending_self hw, if_pos hlt, hidx]
    simp
  · rw [write_pending_of_ne hw hj, h j]
    split
    · congr 1
      by_cases hlt : j - (st.length + 1) < rows.length
      · rw [List.getElem?_append_left hlt]
      · rw [List.getElem?_eq_none (by omega), List.getElem?_eq_none (by simp; omega)]
    · rfl

theorem insertChange_dense {level : Int} {a : Assigned Client} {row : Nat × PushChange Client}
    {rest : List (Nat × PushChange Client)} (hi : DenseInvariant s st)
    (hpc : s.pc t = .holding c l (.inserting a (row :: rest)))
    (h : insertChange s t c l level a row rest = some s') : DenseInvariant s' st := by
  obtain ⟨hn, ha, done, hd, hw⟩ : Numbering s.seq t st ∧ Assigns c st a ∧
    ∃ done, a.newRows = done ++ row :: rest ∧
      Wrote s.changesets t st (done.map Prod.snd) := known hi hpc
  obtain rfl | ⟨tb, hwrite, rfl⟩ := insertChange_cases h
  · exact read_dense hi trivial
  · have hk : row.1 = st.length + 1 + (done.map Prod.snd).length := by
      rw [List.length_map]
      exact next_seq hi ha hd
    have hw' := wrote_next hw hk hwrite
    refine statement_dense hi (.changesets (.row _ _ hwrite)) ⟨hn, ha, done ++ [row], ?_, ?_⟩
    · rw [hd]
      simp
    · rw [List.map_append]
      exact hw'

theorem advanceSeq_dense {a : Assigned Client} (hi : DenseInvariant s st)
    (hpc : s.pc t = .holding c l (.inserting a [])) (h : advanceSeq s t c l a = some s') :
    DenseInvariant s' st := by
  obtain ⟨hn, ha, done, hd, hw⟩ : Numbering s.seq t st ∧ Assigns c st a ∧
    ∃ done : List (Nat × PushChange Client), a.newRows = done ++ [] ∧
      Wrote s.changesets t st (done.map Prod.snd) := known hi hpc
  rw [List.append_nil] at hd
  obtain ⟨tb, hm, rfl⟩ := advanceSeq_cases h
  refine statement_dense hi (.seq (modify_touched hm)) ⟨a, ha, rfl, hd ▸ hw, ?_, ?_⟩
  · obtain rfl | ⟨_, _, _, hwrite⟩ := modify_cases hm
    · exact hn.1
    · exact write_holds hwrite
  · have hv := modify_view_self hm hn.2
    simp only [if_true] at hv
    change (tb.view t ()).getD 1 = _
    rw [hv, Option.getD_some]

theorem admitBytes_dense {next : Metered Client} {stage : Choke.Stage}
    (hi : DenseInvariant s st) (hpc : s.pc t = .holding c l (.admitting next stage))
    (h : admitBytes s t c l next stage = some s') : DenseInvariant s' st := by
  have hk : MeteredAt s.seq s.changesets t st c next := known hi hpc
  obtain ⟨tb, ht, ⟨stage', rfl⟩ | rfl | ⟨e, rfl⟩⟩ := admitBytes_cases h
  · exact statement_dense hi (.usage ht) hk
  · refine statement_dense hi (.usage ht) ?_
    cases next with
    | changes a =>
      obtain ⟨hb, hn, ha⟩ := hk
      exact ⟨hn, ha, [], rfl, wrote_nil.mpr hb⟩
    | publish =>
      simp only [afterAdmit]
      split <;> exact hk
    | repoint => exact hk
  · exact statement_dense hi (.usage ht) trivial

theorem admitContent_dense {level : Int} (hi : DenseInvariant s st)
    (hw : WorkAt s.seq s.changesets t st c w') :
    DenseInvariant (admitContent s t c l level w') st := by
  obtain ⟨_, h⟩ | ⟨e, h⟩ := admitContent_cases s t c l level w'
  · rw [h]
    exact read_dense hi hw
  · rw [h]
    exact read_dense hi trivial

theorem afterLock_dense (hi : DenseInvariant s st) (hq : Quiet s.seq s.changesets t)
    (h : afterLock s t c l = some s') : DenseInvariant s' st := by
  unfold afterLock at h
  split at h
  · cases h
    exact admitContent_dense hi hq
  · cases h
    exact admitContent_dense hi hq
  · cases h
    exact admitContent_dense hi hq
  · obtain rfl | ⟨d, tb, hs, rfl | rfl⟩ := lockCaller_cases h
    · exact read_dense hi trivial
    · exact statement_dense hi (.devices (.share d hs)) trivial
    · exact statement_dense hi (.devices (.share d hs)) hq
  · cases h
    exact read_dense hi hq
  · cases h
    exact read_dense hi hq
  · cases h
    exact read_dense hi hq

theorem afterRecord_dense (hi : DenseInvariant s st) (hq : Quiet s.seq s.changesets t)
    (h : afterRecord s t c l = some s') : DenseInvariant s' st := by
  unfold afterRecord at h
  split at h
  · cases h
    unfold gatedRead
    split <;> exact read_dense hi hq
  · cases h
    unfold gatedRead readLatest
    split
    · exact read_dense hi hq
    · split <;> exact read_dense hi hq
  · cases h
    unfold gateContent
    split
    · exact read_dense hi hq
    · split
      · exact admitContent_dense hi hq
      · exact read_dense hi trivial
  · cases h
    unfold scanDevices
    split <;> exact read_dense hi hq
  · cases h

theorem updateFloor_dense {f : Levels → Levels} {v : Levels → Work Client Hash}
    (hi : DenseInvariant s st) (hv : ∀ r, WorkAt s.seq s.changesets t st c (v r))
    (h : updateFloor s t c l f v = some s') : DenseInvariant s' st := by
  obtain rfl | ⟨cur, tb, _, hw, rfl⟩ := updateFloor_cases h
  · exact read_dense hi trivial
  · exact statement_dense hi (.floor (.row _ _ hw)) (hv (f cur))

/-- What the store becomes: a commit of a push pushes its batch, and nothing else changes it. -/
def Advances (s : State Tx Client Hash) (t : Tx) (st st' : Store Client) : Prop :=
  (∃ c l r changes level, s.pc t = .holding c l (.ready (.answer (.pushed r))) ∧
    c.op = .push changes level ∧ st.push changes = .ok (st', r.acks)) ∨ st' = st

theorem ready_dense {o : Outcome Client Hash} (hi : DenseInvariant s st)
    (hpc : s.pc t = .holding c l (.ready o)) :
    ∃ st', DenseInvariant (s.close t true (committed c o)) st' ∧ Advances s t st st' := by
  have hend : ∀ (seq : Table Tx Unit Nat) (changesets : Table Tx Nat (Changeset Client)) st',
      Quiet seq changesets t → SeqAt seq changesets t st' (committed c o) := by
    intro seq changesets st' hq
    cases o <;> exact hq
  have hquiet : Quiet s.seq s.changesets t → ∃ st',
      DenseInvariant (s.close t true (committed c o)) st' ∧ Advances s t st st' := fun hq =>
    ⟨st, close_dense hi (close_stored_quiet hi hq true) (fun hne => absurd rfl hne)
      (fun seq changesets => hend seq changesets st), Or.inr rfl⟩
  have hk : OutcomeAt s.seq s.changesets t st c o := known hi hpc
  cases o with
  | answer a =>
    cases a with
    | pushed r =>
      obtain ⟨changes, level, st', hop, hpush, hst, ho⟩ := push_stored hi hpc
      exact ⟨st', close_dense hi hst (fun _ => ho) (fun seq changesets => hend seq changesets st'),
        Or.inl ⟨c, l, r, changes, level, hpc, hop, hpush⟩⟩
    | page | head | presigned | levels | error => exact hquiet hk
  | gated | found | latest => exact hquiet hk

theorem work_dense (hi : DenseInvariant s st) (hpc : s.pc t = .holding c l w)
    (h : work s t c l w = some s') : ∃ st', DenseInvariant s' st' ∧ Advances s t st st' := by
  have hk := known hi hpc
  have hsame : DenseInvariant s' st → ∃ st', DenseInvariant s' st' ∧ Advances s t st st' :=
    fun hd => ⟨st, hd, Or.inr rfl⟩
  unfold work at h
  split at h
  · exact hsame (afterLock_dense hi hk h)
  · exact hsame (insertSeq_dense hi hpc h)
  · exact hsame (lockSeq_dense hi hpc h)
  · split at h
    · rename_i ho
      cases h
      exact hsame (resolve_dense hi hpc ho)
    · cases h
  · exact hsame (admitBytes_dense hi hpc h)
  · split at h
    · exact hsame (insertChange_dense hi hpc h)
    · cases h
  · exact hsame (advanceSeq_dense hi hpc h)
  · split at h
    · cases h
      refine hsame (read_dense hi ?_)
      change WorkAt _ _ _ _ _ _
      split <;> exact hk
    · cases h
  · split at h
    · obtain rfl | ⟨_, hw, rfl⟩ := insertSnapshot_cases h
      · exact hsame (read_dense hi trivial)
      · exact hsame (statement_dense hi (.snapshots (.row _ _ hw)) hk)
    · cases h
  · split at h
    · obtain ⟨_, rfl⟩ | ⟨_, hm, rfl⟩ := swapSnapshot_cases h
      · exact hsame (read_dense hi trivial)
      · exact hsame (statement_dense hi (.snapshots (modify_touched hm)) hk)
    · cases h
  · obtain rfl | ⟨_, _, hm, rfl⟩ := recordLevel_cases h
    · exact hsame (read_dense hi hk)
    · exact hsame (statement_dense hi (.devices (modify_touched hm)) hk)
  · exact hsame (afterRecord_dense hi hk h)
  · split at h
    · unfold decideRaise at h
      split at h
      · exact hsame (updateFloor_dense (v := fun r => .raised r _) hi (fun _ => hk) h)
      · refine hsame (updateFloor_dense (v := fun r =>
          .ready (.answer (.error (.capabilityBlocked (blocked r _))))) hi (fun _ => hk) h)
    · cases h
  · cases h
    exact hsame (close_dense hi (close_stored_quiet hi hk true) (fun hne => absurd rfl hne)
      (fun _ _ hq => hq))
  · cases h
    exact ready_dense hi hpc

theorem execute_dense (hi : DenseInvariant s st) (h : execute s t = some s') :
    ∃ st', DenseInvariant s' st' ∧ Advances s t st st' := by
  have hl := hi.writes t
  have hsame : DenseInvariant s' st → ∃ st', DenseInvariant s' st' ∧ Advances s t st st' :=
    fun hd => ⟨st, hd, Or.inr rfl⟩
  unfold execute at h
  split at h
  · rename_i hpc
    cases h
    rw [hpc] at hl
    refine hsame (read_dense hi ?_)
    split
    · exact hl
    · trivial
  · rename_i hpc
    rw [hpc] at hl
    obtain ⟨_, _, hins, rfl⟩ := bootstrapFloor_cases h
    exact hsame (statement_dense hi (.floor (insertIgnore_touched hins)) hl)
  · rename_i c hpc
    rw [hpc] at hl
    obtain ⟨tb, hlock, hs⟩ := lockFloor_cases h
    have ht : Touched t s.floor tb := by
      split at hlock
      · exact .lock _ hlock
      · exact .share _ hlock
    obtain rfl | ⟨l, _, rfl⟩ := hs
    · exact hsame (statement_dense hi (.floor ht) trivial)
    · exact hsame (statement_dense hi (.floor ht) hl)
  · exact work_dense hi (by assumption) h
  · rename_i hpc
    cases h
    rw [hpc] at hl
    exact hsame (close_dense hi (close_stored_quiet hi hl true) (fun hne => absurd rfl hne)
      (fun _ _ hq => hq))
  · cases h

theorem receive_quiet {h : Headers} (hq : Quiet s.seq s.changesets t) :
    SeqAt s.seq s.changesets t st (receive c h) := by
  unfold receive receivePush receiveGated
  repeat' split
  all_goals exact hq

theorem respond_quiet {o : Outcome Client Hash} {now : Int} {present : Bool}
    (hq : Quiet s.seq s.changesets t) (h : respond c now present o = some p) :
    SeqAt s.seq s.changesets t st p := by
  unfold respond at h
  split at h
  · cases h
  · cases h
    exact hq
  · cases h
    exact hq
  · split at h
    · split at h
      · cases h
        exact hq
      · cases h
        exact hq
    · split at h
      · cases h
        exact hq
      · cases h
        exact hq

theorem rolledBack_quiet (p : Pc Client Hash) (seq : Table Tx Unit Nat)
    (changesets : Table Tx Nat (Changeset Client)) (hq : Quiet seq changesets t) :
    SeqAt seq changesets t st (rolledBack p) := by
  cases p <;> exact hq

/-- The relay refines the store: each step leaves it as it is or commits one push. -/
theorem step_dense {a : Action Tx Client Hash} (hi : DenseInvariant s st)
    (h : step s a = some s') :
    ∃ st', DenseInvariant s' st' ∧ (st' = st ∨ ∃ t, a = .execute t ∧ Advances s t st st') := by
  have hsame : DenseInvariant s' st →
      ∃ st', DenseInvariant s' st' ∧ (st' = st ∨ ∃ t, a = .execute t ∧ Advances s t st st') :=
    fun hd => ⟨st, hd, Or.inl rfl⟩
  cases a with
  | receive t hd c =>
    have hl := hi.writes t
    simp only [step] at h
    split at h
    · rename_i hpc
      cases h
      rw [hpc] at hl
      exact hsame (read_dense hi (receive_quiet hl))
    · cases h
  | execute t =>
    obtain ⟨st', hd, ha⟩ := execute_dense hi h
    exact ⟨st', hd, Or.inr ⟨t, rfl, ha⟩⟩
  | respond t now present =>
    have hl := hi.writes t
    simp only [step] at h
    split at h
    · rename_i c o hpc
      rw [hpc] at hl
      obtain ⟨p, hp, rfl⟩ := Option.map_eq_some_iff.mp h
      exact hsame (read_dense hi (respond_quiet hl hp))
    · cases h
  | rollback t =>
    simp only [step] at h
    split at h
    · cases h
      exact hsame (close_dense hi (rollback_stored hi) (fun hne => absurd rfl hne)
        (rolledBack_quiet _))
    · cases h
  | edit t =>
    have hl := hi.writes t
    simp only [step] at h
    split at h
    · rename_i hpc
      cases h
      rw [hpc] at hl
      exact hsame (read_dense hi hl)
    · cases h
  | setDevice t d label platform status =>
    simp only [step] at h
    split at h
    · obtain ⟨tb, _, rfl⟩ := setDevice_cases h
      exact hsame ⟨⟨hi.stored.rows, hi.stored.next, hi.stored.unique⟩, hi.writes⟩
    · cases h

/-- A transaction that commits has written no row that the store already holds. -/
theorem pending_old {j : Nat} (hi : DenseInvariant s st) (hc : Commits (s.pc t) p)
    (hj : j ≤ st.length) : s.changesets.pending t j = none := by
  have hl := hi.writes t
  generalize s.pc t = q at hc hl
  cases hc with
  | edit => exact hl.1 j
  | raised => exact hl.1 j
  | ready c l o =>
    cases o with
    | answer a =>
      cases a with
      | pushed r =>
        obtain ⟨_, _, _, hw, _⟩ := hl
        have hw := hw j
        rw [if_neg (by omega)] at hw
        simpa using hw
      | page | head | presigned | levels | error => exact hl.1 j
    | gated | found | latest => exact hl.1 j

theorem committed_iff (hs : Stored s st) (k : Nat) :
    s.changesets.committed k ≠ none ↔ 1 ≤ k ∧ k ≤ st.length := by
  have hk := hs.rows k
  rw [← Option.isSome_iff_ne_none, ← Option.isSome_map (f := Changeset.change), hk]
  simp only [Store.row]
  split
  · simp
    omega
  · rw [Option.isSome_iff_ne_none, ne_eq, List.getElem?_eq_none_iff]
    omega

/-- The rows that are committed stay as they are. -/
theorem committed_kept {a : Action Tx Client Hash} (hi : DenseInvariant s st)
    (h : step s a = some s') {j : Nat} {r : Changeset Client}
    (hj : s.changesets.committed j = some r) : s'.changesets.committed j = some r := by
  cases a with
  | execute t =>
    obtain ⟨_, p, _, hs, _⟩ | ⟨p, rfl, hc⟩ := execute_shape h
    · rw [hs.changesets_touched.committed, hj]
    · have hle := ((committed_iff hi.stored j).mp (by simp [hj])).2
      exact (view_of_pending_none (pending_old hi hc hle)).trans hj
  | setDevice t d label platform status =>
    simp only [step] at h
    split at h
    · obtain ⟨tb, _, rfl⟩ := setDevice_cases h
      exact hj
    · cases h
  | respond t now present =>
    simp only [step] at h
    split at h
    · obtain ⟨p, _, rfl⟩ := Option.map_eq_some_iff.mp h
      exact hj
    · cases h
  | receive | rollback | edit =>
    simp only [step] at h
    split at h
    · cases h
      exact hj
    · cases h

theorem empty_dense : DenseInvariant (State.empty : State Tx Client Hash) [] where
  stored := ⟨fun k => by simp [State.empty, empty, Store.row], rfl, List.nodup_nil⟩
  writes _ := ⟨fun _ => rfl, rfl⟩

end Own

end YapStack.Relay.Tenant
