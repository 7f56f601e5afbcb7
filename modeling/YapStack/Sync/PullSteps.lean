import YapStack.Sync.Ledger

set_option linter.unusedSectionVars false

namespace YapStack.Sync

open Relay.Sequence

variable {Client : Type} [DecidableEq Client] (wire : WireText Client)

namespace Puller

def ledger (p : Puller Client) : Ledger Client :=
  ⟨p.relay, p.crypto, p.used, p.inbox.db.arrived⟩

end Puller

namespace Quarantine

/-- The changeset of the open merge. -/
def mergeCs (q : Quarantine) : Option Changeset := q.merge.map MergeTx.cs

variable {q q' : Quarantine} {cs : Changeset} {e : Event}

theorem beginMerge_step (hst : step q (.beginMerge cs) = some q') :
    q.mergeCs = none ∧ q'.mergeCs = some cs ∧ q'.db = q.db := by
  simp only [step] at hst
  split at hst <;> cases hst
  rename_i hm
  exact ⟨by simp [mergeCs, hm], rfl, rfl⟩

theorem mergeRow_step {applies : Bool} (h : q.Sound) (hst : step q (.mergeRow applies) = some q') :
    q'.db = q.db ∧ (q'.merge = none ∨ q'.mergeCs = q.mergeCs) := by
  simp only [step] at hst
  split at hst
  · cases hst
  · rename_i m hm
    split at hst <;> cases hst
    rename_i r rest hrest
    refine ⟨rfl, ?_⟩
    cases hout : applyOrQuarantine q.schema { m with rest := rest } r applies with
    | none => exact Or.inl rfl
    | some m' =>
      have hcases := applyOrQuarantine_cases (m := { m with rest := rest }) (h.merge m hm).crr hout
      obtain ⟨_, _, _, ⟨j, _, _, rfl⟩ | ⟨_, _, rfl⟩⟩ := hcases
      · exact Or.inr (by simp [mergeCs, hm])
      · exact Or.inr (by simp [mergeCs, hm])

theorem commitMerge_step (h : q.Sound) (hst : step q .commitMerge = some q') :
    ∃ m, q.merge = some m ∧ q'.merge = none ∧ ∀ r ∈ m.cs.rows, r ∈ q'.db.arrived := by
  simp only [step] at hst
  split at hst
  · cases hst
  · rename_i m hm
    split at hst <;> cases hst
    rename_i hrest
    refine ⟨m, hm, rfl, fun r hr => ?_⟩
    obtain ⟨done, hdone, hrows⟩ := (h.merge m hm).taken
    rw [List.isEmpty_iff.mp hrest, List.append_nil] at hrows
    simp only [hdone]
    exact List.mem_append_right _ (hrows ▸ hr)

theorem replay_mergeCs (he : Puller.isReplay e = true) (hst : step q e = some q') :
    q'.mergeCs = q.mergeCs := by
  cases e with
  | beginReplay =>
    simp only [step] at hst
    split at hst <;> cases hst
    rfl
  | replayRow applies =>
    simp only [step] at hst
    split at hst
    · split at hst <;> cases hst
      rfl
    · cases hst
  | endReplay =>
    simp only [step] at hst
    split at hst
    · split at hst <;> cases hst
      rfl
    · cases hst
  | abortReplay =>
    cases hst
    rfl
  | migrate tables cols =>
    simp only [step] at hst
    split at hst <;> cases hst
    rfl
  | _ => cases he

end Quarantine

/-- The merge that runs is of this change, opened with this cipher. -/
def Opens (cs : Option Changeset) (cipher : ChangesetCipher Client) (pc : PulledChange Client) :
    Prop :=
  ∃ c, cs = some c ∧ decodePulledChangeset wire cipher pc = .ok c

/-- What the pull still owes at each of its points. -/
def PullPoint.Sound (l : Ledger Client) (cs : Option Changeset) (cipher : ChangesetCipher Client) :
    PullPoint Client → Prop
  | .top => True
  | .asked since => l.Upto wire [] since
  | .page rest nextSeq _ =>
    l.Upto wire rest nextSeq ∧ ∀ pc ∈ rest, l.Serves wire pc.changesetSeq pc
  | .merging pc rest nextSeq _ =>
    (l.Upto wire (pc :: rest) nextSeq ∧ ∀ c ∈ pc :: rest, l.Serves wire c.changesetSeq c) ∧
      Opens wire cs cipher pc

def RetryPoint.Sound (l : Ledger Client) (cs : Option Changeset) (cipher : ChangesetCipher Client) :
    RetryPoint → Prop
  | .rows rest => ∀ row ∈ rest, l.Verbatim wire row
  | .merging row rest => (∀ r ∈ row :: rest, l.Verbatim wire r) ∧
      ∃ pc, row.change wire = some pc ∧ Opens wire cs cipher pc
  | .deleting row rest => (∀ r ∈ row :: rest, l.Verbatim wire r) ∧
      ∃ pc, row.change wire = some pc ∧ l.Merged wire pc

def PullOk (l : Ledger Client) (cs : Option Changeset) (o : Option (PullCycle Client)) : Prop :=
  ∀ c, o = some c → c.cipher ∈ l.used ∧ c.point.Sound wire l cs c.cipher

def RetryOk (l : Ledger Client) (cs : Option Changeset) (o : Option (RetryPass Client)) : Prop :=
  ∀ c, o = some c → c.cipher ∈ l.used ∧ c.point.Sound wire l cs c.cipher

/-- At most one call has a merge open. -/
def Exclusive (pull : Option (PullCycle Client)) (retry : Option (RetryPass Client)) : Prop :=
  ∀ c d, pull = some c → retry = some d → c.point.isMerging = true → d.point.isMerging = false

structure Puller.Sound (p : Puller Client) : Prop where
  inbox : p.inbox.Sound
  crypto : ∀ row ∈ p.crypto, p.ledger.Verbatim wire row
  watermark : p.ledger.Upto wire [] p.watermark
  pull : PullOk wire p.ledger (p.inbox.mergeCs) p.pull
  retry : RetryOk wire p.ledger (p.inbox.mergeCs) p.retry
  exclusive : Exclusive p.pull p.retry

variable {wire} {l l' : Ledger Client} {cs cs' : Option Changeset}
variable {cipher : ChangesetCipher Client} {pt : PullPoint Client} {rp : RetryPoint}

theorem PullPoint.Sound.extends (h : pt.Sound wire l cs cipher) (hx : l.Extends wire l')
    (hcs : pt.isMerging = true → cs' = cs) : pt.Sound wire l' cs' cipher := by
  cases pt with
  | top => trivial
  | asked since => exact Ledger.Upto.extends h hx
  | page rest nextSeq hasMore => exact ⟨h.1.extends hx, fun pc hm => (h.2 pc hm).extends hx.relay⟩
  | merging pc rest nextSeq hasMore =>
    rw [hcs rfl]
    exact ⟨⟨h.1.1.extends hx, fun c hm => (h.1.2 c hm).extends hx.relay⟩, h.2⟩

theorem RetryPoint.Sound.extends (h : rp.Sound wire l cs cipher) (hx : l.Extends wire l')
    (hcs : rp.isMerging = true → cs' = cs) : rp.Sound wire l' cs' cipher := by
  cases rp with
  | rows rest => exact fun row hm => (h row hm).extends hx
  | merging row rest =>
    rw [hcs rfl]
    exact ⟨fun r hm => (h.1 r hm).extends hx, h.2⟩
  | deleting row rest =>
    obtain ⟨hv, pc, hpc, hm⟩ := h
    exact ⟨fun r hr => (hv r hr).extends hx, pc, hpc, hm.extends hx.used hx.arrived⟩

theorem PullPoint.Sound.idle (h : pt.Sound wire l none cipher) : pt.isMerging = false := by
  cases pt with
  | merging pc rest nextSeq hasMore =>
    obtain ⟨_, c, hc, _⟩ := h
    cases hc
  | _ => rfl

theorem RetryPoint.Sound.idle (h : rp.Sound wire l none cipher) : rp.isMerging = false := by
  cases rp with
  | merging row rest =>
    obtain ⟨_, _, _, c, hc, _⟩ := h
    cases hc
  | _ => rfl

variable {pull : Option (PullCycle Client)} {retry : Option (RetryPass Client)}

theorem PullOk.extends (h : PullOk wire l cs pull) (hx : l.Extends wire l')
    (hcs : ∀ c, pull = some c → c.point.isMerging = true → cs' = cs) :
    PullOk wire l' cs' pull := by
  intro c hc
  obtain ⟨hu, hs⟩ := h c hc
  exact ⟨hx.used hu, hs.extends hx (hcs c hc)⟩

theorem RetryOk.extends (h : RetryOk wire l cs retry) (hx : l.Extends wire l')
    (hcs : ∀ c, retry = some c → c.point.isMerging = true → cs' = cs) :
    RetryOk wire l' cs' retry := by
  intro c hc
  obtain ⟨hu, hs⟩ := h c hc
  exact ⟨hx.used hu, hs.extends hx (hcs c hc)⟩

theorem pullOk_none : PullOk wire l cs none := (fun _ h => by cases h)

theorem retryOk_none : RetryOk wire l cs none := (fun _ h => by cases h)

theorem exclusive_none_left : Exclusive none retry := (fun _ _ h => by cases h)

theorem exclusive_none_right : Exclusive pull none := (fun _ _ _ h => by cases h)

theorem PullOk.idle (h : PullOk wire l none pull) :
    ∀ c, pull = some c → c.point.isMerging = false :=
  fun c hc => (h c hc).2.idle

theorem RetryOk.idle (h : RetryOk wire l none retry) :
    ∀ c, retry = some c → c.point.isMerging = false :=
  fun c hc => (h c hc).2.idle

theorem PullOk.filter (h : PullOk wire l cs pull) :
    PullOk wire l cs' (pull.filter (fun c => !c.point.isMerging)) := by
  intro c hc
  obtain ⟨hc, hidle⟩ := Option.filter_eq_some_iff.mp hc
  obtain ⟨hu, hs⟩ := h c hc
  rw [Bool.not_eq_true'] at hidle
  exact ⟨hu, hs.extends (Ledger.extends_refl l) (fun hm => by rw [hidle] at hm; cases hm)⟩

theorem RetryOk.filter (h : RetryOk wire l cs retry) :
    RetryOk wire l cs' (retry.filter (fun c => !c.point.isMerging)) := by
  intro c hc
  obtain ⟨hc, hidle⟩ := Option.filter_eq_some_iff.mp hc
  obtain ⟨hu, hs⟩ := h c hc
  rw [Bool.not_eq_true'] at hidle
  exact ⟨hu, hs.extends (Ledger.extends_refl l) (fun hm => by rw [hidle] at hm; cases hm)⟩

theorem serves_of_verbatim {row : CryptoRow} {pc : PulledChange Client}
    (hv : l.Verbatim wire row) (hpc : row.change wire = some pc) :
    l.Serves wire row.changesetSeq pc := by
  obtain ⟨pc', detail, hs, hrow⟩ := hv
  rw [hrow, Ledger.change_cryptoRow] at hpc
  cases hpc
  exact hs

/-- Once its changeset is merged, the change on which the pull waited is processed. -/
theorem PullOk.merged {m : MergeTx} (h : PullOk wire l (some m.cs) pull)
    (hx : l.Extends wire l') (hrows : ∀ r ∈ m.cs.rows, r ∈ l'.arrived) :
    PullOk wire l' none (pull.map (PullCycle.merged m)) := by
  intro c hc
  obtain ⟨d, hd, rfl⟩ := Option.map_eq_some_iff.mp hc
  obtain ⟨hu, hs⟩ := h d hd
  obtain ⟨cipher, report, point⟩ := d
  cases point with
  | merging pc rest nextSeq hasMore =>
    obtain ⟨⟨hupto, hserves⟩, cs, hcs, hopen⟩ := hs
    cases hcs
    have hserve := (hserves pc List.mem_cons_self).extends hx.relay
    have hdone : l'.Processed wire pc.changesetSeq :=
      ⟨pc, hserve, Or.inr ⟨cipher, hx.used hu, m.cs, hopen, hrows⟩⟩
    exact ⟨hx.used hu, (hupto.extends hx).taken hdone,
      fun d hd => (hserves d (List.mem_cons_of_mem _ hd)).extends hx.relay⟩
  | top => exact ⟨hx.used hu, trivial⟩
  | asked since => exact ⟨hx.used hu, Ledger.Upto.extends hs hx⟩
  | page rest nextSeq hasMore => exact ⟨hx.used hu, hs.extends hx (by rintro ⟨⟩)⟩

theorem RetryOk.merged {m : MergeTx} (h : RetryOk wire l (some m.cs) retry)
    (hx : l.Extends wire l') (hrows : ∀ r ∈ m.cs.rows, r ∈ l'.arrived) :
    RetryOk wire l' none (retry.map RetryPass.merged) := by
  intro c hc
  obtain ⟨d, hd, rfl⟩ := Option.map_eq_some_iff.mp hc
  obtain ⟨hu, hs⟩ := h d hd
  obtain ⟨cipher, report, point⟩ := d
  cases point with
  | merging row rest =>
    obtain ⟨hv, pc, hpc, cs, hcs, hopen⟩ := hs
    cases hcs
    exact ⟨hx.used hu, fun r hr => (hv r hr).extends hx, pc, hpc,
      cipher, hx.used hu, m.cs, hopen, hrows⟩
  | rows rest => exact ⟨hx.used hu, hs.extends hx (by rintro ⟨⟩)⟩
  | deleting row rest => exact ⟨hx.used hu, hs.extends hx (by rintro ⟨⟩)⟩

namespace Puller

variable {p t : Puller Client}

theorem sound_init (schema : LocalSchema) (relay : Store Client) :
    (init schema relay).Sound wire := by
  refine ⟨Quarantine.sound_init, (fun _ h => by cases h), fun seq hpos hle => ?_, pullOk_none, retryOk_none,
    exclusive_none_left⟩
  have hle : seq ≤ 0 := hle
  omega

variable (wire) in
/-- The arrived rows only grow, whatever the inbox does. -/
theorem extends_inbox {q : Quarantine} {e : Quarantine.Event} (hi : p.inbox.Sound)
    (hst : Quarantine.step p.inbox e = some q) :
    p.ledger.Extends wire ⟨p.relay, p.crypto, p.used, q.db.arrived⟩ := by
  obtain ⟨done, hdone⟩ := (Quarantine.step_keeps hi hst).arrived
  refine Ledger.extends_of_subset ⟨[], by simp [ledger]⟩ (List.Subset.refl _) ?_
    (List.Subset.refl _)
  exact fun r hr => hdone ▸ List.mem_append_left _ hr

theorem takeChange_sound {cipher : ChangesetCipher Client} {report : PullReport}
    {pc : PulledChange Client} {rest : List (PulledChange Client)} {nextSeq : Nat} {hasMore : Bool}
    (h : p.Sound wire)
    (hpull : p.pull = some ⟨cipher, report, .page (pc :: rest) nextSeq hasMore⟩)
    (hst : takeChange wire p ⟨cipher, report, .page (pc :: rest) nextSeq hasMore⟩ pc rest nextSeq
      hasMore = some t) : t.Sound wire := by
  obtain ⟨hu, hupto, hserves⟩ := h.pull _ hpull
  simp only [takeChange] at hst
  split at hst
  · split at hst <;> cases hst
    rename_i detail hdecode hidle
    have hserve := hserves pc List.mem_cons_self
    obtain ⟨hdone, hcrypto⟩ := Ledger.quarantine_processed detail h.crypto hserve
    have hx : p.ledger.Extends wire
        { p.ledger with crypto := quarantineUndecryptable wire p.crypto pc detail } :=
      Ledger.extends_of_subset ⟨[], by simp⟩ (List.Subset.refl _) (List.Subset.refl _)
        (Ledger.quarantine_subset _ _ _)
    refine ⟨h.inbox, hcrypto, h.watermark.extends hx, ?_, h.retry.extends hx (fun _ _ _ => rfl), ?_⟩
    · intro c hc
      cases hc
      exact ⟨hu, (hupto.extends hx).taken hdone,
        fun d hd => (hserves d (List.mem_cons_of_mem _ hd)).extends hx.relay⟩
    · intro c d hc _ hm
      cases hc
      cases hm
  · rename_i cs hdecode
    obtain ⟨q, hq, rfl⟩ := Option.map_eq_some_iff.mp hst
    obtain ⟨hnone, hcs, _⟩ := Quarantine.beginMerge_step hq
    have hx := extends_inbox wire h.inbox hq
    have hretry := h.retry
    rw [hnone] at hretry
    refine ⟨Quarantine.step_sound h.inbox hq, fun row hr => (h.crypto row hr).extends hx,
      h.watermark.extends hx, ?_, ?_, ?_⟩
    · intro c hc
      cases hc
      exact ⟨hu, ⟨hupto.extends hx, fun d hd => (hserves d hd).extends hx.relay⟩, cs, hcs, hdecode⟩
    · exact hretry.extends hx (fun c hc hm => by rw [hretry.idle c hc] at hm; cases hm)
    · exact fun c d _ hd _ => hretry.idle d hd

theorem takeRow_sound {cipher : ChangesetCipher Client} {report : QuarantineRetryReport}
    {row : CryptoRow} {rest : List CryptoRow} (h : p.Sound wire)
    (hretry : p.retry = some ⟨cipher, report, .rows (row :: rest)⟩)
    (hst : takeRow wire p ⟨cipher, report, .rows (row :: rest)⟩ row rest = some t) :
    t.Sound wire := by
  obtain ⟨hu, hv⟩ := h.retry _ hretry
  have hskip : ∀ report', Puller.Sound wire
      { p with retry := some ⟨cipher, report', .rows rest⟩ } := by
    intro report'
    refine ⟨h.inbox, h.crypto, h.watermark, h.pull, ?_, fun c d _ hd _ => by cases hd; rfl⟩
    intro c hc
    cases hc
    exact ⟨hu, fun r hr => hv r (List.mem_cons_of_mem _ hr)⟩
  simp only [takeRow] at hst
  split at hst
  · cases hst
    exact hskip _
  · rename_i pc hpc
    split at hst
    · cases hst
      exact hskip _
    · rename_i cs hdecode
      obtain ⟨q, hq, rfl⟩ := Option.map_eq_some_iff.mp hst
      obtain ⟨hnone, hcs, _⟩ := Quarantine.beginMerge_step hq
      have hx := extends_inbox wire h.inbox hq
      have hpull := h.pull
      rw [hnone] at hpull
      refine ⟨Quarantine.step_sound h.inbox hq, fun row hr => (h.crypto row hr).extends hx,
        h.watermark.extends hx, ?_, ?_, ?_⟩
      · exact hpull.extends hx (fun c hc hm => by rw [hpull.idle c hc] at hm; cases hm)
      · intro c hc
        cases hc
        exact ⟨hu, fun r hr => (hv r hr).extends hx, pc, hpc, cs, hcs, hdecode⟩
      · intro c d hc _ hm
        rw [hpull.idle c hc] at hm
        cases hm

/-- The open merge ends without a commit, and its owner with it. -/
theorem mergeFailed_sound {q : Quarantine} {e : Quarantine.Event} (h : p.Sound wire)
    (hq : Quarantine.step p.inbox e = some q) : (mergeFailed { p with inbox := q }).Sound wire := by
  have hx := extends_inbox wire h.inbox hq
  refine ⟨Quarantine.step_sound h.inbox hq, fun row hr => (h.crypto row hr).extends hx,
    h.watermark.extends hx, ?_, ?_, ?_⟩
  · exact (h.pull.extends hx (fun _ _ _ => rfl)).filter
  · exact (h.retry.extends hx (fun _ _ _ => rfl)).filter
  · intro c d hc _ hm
    obtain ⟨_, hidle⟩ := Option.filter_eq_some_iff.mp hc
    rw [hm] at hidle
    cases hidle

/-- The open merge commits, and its owner goes on. -/
theorem merged_sound {q : Quarantine} {m : MergeTx} (h : p.Sound wire)
    (hm : p.inbox.merge = some m) (hq : Quarantine.step p.inbox .commitMerge = some q) :
    (merged { p with inbox := q } m).Sound wire := by
  have hx := extends_inbox wire h.inbox hq
  obtain ⟨m', hm', hnone, hrows⟩ := Quarantine.commitMerge_step h.inbox hq
  obtain rfl : m' = m := Option.some.inj (hm'.symm.trans hm)
  have hcs : p.inbox.mergeCs = some m'.cs := by rw [Quarantine.mergeCs, hm, Option.map_some]
  have hcs' : q.mergeCs = none := by rw [Quarantine.mergeCs, hnone, Option.map_none]
  have hpull := h.pull
  have hretry := h.retry
  rw [hcs] at hpull hretry
  have hpull := hpull.merged hx hrows
  have hretry := hretry.merged hx hrows
  refine ⟨Quarantine.step_sound h.inbox hq, fun row hr => (h.crypto row hr).extends hx,
    h.watermark.extends hx, ?_, ?_, fun c d _ hd _ => hretry.idle d hd⟩
  · exact hcs' ▸ hpull
  · exact hcs' ▸ hretry

theorem beginPull_sound (h : p.Sound wire) (cipher : ChangesetCipher Client) (report : PullReport) :
    Puller.Sound wire
      { p with pull := some ⟨cipher, report, .top⟩, used := cipher :: p.used } := by
  have hx : p.ledger.Extends wire { p.ledger with used := cipher :: p.used } :=
    Ledger.extends_of_subset ⟨[], by simp⟩ (List.subset_cons_self _ _) (List.Subset.refl _)
      (List.Subset.refl _)
  refine ⟨h.inbox, fun row hr => (h.crypto row hr).extends hx, h.watermark.extends hx, ?_,
    h.retry.extends hx (fun _ _ _ => rfl), ?_⟩
  · intro c hc
    cases hc
    exact ⟨List.mem_cons_self, trivial⟩
  · intro c d hc _ hm
    cases hc
    cases hm

theorem beginRetry_sound (h : p.Sound wire) (cipher : ChangesetCipher Client)
    (report : QuarantineRetryReport) : Puller.Sound wire
      { p with
        retry := some ⟨cipher, report, .rows (changesInOrder p.crypto)⟩
        used := cipher :: p.used } := by
  have hx : p.ledger.Extends wire { p.ledger with used := cipher :: p.used } :=
    Ledger.extends_of_subset ⟨[], by simp⟩ (List.subset_cons_self _ _) (List.Subset.refl _)
      (List.Subset.refl _)
  refine ⟨h.inbox, fun row hr => (h.crypto row hr).extends hx, h.watermark.extends hx,
    h.pull.extends hx (fun _ _ _ => rfl), ?_, fun c d _ hd _ => by cases hd; rfl⟩
  intro c hc
  cases hc
  refine ⟨List.mem_cons_self, fun row hr => ?_⟩
  have hr : row ∈ p.crypto := (List.perm_insertionSort _ p.crypto).subset hr
  exact (h.crypto row hr).extends hx

/-- A retried changeset leaves the quarantine when its rows have arrived. -/
theorem deleteRow_sound {cipher : ChangesetCipher Client} {report report' : QuarantineRetryReport}
    {row : CryptoRow} {rest : List CryptoRow} (h : p.Sound wire)
    (hretry : p.retry = some ⟨cipher, report, .deleting row rest⟩) : Puller.Sound wire
      { p with
        crypto := p.crypto.filter (fun c => c.changesetSeq ≠ row.changesetSeq)
        retry := some ⟨cipher, report', .rows rest⟩ } := by
  obtain ⟨hu, hv, pc, hpc, hmerged⟩ := h.retry _ hretry
  have hserve := serves_of_verbatim (hv row List.mem_cons_self) hpc
  have hx : p.ledger.Extends wire { p.ledger with
      crypto := p.crypto.filter (fun c => c.changesetSeq ≠ row.changesetSeq) } :=
    Ledger.extends_delete hserve hmerged
  refine ⟨h.inbox, ?_, h.watermark.extends hx, h.pull.extends hx (fun _ _ _ => rfl), ?_,
    fun c d _ hd _ => by cases hd; rfl⟩
  · exact fun r hr => (h.crypto r (List.mem_of_mem_filter hr)).extends hx
  · intro c hc
    cases hc
    exact ⟨hu, fun r hr => (hv r (List.mem_cons_of_mem _ hr)).extends hx⟩

/-- A step of the inbox that leaves the merge to its owner. -/
theorem inbox_sound {q : Quarantine} {e : Quarantine.Event} (h : p.Sound wire)
    (hq : Quarantine.step p.inbox e = some q) (hcs : q.mergeCs = p.inbox.mergeCs) :
    Puller.Sound wire { p with inbox := q } := by
  have hx := extends_inbox wire h.inbox hq
  exact ⟨Quarantine.step_sound h.inbox hq, fun row hr => (h.crypto row hr).extends hx,
    h.watermark.extends hx, h.pull.extends hx (fun _ _ _ => hcs),
    h.retry.extends hx (fun _ _ _ => hcs), h.exclusive⟩

theorem setWatermark_sound {cipher : ChangesetCipher Client} {report : PullReport} {nextSeq : Nat}
    {hasMore : Bool} (h : p.Sound wire) (hpull : p.pull = some ⟨cipher, report, .page [] nextSeq hasMore⟩) :
    Puller.Sound wire
      { p with
        watermark := nextSeq
        pull := if hasMore then some ⟨cipher, report, .top⟩ else none } := by
  obtain ⟨hu, hupto, _⟩ := h.pull _ hpull
  refine ⟨h.inbox, h.crypto, hupto, ?_, h.retry, ?_⟩
  · intro c hc
    have hc : (if hasMore then some (PullCycle.mk cipher report .top) else none) = some c := hc
    split at hc <;> cases hc
    exact ⟨hu, trivial⟩
  · intro c d hc _ hm
    have hc : (if hasMore then some (PullCycle.mk cipher report .top) else none) = some c := hc
    split at hc <;> cases hc
    cases hm

theorem step_sound {e : Event Client} (h : p.Sound wire) (hst : step wire p e = some t) :
    t.Sound wire := by
  cases e with
  | commit rows =>
    cases hst
    have hx : p.ledger.Extends wire { p.ledger with relay := p.relay ++ rows } :=
      Ledger.extends_of_subset ⟨rows, rfl⟩ (List.Subset.refl _) (List.Subset.refl _)
        (List.Subset.refl _)
    exact ⟨h.inbox, fun row hr => (h.crypto row hr).extends hx, h.watermark.extends hx,
      h.pull.extends hx (fun _ _ _ => rfl), h.retry.extends hx (fun _ _ _ => rfl), h.exclusive⟩
  | beginPull cipher =>
    simp only [step] at hst
    split at hst <;> cases hst
    exact beginPull_sound h cipher _
  | readWatermark =>
    simp only [step] at hst
    split at hst <;> cases hst
    rename_i cipher report hpull
    refine ⟨h.inbox, h.crypto, h.watermark, ?_, h.retry, ?_⟩
    · intro c hc
      cases hc
      exact ⟨(h.pull _ hpull).1, h.watermark⟩
    · intro c d hc _ hm
      cases hc
      cases hm
  | answer =>
    simp only [step] at hst
    split at hst
    · rename_i cipher report since hpull
      obtain ⟨hu, hupto⟩ := h.pull _ hpull
      split at hst <;> cases hst
      · exact ⟨h.inbox, h.crypto, h.watermark, pullOk_none, h.retry, exclusive_none_left⟩
      · refine ⟨h.inbox, h.crypto, h.watermark, ?_, h.retry, ?_⟩
        · intro c hc
          cases hc
          exact ⟨hu, Ledger.page_upto hupto⟩
        · intro c d hc _ hm
          cases hc
          cases hm
    · cases hst
  | nextChange =>
    simp only [step] at hst
    split at hst
    · rename_i hpull
      exact takeChange_sound h hpull hst
    · cases hst
  | setWatermark =>
    simp only [step] at hst
    split at hst <;> cases hst
    rename_i hm hpull
    exact setWatermark_sound h hpull
  | failPull =>
    simp only [step] at hst
    split at hst <;> cases hst
    exact ⟨h.inbox, h.crypto, h.watermark, pullOk_none, h.retry, exclusive_none_left⟩
  | beginRetry cipher =>
    simp only [step] at hst
    split at hst <;> cases hst
    exact beginRetry_sound h cipher _
  | nextRow =>
    simp only [step] at hst
    split at hst
    · cases hst
      exact ⟨h.inbox, h.crypto, h.watermark, h.pull, retryOk_none, exclusive_none_right⟩
    · rename_i hretry
      exact takeRow_sound h hretry hst
    · cases hst
  | deleteRow =>
    simp only [step] at hst
    split at hst <;> cases hst
    rename_i hm hretry
    exact deleteRow_sound h hretry
  | failRetry =>
    simp only [step] at hst
    split at hst <;> cases hst
    exact ⟨h.inbox, h.crypto, h.watermark, h.pull, retryOk_none, exclusive_none_right⟩
  | mergeRow applies =>
    obtain ⟨q, hq, rfl⟩ := Option.map_eq_some_iff.mp hst
    split
    · exact mergeFailed_sound h hq
    · rename_i hm
      obtain ⟨_, hnone | hcs⟩ := Quarantine.mergeRow_step h.inbox hq
      · rw [hnone] at hm
        exact absurd rfl hm
      · exact inbox_sound h hq hcs
  | commitMerge =>
    simp only [step] at hst
    split at hst
    · cases hst
    · rename_i m hm
      obtain ⟨q, hq, rfl⟩ := Option.map_eq_some_iff.mp hst
      exact merged_sound h hm hq
  | failMerge =>
    simp only [step, Option.map_eq_some_iff] at hst
    obtain ⟨q, hq, rfl⟩ := hst
    exact mergeFailed_sound h hq
  | replay e =>
    simp only [step] at hst
    split at hst
    · rename_i he
      obtain ⟨q, hq, rfl⟩ := Option.map_eq_some_iff.mp hst
      exact inbox_sound h hq (Quarantine.replay_mergeCs he hq)
    · cases hst
  | crash =>
    simp only [step, Option.map_eq_some_iff] at hst
    obtain ⟨q, hq, rfl⟩ := hst
    have hx := extends_inbox wire h.inbox hq
    exact ⟨Quarantine.step_sound h.inbox hq, fun row hr => (h.crypto row hr).extends hx,
      h.watermark.extends hx, pullOk_none, retryOk_none, exclusive_none_left⟩

end Puller

end YapStack.Sync
