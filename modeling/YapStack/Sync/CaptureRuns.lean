import YapStack.Sync.Sound

set_option linter.unusedSectionVars false

namespace YapStack.Sync

/-- A chunk whose transaction went through, under its `client_seq`. -/
abbrev Committed := Int × List ChangeRow

/-- `enqueue_local` over and over, on rows that stay as they are. `attempt` is the capture under
way: its `committed_wm` and the chunks still to come. -/
structure CaptureRun where
  db : LocalDb
  committed : List Committed
  attempt : Option (Int × List (List ChangeRow))

inductive CaptureEvent
  | start
  | commit (draw : Draw)
  | crash

def rowsSince (rows : List ChangeRow) (since : Int) : List ChangeRow :=
  rows.filter (fun r => since < r.version)

namespace CaptureRun

section Steps

variable {Client : Type} (cfg : Config Client) (job : Job) (rows : List ChangeRow)

def begun (db : LocalDb) : CaptureRun := ⟨db, [], none⟩

/-- One chunk's transaction. An error rolls it back and ends the attempt. -/
def commitChunk (s : CaptureRun) (committedWm : Int) (chunk : List ChangeRow)
    (pending : List (List ChangeRow)) (draw : Draw) : CaptureRun :=
  let nextFirst := (pending.head?.bind List.head?).map ChangeRow.version
  let nextWm := (chunkCommitWatermark chunk nextFirst).filter (fun v => committedWm < v)
  match s.db.insertChunk cfg.cipher cfg.clientId draw job.schemaVersion job.engineVersion chunk with
  | .error _ => { s with attempt := none }
  | .ok db =>
    ⟨{ db with pushWatermark := nextWm.getD db.pushWatermark },
      s.committed ++ [(db.clientSeq, chunk)], some (nextWm.getD committedWm, pending)⟩

def step (s : CaptureRun) : CaptureEvent → Option CaptureRun
  | .start =>
    match s.attempt with
    | some _ => none
    | none =>
      let chunks := planCaptureChunks (rowsSince rows s.db.pushWatermark)
      some { s with attempt := some (s.db.pushWatermark, chunks) }
  | .commit draw =>
    match s.attempt with
    | some (committedWm, chunk :: pending) =>
      some (s.commitChunk cfg job committedWm chunk pending draw)
    | _ => none
  | .crash => some { s with attempt := none }

/-- The attempt has committed every chunk of its plan. -/
def Finished (s : CaptureRun) : Prop := ∃ committedWm, s.attempt = some (committedWm, [])

/-- The drain runs the same transaction. -/
theorem commitChunk_device [DecidableEq Client] (d : Device Client) (committed : List Committed)
    (committedWm : Int) (chunk : List ChangeRow) (pending : List (List ChangeRow)) (draw : Draw) :
    (d.commitChunk cfg job committedWm chunk pending draw).db =
      ((⟨d.db, committed, none⟩ : CaptureRun).commitChunk cfg job committedWm chunk pending draw).db
        := by
  simp only [Device.commitChunk, CaptureRun.commitChunk, Device.goTo]
  cases hres : d.db.insertChunk cfg.cipher cfg.clientId draw job.schemaVersion job.engineVersion
      chunk with
  | error e => rfl
  | ok db => rfl

end Steps

variable {Client : Type} (cfg : Config Client) (rows : List ChangeRow) (db₀ : LocalDb)

/-- The chunk is encrypted in an entry that waits in the outbox. -/
def InEntry (o : Outbox) (c : Committed) : Prop :=
  ∃ e ∈ o.entries, e.clientSeq = c.1 ∧ e.acked = false ∧
    ∃ draw, cfg.cipher.encrypt draw cfg.clientId c.1 (Changeset.encode ⟨c.2⟩) = .ok e.ciphertext

/-- The counter is at or past every entry. -/
def Fresh (db : LocalDb) : Prop := ∀ e ∈ db.outbox.entries, e.clientSeq ≤ db.clientSeq

/-- Every attempt commits the first so many chunks of the plan that it read. -/
def InChangeOrder (committed : List Committed) : Prop :=
  ∃ attempts : List (List Committed), committed = attempts.flatten ∧
    ∀ a ∈ attempts, ∃ since, a.map Prod.snd <+: planCaptureChunks (rowsSince rows since)

/-- Where an attempt stands after it committed the chunks `done`. -/
structure Attempting (s : CaptureRun) (wm : Int) (pending : List (List ChangeRow)) : Prop where
  watermark : wm = s.db.pushWatermark
  above : ∀ r ∈ pending.flatten, wm < r.version
  closed : pending = [] → ∀ r ∈ rows, r.version ≤ wm
  plan : ∃ since earlier done, since ≤ wm ∧ s.committed = earlier ++ done ∧
    InChangeOrder rows earlier ∧
    done.map Prod.snd ++ pending = planCaptureChunks (rowsSince rows since)

structure Sound (s : CaptureRun) : Prop where
  passed : ∀ r ∈ rows, r.version ≤ s.db.pushWatermark → ∃ c ∈ s.committed, r ∈ c.2
  watermark : s.db.pushWatermark = db₀.pushWatermark ∨
    ∃ r ∈ rows, r.version = s.db.pushWatermark
  seqs : s.committed.map Prod.fst =
    (List.range s.committed.length).map (fun i : Nat => db₀.clientSeq + 1 + i)
  counter : s.db.clientSeq = db₀.clientSeq + s.committed.length
  fresh : Fresh db₀ → Fresh s.db
  entries : ∀ c ∈ s.committed, InEntry cfg s.db.outbox c
  order : InChangeOrder rows s.committed
  attempt : ∀ wm pending, s.attempt = some (wm, pending) → Attempting rows s wm pending

variable {cfg rows db₀} {s t : CaptureRun} {wm v : Int} {chunk : List ChangeRow}
variable {pending : List (List ChangeRow)} {job : Job} {draw : Draw} {r : ChangeRow}

theorem mem_rowsSince {since : Int} : r ∈ rowsSince rows since ↔ r ∈ rows ∧ since < r.version := by
  simp only [rowsSince, List.mem_filter, decide_eq_true_eq]

theorem InChangeOrder.append {earlier done : List Committed} (h : InChangeOrder rows earlier)
    (hdone : ∃ since, done.map Prod.snd <+: planCaptureChunks (rowsSince rows since)) :
    InChangeOrder rows (earlier ++ done) := by
  obtain ⟨attempts, rfl, hall⟩ := h
  refine ⟨attempts ++ [done], by simp, fun a ha => ?_⟩
  obtain ha | ha := List.mem_append.mp ha
  · exact hall a ha
  · rw [List.mem_singleton.mp ha]
    exact hdone

namespace Attempting

/-- The rows of an attempt: in the chunks that it committed, in this one, or still to come. -/
theorem rows_eq (h : Attempting rows s wm (chunk :: pending)) :
    ∃ since earlier done, since ≤ wm ∧ s.committed = earlier ++ done ∧
      (done.map Prod.snd).flatten ++ (chunk ++ pending.flatten) = rowsSince rows since := by
  obtain ⟨since, earlier, done, hle, hcommitted, _, hplan⟩ := h.plan
  refine ⟨since, earlier, done, hle, hcommitted, ?_⟩
  rw [← planCaptureChunks_flatten (rowsSince rows since), ← hplan, List.flatten_append,
    List.flatten_cons]

theorem nonempty (h : Attempting rows s wm pending) : ∀ c ∈ pending, c ≠ [] := by
  obtain ⟨since, earlier, done, _, _, _, hplan⟩ := h.plan
  intro c hc
  have hplanned : c ∈ planCaptureChunks (rowsSince rows since) := by
    rw [← hplan]
    exact List.mem_append_right _ hc
  exact (planCaptureChunks_bounded hplanned).1

theorem sorted (h : Attempting rows s wm (chunk :: pending))
    (hsorted : rows.Pairwise (fun a b => a.version ≤ b.version)) :
    (chunk ++ pending.flatten).Pairwise (fun a b => a.version ≤ b.version) := by
  obtain ⟨since, _, done, _, _, hrows⟩ := h.rows_eq
  have hall := hsorted.filter (fun r => decide (since < r.version))
  rw [← rowsSince, ← hrows] at hall
  exact (List.pairwise_append.mp hall).2.1

/-- The watermark that a chunk commits is below every row still to come. -/
theorem next_watermark (h : Attempting rows s wm (chunk :: pending))
    (hsorted : rows.Pairwise (fun a b => a.version ≤ b.version))
    (hv : v = ((chunkCommitWatermark chunk ((pending.head?.bind List.head?).map
      ChangeRow.version)).filter (fun v => wm < v)).getD wm) :
    wm ≤ v ∧ (v = wm ∨ ∃ r ∈ chunk, r.version = v) ∧ ∀ r ∈ pending.flatten, v < r.version := by
  obtain ⟨_, hpending, _⟩ := List.pairwise_append.mp (h.sorted hsorted)
  have hnonempty : ∀ c ∈ pending, c ≠ [] := fun c hc => h.nonempty c (List.mem_cons_of_mem _ hc)
  have habove : ∀ r ∈ pending.flatten, wm < r.version :=
    fun r hr => h.above r (List.mem_append_right _ hr)
  cases hnext : (chunkCommitWatermark chunk ((pending.head?.bind List.head?).map
      ChangeRow.version)).filter (fun v => wm < v) with
  | none =>
    rw [hnext, Option.getD_none] at hv
    rw [hv]
    exact ⟨le_refl _, Or.inl rfl, habove⟩
  | some w =>
    rw [hnext, Option.getD_some] at hv
    rw [hv]
    obtain ⟨hw, hgt⟩ := Option.filter_eq_some_iff.mp hnext
    obtain ⟨hmem, hclosed⟩ := chunkCommitWatermark_closed hw
    exact ⟨le_of_lt (of_decide_eq_true hgt), Or.inr hmem,
      fun r hr => below_pending hpending hnonempty hclosed hr⟩

/-- The last chunk of a plan commits the highest version. -/
theorem last_watermark (h : Attempting rows s wm [chunk])
    (hsorted : rows.Pairwise (fun a b => a.version ≤ b.version))
    (hv : v = ((chunkCommitWatermark chunk none).filter (fun v => wm < v)).getD wm)
    (hr : r ∈ rows) : r.version ≤ v := by
  obtain ⟨hchunk, _, _⟩ := List.pairwise_append.mp (h.sorted hsorted)
  obtain ⟨last, hlast, hcommit, hmax⟩ :=
    chunkCommitWatermark_last (h.nonempty chunk List.mem_cons_self) hchunk
  have habove := h.above last (by simpa using hlast)
  have hfilter : (some last.version).filter (fun v => wm < v) = some last.version := by
    simp only [Option.filter_some, habove, decide_true, if_true]
  rw [hcommit, hfilter, Option.getD_some] at hv
  obtain ⟨since, _, done, hle, _, hrows⟩ := h.rows_eq
  by_cases hnew : since < r.version
  · have hread := mem_rowsSince.mpr ⟨hr, hnew⟩
    have hall := hsorted.filter (fun r => decide (since < r.version))
    rw [← rowsSince, ← hrows] at hall
    rw [← hrows] at hread
    obtain hdone | hopen := List.mem_append.mp hread
    · rw [hv]
      exact (List.pairwise_append.mp hall).2.2 r hdone last (List.mem_append_left _ hlast)
    · rw [hv]
      exact hmax r (by simpa using hopen)
  · omega

/-- The attempt after the transaction of its next chunk. -/
theorem commit (h : Attempting rows s wm (chunk :: pending))
    (hsorted : rows.Pairwise (fun a b => a.version ≤ b.version)) {seq : Int}
    (hv : v = ((chunkCommitWatermark chunk ((pending.head?.bind List.head?).map
      ChangeRow.version)).filter (fun v => wm < v)).getD wm)
    (hdb : t.db.pushWatermark = v) (hcommitted : t.committed = s.committed ++ [(seq, chunk)]) :
    Attempting rows t v pending := by
  obtain ⟨hgrow, _, habove⟩ := h.next_watermark hsorted hv
  refine ⟨hdb.symm, habove, ?_, ?_⟩
  · rintro rfl r hr
    exact h.last_watermark hsorted hv hr
  · obtain ⟨since, earlier, done, hle, hdone, hearlier, hplan⟩ := h.plan
    refine ⟨since, earlier, done ++ [(seq, chunk)], hle.trans hgrow, ?_, hearlier, ?_⟩
    · rw [hcommitted, hdone, List.append_assoc]
    · rw [← hplan, List.map_append, List.append_assoc]
      rfl

theorem mem_rows (h : Attempting rows s wm (chunk :: pending)) (hr : r ∈ chunk) : r ∈ rows := by
  obtain ⟨since, _, done, _, _, hrows⟩ := h.rows_eq
  have hread : r ∈ rowsSince rows since := by
    rw [← hrows]
    exact List.mem_append_right _ (List.mem_append_left _ hr)
  exact (mem_rowsSince.mp hread).1

/-- A row that the watermark of a chunk passes is in a committed chunk. -/
theorem passed (h : Attempting rows s wm (chunk :: pending))
    (hsorted : rows.Pairwise (fun a b => a.version ≤ b.version))
    (hv : v = ((chunkCommitWatermark chunk ((pending.head?.bind List.head?).map
      ChangeRow.version)).filter (fun v => wm < v)).getD wm)
    (hr : r ∈ rows) (hlt : wm < r.version) (hle : r.version ≤ v) :
    r ∈ chunk ∨ ∃ c ∈ s.committed, r ∈ c.2 := by
  obtain ⟨_, _, habove⟩ := h.next_watermark hsorted hv
  obtain ⟨since, earlier, done, hsince, hdone, hrows⟩ := h.rows_eq
  have hread : r ∈ rowsSince rows since := mem_rowsSince.mpr ⟨hr, by omega⟩
  rw [← hrows] at hread
  obtain hin | hin := List.mem_append.mp hread
  · obtain ⟨c, hc, hrc⟩ := List.mem_flatten.mp hin
    obtain ⟨d, hd, rfl⟩ := List.mem_map.mp hc
    exact Or.inr ⟨d, hdone ▸ List.mem_append_right _ hd, hrc⟩
  · obtain hin | hin := List.mem_append.mp hin
    · exact Or.inl hin
    · have hlater := habove r hin
      omega

end Attempting

theorem InEntry.insert {o p : Outbox} {e : OutboxEntry} {c : Committed} (h : InEntry cfg o c)
    (hinsert : o.insert e = some p) : InEntry cfg p c := by
  obtain ⟨f, hf, hseq, hacked, henc⟩ := h
  exact ⟨f, (Outbox.mem_insert hinsert).mpr (Or.inl hf), hseq, hacked, henc⟩

theorem Fresh.insert {db db' : LocalDb} {e : OutboxEntry} (h : Fresh db)
    (hinsert : db.outbox.insert e = some db'.outbox) (hseq : e.clientSeq = db.clientSeq + 1)
    (hcounter : db'.clientSeq = db.clientSeq + 1) : Fresh db' := by
  intro f hf
  obtain hf | rfl := (Outbox.mem_insert hinsert).mp hf
  · have hle := h f hf
    omega
  · omega

theorem Attempting.committed (h : Attempting rows s wm pending) :
    InChangeOrder rows s.committed := by
  obtain ⟨since, earlier, done, _, hcommitted, hearlier, hplan⟩ := h.plan
  rw [hcommitted]
  exact hearlier.append ⟨since, pending, hplan⟩

namespace Sound

theorem begun (habove : ∀ r ∈ rows, db₀.pushWatermark < r.version) :
    Sound cfg rows db₀ (CaptureRun.begun db₀) where
  passed r hr hle := by
    have hlt := habove r hr
    simp only [CaptureRun.begun] at hle
    omega
  watermark := Or.inl rfl
  seqs := rfl
  counter := by simp [CaptureRun.begun]
  fresh := fun hfresh => hfresh
  entries c hc := by cases hc
  order := ⟨[], rfl, by simp⟩
  attempt wm pending hat := by cases hat

theorem abandon (h : Sound cfg rows db₀ s) : Sound cfg rows db₀ { s with attempt := none } :=
  ⟨h.passed, h.watermark, h.seqs, h.counter, h.fresh, h.entries, h.order,
    fun wm pending hat => by cases hat⟩

theorem start (h : Sound cfg rows db₀ s) :
    Sound cfg rows db₀ { s with attempt := some (s.db.pushWatermark,
      planCaptureChunks (rowsSince rows s.db.pushWatermark)) } := by
  refine ⟨h.passed, h.watermark, h.seqs, h.counter, h.fresh, h.entries, h.order, ?_⟩
  rintro wm pending ⟨⟩
  refine ⟨rfl, fun r hr => ?_, fun hnil r hr => ?_, _, s.committed, [], le_refl _, by simp,
    h.order, rfl⟩
  · rw [planCaptureChunks_flatten] at hr
    exact (mem_rowsSince.mp hr).2
  · have hflat := planCaptureChunks_flatten (rowsSince rows s.db.pushWatermark)
    rw [hnil, List.flatten_nil] at hflat
    by_contra hgt
    have hread : r ∈ rowsSince rows s.db.pushWatermark := mem_rowsSince.mpr ⟨hr, by omega⟩
    rw [← hflat] at hread
    cases hread

theorem commit (h : Sound cfg rows db₀ s)
    (hsorted : rows.Pairwise (fun a b => a.version ≤ b.version))
    (hat : s.attempt = some (wm, chunk :: pending)) :
    Sound cfg rows db₀ (s.commitChunk cfg job wm chunk pending draw) := by
  have hattempt := h.attempt wm _ hat
  simp only [CaptureRun.commitChunk]
  split
  · exact h.abandon
  · rename_i db hdb
    obtain ⟨blob, outbox, hblob, hinsert, rfl⟩ := LocalDb.insertChunk_eq_ok.mp hdb
    obtain ⟨v, hv⟩ : ∃ v, v = ((chunkCommitWatermark chunk ((pending.head?.bind List.head?).map
      ChangeRow.version)).filter (fun v => wm < v)).getD wm := ⟨_, rfl⟩
    obtain ⟨hgrow, hfrom, _⟩ := hattempt.next_watermark hsorted hv
    simp only [← hattempt.watermark, ← hv]
    have hnext : Attempting rows ⟨{ s.db with
        pushWatermark := v, clientSeq := s.db.clientSeq + 1, outbox := outbox },
        s.committed ++ [(s.db.clientSeq + 1, chunk)], some (v, pending)⟩ v pending :=
      hattempt.commit hsorted hv rfl rfl
    refine ⟨fun r hr hle => ?_, ?_, ?_, ?_, ?_, fun c hc => ?_, hnext.committed, ?_⟩
    · by_cases hold : r.version ≤ wm
      · obtain ⟨c, hc, hrc⟩ := h.passed r hr (hattempt.watermark ▸ hold)
        exact ⟨c, List.mem_append_left _ hc, hrc⟩
      · obtain hin | ⟨c, hc, hrc⟩ := hattempt.passed hsorted hv hr (by omega) hle
        · exact ⟨_, List.mem_append_right _ (List.mem_singleton_self _), hin⟩
        · exact ⟨c, List.mem_append_left _ hc, hrc⟩
    · obtain rfl | ⟨r, hr, rfl⟩ := hfrom
      · simpa only [hattempt.watermark] using h.watermark
      · exact Or.inr ⟨r, hattempt.mem_rows hr, rfl⟩
    · simp only [List.map_append, h.seqs, List.length_append, List.length_singleton,
        List.range_succ, List.map_singleton, h.counter]
      rw [Int.add_right_comm]
    · simp only [List.length_append, List.length_singleton, h.counter]
      omega
    · exact fun hfresh => (h.fresh hfresh).insert hinsert rfl rfl
    · obtain hc | hc := List.mem_append.mp hc
      · exact (h.entries c hc).insert hinsert
      · rw [List.mem_singleton.mp hc]
        exact ⟨_, (Outbox.mem_insert hinsert).mpr (Or.inr rfl), rfl, rfl, draw, hblob⟩
    · rintro wm' pending' ⟨⟩
      exact hnext

theorem step (h : Sound cfg rows db₀ s)
    (hsorted : rows.Pairwise (fun a b => a.version ≤ b.version)) {e : CaptureEvent}
    (hst : CaptureRun.step cfg job rows s e = some t) : Sound cfg rows db₀ t := by
  cases e with
  | start =>
    simp only [CaptureRun.step] at hst
    split at hst
    · cases hst
    · cases hst
      exact h.start
  | commit draw =>
    simp only [CaptureRun.step] at hst
    split at hst
    · rename_i hat
      cases hst
      exact h.commit hsorted hat
    · cases hst
  | crash =>
    cases hst
    exact h.abandon

end Sound

theorem commitChunk_grows (h : Attempting rows s wm (chunk :: pending))
    (hsorted : rows.Pairwise (fun a b => a.version ≤ b.version)) :
    s.db.pushWatermark ≤ (s.commitChunk cfg job wm chunk pending draw).db.pushWatermark := by
  simp only [CaptureRun.commitChunk]
  split
  · exact le_refl _
  · rename_i db hdb
    obtain ⟨blob, outbox, _, _, rfl⟩ := LocalDb.insertChunk_eq_ok.mp hdb
    simp only [← h.watermark]
    exact (h.next_watermark hsorted rfl).1

theorem step_grows (h : Sound cfg rows db₀ s)
    (hsorted : rows.Pairwise (fun a b => a.version ≤ b.version)) {e : CaptureEvent}
    (hst : step cfg job rows s e = some t) : s.db.pushWatermark ≤ t.db.pushWatermark := by
  cases e with
  | start =>
    simp only [step] at hst
    split at hst
    · cases hst
    · cases hst
      exact le_refl _
  | commit draw =>
    simp only [step] at hst
    split at hst
    · rename_i hat
      cases hst
      exact commitChunk_grows (h.attempt _ _ hat) hsorted
    · cases hst
  | crash =>
    cases hst
    exact le_refl _

/-- The encryption of these chunks succeeds. -/
def Seals (cfg : Config Client) (draws : List Draw) (chunks : List (List ChangeRow)) : Prop :=
  ∀ chunk ∈ chunks, ∀ draw ∈ draws, ∀ q, ∃ blob,
    cfg.cipher.encrypt draw cfg.clientId q (Changeset.encode ⟨chunk⟩) = .ok blob

variable (wm pending job) in
/-- A transaction whose encryption succeeds goes through. -/
theorem commitChunk_succeeds (hfresh : Fresh s.db)
    (hseals : ∀ q, ∃ blob, cfg.cipher.encrypt draw cfg.clientId q (Changeset.encode ⟨chunk⟩) =
      .ok blob) :
    ∃ wm', (s.commitChunk cfg job wm chunk pending draw).attempt = some (wm', pending) ∧
      Fresh (s.commitChunk cfg job wm chunk pending draw).db := by
  obtain ⟨blob, hblob⟩ := hseals (s.db.clientSeq + 1)
  have hnew : s.db.clientSeq + 1 ∉ s.db.outbox.entries.map OutboxEntry.clientSeq := by
    intro hmem
    obtain ⟨e, he, heq⟩ := List.mem_map.mp hmem
    have hle := hfresh e he
    omega
  obtain ⟨outbox, hinsert⟩ : ∃ outbox, s.db.outbox.insert ⟨s.db.clientSeq + 1, blob,
      job.schemaVersion, job.engineVersion, false, none, chunkLevel chunk⟩ = some outbox :=
    ⟨_, dif_neg hnew⟩
  have hok := LocalDb.insertChunk_eq_ok.mpr ⟨blob, outbox, hblob, hinsert, rfl⟩
  simp only [CaptureRun.commitChunk, hok]
  exact ⟨_, rfl, hfresh.insert hinsert rfl rfl⟩

/-- An attempt whose transactions all go through commits its whole plan. -/
theorem commits_finish {draws : List Draw} (hat : s.attempt = some (wm, pending))
    (hfresh : Fresh s.db) (hlen : draws.length = pending.length) (hseals : Seals cfg draws pending) :
    ∃ t, Runs.exec (step cfg job rows) s (draws.map .commit) = some t ∧ t.Finished := by
  induction pending generalizing s wm draws with
  | nil =>
    rw [List.length_eq_zero_iff.mp hlen]
    exact ⟨s, rfl, wm, hat⟩
  | cons chunk pending ih =>
    cases draws with
    | nil => cases hlen
    | cons draw draws =>
      obtain ⟨wm', hnext, hfresh'⟩ := commitChunk_succeeds wm pending job hfresh
        (hseals chunk List.mem_cons_self draw List.mem_cons_self)
      obtain ⟨t, ht, hfin⟩ := ih hnext hfresh' (by simpa using hlen) (fun c hc d hd =>
        hseals c (List.mem_cons_of_mem _ hc) d (List.mem_cons_of_mem _ hd))
      have hstep : step cfg job rows s (.commit draw) =
          some (s.commitChunk cfg job wm chunk pending draw) := by
        simp only [step, hat]
      exact ⟨t, (Runs.exec_cons s t _ _).mpr ⟨_, hstep, ht⟩, hfin⟩

variable (cfg rows db₀) in
/-- What holds at every moment of repeated captures, also right after a crash. -/
structure CrashSafe (s : CaptureRun) : Prop where
  passed : ∀ r ∈ rows, r.version ≤ s.db.pushWatermark → ∃ c ∈ s.committed, r ∈ c.2
  seqs : s.committed.map Prod.fst =
    (List.range s.committed.length).map (fun i : Nat => db₀.clientSeq + 1 + i)
  order : InChangeOrder rows s.committed
  entries : ∀ c ∈ s.committed, InEntry cfg s.db.outbox c
  finished : s.Finished → ∀ r ∈ rows, r.version ≤ s.db.pushWatermark
  reached : s.db.pushWatermark = db₀.pushWatermark ∨ ∃ r ∈ rows, r.version = s.db.pushWatermark

theorem Sound.crashSafe (h : Sound cfg rows db₀ s) : CrashSafe cfg rows db₀ s := by
  refine ⟨h.passed, h.seqs, h.order, h.entries, ?_, h.watermark⟩
  rintro ⟨wm, hat⟩ r hr
  have hattempt := h.attempt wm [] hat
  rw [← hattempt.watermark]
  exact hattempt.closed rfl r hr

theorem InEntry.opens {o : Outbox} {c : Committed} (h : InEntry cfg o c)
    (hfits : Changeset.Fits ⟨c.2⟩) :
    ∃ e ∈ o.entries, openBlob cfg.cipher cfg.clientId e.clientSeq e.ciphertext = .ok ⟨c.2⟩ := by
  obtain ⟨e, he, hseq, _, draw, hblob⟩ := h
  rw [← hseq] at hblob
  exact ⟨e, he, LocalDb.openBlob_encrypt hfits hblob⟩

theorem version_of_before (h : rows.Pairwise ChangeRow.Before) :
    rows.Pairwise (fun a b => a.version ≤ b.version) := by
  apply h.imp
  intro a b hab
  simp only [ChangeRow.Before] at hab
  omega

/-- Captures may crash after any chunk, any number of times. In every state the rows that the
watermark passed are committed, the `client_seq`s are consecutive in the order of the changes, and
the watermark never went back. The next attempt that runs through captures every row. -/
theorem capture_is_crash_safe {events : List CaptureEvent}
    (hsorted : rows.Pairwise ChangeRow.Before)
    (habove : ∀ r ∈ rows, db₀.pushWatermark < r.version)
    (hrun : Runs.exec (step cfg job rows) (begun db₀) events = some s) :
    CrashSafe cfg rows db₀ s ∧
      Runs.Along (step cfg job rows) (fun a _ b => a.db.pushWatermark ≤ b.db.pushWatermark)
        (begun db₀) events ∧
      (s.Finished → (∀ r ∈ rows, ∃ c ∈ s.committed, r ∈ c.2 ∧ InEntry cfg s.db.outbox c) ∧
        (rows ≠ [] → ∃ r ∈ rows, r.version = s.db.pushWatermark)) ∧
      ∀ draws : List Draw,
        let chunks := planCaptureChunks (rowsSince rows s.db.pushWatermark)
        Fresh db₀ → draws.length = chunks.length → Seals cfg draws chunks →
          ∃ t, Runs.exec (step cfg job rows) s (.crash :: .start :: draws.map .commit) = some t ∧
            t.Finished := by
  have hversions := version_of_before hsorted
  have hstart : Sound cfg rows db₀ (begun db₀) := Sound.begun habove
  have hstep : ∀ a e b, Sound cfg rows db₀ a → step cfg job rows a e = some b →
      Sound cfg rows db₀ b := fun a e b ha hst => ha.step hversions hst
  have hs : Sound cfg rows db₀ s := Runs.exec_invariant hstep hstart hrun
  have hsafe := hs.crashSafe
  refine ⟨hsafe, ?_, fun hfin => ⟨fun r hr => ?_, fun hne => ?_⟩, fun draws => ?_⟩
  · have hkeep : ∀ a e b, Sound cfg rows db₀ a → True → step cfg job rows a e = some b →
        Sound cfg rows db₀ b := fun a e b ha _ hst => hstep a e b ha hst
    exact Runs.along_of_invariant hkeep (fun a e b ha _ hst => step_grows ha hversions hst) hstart
      (Runs.along_true (begun db₀) events)
  · obtain ⟨c, hc, hrc⟩ := hsafe.passed r hr (hsafe.finished hfin r hr)
    exact ⟨c, hc, hrc, hsafe.entries c hc⟩
  · obtain heq | hmem := hsafe.reached
    · obtain ⟨r, hr⟩ := List.exists_mem_of_ne_nil rows hne
      have hlt := habove r hr
      have hle := hsafe.finished hfin r hr
      omega
    · exact hmem
  · intro chunks hfresh hlen hseals
    obtain ⟨u, hu⟩ : ∃ u : CaptureRun, u = { s with
      attempt := some (s.db.pushWatermark, chunks) } := ⟨_, rfl⟩
    have hat : u.attempt = some (s.db.pushWatermark, chunks) := by rw [hu]
    have hufresh : Fresh u.db := by
      rw [hu]
      exact hs.fresh hfresh
    obtain ⟨t, ht, hfin⟩ := commits_finish hat hufresh hlen hseals
    have hstarts : step cfg job rows { s with attempt := none } .start = some u := by
      rw [hu]
      rfl
    exact ⟨t, (Runs.exec_cons _ _ _ _).mpr ⟨_, rfl, (Runs.exec_cons _ _ _ _).mpr
      ⟨u, hstarts, ht⟩⟩, hfin⟩

def plainConfig : Config Nat := ⟨ChangesetCipher.plain, 1, [1]⟩

/-- Two rows of one transaction, in two chunks because of their levels. -/
def straddled : List ChangeRow :=
  [⟨"notes", [1], "body", .null, 1, 1, some [1], 1, 0⟩,
    ⟨"later", [2], "body", .null, 1, 1, some [1], 1, 1⟩]

theorem capture_is_crash_safe_straddled :
    ∃ s, Runs.exec (step plainConfig ⟨1, 1⟩ straddled) (begun LocalDb.empty)
        [.start, .commit Draw.blank, .crash, .start, .commit Draw.blank, .commit Draw.blank] =
          some s ∧
      s.db.pushWatermark = 1 ∧ CrashSafe plainConfig straddled LocalDb.empty s := by
  obtain ⟨s, hs, hwm⟩ : ∃ s, Runs.exec (step plainConfig ⟨1, 1⟩ straddled) (begun LocalDb.empty)
      [.start, .commit Draw.blank, .crash, .start, .commit Draw.blank, .commit Draw.blank] =
        some s ∧ s.db.pushWatermark = 1 := Runs.exec_evaluates (by decide +kernel)
  exact ⟨s, hs, hwm, (capture_is_crash_safe (by decide) (by decide) hs).1⟩

end CaptureRun

end YapStack.Sync
