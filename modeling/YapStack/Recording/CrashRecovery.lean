import YapStack.Recording.Store
import YapStack.Foundation.Runs

namespace YapStack.Recording

open YapStack.Runs

namespace Store

variable {app : ℕ} {s t : Store} {b : Boot} {id : SessionId} {n : ℕ} {r : SessionRow}

/-- How many rows a part has. -/
def partRows (s : Store) (id : SessionId) (n : ℕ) : ℕ :=
  s.parts.countP (fun p => p.session = id ∧ p.index = n)

def OneRowPerPart (s : Store) : Prop := ∀ id n, s.partRows id n ≤ 1

/-- The boot's sweep has the authority to finalize the session. -/
def mayFinalize (s : Store) (b : Boot) (id : SessionId) (r : SessionRow) : Bool :=
  (b.me.isSome && r.owner = b.me) ||
    (r.owner = none && (b.me.isSome || !s.crr) && s.isStale id r b.now)

theorem hasPart_iff : s.hasPart id n = true ↔ 0 < s.partRows id n := by
  simp [hasPart, partRows, List.countP_pos_iff]

theorem partRows_append (s : Store) (p : PartRow) (id : SessionId) (n : ℕ) :
    partRows { s with parts := s.parts ++ [p] } id n =
      s.partRows id n + if p.session = id ∧ p.index = n then 1 else 0 := by
  simp [partRows, List.countP_append, List.countP_singleton]

/-- What the pass over the files leaves as it was, and what it adds. -/
structure Recovers (s t : Store) : Prop where
  sessions : t.sessions = s.sessions
  segments : t.segments = s.segments
  crr : t.crr = s.crr
  files : t.files = s.files
  parts : ∃ ps, t.parts = s.parts ++ ps
  rows : OneRowPerPart s → OneRowPerPart t

theorem Recovers.refl (s : Store) : Recovers s s :=
  ⟨rfl, rfl, rfl, rfl, ⟨[], (List.append_nil _).symm⟩, id⟩

theorem Recovers.trans {u : Store} (h : Recovers s t) (h' : Recovers t u) : Recovers s u where
  sessions := h'.sessions.trans h.sessions
  segments := h'.segments.trans h.segments
  crr := h'.crr.trans h.crr
  files := h'.files.trans h.files
  parts := by
    obtain ⟨ps, hps⟩ := h.parts
    obtain ⟨qs, hqs⟩ := h'.parts
    exact ⟨ps ++ qs, by rw [hqs, hps, List.append_assoc]⟩
  rows := h'.rows ∘ h.rows

theorem Recovers.hasPart (h : Recovers s t) (hp : s.hasPart id n = true) :
    t.hasPart id n = true := by
  obtain ⟨ps, hps⟩ := h.parts
  simp only [Store.hasPart, hps, List.any_append, Bool.or_eq_true]
  exact .inl hp

theorem insertAudioPart_recovers {p : PartRow} (h : s.hasPart p.session p.index = false) :
    Recovers s (s.insertAudioPart p) := by
  unfold insertAudioPart
  rw [h, Bool.and_false, if_neg Bool.false_ne_true]
  refine ⟨rfl, rfl, rfl, rfl, ⟨[p], rfl⟩, fun hone id n => ?_⟩
  rw [partRows_append]
  split
  · rename_i hp
    obtain ⟨rfl, rfl⟩ := hp
    have hzero : ¬ 0 < s.partRows p.session p.index := by
      rw [← hasPart_iff, h]
      exact Bool.false_ne_true
    omega
  · exact hone id n

theorem insertAudioPart_hasPart {p : PartRow} (h : s.hasPart p.session p.index = false) :
    (s.insertAudioPart p).hasPart p.session p.index = true := by
  unfold insertAudioPart
  rw [h, Bool.and_false, if_neg Bool.false_ne_true, hasPart_iff, partRows_append]
  simp

theorem reconcileFile_recovers (s : Store) (f : File) : Recovers s (s.reconcileFile f) := by
  unfold reconcileFile
  split
  · exact Recovers.refl s
  · split
    · exact Recovers.refl s
    · split
      · rename_i hnone _
        exact insertAudioPart_recovers (Bool.eq_false_iff.mpr hnone)
      · exact Recovers.refl s

theorem reconcileFile_hasPart {f : File} {fmt : Format}
    (hname : parsePartFilename f.name = some (id, n, fmt)) (hs : (s.sessions id).isSome = true) :
    (s.reconcileFile f).hasPart id n = true := by
  unfold reconcileFile
  rw [hname]
  simp only [hs, if_true]
  split
  · assumption
  · rename_i hnone
    exact insertAudioPart_hasPart (p := ⟨id, n, f⟩) (Bool.eq_false_iff.mpr hnone)

theorem foldl_recovers (fs : List File) (s : Store) : Recovers s (fs.foldl reconcileFile s) := by
  induction fs generalizing s with
  | nil => exact Recovers.refl s
  | cons f fs ih => exact (reconcileFile_recovers s f).trans (ih _)

theorem foldl_hasPart {f : File} {fmt : Format} (fs : List File) (s : Store) (hf : f ∈ fs)
    (hname : parsePartFilename f.name = some (id, n, fmt)) (hs : (s.sessions id).isSome = true) :
    (fs.foldl reconcileFile s).hasPart id n = true := by
  induction fs generalizing s with
  | nil => cases hf
  | cons g fs ih =>
    rcases List.mem_cons.mp hf with rfl | hrest
    · exact (foldl_recovers fs _).hasPart (reconcileFile_hasPart hname hs)
    · apply ih _ hrest
      rw [(reconcileFile_recovers s g).sessions]
      exact hs

theorem reconcileAudioParts_recovers (s : Store) (dirs : List ℕ) :
    Recovers s (s.reconcileAudioParts dirs) := foldl_recovers _ s

theorem reconcileAudioParts_hasPart {f : File} {fmt : Format} {dirs : List ℕ}
    (hf : f ∈ s.files) (hdir : f.dir ∈ dirs)
    (hname : parsePartFilename f.name = some (id, n, fmt)) (hs : (s.sessions id).isSome = true) :
    (s.reconcileAudioParts dirs).hasPart id n = true := by
  refine foldl_hasPart _ s ?_ hname hs
  exact List.mem_flatMap.mpr ⟨f.dir, hdir, List.mem_filter.mpr ⟨hf, by simp⟩⟩

theorem closeOrphanedRecordings_keeps (s : Store) (b : Boot) :
    (s.closeOrphanedRecordings b).parts = s.parts ∧
      (s.closeOrphanedRecordings b).segments = s.segments ∧
      (s.closeOrphanedRecordings b).files = s.files ∧
      (s.closeOrphanedRecordings b).locations = s.locations ∧
      (s.closeOrphanedRecordings b).crr = s.crr := by
  unfold closeOrphanedRecordings
  split
  · exact ⟨rfl, rfl, rfl, rfl, rfl⟩
  · exact ⟨rfl, rfl, rfl, rfl, rfl⟩

/-- A session the sweep does not delete stays, no longer recording if the sweep may say so. -/
theorem closeOrphanedRecordings_session (hr : s.sessions id = some r)
    (hkept : s.deletes b id r = false) :
    ∃ r', (s.closeOrphanedRecordings b).sessions id = some r' ∧ r'.owner = r.owner ∧
      r'.createdAt = r.createdAt ∧ (r.recording = false → r'.recording = false) ∧
      (s.mayFinalize b id r = true → r'.recording = false) := by
  unfold closeOrphanedRecordings
  split
  · rename_i hruns
    simp only [sweepOrphanedRecordings, hr, Option.bind_some, hkept, Bool.false_eq_true, if_false]
    split
    · exact ⟨_, rfl, rfl, rfl, fun _ => rfl, fun _ => rfl⟩
    · rename_i hfin
      refine ⟨r, rfl, rfl, rfl, fun h => h, fun hmay => ?_⟩
      by_contra hrec
      simp only [Bool.not_eq_false] at hrec
      simp only [finalizes, deletes, mayFinalize, hrec, notForeign] at hfin hkept hmay
      grind
  · rename_i hquiet
    refine ⟨r, hr, rfl, rfl, fun h => h, fun hmay => ?_⟩
    simp only [mayFinalize] at hmay
    grind

theorem boot_recovers (app : ℕ) (s : Store) (b : Boot) :
    Recovers (s.closeOrphanedRecordings b) (s.boot app b) := reconcileAudioParts_recovers _ _

theorem boot_segments : (s.boot app b).segments = s.segments :=
  (boot_recovers app s b).segments.trans (closeOrphanedRecordings_keeps s b).2.1

theorem boot_crr : (s.boot app b).crr = s.crr :=
  (boot_recovers app s b).crr.trans (closeOrphanedRecordings_keeps s b).2.2.2.2

theorem boot_rows (h : OneRowPerPart s) : OneRowPerPart (s.boot app b) := by
  apply (boot_recovers app s b).rows
  unfold OneRowPerPart partRows
  rw [(closeOrphanedRecordings_keeps s b).1]
  exact h

theorem boot_hasPart_of_row (h : s.hasPart id n = true) : (s.boot app b).hasPart id n = true := by
  apply (boot_recovers app s b).hasPart
  unfold hasPart
  rw [(closeOrphanedRecordings_keeps s b).1]
  exact h

theorem boot_session (app : ℕ) (hr : s.sessions id = some r) (hkept : s.deletes b id r = false) :
    ∃ r', (s.boot app b).sessions id = some r' ∧ r'.owner = r.owner ∧
      r'.createdAt = r.createdAt ∧ (r.recording = false → r'.recording = false) ∧
      (s.mayFinalize b id r = true → r'.recording = false) := by
  rw [(boot_recovers app s b).sessions]
  exact closeOrphanedRecordings_session hr hkept

/-- A part's file in a directory the boot looks into gets its row. -/
theorem boot_hasPart_of_file {f : File} {fmt : Format} (hf : f ∈ s.files)
    (hdir : f.dir ∈ s.audioPartDirectories app)
    (hname : parsePartFilename f.name = some (id, n, fmt)) (hr : s.sessions id = some r)
    (hkept : s.deletes b id r = false) : (s.boot app b).hasPart id n = true := by
  obtain ⟨hparts, -, hfiles, hlocations, -⟩ := closeOrphanedRecordings_keeps s b
  obtain ⟨r', hr', -⟩ := closeOrphanedRecordings_session (b := b) hr hkept
  refine reconcileAudioParts_hasPart (by rw [hfiles]; exact hf) ?_ hname (by rw [hr']; rfl)
  unfold audioPartDirectories
  rw [hparts, hlocations]
  exact hdir

theorem deletes_of_hasPart (h : s.hasPart id n = true) : s.deletes b id r = false := by
  obtain ⟨p, hp, hpart⟩ := List.any_eq_true.mp h
  simp only [decide_eq_true_eq] at hpart
  have hall : s.parts.all (fun p => p.session ≠ id) = false := by
    rw [List.all_eq_false]
    exact ⟨p, hp, by simp [hpart.1]⟩
  unfold deletes isEmpty
  rw [hall]
  simp only [Bool.and_false, Bool.false_and]

theorem mayFinalize_congr {r' : SessionRow} (hg : t.segments = s.segments) (hc : t.crr = s.crr)
    (ho : r'.owner = r.owner) (ha : r'.createdAt = r.createdAt) :
    t.mayFinalize b id r' = s.mayFinalize b id r := by
  unfold mayFinalize isStale heartbeat
  rw [hg, hc, ho, ha]

/-- A session with a row for one of its parts outlives every boot, and ends once a sweep may
finalize it. -/
theorem boots_keep_session (bs : List Boot) (hr : s.sessions id = some r)
    (hp : s.hasPart id n = true) :
    (bs.foldl (boot app) s).hasPart id n = true ∧
      ∃ r', (bs.foldl (boot app) s).sessions id = some r' ∧
        (r.recording = false ∨ (∃ b ∈ bs, s.mayFinalize b id r = true) →
          r'.recording = false) := by
  induction bs generalizing s r with
  | nil => exact ⟨hp, r, hr, by simp⟩
  | cons b bs ih =>
    obtain ⟨r₁, hr₁, ho, ha, hstays, hends⟩ :=
      boot_session app hr (deletes_of_hasPart (b := b) hp)
    obtain ⟨hrow, r', hr', hfinal⟩ := ih hr₁ (boot_hasPart_of_row hp)
    refine ⟨hrow, r', hr', fun hcan => hfinal ?_⟩
    rcases hcan with hdone | ⟨b', hb', hmay⟩
    · exact .inl (hstays hdone)
    · rcases List.mem_cons.mp hb' with rfl | hrest
      · exact .inl (hends hmay)
      · refine .inr ⟨b', hrest, ?_⟩
        rw [mayFinalize_congr boot_segments boot_crr ho ha]
        exact hmay

theorem boots_rows (app : ℕ) (bs : List Boot) (h : OneRowPerPart s) :
    OneRowPerPart (bs.foldl (boot app) s) := by
  induction bs generalizing s with
  | nil => exact h
  | cons b bs ih => exact ih (boot_rows h)

/-- A finished recording inserts the only row of its part. -/
def InsertsFresh (s : Store) (e : Event) (_ : Store) : Prop :=
  match e with
  | .insertPart p => s.crr = true → s.hasPart p.session p.index = false
  | _ => True

instance (s : Store) (e : Event) (t : Store) : Decidable (InsertsFresh s e t) := by
  unfold InsertsFresh
  split <;> infer_instance

theorem addFile_parts (s : Store) (f : File) : (s.addFile f).parts = s.parts := by
  unfold addFile
  split <;> rfl

theorem oneRowPerPart_of_parts (h : OneRowPerPart s) (hp : t.parts = s.parts) :
    OneRowPerPart t := by
  unfold OneRowPerPart partRows
  rw [hp]
  exact h

theorem insertAudioPart_rows {p : PartRow} (h : OneRowPerPart s)
    (hg : s.crr = true → s.hasPart p.session p.index = false) :
    OneRowPerPart (s.insertAudioPart p) := by
  cases hp : s.hasPart p.session p.index with
  | false => exact (insertAudioPart_recovers hp).rows h
  | true =>
    have hcrr : s.crr = false := by
      by_contra hc
      have hnone := hg (by simpa using hc)
      rw [hp] at hnone
      cases hnone
    unfold insertAudioPart
    rw [hp, hcrr]
    exact h

theorem step_rows {e : Event} (h : OneRowPerPart s) (hg : InsertsFresh s e t)
    (ht : step app s e = some t) : OneRowPerPart t := by
  cases e with
  | createSession id owner now =>
    simp only [step, Option.ite_none_left_eq_some, Option.some.injEq] at ht
    obtain ⟨-, rfl⟩ := ht
    exact h
  | openPart dir id n =>
    obtain rfl := Option.some.inj ht
    exact oneRowPerPart_of_parts h (addFile_parts _ _)
  | encodeMp3 dir id n =>
    obtain rfl := Option.some.inj ht
    exact oneRowPerPart_of_parts h (addFile_parts _ _)
  | insertPart p => exact Option.some.inj ht ▸ insertAudioPart_rows h hg
  | boot b => exact Option.some.inj ht ▸ boot_rows h
  | _ =>
    obtain rfl := Option.some.inj ht
    exact h

/-- Wherever a crash ends a run: a part's file in a registered directory, whose session row
exists and is not deleted as empty by the next boot, belongs after any boots to an existing
session and to exactly one row, and the session has ended once a sweep had the authority. -/
theorem boots_keep_recorded_audio {s₀ u : Store} {as : List Event} (h₀ : OneRowPerPart s₀)
    (hg : Along (step app) InsertsFresh s₀ as) (hu : exec (step app) s₀ as = some u)
    (b : Boot) (bs : List Boot) {f : File} {id : SessionId} {n : ℕ} {fmt : Format}
    {r : SessionRow} (hf : f ∈ u.files) (hdir : f.dir ∈ u.audioPartDirectories app)
    (hname : parsePartFilename f.name = some (id, n, fmt)) (hr : u.sessions id = some r)
    (hkept : u.deletes b id r = false) :
    ((b :: bs).foldl (boot app) u).partRows id n = 1 ∧
      ∃ r', ((b :: bs).foldl (boot app) u).sessions id = some r' ∧
        (r.recording = false ∨ (∃ b' ∈ b :: bs, u.mayFinalize b' id r = true) →
          r'.recording = false) := by
  have hstep : ∀ s e t, OneRowPerPart s → InsertsFresh s e t → step app s e = some t →
      OneRowPerPart t := fun _ _ _ h hg ht => step_rows h hg ht
  have hrows : OneRowPerPart u := exec_invariant_along hstep h₀ hg hu
  obtain ⟨r₁, hr₁, ho, ha, hstays, hends⟩ := boot_session app hr hkept
  have hpart := boot_hasPart_of_file hf hdir hname hr hkept
  obtain ⟨hlast, r', hr', hfinal⟩ := boots_keep_session bs hr₁ hpart
  refine ⟨?_, r', hr', fun hcan => hfinal ?_⟩
  · have hone := boots_rows app (b :: bs) hrows id n
    have hpos := hasPart_iff.mp hlast
    simp only [List.foldl_cons] at hone hpos ⊢
    omega
  · rcases hcan with hdone | ⟨b', hb', hmay⟩
    · exact .inl (hstays hdone)
    · rcases List.mem_cons.mp hb' with rfl | hrest
      · exact .inl (hends hmay)
      · refine .inr ⟨b', hrest, ?_⟩
        rw [mayFinalize_congr boot_segments boot_crr ho ha]
        exact hmay

/-- A store without sessions, on a database prepared for sync or not. -/
def blank (crr : Bool) : Store := ⟨crr, fun _ => none, [], [], [], []⟩

theorem blank_rows (crr : Bool) : OneRowPerPart (blank crr) := fun _ _ => Nat.zero_le 1

def firstSession : SessionId := ⟨['a'], by decide⟩

def firstPart : File := ⟨7, partFilename firstSession 0 .wav⟩

/-- Device 1 records into directory 7 and transcribes a segment; then it crashes. -/
def crashedRun : List Event :=
  [.createSession firstSession (some 1) 0, .registerAudioSaveLocation 7,
    .openPart 7 firstSession 0, .addSegment firstSession 60]

theorem boots_keep_recorded_audio_crashed :
    ∃ u, exec (step 0) (blank true) crashedRun = some u ∧
      (([⟨some 1, 90⟩, ⟨some 1, 95⟩] : List Boot).foldl (boot 0) u).partRows firstSession 0 = 1 := by
  obtain ⟨u, hu, hf, hdir, hr, hkept⟩ : ∃ u, exec (step 0) (blank true) crashedRun = some u ∧
      firstPart ∈ u.files ∧ firstPart.dir ∈ u.audioPartDirectories 0 ∧
      u.sessions firstSession = some ⟨true, some 1, 0⟩ ∧
      u.deletes ⟨some 1, 90⟩ firstSession ⟨true, some 1, 0⟩ = false :=
    exec_evaluates (by decide +kernel)
  have hname : parsePartFilename firstPart.name = some (firstSession, 0, .wav) :=
    parse_partFilename firstSession .wav (by decide)
  exact ⟨u, hu, (boots_keep_recorded_audio (blank_rows true) (by decide +kernel) hu _ [_] hf hdir
    hname hr hkept).1⟩

/-- A crash before the first segment: the sweep deletes the session and the file is left to
nobody. And a crash without sync: a minute later the boot leaves the session recording. -/
theorem boot_abandons_or_leaves_recording :
    (∃ u, exec (step 0) (blank true) (crashedRun.take 3) = some u ∧ firstPart ∈ u.files ∧
      firstPart.dir ∈ u.audioPartDirectories 0 ∧ (u.sessions firstSession).isSome = true ∧
      (u.boot 0 ⟨some 1, 90⟩).sessions firstSession = none ∧
      (u.boot 0 ⟨some 1, 90⟩).parts = []) ∧
    (∃ u, exec (step 0) (blank false)
        [.createSession firstSession none 0, .registerAudioSaveLocation 7,
          .openPart 7 firstSession 0, .addSegment firstSession 60] = some u ∧
      (u.boot 0 ⟨none, 120⟩).sessions firstSession = some ⟨true, none, 0⟩) :=
  ⟨exec_evaluates (by decide +kernel), exec_evaluates (by decide +kernel)⟩

end Store

end YapStack.Recording
