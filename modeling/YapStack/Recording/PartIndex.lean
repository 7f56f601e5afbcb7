import YapStack.Recording.CrashRecovery

namespace YapStack.Recording

open YapStack.Runs

/-- How the finalize of a part ends: without samples, or with the file in its format and its
row inserted or lost. -/
inductive Finalized
  | noSamples
  | part (format : Format) (inserted : Bool)
  deriving DecidableEq

/-- The steps that start and end recordings, and those that change the part rows. Ids are
random, so which of two rows with one key the dedup keeps is open. -/
inductive PartEvent
  | createAndStart (id : SessionId) (dir : ℕ)
  | readParts (id : SessionId)
  | startResumed (dir : ℕ)
  | finish (how : Finalized)
  | crash
  | boot (b : Boot)
  | mergePart (p : PartRow)
  | removePart (p : PartRow) (withFiles : Bool)
  | dedupAudioParts (p : PartRow)
  deriving DecidableEq

/-- `resuming` is what a resume has read of a session, and `active` the part it records. -/
structure Recorder extends Store where
  resuming : Option (SessionId × ℕ)
  active : Option (SessionId × ℕ × ℕ)

namespace Store

/-- `existingParts.length` -/
def partCount (s : Store) (id : SessionId) : ℕ := s.parts.countP (fun p => p.session = id)

/-- The file is one of the part `n` of the session. -/
def isFileOf (id : SessionId) (n : ℕ) (f : File) : Bool :=
  (parsePartFilename f.name).any (fun k => k.1 = id ∧ k.2.1 = n)

def ofSession (id : SessionId) (f : File) : Bool :=
  (parsePartFilename f.name).any (fun k => k.1 = id)

/-- Create the file, or truncate the one that is there. -/
def createWav (s : Store) (dir : ℕ) (id : SessionId) (n : ℕ) : Store :=
  s.addFile ⟨dir, partFilename id n .wav⟩

def toFormat (s : Store) (dir : ℕ) (id : SessionId) (n : ℕ) : Format → Store
  | .wav => s
  | .mp3 =>
    let t := s.addFile ⟨dir, partFilename id n .mp3⟩
    { t with files := t.files.filter (fun f => f ≠ ⟨dir, partFilename id n .wav⟩) }

def finalizePart (s : Store) (id : SessionId) (n dir : ℕ) : Finalized → Store
  | .noSamples => { s with files := s.files.filter (fun f => f ≠ ⟨dir, partFilename id n .wav⟩) }
  | .part fmt inserted =>
    let t := s.toFormat dir id n fmt
    if inserted then t.insertAudioPart ⟨id, n, ⟨dir, partFilename id n fmt⟩⟩ else t

end Store

namespace Recorder

open Store

def step (app : ℕ) (s : Recorder) : PartEvent → Option Recorder
  | .createAndStart id dir =>
    if s.active.isNone && (s.sessions id).isNone && s.parts.all (fun p => p.session ≠ id) &&
        s.files.all (fun f => !ofSession id f) then
      some { s with
        toStore := { s.toStore with
          sessions := Function.update s.sessions id (some ⟨true, none, 0⟩) }.createWav dir id 0
        active := some (id, 0, dir) }
    else none
  | .readParts id =>
    if s.active.isNone && (s.sessions id).any (fun r => !r.recording) && 0 < s.partCount id then
      some { s with resuming := some (id, s.partCount id) }
    else none
  | .startResumed dir =>
    if s.active.isNone then
      s.resuming.map (fun (id, n) =>
        { toStore := (s.toStore.createWav dir id n).updateSession id
            (fun r => { r with recording := true })
          resuming := none
          active := some (id, n, dir) })
    else none
  | .finish how =>
    s.active.map (fun (id, n, dir) =>
      { s with
        toStore := (s.toStore.finalizePart id n dir how).updateSession id
          (fun r => { r with recording := false })
        active := none })
  | .crash => some { s with resuming := none, active := none }
  | .boot b => some { toStore := s.toStore.boot app b, resuming := none, active := none }
  | .mergePart p => some { s with parts := s.parts ++ [p] }
  | .removePart p withFiles =>
    if p ∈ s.parts then
      some { s with
        parts := s.parts.erase p
        files := if withFiles then s.files.filter (fun f => !isFileOf p.session p.index f)
          else s.files }
    else none
  | .dedupAudioParts p =>
    if p ∈ s.parts ∧ 2 ≤ s.partRows p.session p.index then
      some { s with parts := s.parts.erase p }
    else none

/-- The part a start records. -/
def starts (s : Recorder) : PartEvent → Option (SessionId × ℕ)
  | .createAndStart id _ => some (id, 0)
  | .startResumed _ => s.resuming
  | _ => none

/-- A start records a part without a row and without a file. -/
def StartsFresh (s : Recorder) (e : PartEvent) (_ : Recorder) : Prop :=
  ∀ k ∈ s.starts e, s.hasPart k.1 k.2 = false ∧ ∀ f ∈ s.files, isFileOf k.1 k.2 f = false

instance (s : Recorder) (e : PartEvent) (t : Recorder) : Decidable (StartsFresh s e t) := by
  unfold StartsFresh
  infer_instance

/-- The condition: parts come and go at the end of the numbering only, and a resumed session
has a row for every file. -/
def KeepsNumbering (s : Recorder) (e : PartEvent) (_ : Recorder) : Prop :=
  match e with
  | .startResumed _ => ∀ k ∈ s.resuming, s.partCount k.1 = k.2 ∧
    ∀ f ∈ s.files, ∀ q ∈ parsePartFilename f.name, q.1 = k.1 → s.hasPart q.1 q.2.1 = true
  | .finish (.part _ _) => ∀ k ∈ s.active, s.partCount k.1 = k.2.1
  | .mergePart p => p.index = s.partCount p.session
  | .removePart p withFiles => p.index + 1 = s.partCount p.session ∧
    ∀ f ∈ s.files, ∀ q ∈ parsePartFilename f.name, q.1 = p.session →
      q.2.1 < p.index ∨ (withFiles = true ∧ q.2.1 = p.index)
  | _ => True

instance (s : Recorder) (e : PartEvent) (t : Recorder) : Decidable (KeepsNumbering s e t) := by
  unfold KeepsNumbering
  split <;> infer_instance

/-- The parts of every session are numbered from zero without a gap, each once, and a file is
that of one of them or of the next. -/
structure Numbered (s : Store) : Prop where
  rows : ∀ id n, s.partRows id n = if n < s.partCount id then 1 else 0
  files : ∀ f ∈ s.files, ∀ q ∈ parsePartFilename f.name, q.2.1 ≤ s.partCount q.1

variable {app : ℕ} {s t : Store} {id : SessionId} {n : ℕ}

theorem partCount_append (s : Store) (p : PartRow) (id : SessionId) :
    partCount { s with parts := s.parts ++ [p] } id =
      s.partCount id + if p.session = id then 1 else 0 := by
  simp [partCount, List.countP_append, List.countP_singleton]

theorem partRows_erase {p : PartRow} (hp : p ∈ s.parts) (id : SessionId) (n : ℕ) :
    partRows { s with parts := s.parts.erase p } id n +
      (if p.session = id ∧ p.index = n then 1 else 0) = s.partRows id n := by
  have hcount := (List.perm_cons_erase hp).countP_eq (fun p => p.session = id ∧ p.index = n)
  simp only [List.countP_cons, decide_eq_true_eq] at hcount
  exact hcount.symm

theorem partCount_erase {p : PartRow} (hp : p ∈ s.parts) (id : SessionId) :
    partCount { s with parts := s.parts.erase p } id + (if p.session = id then 1 else 0) =
      s.partCount id := by
  have hcount := (List.perm_cons_erase hp).countP_eq (fun p => p.session = id)
  simp only [List.countP_cons, decide_eq_true_eq] at hcount
  exact hcount.symm

namespace Numbered

theorem hasPart_iff (h : Numbered s) : s.hasPart id n = true ↔ n < s.partCount id := by
  rw [Store.hasPart_iff, h.rows]
  split <;> simp_all

theorem oneRow (h : Numbered s) : OneRowPerPart s := by
  intro id n
  rw [h.rows]
  split <;> omega

theorem of_parts (h : Numbered s) (hp : t.parts = s.parts) (hf : ∀ f ∈ t.files, f ∈ s.files) :
    Numbered t where
  rows id n := by
    unfold partRows partCount
    rw [hp]
    exact h.rows id n
  files f hf' q hq := by
    unfold partCount
    rw [hp]
    exact h.files f (hf f hf') q hq

theorem append (h : Numbered s) {p : PartRow} (hp : p.index = s.partCount p.session) :
    Numbered { s with parts := s.parts ++ [p] } where
  rows id n := by
    rw [partRows_append, partCount_append, h.rows]
    by_cases hs : p.session = id
    · subst hs
      simp only [true_and, if_true, hp]
      split <;> split <;> split <;> omega
    · simp [hs]
  files f hf q hq := by
    rw [partCount_append]
    have hle := h.files f hf q hq
    omega

theorem insertAudioPart (h : Numbered s) {p : PartRow} (hp : p.index = s.partCount p.session) :
    Numbered (s.insertAudioPart p) := by
  have hnone : s.hasPart p.session p.index = false := by
    rw [← Bool.not_eq_true, h.hasPart_iff]
    omega
  unfold Store.insertAudioPart
  rw [hnone, Bool.and_false, if_neg Bool.false_ne_true]
  exact h.append hp

theorem addFile (h : Numbered s) {dir : ℕ} {fmt : Format} (hn : n ≤ s.partCount id) :
    Numbered (s.addFile ⟨dir, partFilename id n fmt⟩) := by
  unfold Store.addFile
  split
  · exact h
  · refine ⟨h.rows, fun f hf q hq => ?_⟩
    rcases List.mem_append.mp hf with hold | hnew
    · exact h.files f hold q hq
    · obtain rfl := List.mem_singleton.mp hnew
      obtain rfl := eq_of_parse_partFilename hq
      exact hn

theorem erase (h : Numbered s) {p : PartRow} {files : List File} (hp : p ∈ s.parts)
    (hlast : p.index + 1 = s.partCount p.session) (hsub : ∀ f ∈ files, f ∈ s.files)
    (hbelow : ∀ f ∈ files, ∀ q ∈ parsePartFilename f.name, q.1 = p.session → q.2.1 < p.index) :
    Numbered { s with parts := s.parts.erase p, files := files } where
  rows id n := by
    let t := { s with parts := s.parts.erase p, files := files }
    have hr : t.partRows id n + (if p.session = id ∧ p.index = n then 1 else 0) = _ :=
      partRows_erase hp id n
    have hc : t.partCount id + (if p.session = id then 1 else 0) = s.partCount id :=
      partCount_erase hp id
    rw [h.rows id n] at hr
    change t.partRows id n = if n < t.partCount id then 1 else 0
    generalize t.partRows id n = rows at hr ⊢
    generalize t.partCount id = count at hc ⊢
    by_cases hs : p.session = id
    · rw [hs] at hlast
      simp only [hs, true_and, if_true] at hr hc
      split at hr <;> split at hr <;> split <;> omega
    · simp only [hs, false_and, if_false, Nat.add_zero] at hr hc
      subst hc
      exact hr
  files f hf q hq := by
    let t := { s with parts := s.parts.erase p, files := files }
    have hc : t.partCount q.1 + (if p.session = q.1 then 1 else 0) = s.partCount q.1 :=
      partCount_erase hp q.1
    have hold := h.files f (hsub f hf) q hq
    change q.2.1 ≤ t.partCount q.1
    by_cases hs : p.session = q.1
    · have hlt := hbelow f hf q hq hs.symm
      rw [if_pos hs] at hc
      rw [hs] at hlast
      omega
    · rw [if_neg hs] at hc
      omega

theorem reconcileFile (h : Numbered s) {f : File} (hf : f ∈ s.files) :
    Numbered (s.reconcileFile f) := by
  unfold Store.reconcileFile
  split
  · exact h
  · rename_i id n fmt hname
    split
    · exact h
    · rename_i hnone
      split
      · have hle : n ≤ s.partCount id := h.files f hf (id, n, fmt) hname
        rw [h.hasPart_iff] at hnone
        refine h.insertAudioPart ?_
        show n = s.partCount id
        omega
      · exact h

theorem foldl_reconcileFile (fs : List File) (h : Numbered s) (hf : ∀ f ∈ fs, f ∈ s.files) :
    Numbered (fs.foldl Store.reconcileFile s) := by
  induction fs generalizing s with
  | nil => exact h
  | cons f fs ih =>
    apply ih (h.reconcileFile (hf f List.mem_cons_self))
    intro g hg
    rw [(reconcileFile_recovers s f).files]
    exact hf g (List.mem_cons_of_mem f hg)

theorem boot (h : Numbered s) (b : Boot) : Numbered (s.boot app b) := by
  obtain ⟨hparts, -, hfiles, -, -⟩ := closeOrphanedRecordings_keeps s b
  have hclosed : Numbered (s.closeOrphanedRecordings b) :=
    h.of_parts hparts (fun f hf => hfiles ▸ hf)
  refine hclosed.foldl_reconcileFile _ (fun f hf => ?_)
  obtain ⟨d, -, hd⟩ := List.mem_flatMap.mp hf
  exact List.mem_of_mem_filter hd

theorem toFormat (h : Numbered s) {dir : ℕ} (fmt : Format) (hn : n ≤ s.partCount id) :
    Numbered (s.toFormat dir id n fmt) := by
  cases fmt with
  | wav => exact h
  | mp3 =>
    have hadd : Numbered (s.addFile ⟨dir, partFilename id n .mp3⟩) := h.addFile hn
    exact hadd.of_parts rfl (fun f hf => List.mem_of_mem_filter hf)

theorem finalizePart (h : Numbered s) {dir : ℕ} (how : Finalized)
    (hn : ∀ fmt ok, how = .part fmt ok → s.partCount id = n) :
    Numbered (s.finalizePart id n dir how) := by
  cases how with
  | noSamples => exact h.of_parts rfl (fun f hf => List.mem_of_mem_filter hf)
  | part fmt inserted =>
    have heq := hn fmt inserted rfl
    have hfmt : Numbered (s.toFormat dir id n fmt) := h.toFormat fmt (Nat.le_of_eq heq.symm)
    cases inserted with
    | false => exact hfmt
    | true =>
      refine hfmt.insertAudioPart ?_
      cases fmt with
      | wav => exact heq.symm
      | mp3 =>
        unfold Store.toFormat partCount
        rw [addFile_parts]
        exact heq.symm

end Numbered

theorem step_numbered {s t : Recorder} {e : PartEvent} (h : Numbered s.toStore)
    (hg : KeepsNumbering s e t) (ht : step app s e = some t) : Numbered t.toStore := by
  cases e with
  | createAndStart id dir =>
    simp only [step, Option.ite_none_right_eq_some, Option.some.injEq] at ht
    obtain ⟨-, rfl⟩ := ht
    have hnew : Numbered { s.toStore with
        sessions := Function.update s.sessions id (some ⟨true, none, 0⟩) } :=
      h.of_parts rfl (fun _ hf => hf)
    exact hnew.addFile (Nat.zero_le _)
  | readParts id =>
    simp only [step, Option.ite_none_right_eq_some, Option.some.injEq] at ht
    obtain ⟨-, rfl⟩ := ht
    exact h
  | startResumed dir =>
    simp only [step, Option.ite_none_right_eq_some] at ht
    obtain ⟨-, ht⟩ := ht
    obtain ⟨⟨id, n⟩, hres, rfl⟩ := Option.map_eq_some_iff.mp ht
    have hn : s.partCount id = n := (hg (id, n) hres).1
    have hwav : Numbered (s.toStore.createWav dir id n) := h.addFile (Nat.le_of_eq hn.symm)
    exact hwav.of_parts rfl (fun _ hf => hf)
  | finish how =>
    obtain ⟨⟨id, n, dir⟩, hact, rfl⟩ := Option.map_eq_some_iff.mp ht
    have hfin : Numbered (s.toStore.finalizePart id n dir how) := by
      refine h.finalizePart how (fun fmt ok he => ?_)
      subst he
      exact hg (id, n, dir) hact
    exact hfin.of_parts rfl (fun _ hf => hf)
  | crash =>
    obtain rfl := Option.some.inj ht
    exact h
  | boot b =>
    obtain rfl := Option.some.inj ht
    exact h.boot b
  | mergePart p =>
    obtain rfl := Option.some.inj ht
    exact h.append hg
  | removePart p withFiles =>
    simp only [step, Option.ite_none_right_eq_some, Option.some.injEq] at ht
    obtain ⟨hp, rfl⟩ := ht
    obtain ⟨hlast, hfiles⟩ := hg
    refine h.erase hp hlast (fun f hf => ?_) (fun f hf q hq hs => ?_)
    · split at hf
      · exact List.mem_of_mem_filter hf
      · exact hf
    · cases withFiles with
      | false => exact (hfiles f hf q hq hs).resolve_right (fun hc => Bool.false_ne_true hc.1)
      | true =>
        simp only [if_true, List.mem_filter, Bool.not_eq_true'] at hf
        obtain ⟨hf, hother⟩ := hf
        refine (hfiles f hf q hq hs).resolve_right (fun hc => ?_)
        have hsame : isFileOf p.session p.index f = true := by
          simp [isFileOf, Option.mem_def.mp hq, hs, hc.2]
        rw [hother] at hsame
        cases hsame
  | dedupAudioParts p =>
    simp only [step, Option.ite_none_right_eq_some, Option.some.injEq] at ht
    obtain ⟨⟨-, htwo⟩, -⟩ := ht
    have hone := h.oneRow p.session p.index
    omega

theorem step_startsFresh {s t : Recorder} {e : PartEvent} (h : Numbered s.toStore)
    (hg : KeepsNumbering s e t) (ht : step app s e = some t) : StartsFresh s e t := by
  cases e with
  | createAndStart id dir =>
    intro k hk
    obtain rfl := Option.some.inj hk
    simp only [step, Option.ite_none_right_eq_some, Bool.and_eq_true, List.all_eq_true,
      decide_eq_true_eq, Bool.not_eq_true'] at ht
    obtain ⟨⟨⟨-, hparts⟩, hfiles⟩, -⟩ := ht
    refine ⟨?_, fun f hf => ?_⟩
    · rw [← Bool.not_eq_true, hasPart, List.any_eq_true]
      rintro ⟨p, hp, hpart⟩
      exact hparts p hp (of_decide_eq_true hpart).1
    · have hnone := hfiles f hf
      unfold ofSession at hnone
      unfold isFileOf
      cases hq : parsePartFilename f.name with
      | none => rfl
      | some q =>
        rw [hq] at hnone
        simp only [Option.any_some, decide_eq_false_iff_not] at hnone ⊢
        exact fun hc => hnone hc.1
  | startResumed dir =>
    intro k hk
    obtain ⟨hn, hfiles⟩ := hg k hk
    refine ⟨?_, fun f hf => ?_⟩
    · rw [← Bool.not_eq_true, h.hasPart_iff]
      omega
    · rw [← Bool.not_eq_true]
      intro hfile
      obtain ⟨q, hq, hsame⟩ := Option.any_eq_true _ _ |>.mp hfile
      simp only [decide_eq_true_eq] at hsame
      have hrow := hfiles f hf q hq hsame.1
      rw [hsame.1, hsame.2, h.hasPart_iff] at hrow
      omega
  | _ => exact (fun _ h => by cases h)

/-- In a run that keeps the numbering every start records a part that has neither row nor
file, and no two parts of a session ever share an index. -/
theorem numbered_parts_start_fresh {s₀ : Recorder} {as : List PartEvent}
    (h₀ : Numbered s₀.toStore) (hg : Along (step app) KeepsNumbering s₀ as) :
    Along (step app) (fun s e t => StartsFresh s e t ∧ OneRowPerPart t.toStore) s₀ as := by
  let I := fun s : Recorder => Numbered s.toStore
  have hstep : ∀ s e t, I s → KeepsNumbering s e t → step app s e = some t → I t :=
    fun _ _ _ h hg ht => step_numbered h hg ht
  have hout : ∀ s e t, I s → KeepsNumbering s e t → step app s e = some t →
      StartsFresh s e t ∧ OneRowPerPart t.toStore :=
    fun _ _ _ h hg ht => ⟨step_startsFresh h hg ht, (step_numbered h hg ht).oneRow⟩
  exact along_of_invariant hstep hout h₀ hg

def idle (crr : Bool) : Recorder := ⟨blank crr, none, none⟩

theorem idle_numbered (crr : Bool) : Numbered (idle crr).toStore := ⟨fun _ _ => rfl, (fun _ h => by cases h)⟩

/-- A recording, a resume whose row is lost before a crash, the boot that recovers it, and a
third part. -/
def recoveredParts : List PartEvent :=
  [.createAndStart firstSession 7, .finish (.part .mp3 true), .readParts firstSession,
    .startResumed 7, .finish (.part .mp3 false), .crash, .boot ⟨some 1, 90⟩,
    .readParts firstSession, .startResumed 7, .finish (.part .wav true)]

theorem numbered_parts_start_fresh_recovered :
    (∃ u, exec (step 7) (idle true) recoveredParts = some u ∧
      u.parts.map PartRow.index = [0, 1, 2]) ∧
      Along (step 7) (fun s e t => StartsFresh s e t ∧ OneRowPerPart t.toStore) (idle true)
        recoveredParts :=
  ⟨exec_evaluates (by decide +kernel),
    numbered_parts_start_fresh (idle_numbered true) (by decide +kernel)⟩

/-- The row of the second part is lost, and the session is resumed again: the third recording
truncates the second one's file. -/
def resumedAfterLostRow : List PartEvent :=
  [.createAndStart firstSession 7, .finish (.part .wav true), .readParts firstSession,
    .startResumed 7, .finish (.part .wav false), .readParts firstSession, .startResumed 7]

theorem lost_row_reuses_index :
    (∃ u, exec (step 7) (idle true) resumedAfterLostRow = some u ∧
      u.active = some (firstSession, 1, 7)) ∧
      ¬ Along (step 7) StartsFresh (idle true) resumedAfterLostRow :=
  ⟨exec_evaluates (by decide +kernel), by decide +kernel⟩

/-- The first of two rows is removed, and the resume takes the index of the second. -/
example : ¬ Along (step 7) StartsFresh (idle true)
    [.createAndStart firstSession 7, .finish (.part .mp3 true), .readParts firstSession,
      .startResumed 7, .finish (.part .mp3 true),
      .removePart ⟨firstSession, 0, ⟨7, partFilename firstSession 0 .mp3⟩⟩ true,
      .readParts firstSession, .startResumed 7] := by
  decide +kernel

end Recorder

end YapStack.Recording
