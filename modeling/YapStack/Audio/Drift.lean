import YapStack.Audio.Extraction
import YapStack.Foundation.Runs

set_option linter.unusedSectionVars false

namespace YapStack.Audio

open Live Runs AudioManager

/-- A session that records both sources into one file. -/
structure State where
  mic : AudioRingBuffer
  system : AudioRingBuffer
  positions : BufferPositions
  outputs : List (List ℚ)

inductive Event
  | writeMic (block : List ℚ)
  | writeSystem (block : List ℚ)
  | extract

def State.manager (s : State) : AudioManager := ⟨some s.mic, some s.system⟩

/-- A call that returns nothing hands back no positions, and the session goes on from the old
ones. -/
def step (sinc : Sinc) (mixConfig : Option MixConfig) (s : State) : Event → Option State
  | .writeMic block => some { s with mic := s.mic.write block }
  | .writeSystem block => some { s with system := s.system.write block }
  | .extract =>
    match s.manager.extractSince sinc s.positions .mixed mixConfig with
    | some (samples, _, newPositions) =>
      some { s with positions := newPositions, outputs := s.outputs ++ [samples] }
    | none => none

def start (mic system : AudioRingBuffer) : State where
  mic := mic
  system := system
  positions := AudioManager.bufferPositions ⟨some mic, some system⟩
  outputs := []

/-- What was written since the start, and the sum of what the calls rounded away. -/
structure Note where
  mic : List ℚ := []
  system : List ℚ := []
  leftovers : ℤ := 0

def AudioRingBuffer.unread (buf : AudioRingBuffer) (pos : ℕ) : ℕ :=
  (buf.ring.writePos - pos) / buf.channels

def note (n : Note) (s : State) : Event → Note
  | .writeMic block => { n with mic := n.mic ++ block }
  | .writeSystem block => { n with system := n.system ++ block }
  | .extract =>
    let rounded := leftover s.mic.sampleRate s.system.sampleRate
      (s.mic.unread s.positions.micPos) (s.system.unread s.positions.systemPos)
    { n with leftovers := n.leftovers + rounded }

def AudioRingBuffer.ready (buf : AudioRingBuffer) (pos : ℕ) : Bool :=
  decide (pos < buf.ring.writePos) && decide (buf.ring.writePos - pos ≤ buf.ring.capacity)

/-- Whole frames are written, and at a call both sources have samples and none overwritten. -/
def plain (s : State) : Event → Bool
  | .writeMic block => block.length % s.mic.channels == 0
  | .writeSystem block => block.length % s.system.channels == 0
  | .extract => s.mic.ready s.positions.micPos && s.system.ready s.positions.systemPos

abbrev session (sinc : Sinc) (mixConfig : Option MixConfig) :
    State × Note → Event → Option (State × Note) :=
  watch (step sinc mixConfig) note

variable {sinc : Sinc} {mixConfig : Option MixConfig}

/-- The frames of both sources that the calls have mixed, call by call. -/
structure Mixes (sinc : Sinc) (mixConfig : Option MixConfig) (mic system : AudioRingBuffer)
    (p : State × Note) (used : List (List ℚ × List ℚ)) : Prop where
  outputs : p.1.outputs =
    used.map fun frames => p.1.manager.resampleAndMix sinc frames.1 frames.2 mixConfig
  readsMic : Reads p.1.mic mic.ring.writePos p.2.mic (used.map Prod.fst).flatten
    p.1.positions.micPos
  readsSystem : Reads p.1.system system.ring.writePos p.2.system (used.map Prod.snd).flatten
    p.1.positions.systemPos
  micFormat : p.1.mic.sampleRate = mic.sampleRate ∧ p.1.mic.channels = mic.channels
  systemFormat : p.1.system.sampleRate = system.sampleRate ∧ p.1.system.channels = system.channels
  leftovers : ((used.map Prod.fst).flatten.length * system.sampleRate : ℤ) -
    (used.map Prod.snd).flatten.length * mic.sampleRate = p.2.leftovers

theorem resampleAndMix_congr {s t : State} (hmic : t.mic.sampleRate = s.mic.sampleRate)
    (hsystem : t.system.sampleRate = s.system.sampleRate) (m k : List ℚ) :
    t.manager.resampleAndMix sinc m k mixConfig = s.manager.resampleAndMix sinc m k mixConfig := by
  simp only [State.manager, resampleAndMix, hmic, hsystem]

theorem plain_ready {buf : AudioRingBuffer} {pos : ℕ} (h : buf.ready pos = true) :
    pos < buf.ring.writePos ∧ buf.ring.writePos - pos ≤ buf.ring.capacity := by
  simpa [AudioRingBuffer.ready] using h

/-- A reader of a ready buffer finds the frames that it has not taken yet. -/
theorem Reads.ready {buf : AudioRingBuffer} {begin pos : ℕ} {data taken : List ℚ}
    (h : Reads buf begin data taken pos) (hready : buf.ready pos = true) :
    ∃ rest, deinterleaveToMono data buf.channels = taken ++ rest ∧ rest ≠ [] ∧
      buf.monoSince pos = (rest, pos + rest.length * buf.channels) ∧
      buf.unread pos = rest.length := by
  obtain ⟨hnew, hfits⟩ := plain_ready hready
  obtain ⟨rest, hrest, hsince⟩ := h.monoSince hfits
  have hend : buf.ring.writePos = pos + rest.length * buf.channels := by
    have hpos : (buf.ring.snapshotSinceWithPos pos).2 = pos + rest.length * buf.channels :=
      congrArg Prod.snd hsince
    rwa [RingBuffer.snapshotSinceWithPos, if_neg (Nat.not_le_of_lt hnew)] at hpos
  refine ⟨rest, hrest, ?_, hsince, ?_⟩
  · rintro rfl
    simp only [List.length_nil, Nat.zero_mul] at hend
    omega
  · rw [AudioRingBuffer.unread, hend, Nat.add_sub_cancel_left,
      Nat.mul_div_cancel _ buf.channels_pos]

/-- What one call in mixed mode returns. -/
theorem extractSince_mixed {s : State} {m k : List ℚ} {micEnd systemEnd : ℕ}
    {samples : List ℚ} {rate : ℕ} {newPositions : BufferPositions}
    (hmic : s.mic.monoSince s.positions.micPos = (m, micEnd))
    (hsystem : s.system.monoSince s.positions.systemPos = (k, systemEnd))
    (hm : m ≠ []) (hk : k ≠ [])
    (h : s.manager.extractSince sinc s.positions .mixed mixConfig =
      some (samples, rate, newPositions)) :
    let keep := keepCounts s.mic.sampleRate s.system.sampleRate m.length k.length
    samples = s.manager.resampleAndMix sinc (m.take keep.1) (k.take keep.2) mixConfig ∧
      newPositions = ⟨micEnd - (m.length - keep.1) * s.mic.channels,
        systemEnd - (k.length - keep.2) * s.system.channels⟩ := by
  intro keep
  simp only [extractSince, State.manager, Option.map_some, Option.getD_some, hmic, hsystem,
    extracted, hm, hk, false_and, if_false, ne_eq, not_false_eq_true, true_and, if_true,
    Option.ite_none_left_eq_some, Option.some.injEq, Prod.mk.injEq] at h
  obtain ⟨-, rfl, -, rfl⟩ := h
  exact ⟨rfl, rfl⟩

theorem step_mixes {mic system : AudioRingBuffer} {p q : State × Note} {e : Event}
    {used : List (List ℚ × List ℚ)} (h : Mixes sinc mixConfig mic system p used)
    (hplain : plain p.1 e = true) (hstep : session sinc mixConfig p e = some q) :
    (∃ used', Mixes sinc mixConfig mic system q used') ∧
      p.1.positions.micPos ≤ q.1.positions.micPos ∧
      p.1.positions.systemPos ≤ q.1.positions.systemPos := by
  obtain ⟨s, n⟩ := p
  obtain ⟨t, k⟩ := q
  obtain ⟨hst, hn⟩ := (watch_eq_some note _ _ _).mp hstep
  simp only at hst hn hplain
  cases e with
  | writeMic block =>
    obtain rfl := Option.some.inj hst
    have hblock : s.mic.channels ∣ block.length :=
      Nat.dvd_of_mod_eq_zero (by simpa [plain] using hplain)
    subst hn
    refine ⟨⟨used, ?_⟩, Nat.le_refl _, Nat.le_refl _⟩
    exact ⟨h.outputs, h.readsMic.write hblock, h.readsSystem, h.micFormat, h.systemFormat, h.leftovers⟩
  | writeSystem block =>
    obtain rfl := Option.some.inj hst
    have hblock : s.system.channels ∣ block.length :=
      Nat.dvd_of_mod_eq_zero (by simpa [plain] using hplain)
    subst hn
    refine ⟨⟨used, ?_⟩, Nat.le_refl _, Nat.le_refl _⟩
    exact ⟨h.outputs, h.readsMic, h.readsSystem.write hblock, h.micFormat, h.systemFormat, h.leftovers⟩
  | extract =>
    simp only [plain, Bool.and_eq_true] at hplain
    obtain ⟨m, hm, hmne, hmsince, hmunread⟩ := h.readsMic.ready hplain.1
    obtain ⟨r, hr, hrne, hrsince, hrunread⟩ := h.readsSystem.ready hplain.2
    simp only [step] at hst
    split at hst
    · next samples rate newPositions hcall =>
      obtain rfl := Option.some.inj hst
      obtain ⟨hsamples, hpositions⟩ := extractSince_mixed hmsince hrsince hmne hrne hcall
      obtain ⟨hmkeep, hrkeep⟩ := keepCounts_le s.mic.sampleRate_pos s.system.sampleRate_pos
        m.length r.length
      have hleft := keepCounts_leftover s.mic.sampleRate_pos s.system.sampleRate_pos
        m.length r.length
      generalize keepCounts s.mic.sampleRate s.system.sampleRate m.length r.length = keep at *
      subst hn
      have hmic := h.readsMic.take hm hmkeep
      have hsystem := h.readsSystem.take hr hrkeep
      refine ⟨⟨used ++ [(m.take keep.1, r.take keep.2)], ?_, ?_, ?_, h.micFormat,
        h.systemFormat, ?_⟩, ?_, ?_⟩
      · have hold : s.outputs = used.map _ := h.outputs
        simp only [hsamples, hold, List.map_append, List.map_cons, List.map_nil]
        rfl
      · simpa only [hpositions, List.map_append, List.map_cons, List.map_nil,
          List.flatten_append, List.flatten_singleton, note] using hmic
      · simpa only [hpositions, List.map_append, List.map_cons, List.map_nil,
          List.flatten_append, List.flatten_singleton, note] using hsystem
      · have hold := h.leftovers
        simp only [note, hmunread, hrunread]
        rw [← hleft, ← hold, h.micFormat.1, h.systemFormat.1]
        simp only [List.map_append, List.map_cons, List.map_nil, List.flatten_append,
          List.flatten_singleton, List.length_append, List.length_take, Nat.min_eq_left hmkeep,
          Nat.min_eq_left hrkeep, Nat.cast_add, Int.add_mul]
        omega
      · simp only [hpositions]
        have hle : (m.length - keep.1) * s.mic.channels ≤ m.length * s.mic.channels :=
          Nat.mul_le_mul_right _ (Nat.sub_le _ _)
        omega
      · simp only [hpositions]
        have hle : (r.length - keep.2) * s.system.channels ≤ r.length * s.system.channels :=
          Nat.mul_le_mul_right _ (Nat.sub_le _ _)
        omega
    · simp at hst

/-- Each frame of a source is in exactly one call, in order, and the next call goes on behind the
last one. -/
structure UsedOnce (buf : AudioRingBuffer) (data : List ℚ) (used : List (List ℚ)) (pos : ℕ) :
    Prop where
  frames : used.flatten <+: deinterleaveToMono data buf.channels
  next : pos = buf.ring.writePos + used.flatten.length * buf.channels

/-- The time of the frames used. -/
def usedTime (buf : AudioRingBuffer) (used : List (List ℚ)) : ℚ :=
  used.flatten.length / buf.sampleRate

theorem start_mixes {mic system : AudioRingBuffer} {M S : List ℚ} (hM : Streams mic.ring M)
    (hS : Streams system.ring S) (hmic : mic.channels ∣ M.length)
    (hsystem : system.channels ∣ S.length) :
    Mixes sinc mixConfig mic system (start mic system, {}) [] where
  outputs := rfl
  readsMic := ⟨⟨M, by rwa [List.append_nil], hM.pos.symm⟩, hM.pos ▸ hmic, Nat.dvd_zero _,
    List.nil_prefix, by simp [start, bufferPositions, RingBuffer.samplesWritten]⟩
  readsSystem := ⟨⟨S, by rwa [List.append_nil], hS.pos.symm⟩, hS.pos ▸ hsystem, Nat.dvd_zero _,
    List.nil_prefix, by simp [start, bufferPositions, RingBuffer.samplesWritten]⟩
  micFormat := ⟨rfl, rfl⟩
  systemFormat := ⟨rfl, rfl⟩
  leftovers := by simp

theorem drift_lt_iff {a b : ℕ} (ha : 0 < a) (hb : 0 < b) (x y : ℕ) :
    |(x : ℚ) / a - y / b| < 1 / min a b ↔ |(x * b : ℤ) - y * a| < max a b := by
  have haq : (0 : ℚ) < a := Nat.cast_pos.mpr ha
  have hbq : (0 : ℚ) < b := Nat.cast_pos.mpr hb
  have hmin : (0 : ℚ) < min (a : ℚ) b := lt_min haq hbq
  have hprod : (a : ℚ) * b = min (a : ℚ) b * max (a : ℚ) b := (min_mul_max _ _).symm
  rw [Nat.cast_min, div_sub_div _ _ haq.ne' hbq.ne', abs_div, abs_of_pos (mul_pos haq hbq),
    div_lt_div_iff₀ (mul_pos haq hbq) hmin, one_mul, hprod, mul_comm (min (a : ℚ) b),
    mul_lt_mul_iff_left₀ hmin]
  rw [← Int.cast_lt (R := ℚ)]
  push_cast
  rw [mul_comm (a : ℚ)]

/-- In every run of calls in mixed mode every mono frame of each source is used once and in order,
and the positions never go back. The times used differ by less than a period of the slower rate
exactly if what the calls have rounded away adds up to less than the faster rate. -/
theorem mixed_extraction {mic system : AudioRingBuffer} {M S : List ℚ} (hM : Streams mic.ring M)
    (hS : Streams system.ring S) (hmic : mic.channels ∣ M.length)
    (hsystem : system.channels ∣ S.length) {es : List Event} {u : State} {n : Note}
    (hrun : exec (session sinc mixConfig) (start mic system, {}) es = some (u, n))
    (hplain : Along (session sinc mixConfig) (fun p e _ => plain p.1 e = true)
      (start mic system, {}) es) :
    (∃ used : List (List ℚ × List ℚ),
      u.outputs = used.map
        (fun frames => u.manager.resampleAndMix sinc frames.1 frames.2 mixConfig) ∧
      UsedOnce mic n.mic (used.map Prod.fst) u.positions.micPos ∧
      UsedOnce system n.system (used.map Prod.snd) u.positions.systemPos ∧
      (|usedTime mic (used.map Prod.fst) - usedTime system (used.map Prod.snd)| <
        1 / min mic.sampleRate system.sampleRate ↔
        |n.leftovers| < max mic.sampleRate system.sampleRate)) ∧
    Along (session sinc mixConfig) (fun p _ q =>
      p.1.positions.micPos ≤ q.1.positions.micPos ∧
      p.1.positions.systemPos ≤ q.1.positions.systemPos) (start mic system, {}) es := by
  have hstart : ∃ used, Mixes sinc mixConfig mic system (start mic system, {}) used :=
    ⟨[], start_mixes hM hS hmic hsystem⟩
  have hstep : ∀ p e q, (∃ used, Mixes sinc mixConfig mic system p used) → plain p.1 e = true →
      session sinc mixConfig p e = some q → ∃ used, Mixes sinc mixConfig mic system q used := by
    rintro p e q ⟨used, h⟩ hp hst
    exact (step_mixes h hp hst).1
  refine ⟨?_, ?_⟩
  · obtain ⟨used, hused⟩ := exec_invariant_along hstep hstart hplain hrun
    have hreadsMic := hused.readsMic
    have hreadsSystem := hused.readsSystem
    refine ⟨used, hused.outputs, ⟨?_, ?_⟩, ⟨?_, ?_⟩, ?_⟩
    · exact hused.micFormat.2 ▸ hreadsMic.taken_of
    · exact hused.micFormat.2 ▸ hreadsMic.pos_eq
    · exact hused.systemFormat.2 ▸ hreadsSystem.taken_of
    · exact hused.systemFormat.2 ▸ hreadsSystem.pos_eq
    · have hleft := hused.leftovers
      simp only at hleft
      rw [← hleft]
      exact drift_lt_iff mic.sampleRate_pos system.sampleRate_pos _ _
  · refine along_of_invariant hstep ?_ hstart hplain
    rintro p e q ⟨used, h⟩ hp hst
    exact (step_mixes h hp hst).2

def freshBuffer (sampleRate channels : ℕ) (hrate : 0 < sampleRate) (hch : 0 < channels) :
    AudioRingBuffer :=
  ⟨RingBuffer.new 32 (by decide), sampleRate, channels, hrate, hch⟩

/-- A microphone and a stereo system source of one rate. -/
def alignedRun : List Event :=
  [.writeMic [1 / 2, 1 / 4, 0], .writeSystem [1, 0, 0, 1], .extract,
    .writeSystem [1 / 2, 1 / 2], .extract]

theorem mixed_extraction_alignedRun :
    let mic := freshBuffer 16000 1 (by decide) (by decide)
    let system := freshBuffer 16000 2 (by decide) (by decide)
    ∃ u n, exec (session (fun _ _ _ => none) none) (start mic system, {}) alignedRun = some (u, n) ∧
      u.positions = ⟨3, 6⟩ ∧ ∃ used : List (List ℚ × List ℚ),
        |usedTime mic (used.map Prod.fst) - usedTime system (used.map Prod.snd)| <
          1 / min mic.sampleRate system.sampleRate := by
  intro mic system
  obtain ⟨⟨u, n⟩, hu, hpos, hleft⟩ : ∃ p, exec (session (fun _ _ _ => none) none)
      (start mic system, {}) alignedRun = some p ∧
      (p.1.positions = ⟨3, 6⟩ ∧ p.2.leftovers = 0) := exec_evaluates (by decide +kernel)
  have hplain : Along (session (fun _ _ _ => none) none) (fun p e _ => plain p.1 e = true)
      (start mic system, {}) alignedRun := by decide +kernel
  obtain ⟨⟨used, -, -, -, hdrift⟩, -⟩ := mixed_extraction (new_streams 32 (by decide))
    (new_streams 32 (by decide)) (Nat.dvd_zero _) (Nat.dvd_zero _) hu hplain
  refine ⟨u, n, hu, hpos, used, hdrift.mpr ?_⟩
  simp only at hleft
  rw [hleft]
  decide

/-- Thirteen calls, before each of which the microphone delivers one frame and the system two. -/
def driftingRun : List Event :=
  (List.replicate 13 [.writeMic [0], .writeSystem [0, 0], .extract]).flatten

/-- At 44.1 and 48 kHz each call keeps one frame of either source, and after thirteen calls the
system source is more than a sample period behind. -/
theorem mixed_extraction_drifts :
    let mic := freshBuffer 44100 1 (by decide) (by decide)
    let system := freshBuffer 48000 1 (by decide) (by decide)
    (Along (session (fun _ _ _ => none) none) (fun p e _ => plain p.1 e = true)
      (start mic system, {}) driftingRun) ∧
    (∃ p, exec (session (fun _ _ _ => none) none) (start mic system, {}) driftingRun = some p ∧
      p.1.positions = ⟨13, 13⟩) ∧
    ¬|(13 : ℚ) / mic.sampleRate - 13 / system.sampleRate| <
      1 / min mic.sampleRate system.sampleRate := by
  intro mic system
  refine ⟨by decide +kernel, exec_evaluates (by decide +kernel), ?_⟩
  simp only [mic, system, freshBuffer]
  norm_num

end YapStack.Audio
