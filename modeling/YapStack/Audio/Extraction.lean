import YapStack.Audio.Mixing
import YapStack.Live.Buffers
import YapStack.Live.RingStream

set_option linter.unusedSectionVars false

namespace YapStack.Audio

open Live
open Live.Buffers (CaptureSource)

structure AudioRingBuffer where
  ring : RingBuffer ℚ
  sampleRate : ℕ
  channels : ℕ
  sampleRate_pos : 0 < sampleRate
  channels_pos : 0 < channels

structure BufferPositions where
  micPos : ℕ
  systemPos : ℕ
  deriving DecidableEq

structure AudioManager where
  micBuffer : Option AudioRingBuffer
  systemBuffer : Option AudioRingBuffer

def AudioRingBuffer.write (buf : AudioRingBuffer) (data : List ℚ) : AudioRingBuffer :=
  { buf with ring := buf.ring.write data }

/-- The new samples of a buffer, mixed down, and where they end. -/
def AudioRingBuffer.monoSince (buf : AudioRingBuffer) (pos : ℕ) : List ℚ × ℕ :=
  let (snap, newPos) := buf.ring.snapshotSinceWithPos pos
  (deinterleaveToMono snap buf.channels, newPos)

namespace AudioManager

def activeSampleRate (manager : AudioManager) : ℕ :=
  ((manager.micBuffer.map (·.sampleRate)).orElse
    fun _ => manager.systemBuffer.map (·.sampleRate)).getD 16000

def bufferPositions (manager : AudioManager) : BufferPositions where
  micPos := (manager.micBuffer.map (·.ring.samplesWritten)).getD 0
  systemPos := (manager.systemBuffer.map (·.ring.samplesWritten)).getD 0

def resampleAndMix (manager : AudioManager) (sinc : Sinc) (micSamples systemSamples : List ℚ)
    (mixConfig : Option MixConfig) : List ℚ :=
  let config := mixConfig.getD {}
  match manager.micBuffer, manager.systemBuffer with
  | some micBuf, some sysBuf =>
    if micBuf.sampleRate ≠ sysBuf.sampleRate then
      match resample sinc systemSamples sysBuf.sampleRate micBuf.sampleRate with
      | some resampled => mixToMono micSamples resampled config
      | none => micSamples
    else mixToMono micSamples systemSamples config
  | _, _ => mixToMono micSamples systemSamples config

/-- How many frames of each source are kept: as many as the shorter time holds. -/
def keepCounts (micSr sysSr m s : ℕ) : ℕ × ℕ :=
  if micSr ≠ sysSr ∨ m ≠ s then
    let micTime : ℚ := m / micSr
    let sysTime : ℚ := s / sysSr
    let minTime := min micTime sysTime
    (min ⌊minTime * micSr⌋₊ m, min ⌊minTime * sysSr⌋₊ s)
  else (m, s)

def outputRate (manager : AudioManager) : CaptureSource → ℕ
  | .micOnly => (manager.micBuffer.map (·.sampleRate)).getD manager.activeSampleRate
  | .systemOnly => (manager.systemBuffer.map (·.sampleRate)).getD manager.activeSampleRate
  | .mixed =>
    match manager.micBuffer, manager.systemBuffer with
    | some micBuf, _ => micBuf.sampleRate
    | none, some sysBuf => sysBuf.sampleRate
    | none, none => manager.activeSampleRate

/-- The samples of a call and the positions after it. -/
def extracted (manager : AudioManager) (sinc : Sinc) (m s : List ℚ)
    (newPos : BufferPositions) (mixConfig : Option MixConfig) :
    CaptureSource → Option (List ℚ × BufferPositions)
  | .micOnly => if m = [] then none else some (m, newPos)
  | .systemOnly => if s = [] then none else some (s, newPos)
  | .mixed =>
    if m = [] ∧ s = [] then none
    else if m ≠ [] ∧ s ≠ [] then
      match manager.micBuffer, manager.systemBuffer with
      | some micBuf, some sysBuf =>
        let (micKeep, sysKeep) :=
          keepCounts micBuf.sampleRate sysBuf.sampleRate m.length s.length
        some (manager.resampleAndMix sinc (m.take micKeep) (s.take sysKeep) mixConfig,
          { micPos := newPos.micPos - (m.length - micKeep) * micBuf.channels
            systemPos := newPos.systemPos - (s.length - sysKeep) * sysBuf.channels })
      | _, _ => none
    else some (manager.resampleAndMix sinc m s mixConfig, newPos)

def extractSince (manager : AudioManager) (sinc : Sinc) (positions : BufferPositions)
    (source : CaptureSource) (mixConfig : Option MixConfig) :
    Option (List ℚ × ℕ × BufferPositions) :=
  let (m, micNewPos) :=
    (manager.micBuffer.map (·.monoSince positions.micPos)).getD ([], positions.micPos)
  let (s, sysNewPos) :=
    (manager.systemBuffer.map (·.monoSince positions.systemPos)).getD ([], positions.systemPos)
  match manager.extracted sinc m s ⟨micNewPos, sysNewPos⟩ mixConfig source with
  | some (samples, newPositions) =>
    if samples = [] then none else some (samples, manager.outputRate source, newPositions)
  | none => none

end AudioManager

open AudioManager

variable {a b m s : ℕ}

theorem floor_time (m a b : ℕ) : ⌊(m : ℚ) / b * a⌋₊ = m * a / b := by
  rw [div_mul_eq_mul_div, ← Nat.cast_mul, Nat.floor_div_eq_div]

theorem div_fits (h : m * b ≤ s * a) : m * b / a ≤ s := by
  apply Nat.div_le_of_le_mul
  rwa [Nat.mul_comm a]

/-- The source with the shorter time is kept whole, of the other one as many frames as fit. -/
theorem keepCounts_eq (ha : 0 < a) (hb : 0 < b) (m s : ℕ) :
    keepCounts a b m s = if m * b ≤ s * a then (m, m * b / a) else (s * a / b, s) := by
  have hle : (m : ℚ) / a ≤ s / b ↔ m * b ≤ s * a := by
    rw [div_le_div_iff₀ (Nat.cast_pos.mpr ha) (Nat.cast_pos.mpr hb)]
    exact_mod_cast Iff.rfl
  by_cases htrim : a ≠ b ∨ m ≠ s
  · rw [keepCounts, if_pos htrim]
    by_cases h : m * b ≤ s * a
    · simp only [if_pos h, min_eq_left (hle.mpr h), floor_time, Nat.mul_div_cancel m ha,
        Nat.min_self, Nat.min_eq_left (div_fits h)]
    · have hfit : s * a / b ≤ m := div_fits (Nat.le_of_not_le h)
      have hge : (s : ℚ) / b ≤ m / a := le_of_not_ge (fun hc => h (hle.mp hc))
      simp only [if_neg h, min_eq_right hge, floor_time, Nat.mul_div_cancel s hb, Nat.min_self,
        Nat.min_eq_left hfit]
  · obtain ⟨rfl, rfl⟩ : a = b ∧ m = s := by simpa using htrim
    rw [keepCounts, if_neg htrim, if_pos (Nat.le_refl _), Nat.mul_div_cancel m ha]

theorem keepCounts_le (ha : 0 < a) (hb : 0 < b) (m s : ℕ) :
    (keepCounts a b m s).1 ≤ m ∧ (keepCounts a b m s).2 ≤ s := by
  rw [keepCounts_eq ha hb]
  by_cases h : m * b ≤ s * a
  · rw [if_pos h]
    exact ⟨Nat.le_refl m, div_fits h⟩
  · rw [if_neg h]
    exact ⟨div_fits (Nat.le_of_not_le h), Nat.le_refl s⟩

/-- What a call rounds away, in units of the two sample periods multiplied. -/
def leftover (a b m s : ℕ) : ℤ :=
  if m * b ≤ s * a then (m * b % a : ℕ) else -(s * a % b : ℕ)

theorem keepCounts_leftover (ha : 0 < a) (hb : 0 < b) (m s : ℕ) :
    ((keepCounts a b m s).1 * b : ℤ) - (keepCounts a b m s).2 * a = leftover a b m s := by
  rw [keepCounts_eq ha hb, leftover]
  split
  · have hdiv := Nat.div_add_mod (m * b) a
    rw [Nat.mul_comm] at hdiv
    simp only
    rw [← Nat.cast_mul, ← Nat.cast_mul]
    omega
  · have hdiv := Nat.div_add_mod (s * a) b
    rw [Nat.mul_comm] at hdiv
    simp only
    rw [← Nat.cast_mul, ← Nat.cast_mul]
    omega

/-- A buffer that has been written in whole frames since the reader's first position, and the mono
frames that the reader has taken. -/
structure Reads (buf : AudioRingBuffer) (start : ℕ) (data taken : List ℚ) (pos : ℕ) : Prop where
  stream : ∃ old, Streams buf.ring (old ++ data) ∧ old.length = start
  whole_start : buf.channels ∣ start
  whole : buf.channels ∣ data.length
  taken_of : taken <+: deinterleaveToMono data buf.channels
  pos_eq : pos = start + taken.length * buf.channels

variable {buf : AudioRingBuffer} {start pos : ℕ} {data taken : List ℚ}

theorem Reads.write (h : Reads buf start data taken pos) {block : List ℚ}
    (hblock : buf.channels ∣ block.length) :
    Reads (buf.write block) start (data ++ block) taken pos := by
  obtain ⟨old, hstream, hold⟩ := h.stream
  refine ⟨⟨old, ?_, hold⟩, h.whole_start, ?_, ?_, h.pos_eq⟩
  · rw [← List.append_assoc]
    exact hstream.write block
  · rw [List.length_append]
    exact Nat.dvd_add h.whole hblock
  · simp only [AudioRingBuffer.write]
    rw [deinterleaveToMono_append buf.channels_pos h.whole]
    exact h.taken_of.trans (List.prefix_append _ _)

/-- The end of the written samples, and the frames that are not taken yet. -/
theorem Reads.monoSince (h : Reads buf start data taken pos)
    (hfits : buf.ring.writePos - pos ≤ buf.ring.capacity) :
    ∃ rest, deinterleaveToMono data buf.channels = taken ++ rest ∧
      buf.monoSince pos = (rest, pos + rest.length * buf.channels) := by
  obtain ⟨old, hstream, hold⟩ := h.stream
  obtain ⟨rest, hrest⟩ := h.taken_of
  have hlen : data.length = (taken.length + rest.length) * buf.channels := by
    have hall := congrArg List.length hrest
    rw [length_deinterleaveToMono buf.channels_pos, List.length_append] at hall
    rw [hall, Nat.div_mul_cancel h.whole]
  have hpos := h.pos_eq
  have htotal : (old ++ data).length = pos + rest.length * buf.channels := by
    rw [List.length_append, hlen, hold, hpos, Nat.add_mul]
    omega
  have hsnap : deinterleaveToMono ((old ++ data).drop pos) buf.channels = rest := by
    have hdrop : (old ++ data).drop pos = data.drop (taken.length * buf.channels) := by
      rw [hpos, ← hold, List.drop_append, List.drop_eq_nil_of_le (by omega), List.nil_append]
      congr 1
      omega
    rw [hdrop, deinterleaveToMono_drop buf.channels_pos, ← hrest, List.drop_left]
    rw [hlen]
    exact Nat.mul_le_mul_right _ (by omega)
  refine ⟨rest, hrest.symm, ?_⟩
  have hsince := hstream.snapshotSinceWithPos pos
  rw [hstream.pos] at hfits
  by_cases hnew : pos < (old ++ data).length
  · rw [if_pos hnew, Nat.min_eq_left hfits, List.rtake] at hsince
    simp only [AudioRingBuffer.monoSince, hsince]
    rw [Nat.sub_sub_self (Nat.le_of_lt hnew), hsnap, htotal]
  · have hnil : rest = [] := by
      have hzero : rest.length * buf.channels = 0 := by omega
      obtain h | h := Nat.mul_eq_zero.mp hzero
      · exact List.length_eq_zero_iff.mp h
      · exact absurd buf.channels_pos (by omega)
    rw [if_neg hnew] at hsince
    have hempty : deinterleaveToMono [] buf.channels = [] := by
      rw [← List.length_eq_zero_iff, length_deinterleaveToMono buf.channels_pos, List.length_nil,
        Nat.zero_div]
    simp only [AudioRingBuffer.monoSince, hsince, hnil, hempty, List.length_nil, Nat.zero_mul,
      Nat.add_zero]

theorem Reads.take (h : Reads buf start data taken pos) {rest : List ℚ}
    (hrest : deinterleaveToMono data buf.channels = taken ++ rest) {keep : ℕ}
    (hkeep : keep ≤ rest.length) :
    Reads buf start data (taken ++ rest.take keep)
      (pos + rest.length * buf.channels - (rest.length - keep) * buf.channels) := by
  refine ⟨h.stream, h.whole_start, h.whole, ?_, ?_⟩
  · rw [hrest]
    exact (List.prefix_append_right_inj taken).mpr (List.take_prefix keep rest)
  · rw [List.length_append, List.length_take, Nat.min_eq_left hkeep, h.pos_eq, Nat.sub_mul,
      Nat.add_mul]
    have hle : keep * buf.channels ≤ rest.length * buf.channels := Nat.mul_le_mul_right _ hkeep
    omega

end YapStack.Audio
