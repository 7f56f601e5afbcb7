import Mathlib.Algebra.Order.Floor.Semifield
import Mathlib.Data.Rat.Floor
import Mathlib.Data.List.DropRight

namespace YapStack.Audio

/-- The gains and samples are read as exact rationals. -/
structure MixConfig where
  micGain : ℚ := 1 / 2
  systemGain : ℚ := 1 / 2
  normalize : Bool := true

def peak (samples : List ℚ) : ℚ := (samples.map abs).foldl max 0

def normalizeInPlace (samples : List ℚ) : List ℚ :=
  if peak samples = 0 ∨ peak samples = 1 then samples
  else samples.map (· * (1 / peak samples))

def limitInPlace (samples : List ℚ) : List ℚ :=
  if peak samples ≤ 1 then samples else samples.map (· * (1 / peak samples))

/-- The shorter input counts as silent where it ends. -/
def mixToMono (mic system : List ℚ) (config : MixConfig) : List ℚ :=
  let out := (List.range (max mic.length system.length)).map fun i =>
    mic.getD i 0 * config.micGain + system.getD i 0 * config.systemGain
  if config.normalize then normalizeInPlace out else limitInPlace out

/-- `chunks_exact`: what is left over at the end is dropped. -/
def chunksExact (samples : List ℚ) (ch : ℕ) : List (List ℚ) :=
  (List.range (samples.length / ch)).map fun i => (samples.drop (i * ch)).take ch

def deinterleaveToMono (samples : List ℚ) (channels : ℕ) : List ℚ :=
  if channels ≤ 1 then samples
  else (chunksExact samples channels).map fun frame => frame.sum / channels

/-- The sinc resampler, which is not part of the repository, or its failure. -/
abbrev Sinc := List ℚ → ℕ → ℕ → Option (List ℚ)

def resample (sinc : Sinc) (samples : List ℚ) (fromRate toRate : ℕ) : Option (List ℚ) :=
  if fromRate = 0 ∨ toRate = 0 ∨ samples = [] ∨ fromRate = toRate then some samples
  else (sinc samples fromRate toRate).filter (fun output => !output.isEmpty)

variable {samples mic system : List ℚ}

theorem length_normalizeInPlace (samples : List ℚ) :
    (normalizeInPlace samples).length = samples.length := by
  rw [normalizeInPlace]
  split
  · rfl
  · rw [List.length_map]

theorem length_limitInPlace (samples : List ℚ) :
    (limitInPlace samples).length = samples.length := by
  rw [limitInPlace]
  split
  · rfl
  · rw [List.length_map]

theorem length_mixToMono (mic system : List ℚ) (config : MixConfig) :
    (mixToMono mic system config).length = max mic.length system.length := by
  simp only [mixToMono]
  split
  · rw [length_normalizeInPlace, List.length_map, List.length_range]
  · rw [length_limitInPlace, List.length_map, List.length_range]

variable {channels : ℕ}

theorem length_deinterleaveToMono (hch : 0 < channels) (samples : List ℚ) :
    (deinterleaveToMono samples channels).length = samples.length / channels := by
  by_cases h : channels ≤ 1
  · rw [deinterleaveToMono, if_pos h, show channels = 1 by omega, Nat.div_one]
  · rw [deinterleaveToMono, if_neg h, List.length_map, chunksExact, List.length_map,
      List.length_range]

theorem chunksExact_append (hch : 0 < channels) {front : List ℚ} (h : channels ∣ front.length)
    (back : List ℚ) : chunksExact (front ++ back) channels =
      chunksExact front channels ++ chunksExact back channels := by
  obtain ⟨n, hn⟩ := h
  have hfront : front.length / channels = n := by rw [hn, Nat.mul_div_cancel_left n hch]
  have hboth : (front ++ back).length / channels = n + back.length / channels := by
    rw [List.length_append, hn, Nat.mul_add_div hch]
  rw [chunksExact, chunksExact, chunksExact, hboth, hfront, List.range_add, List.map_append,
    List.map_map]
  congr 1
  · apply List.map_congr_left
    intro i hi
    have hle : (i + 1) * channels ≤ front.length := by
      rw [hn, Nat.mul_comm channels]
      exact Nat.mul_le_mul_right channels (List.mem_range.mp hi)
    rw [Nat.succ_mul] at hle
    rw [List.drop_append_of_le_length (by omega), List.take_append_of_le_length]
    rw [List.length_drop]
    omega
  · apply List.map_congr_left
    intro i _
    simp only [Function.comp_apply]
    rw [List.drop_append, List.drop_eq_nil_of_le, List.nil_append]
    · congr 2
      rw [hn, Nat.add_mul, Nat.mul_comm channels]
      omega
    · rw [hn, Nat.add_mul, Nat.mul_comm channels]
      omega

/-- Whole frames are mixed down one by one. -/
theorem deinterleaveToMono_append (hch : 0 < channels) {front : List ℚ}
    (h : channels ∣ front.length) (back : List ℚ) :
    deinterleaveToMono (front ++ back) channels =
      deinterleaveToMono front channels ++ deinterleaveToMono back channels := by
  by_cases hone : channels ≤ 1
  · simp only [deinterleaveToMono, if_pos hone]
  · simp only [deinterleaveToMono, if_neg hone, chunksExact_append hch h, List.map_append]

theorem deinterleaveToMono_drop (hch : 0 < channels) {k : ℕ}
    (hk : k * channels ≤ samples.length) :
    deinterleaveToMono (samples.drop (k * channels)) channels =
      (deinterleaveToMono samples channels).drop k := by
  have hlen : (samples.take (k * channels)).length = k * channels := by
    rw [List.length_take, Nat.min_eq_left hk]
  have hfront : channels ∣ (samples.take (k * channels)).length := ⟨k, by rw [hlen, Nat.mul_comm]⟩
  have happend := deinterleaveToMono_append hch hfront (samples.drop (k * channels))
  rw [List.take_append_drop] at happend
  have hk' : (deinterleaveToMono (samples.take (k * channels)) channels).length = k := by
    rw [length_deinterleaveToMono hch, hlen, Nat.mul_div_cancel k hch]
  rw [happend, List.drop_left' hk']

end YapStack.Audio
