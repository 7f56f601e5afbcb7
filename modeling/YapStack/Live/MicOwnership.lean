import YapStack.Live.Dispatch

set_option linter.unusedSectionVars false

namespace YapStack.Live

open Spans

/-- A closed dictation window, in positions of the mic ring. -/
structure MicWindow where
  start : Nat
  stop : Nat
  deriving DecidableEq

def MicWindow.overlaps (w : MicWindow) (start stop : Nat) : Bool :=
  decide (w.start < stop ∧ start < w.stop)

structure DictationOwnsMic where
  opened : Option Nat
  closed : List MicWindow

namespace DictationOwnsMic

def new : DictationOwnsMic := ⟨none, []⟩

def openAt (owns : DictationOwnsMic) (start : Nat) : DictationOwnsMic :=
  { owns with opened := some start }

def close (owns : DictationOwnsMic) (stop : Nat) : DictationOwnsMic :=
  match owns.opened with
  | none => owns
  | some start =>
    ⟨none, if start < stop then owns.closed ++ [⟨start, stop⟩] else owns.closed⟩

def pruneBefore (owns : DictationOwnsMic) (minPos : Nat) : DictationOwnsMic :=
  { owns with closed := owns.closed.dropWhile (fun w => decide (w.stop ≤ minPos)) }

def rebaseForMicBufferReplacement (owns : DictationOwnsMic) (newOpenStart : Nat) :
    DictationOwnsMic :=
  ⟨owns.opened.map (fun _ => newOpenStart), []⟩

def overlaps (owns : DictationOwnsMic) (start stop : Nat) : Bool :=
  owns.opened.any (fun o => decide (o < stop)) || owns.closed.any (fun w => w.overlaps start stop)

/-- Closed windows, then the open one, which has no end yet. -/
def iterAll (owns : DictationOwnsMic) : List (Nat × Option Nat) :=
  owns.closed.map (fun w => (w.start, some w.stop)) ++ (owns.opened.map (fun o => (o, none))).toList

end DictationOwnsMic

/-- `dropped` are the windows as they were before the rebase. -/
def earliestDictationStartInRange (rangeStart rangeEnd : Nat) (dropped : DictationOwnsMic) :
    Option Nat :=
  if rangeEnd ≤ rangeStart then none
  else
    ((dropped.closed.map MicWindow.start ++ dropped.opened.toList).filter
      (fun pos => decide (rangeStart ≤ pos ∧ pos < rangeEnd))).min?

/-- Mono frames of an extraction: the mic samples that each one mixes, or silence. -/
abbrev Mono := List (Option Span)

/-- The mono frames of raw samples from `base` on. -/
def monoFrames (channels base : Nat) : Nat → Mono
  | 0 => []
  | n + 1 => some ⟨base, base + channels⟩ :: monoFrames channels (base + channels) n

def zeroFrames (startFrame endFrame : Nat) (samples : Mono) : Mono :=
  samples.mapIdx (fun i frame => if startFrame ≤ i ∧ i < endFrame then none else frame)

def ceilDiv (a b : Nat) : Nat := (a + b - 1) / b

def muteWindow (channels oldMicPos : Nat) (samples : Mono) (window : Nat × Option Nat) : Mono :=
  let extractEndPos := oldMicPos + samples.length * channels
  let windowEnd := (window.2.map (fun e => min e extractEndPos)).getD extractEndPos
  if windowEnd ≤ oldMicPos ∨ extractEndPos ≤ window.1 then samples
  else
    zeroFrames ((max window.1 oldMicPos - oldMicPos) / channels)
      (min (ceilDiv (windowEnd - oldMicPos) channels) samples.length) samples

def muteDictationWindowInWavExtraction (samples : Mono) (channels oldMicPos : Nat)
    (owns : DictationOwnsMic) : Mono :=
  owns.iterAll.foldl (muteWindow channels oldMicPos) samples

/-- The samples of a window, which has no end while it is open. -/
def InWindow (window : Nat × Option Nat) (x : Nat) : Prop :=
  window.1 ≤ x ∧ ∀ e ∈ window.2, x < e

/-- Frame `i` still has what the extraction had there, or silence. -/
def PartOf (channels base : Nat) (samples : Mono) : Prop :=
  ∀ (i : Nat) (r : Span), samples[i]? = some (some r) →
    r = ⟨base + i * channels, base + (i + 1) * channels⟩

theorem monoFrames_partOf (channels base n : Nat) :
    PartOf channels base (monoFrames channels base n) := by
  induction n generalizing base with
  | zero => intro i r h; simp [monoFrames] at h
  | succ n ih =>
    intro i r h
    cases i with
    | zero =>
      simp only [monoFrames, List.getElem?_cons_zero, Option.some.injEq] at h
      rw [← h]
      simp
    | succ i =>
      simp only [monoFrames, List.getElem?_cons_succ] at h
      rw [ih (base + channels) i r h]
      have h1 : base + channels + i * channels = base + (i + 1) * channels := by ring
      have h2 : base + channels + (i + 1) * channels = base + (i + 1 + 1) * channels := by ring
      rw [h1, h2]

theorem length_monoFrames (channels base n : Nat) : (monoFrames channels base n).length = n := by
  induction n generalizing base with
  | zero => rfl
  | succ n ih => simp [monoFrames, ih]

theorem PartOf.append_silence {channels base : Nat} {samples : Mono}
    (h : PartOf channels base samples) (n : Nat) :
    PartOf channels base (samples ++ List.replicate n none) := by
  intro i r hr
  by_cases hi : i < samples.length
  · rw [List.getElem?_append_left hi] at hr
    exact h i r hr
  · rw [List.getElem?_append_right (by omega)] at hr
    have hmem := List.mem_of_getElem? hr
    have := List.eq_of_mem_replicate hmem
    contradiction

theorem getElem?_zeroFrames (startFrame endFrame : Nat) (samples : Mono) (i : Nat) {r : Span}
    (h : (zeroFrames startFrame endFrame samples)[i]? = some (some r)) :
    samples[i]? = some (some r) ∧ ¬ (startFrame ≤ i ∧ i < endFrame) := by
  unfold zeroFrames at h
  rw [List.getElem?_mapIdx] at h
  obtain ⟨frame, hframe, hr⟩ := Option.map_eq_some_iff.mp h
  split at hr
  · contradiction
  · next hout => exact ⟨hframe.trans (congrArg some hr), hout⟩

theorem length_muteWindow (channels oldMicPos : Nat) (samples : Mono)
    (window : Nat × Option Nat) :
    (muteWindow channels oldMicPos samples window).length = samples.length := by
  simp only [muteWindow]
  split
  · rfl
  · simp [zeroFrames]

/-- What is left after one window was muted was there before and is outside of the window. -/
theorem muteWindow_spec {channels oldMicPos : Nat} (hch : 0 < channels) {samples : Mono}
    (hpart : PartOf channels oldMicPos samples) (window : Nat × Option Nat) (i : Nat) {r : Span}
    (h : (muteWindow channels oldMicPos samples window)[i]? = some (some r)) :
    samples[i]? = some (some r) ∧ ∀ x ∈ r, ¬ InWindow window x := by
  simp only [muteWindow] at h
  have hsome : samples[i]? = some (some r) := by
    split at h
    · exact h
    · exact (getElem?_zeroFrames _ _ _ _ h).1
  refine ⟨hsome, fun x hx hwin => ?_⟩
  have hi : i < samples.length := (List.getElem?_eq_some_iff.mp hsome).1
  rw [hpart i r hsome, mem_iff] at hx
  dsimp only at hx
  have hle : (i + 1) * channels ≤ samples.length * channels := Nat.mul_le_mul_right _ hi
  have hend : x < (window.2.map (fun e => min e (oldMicPos + samples.length * channels))).getD
      (oldMicPos + samples.length * channels) := by
    cases hw : window.2 with
    | none => simp only [Option.map_none, Option.getD_none]; omega
    | some e =>
      have := hwin.2 e hw
      simp only [Option.map_some, Option.getD_some]
      omega
  generalize (window.2.map (fun e => min e (oldMicPos + samples.length * channels))).getD
      (oldMicPos + samples.length * channels) = windowEnd at h hend
  have hstart := hwin.1
  split at h
  · next hout => omega
  · refine (getElem?_zeroFrames _ _ _ _ h).2 ⟨?_, ?_⟩
    · rw [Nat.div_le_iff_le_mul_add_pred hch]
      have : (i + 1) * channels = i * channels + channels := Nat.succ_mul i channels
      rw [Nat.mul_comm channels i]
      omega
    · rw [lt_min_iff]
      refine ⟨?_, hi⟩
      unfold ceilDiv
      rw [Nat.lt_div_iff_mul_lt hch]
      omega

/-- Muting leaves nothing of any window in the samples. -/
theorem mute_spec {channels oldMicPos : Nat} (hch : 0 < channels)
    (windows : List (Nat × Option Nat)) {samples : Mono} (hpart : PartOf channels oldMicPos samples)
    (i : Nat) {r : Span}
    (h : (windows.foldl (muteWindow channels oldMicPos) samples)[i]? = some (some r)) :
    samples[i]? = some (some r) ∧ ∀ window ∈ windows, ∀ x ∈ r, ¬ InWindow window x := by
  induction windows generalizing samples with
  | nil => exact ⟨h, fun w hw => (List.not_mem_nil hw).elim⟩
  | cons w windows ih =>
    have hpart' : PartOf channels oldMicPos (muteWindow channels oldMicPos samples w) :=
      fun j q hq => hpart j q (muteWindow_spec hch hpart w j hq).1
    obtain ⟨hmid, hrest⟩ := ih hpart' h
    obtain ⟨hsome, hw⟩ := muteWindow_spec hch hpart w i hmid
    refine ⟨hsome, fun v hv => ?_⟩
    rcases List.mem_cons.mp hv with rfl | hv
    · exact hw
    · exact hrest v hv

/-- A rescue that stops at the earliest window start in its range reaches no window that
starts in the range. -/
theorem earliest_le {rangeStart rangeEnd : Nat} {dropped : DictationOwnsMic} {pos : Nat}
    (hpos : pos ∈ dropped.closed.map MicWindow.start ++ dropped.opened.toList)
    (hlow : rangeStart ≤ pos) (hhigh : pos < rangeEnd) :
    ∃ e, earliestDictationStartInRange rangeStart rangeEnd dropped = some e ∧ e ≤ pos := by
  have hmem : pos ∈ (dropped.closed.map MicWindow.start ++ dropped.opened.toList).filter
      (fun pos => decide (rangeStart ≤ pos ∧ pos < rangeEnd)) :=
    List.mem_filter.mpr ⟨hpos, decide_eq_true ⟨hlow, hhigh⟩⟩
  unfold earliestDictationStartInRange
  rw [if_neg (by omega)]
  cases hmin : ((dropped.closed.map MicWindow.start ++ dropped.opened.toList).filter
      (fun pos => decide (rangeStart ≤ pos ∧ pos < rangeEnd))).min? with
  | none =>
    rw [List.min?_eq_none_iff.mp hmin] at hmem
    exact (List.not_mem_nil hmem).elim
  | some e => exact ⟨e, rfl, (List.min?_eq_some_iff.mp hmin).2 pos hmem⟩

end YapStack.Live
