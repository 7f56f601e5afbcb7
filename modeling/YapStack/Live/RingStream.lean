import Mathlib.Data.List.DropRight
import YapStack.Live.RingBuffer

set_option linter.unusedSectionVars false

namespace YapStack.Live

open Circular

variable {α : Type} [Inhabited α]

/-- The ring holds the end of this stream. -/
structure Streams (ring : RingBuffer α) (S : List α) : Prop where
  pos : ring.writePos = S.length
  keeps : Keeps ring.capacity 0 ring.buffer S

variable {ring : RingBuffer α} {S data : List α}

theorem new_streams (capacity : ℕ) (h : 0 < capacity) :
    Streams (RingBuffer.new capacity h : RingBuffer α) [] :=
  ⟨rfl, fun p _ hlt => absurd hlt (Nat.not_lt_zero p)⟩

/-- However the block is cut, its last samples go to the places of their positions. -/
theorem written_eq_push (ring : RingBuffer α) (data : List α) :
    ring.written data = push ring.capacity ring.buffer
      (ring.writePos + (data.length - ring.capacity)) (data.drop (data.length - ring.capacity)) := by
  obtain ⟨kept, hkept⟩ : ∃ kept, kept = data.drop (data.length - ring.capacity) := ⟨_, rfl⟩
  have hif : (if data.length > ring.capacity then data.drop (data.length - ring.capacity)
      else data) = kept := by
    rw [hkept]
    split
    · rfl
    · rw [Nat.sub_eq_zero_of_le (by omega), List.drop_zero]
  have hlen : kept.length = min data.length ring.capacity := by
    rw [hkept, List.length_drop]
    omega
  have hskip : data.length - kept.length = data.length - ring.capacity := by omega
  simp only [RingBuffer.written, hif, hskip]
  rw [← hkept]
  split
  · next hfit => exact store_eq_push rfl hfit
  · next hlong => exact store_wrapped ring.capacity_pos (by omega) (by omega)

theorem Streams.write (h : Streams ring S) (data : List α) :
    Streams (ring.write data) (S ++ data) := by
  by_cases hdata : data = []
  · rw [RingBuffer.write, if_pos hdata, hdata, List.append_nil]
    exact h
  · rw [RingBuffer.write, if_neg hdata]
    refine ⟨by rw [List.length_append, ← h.pos], ?_⟩
    -- What is skipped of a long block counts as written: all of the ring comes after it.
    have hsplit : S ++ data = (S ++ data.take (data.length - ring.capacity)) ++
        data.drop (data.length - ring.capacity) := by
      rw [List.append_assoc, List.take_append_drop]
    have hpos : ring.writePos + (data.length - ring.capacity) =
        (S ++ data.take (data.length - ring.capacity)).length := by
      rw [List.length_append, List.length_take, h.pos]
      omega
    simp only [written_eq_push, hpos]
    obtain hshort | hlong := Nat.lt_or_ge ring.capacity data.length |>.symm
    · have hzero : data.length - ring.capacity = 0 := by omega
      rw [hzero, List.take_zero, List.drop_zero, List.append_nil]
      exact h.keeps.push ring.capacity_pos ring.length_buffer data
    · rw [hsplit]
      apply Keeps.all
      · exact (Keeps.none _ _ _).push ring.capacity_pos ring.length_buffer _
      · simp only [List.length_append, List.length_drop]
        omega

theorem Streams.writes (h : Streams ring S) (blocks : List (List α)) :
    Streams (blocks.foldl RingBuffer.write ring) (S ++ blocks.flatten) := by
  induction blocks generalizing ring S with
  | nil => rwa [List.flatten_nil, List.append_nil]
  | cons block blocks ih =>
    rw [List.foldl_cons, List.flatten_cons, ← List.append_assoc]
    exact ih (h.write block)

theorem capacity_writes (ring : RingBuffer α) (blocks : List (List α)) :
    (blocks.foldl RingBuffer.write ring).capacity = ring.capacity := by
  induction blocks generalizing ring with
  | nil => rfl
  | cons block blocks ih =>
    rw [List.foldl_cons, ih, RingBuffer.write]
    split
    · rfl
    · rfl

theorem Streams.readAt (h : Streams ring S) {start n : ℕ} (hn : n ≤ ring.capacity)
    (hnear : S.length ≤ start + ring.capacity) (hend : start + n ≤ S.length) :
    ring.readAt start n = (S.drop start).take n := by
  by_cases hfit : start % ring.capacity + n ≤ ring.capacity
  · rw [RingBuffer.readAt, if_pos hfit]
    exact load_eq h.keeps rfl hfit hnear hend
  · rw [RingBuffer.readAt, if_neg hfit]
    exact load_wrapped h.keeps ring.capacity_pos hn (by omega) hnear hend

/-- The last samples of the stream, as far as the ring reaches. -/
theorem Streams.readLast (h : Streams ring S) {n : ℕ} (hn : n ≤ min S.length ring.capacity) :
    ring.readAt (S.length - n) n = S.rtake n := by
  rw [h.readAt (by omega) (by omega) (by omega), List.rtake, List.take_of_length_le]
  rw [List.length_drop]
  omega

theorem Streams.snapshotSamples (h : Streams ring S) (n : ℕ) :
    ring.snapshotSamples n = S.rtake (min n (min S.length ring.capacity)) := by
  rw [RingBuffer.snapshotSamples, h.pos]
  by_cases hpos : S.length = 0
  · rw [if_pos hpos, List.length_eq_zero_iff.mp hpos]
    simp
  · rw [if_neg hpos]
    by_cases hread : min n (min S.length ring.capacity) = 0
    · simp only [hread, if_true, List.rtake_zero]
    · simp only [if_neg hread]
      exact h.readLast (Nat.min_le_right _ _)

theorem Streams.snapshotAll (h : Streams ring S) :
    ring.snapshotAll = S.rtake (min S.length ring.capacity) := by
  rw [RingBuffer.snapshotAll, h.pos, h.snapshotSamples, Nat.min_self]

theorem Streams.snapshotSinceWithPos (h : Streams ring S) (p : ℕ) :
    ring.snapshotSinceWithPos p =
      if p < S.length then (S.rtake (min (S.length - p) ring.capacity), S.length) else ([], p) := by
  rw [RingBuffer.snapshotSinceWithPos, h.pos]
  by_cases hp : p < S.length
  · rw [if_neg (Nat.not_le_of_lt hp), if_pos hp]
    simp only
    rw [h.readLast (by omega)]
  · rw [if_pos (Nat.le_of_not_lt hp), if_neg hp]

/-- What a bounded read is, in terms of the stream. -/
structure RangeOf (capacity : ℕ) (S : List α) (fromPos untilPos : ℕ) (snap : RangeSnapshot α) :
    Prop where
  samples : snap.samples = (S.drop snap.startPos).take (snap.endPos - snap.startPos)
  exact_range : max fromPos (S.length - capacity) < min untilPos S.length →
    snap.startPos = max fromPos (S.length - capacity) ∧ snap.endPos = min untilPos S.length
  empty_range : min untilPos S.length ≤ max fromPos (S.length - capacity) →
    snap.samples = [] ∧ snap.endPos = snap.startPos
  overrun : snap.overrun = true ↔ fromPos < snap.startPos
  bounds : fromPos ≤ snap.startPos ∧ snap.startPos ≤ snap.endPos
  committed : snap.endPos ≤ S.length ∨ snap.startPos = snap.endPos

theorem Streams.snapshotRange (h : Streams ring S) (fromPos untilPos : ℕ) :
    RangeOf ring.capacity S fromPos untilPos (ring.snapshotRange fromPos untilPos) := by
  have hcap := ring.capacity_pos
  unfold RingBuffer.snapshotRange
  rw [h.pos]
  by_cases hend : min untilPos S.length ≤ fromPos
  · simp only [if_pos hend]
    refine ⟨by simp, fun hlt => by omega, fun _ => ⟨rfl, rfl⟩, by simp, by simp, .inr rfl⟩
  · simp only [if_neg hend]
    by_cases hstart : min untilPos S.length ≤ max fromPos (S.length - ring.capacity)
    · simp only [if_pos hstart]
      refine ⟨by simp, fun hlt => by omega, fun _ => ⟨rfl, rfl⟩, by simp, ?_, .inr rfl⟩
      simp only
      omega
    · simp only [if_neg hstart]
      refine ⟨h.readAt (by omega) (by omega) (by omega), fun _ => ⟨rfl, rfl⟩,
        fun hle => absurd hle hstart, by simp, ?_, .inl (Nat.min_le_right _ _)⟩
      simp only
      omega

/-- A reader that goes on where its last bounded read ended. -/
structure Follower (α : Type) where
  ring : RingBuffer α
  cursor : ℕ
  pieces : List (RangeSnapshot α)

inductive Call (α : Type)
  | write (data : List α)
  | snapshotRange (untilPos : ℕ)

def Call.samples : Call α → List α
  | .write data => data
  | .snapshotRange _ => []

def Follower.step (f : Follower α) : Call α → Follower α
  | .write data => { f with ring := f.ring.write data }
  | .snapshotRange untilPos =>
    let snap := f.ring.snapshotRange f.cursor untilPos
    { f with cursor := snap.endPos, pieces := f.pieces ++ [snap] }

/-- Each piece begins where the last one ended, or later if it says so. -/
def Tiles : ℕ → List (RangeSnapshot α) → ℕ → Prop
  | pos, [], stop => pos = stop
  | pos, snap :: snaps, stop =>
    pos ≤ snap.startPos ∧ (snap.overrun = true ↔ pos < snap.startPos) ∧
      snap.startPos ≤ snap.endPos ∧ Tiles snap.endPos snaps stop

/-- A piece holds the samples of its range. -/
def PieceOf (S : List α) (snap : RangeSnapshot α) : Prop :=
  snap.samples = (S.drop snap.startPos).take (snap.endPos - snap.startPos)

theorem Tiles.snoc {pos stop : ℕ} {snaps : List (RangeSnapshot α)} {snap : RangeSnapshot α}
    (h : Tiles pos snaps stop) (hover : snap.overrun = true ↔ stop < snap.startPos)
    (hstart : stop ≤ snap.startPos) (hend : snap.startPos ≤ snap.endPos) :
    Tiles pos (snaps ++ [snap]) snap.endPos := by
  induction snaps generalizing pos with
  | nil =>
    obtain rfl : pos = stop := h
    exact ⟨hstart, hover, hend, rfl⟩
  | cons s snaps ih =>
    obtain ⟨h1, h2, h3, hrest⟩ := h
    exact ⟨h1, h2, h3, ih hrest⟩

/-- What a follower has, at every moment of its run. -/
structure Follows (fromPos : ℕ) (S : List α) (f : Follower α) : Prop where
  streams : Streams f.ring S
  tiles : Tiles fromPos f.pieces f.cursor
  pieces : ∀ snap ∈ f.pieces, PieceOf S snap ∧ (snap.endPos ≤ S.length ∨ snap.startPos = snap.endPos)

theorem PieceOf.append {snap : RangeSnapshot α} (h : PieceOf S snap)
    (hbounds : snap.endPos ≤ S.length ∨ snap.startPos = snap.endPos) (data : List α) :
    PieceOf (S ++ data) snap := by
  unfold PieceOf at h ⊢
  obtain hend | hempty := hbounds
  · rw [h, List.drop_append, List.take_append_of_le_length]
    rw [List.length_drop]
    omega
  · rw [h, hempty, Nat.sub_self, List.take_zero, List.take_zero]

theorem Follows.step {fromPos : ℕ} {f : Follower α} (h : Follows fromPos S f) (call : Call α) :
    Follows fromPos (S ++ call.samples) (f.step call) := by
  cases call with
  | write data =>
    refine ⟨h.streams.write data, h.tiles, fun snap hsnap => ?_⟩
    obtain ⟨hpiece, hbounds⟩ := h.pieces snap hsnap
    refine ⟨hpiece.append hbounds data, hbounds.imp_left fun hend => ?_⟩
    rw [List.length_append]
    omega
  | snapshotRange untilPos =>
    have hrange := h.streams.snapshotRange f.cursor untilPos
    rw [Call.samples, List.append_nil]
    refine ⟨h.streams, h.tiles.snoc hrange.overrun hrange.bounds.1 hrange.bounds.2,
      fun snap hsnap => ?_⟩
    obtain hold | hnew := List.mem_append.mp hsnap
    · exact h.pieces snap hold
    · rw [List.mem_singleton.mp hnew]
      exact ⟨hrange.samples, hrange.committed⟩

theorem Follows.run {fromPos : ℕ} {f : Follower α} (h : Follows fromPos S f)
    (calls : List (Call α)) :
    Follows fromPos (S ++ calls.flatMap Call.samples) (calls.foldl Follower.step f) := by
  induction calls generalizing f S with
  | nil => rwa [List.flatMap_nil, List.append_nil]
  | cons call calls ih =>
    rw [List.foldl_cons, List.flatMap_cons, ← List.append_assoc]
    exact ih (h.step call)

/-- The ring as a stream that is read from its end. -/
theorem ring_refines_stream (capacity : ℕ) (hcap : 0 < capacity) (blocks : List (List α)) :
    let ring : RingBuffer α := blocks.foldl RingBuffer.write (RingBuffer.new capacity hcap)
    let S := blocks.flatten
    ring.samplesWritten = S.length ∧
      (∀ n, ring.snapshotSamples n = S.rtake (min n (min S.length capacity))) ∧
      ring.snapshotAll = S.rtake (min S.length capacity) ∧
      (∀ p, ring.snapshotSinceWithPos p =
        if p < S.length then (S.rtake (min (S.length - p) capacity), S.length) else ([], p)) ∧
      (∀ fromPos untilPos,
        RangeOf capacity S fromPos untilPos (ring.snapshotRange fromPos untilPos)) ∧
      ∀ fromPos (calls : List (Call α)),
        let f := calls.foldl Follower.step ⟨ring, fromPos, []⟩
        Tiles fromPos f.pieces f.cursor ∧
          ∀ snap ∈ f.pieces, PieceOf (S ++ calls.flatMap Call.samples) snap := by
  intro ring S
  have hstreams : Streams ring S := (new_streams capacity hcap).writes blocks
  have hcapacity : ring.capacity = capacity := capacity_writes _ blocks
  refine ⟨hstreams.pos, ?_, ?_, ?_, ?_, ?_⟩
  · exact fun n => hcapacity ▸ hstreams.snapshotSamples n
  · exact hcapacity ▸ hstreams.snapshotAll
  · exact fun p => hcapacity ▸ hstreams.snapshotSinceWithPos p
  · exact fun fromPos untilPos => hcapacity ▸ hstreams.snapshotRange fromPos untilPos
  · intro fromPos calls
    have hstart : Follows fromPos S (⟨ring, fromPos, []⟩ : Follower α) :=
      ⟨hstreams, rfl, fun snap hsnap => absurd hsnap List.not_mem_nil⟩
    have hrun := hstart.run calls
    exact ⟨hrun.tiles, fun snap hsnap => (hrun.pieces snap hsnap).1⟩

theorem ring_refines_stream_wrapped :
    let ring := ([[1, 2, 3], [], [4, 5, 6, 7, 8, 9], [10, 11]] : List (List ℕ)).foldl
      RingBuffer.write (RingBuffer.new 4 (by decide))
    ring.samplesWritten = 11 ∧ ring.snapshotSamples 3 = [9, 10, 11] ∧
      ring.snapshotSinceWithPos 2 = ([8, 9, 10, 11], 11) := by
  obtain ⟨hpos, hsamples, -, hsince, -⟩ := ring_refines_stream 4 (by decide)
    ([[1, 2, 3], [], [4, 5, 6, 7, 8, 9], [10, 11]] : List (List ℕ))
  exact ⟨hpos, hsamples 3, hsince 2⟩

/-- The positions of a ring, without its samples. -/
def RingBuffer.positions (ring : RingBuffer α) : Ring :=
  ⟨ring.capacity, ring.writePos⟩

theorem positions_write (ring : RingBuffer α) (data : List α) :
    (ring.write data).positions = ring.positions.write data.length := by
  rw [RingBuffer.write]
  split
  · next h =>
    rw [h]
    rfl
  · rfl

/-- The ring of positions reads the ranges that the ring of samples reads. -/
theorem positions_snapshotRange (ring : RingBuffer α) (fromPos untilPos : ℕ) :
    Live.snapshotRange ring.positions fromPos untilPos =
      ⟨⟨(ring.snapshotRange fromPos untilPos).startPos,
        (ring.snapshotRange fromPos untilPos).endPos⟩,
        (ring.snapshotRange fromPos untilPos).overrun⟩ := by
  unfold Live.snapshotRange RingBuffer.snapshotRange RingBuffer.positions
  by_cases hend : min untilPos ring.writePos ≤ fromPos
  · simp only [if_pos hend]
  · simp only [if_neg hend]
    split
    · rfl
    · rfl

theorem positions_snapshotSinceWithPos (ring : RingBuffer α) (sincePos : ℕ) :
    (Live.snapshotSinceWithPos ring.positions sincePos).2 =
      (ring.snapshotSinceWithPos sincePos).2 := by
  unfold Live.snapshotSinceWithPos RingBuffer.snapshotSinceWithPos RingBuffer.positions
  split
  · rfl
  · rfl

end YapStack.Live
