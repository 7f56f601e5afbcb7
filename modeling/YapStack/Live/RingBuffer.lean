import YapStack.Foundation.Circular
import YapStack.Live.Source

namespace YapStack.Live

open Circular

/-- `AudioRingBuffer`, with the samples it holds. -/
structure RingBuffer (α : Type) where
  buffer : List α
  writePos : ℕ
  capacity : ℕ
  capacity_pos : 0 < capacity
  length_buffer : buffer.length = capacity

structure RangeSnapshot (α : Type) where
  samples : List α
  startPos : ℕ
  endPos : ℕ
  overrun : Bool
  deriving DecidableEq

namespace RingBuffer

variable {α : Type} [Inhabited α]

def new (capacity : ℕ) (h : 0 < capacity) : RingBuffer α :=
  ⟨List.replicate capacity default, 0, capacity, h, List.length_replicate⟩

/-- The buffer after a block, copied in one part or in two. -/
def written (ring : RingBuffer α) (data : List α) : List α :=
  let originalLen := data.length
  let data :=
    if data.length > ring.capacity then data.drop (data.length - ring.capacity) else data
  let effectivePos := ring.writePos + (originalLen - data.length)
  let offset := effectivePos % ring.capacity
  if offset + data.length ≤ ring.capacity then store ring.buffer offset data
  else
    let first := ring.capacity - offset
    store (store ring.buffer offset (data.take first)) 0 (data.drop first)

theorem length_written (ring : RingBuffer α) (data : List α) :
    (ring.written data).length = ring.capacity := by
  simp only [written]
  split_ifs <;> simp only [length_store, ring.length_buffer]

def write (ring : RingBuffer α) (data : List α) : RingBuffer α :=
  if data = [] then ring
  else
    { ring with
      buffer := ring.written data
      writePos := ring.writePos + data.length
      length_buffer := ring.length_written data }

def samplesWritten (ring : RingBuffer α) : ℕ :=
  ring.writePos

/-- `toRead` samples from a position on, read in one part or in two. -/
def readAt (ring : RingBuffer α) (startPos toRead : ℕ) : List α :=
  let startOffset := startPos % ring.capacity
  if startOffset + toRead ≤ ring.capacity then load ring.buffer startOffset toRead
  else
    let first := ring.capacity - startOffset
    load ring.buffer startOffset first ++ load ring.buffer 0 (toRead - first)

def snapshotSamples (ring : RingBuffer α) (numSamples : ℕ) : List α :=
  if ring.writePos = 0 then []
  else
    let available := min ring.writePos ring.capacity
    let toRead := min numSamples available
    if toRead = 0 then [] else ring.readAt (ring.writePos - toRead) toRead

def snapshotAll (ring : RingBuffer α) : List α :=
  ring.snapshotSamples (min ring.writePos ring.capacity)

def snapshotSinceWithPos (ring : RingBuffer α) (sincePos : ℕ) : List α × ℕ :=
  if ring.writePos ≤ sincePos then ([], sincePos)
  else
    let totalNew := ring.writePos - sincePos
    let toRead := min totalNew ring.capacity
    (ring.readAt (ring.writePos - toRead) toRead, ring.writePos)

def snapshotSince (ring : RingBuffer α) (sincePos : ℕ) : List α :=
  (ring.snapshotSinceWithPos sincePos).1

def snapshotRange (ring : RingBuffer α) (fromPos untilPos : ℕ) : RangeSnapshot α :=
  let endPos := min untilPos ring.writePos
  if endPos ≤ fromPos then ⟨[], fromPos, fromPos, false⟩
  else
    let earliestPos := ring.writePos - ring.capacity
    let startPos := max fromPos earliestPos
    let overrun := decide (startPos > fromPos)
    if endPos ≤ startPos then ⟨[], startPos, startPos, overrun⟩
    else ⟨ring.readAt startPos (endPos - startPos), startPos, endPos, overrun⟩

end RingBuffer

end YapStack.Live
