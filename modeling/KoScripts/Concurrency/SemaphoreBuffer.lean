import KoScripts.Concurrency.Semaphore

/-! # The circular buffer is a bounded queue

Both indices of the buffer are reduced modulo its size, so that, unlike in `MPMC.c`, no history of
calls takes them out of the array. -/

namespace KoScripts.Concurrency.Semaphore
open Lib

variable {size : Nat} {b : Buffer size} {i r : Int}

def circularBuffer (size : Nat) : Queue (Buffer size) Int Bool where
  contents := Buffer.contents
  add := addItem
  pop := popItem
  done := true
  refused := false

theorem addItem_full (h : b.Indices) (hf : b.contents.length = size - 1) :
    addItem b i = some (b, false) := if_pos (h.isFull_iff.mpr hf)

theorem popItem_empty (h : b.Indices) (he : b.contents = []) :
    popItem b r = some (b, r, false) := if_pos (h.isEmpty_iff.mpr he)

theorem circularBuffer_keeps : (circularBuffer size).Keeps (size - 1) Buffer.Indices where
  length_le := Buffer.Indices.length_le
  addFull := addItem_full
  add := addItem_spec
  popEmpty := popItem_empty
  pop := popItem_spec

/-- Over every history of calls the buffer is a first-in first-out list of capacity `size - 1`,
with every index inside its array, and both of its own indices stay below `size`. -/
theorem circularBuffer_isFifo (hs : 1 ≤ size) (buf : Vector Int size) (calls : List (Call Int)) :
    (circularBuffer size).IsFifo (size - 1) (.setUp buf) calls ∧
      ∃ b, (circularBuffer size).after (.setUp buf) calls = some b ∧ b.Indices :=
  circularBuffer_keeps.isFifo (.setUp hs) calls

/-- The third value goes to the entry of the first, around the end of the array. -/
theorem circularBuffer_isFifo_wrapped :
    (circularBuffer 2).IsFifo 1 (.setUp #v[0, 0]) [.add 5, .add 6, .pop 0, .add 7, .pop 0, .add 8] ∧
      ∃ b, (circularBuffer 2).after (.setUp #v[0, 0])
        [.add 5, .add 6, .pop 0, .add 7, .pop 0, .add 8] = some b ∧ b.Indices :=
  circularBuffer_isFifo (by decide) #v[0, 0] [.add 5, .add 6, .pop 0, .add 7, .pop 0, .add 8]

end KoScripts.Concurrency.Semaphore
