import KoScripts.Lib.Fifo
import KoScripts.Lib.Slice

/-! # The task queue of the producers and consumers

`src/concurrency/MPMC.c`. Every call is made with `mutexQ` held, so a history of the queue is a
list of calls. The indices only ever grow: `is_full` reduces `tail + 1` modulo the size, `add_item`
and `pop_item` do not. The queue is a first-in first-out list of capacity `size - 1` as long as it
has taken in at most `size` tasks; the next one is written behind the array. -/

namespace KoScripts.Concurrency.Mpmc
open Lib

structure Task where
  seq : Int
deriving DecidableEq

structure TaskQueue (size : Nat) where
  t : Vector Task size
  head : Nat
  tail : Nat

variable {size : Nat}

def isFull (t : TaskQueue size) : Bool := t.head == (t.tail + 1) % size

def isEmpty (t : TaskQueue size) : Bool := t.head == t.tail

/-- The queue and the return code, `none` for a store outside the array. -/
def addItem (tq : TaskQueue size) (tk : Task) : Option (TaskQueue size × Int) :=
  if isFull tq then some (tq, -1)
  else if h : tq.tail < size then
    some ({ tq with t := tq.t.set tq.tail tk, tail := tq.tail + 1 }, 0)
  else none

/-- The queue, `*tk` and the return code, `none` for a load outside the array. -/
def popItem (tq : TaskQueue size) (tk : Task) : Option (TaskQueue size × Task × Int) :=
  if isEmpty tq then some (tq, tk, -1)
  else if h : tq.head < size then
    some ({ tq with head := tq.head + 1 }, { tk with seq := tq.t[tq.head].seq }, 0)
  else none

/-- The queue `main` sets up around the array it gets from `malloc`. -/
def TaskQueue.setUp (t : Vector Task size) : TaskQueue size := { t, head := 0, tail := 0 }

def TaskQueue.tasks (tq : TaskQueue size) : List Task := slice tq.t tq.head tq.tail

/-- What holds of the indices up to the first store outside the array. -/
structure TaskQueue.Indices (tq : TaskQueue size) : Prop where
  head_le : tq.head ≤ tq.tail
  tail_le : tq.tail ≤ size
  held_le : tq.tail - tq.head ≤ size - 1

variable {tq tq' : TaskQueue size}

theorem TaskQueue.Indices.setUp {t : Vector Task size} : (TaskQueue.setUp t).Indices :=
  ⟨Nat.le_refl 0, Nat.zero_le _, Nat.zero_le _⟩

theorem TaskQueue.Indices.length_tasks (h : tq.Indices) :
    tq.tasks.length = tq.tail - tq.head := length_slice h.tail_le

/-- `is_full` reduces `tail + 1` only: with `tail` still inside the array this is the wrap-around
of a queue whose `head` is at 0, with `tail` at its end that of one whose `head` is at 1. -/
theorem TaskQueue.Indices.isFull_iff (hs : 2 ≤ size) (h : tq.Indices) :
    isFull tq = true ↔ tq.tasks.length = size - 1 := by
  obtain ⟨h1, h2, h3⟩ := h
  rw [isFull, beq_iff_eq, length_tasks ⟨h1, h2, h3⟩]
  obtain hlt | hlt | hlt : tq.tail + 1 < size ∨ tq.tail + 1 = size ∨ tq.tail = size := by omega
  · rw [Nat.mod_eq_of_lt hlt]; omega
  · rw [hlt, Nat.mod_self]; omega
  · rw [hlt, Nat.add_mod_left, Nat.mod_eq_of_lt (by omega)]; omega

theorem TaskQueue.Indices.isEmpty_iff (h : tq.Indices) : isEmpty tq = true ↔ tq.tasks = [] := by
  obtain ⟨h1, h2, h3⟩ := h
  rw [isEmpty, beq_iff_eq, ← List.length_eq_zero_iff, length_tasks ⟨h1, h2, h3⟩]
  omega

theorem addItem_full (tk : Task) (hs : 2 ≤ size) (h : tq.Indices)
    (hf : tq.tasks.length = size - 1) :
    addItem tq tk = some (tq, -1) := if_pos ((h.isFull_iff hs).mpr hf)

/-- A queue that is not full takes the task in, unless its `tail` has left the array. -/
theorem addItem_spec (tk : Task) (hs : 2 ≤ size) (h : tq.Indices)
    (hf : tq.tasks.length < size - 1) (ht : tq.tail < size) : ∃ tq', addItem tq tk = some (tq', 0) ∧
      tq'.tasks = tq.tasks ++ [tk] ∧ tq'.tail = tq.tail + 1 ∧ tq'.Indices := by
  have hnf : ¬isFull tq = true := fun hc => by have := (h.isFull_iff hs).mp hc; omega
  have hlen := h.length_tasks
  obtain ⟨h1, h2, h3⟩ := h
  refine ⟨{ tq with t := tq.t.set tq.tail tk, tail := tq.tail + 1 }, ?_, ?_, rfl, ?_⟩
  · rw [addItem, if_neg hnf, dif_pos ht]
  · exact slice_set_end h1 ht
  · exact ⟨Nat.le_succ_of_le h1, ht, by simp only; omega⟩

theorem popItem_empty (tk : Task) (h : tq.Indices) (he : tq.tasks = []) :
    popItem tq tk = some (tq, tk, -1) := if_pos (h.isEmpty_iff.mpr he)

theorem popItem_spec (tk : Task) (h : tq.Indices) (he : tq.tasks ≠ []) : ∃ tq' x,
    popItem tq tk = some (tq', x, 0) ∧ tq.tasks = x :: tq'.tasks ∧ tq'.tail = tq.tail ∧
      tq'.Indices := by
  have hne : ¬isEmpty tq = true := fun hc => he (h.isEmpty_iff.mp hc)
  have hlt : tq.head < tq.tail := by
    have hh : tq.head ≠ tq.tail := fun hc => hne (beq_iff_eq.mpr hc)
    exact Nat.lt_of_le_of_ne h.head_le hh
  obtain ⟨h1, h2, h3⟩ := h
  refine ⟨{ tq with head := tq.head + 1 }, tq.t[tq.head], ?_, ?_, rfl, ?_⟩
  · rw [popItem, if_neg hne, dif_pos (by omega)]
  · rw [TaskQueue.tasks, TaskQueue.tasks, ← slice_append_slice (Nat.le_succ _) hlt,
      slice_succ (by omega)]
    rfl
  · exact ⟨hlt, h2, by simp only; omega⟩

end KoScripts.Concurrency.Mpmc
