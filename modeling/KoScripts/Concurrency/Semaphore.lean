import KoScripts.Lib.Fifo
import KoScripts.Lib.Machine
import KoScripts.Lib.Ring
import KoScripts.Lib.Threads

/-! # The semaphore producers and consumers

`src/concurrency/semaphore.c`: a circular buffer with one entry kept free, and any number of
threads that run `produce` and `consume` on it. `semaphore1` counts the values there are to
consume, `semaphore2` the entries there are to fill. A step of the system is one `sem_wait`, lock,
`add_item` or `pop_item`, unlock or `sem_post` of one thread. The threads ignore what `add_item`
and `pop_item` return; the state keeps it as a history. -/

namespace KoScripts.Concurrency.Semaphore
open Lib

/-! ## The buffer -/

structure Buffer (size : Nat) where
  head : Nat
  tail : Nat
  buf : Vector Int size

variable {size : Nat}

def isFull (b : Buffer size) : Bool := b.head == (b.tail + 1) % size

def isEmpty (b : Buffer size) : Bool := b.head == b.tail

/-- The buffer and the result, `none` for a store outside the array. -/
def addItem (b : Buffer size) (i : Int) : Option (Buffer size × Bool) :=
  if isFull b then some (b, false)
  else if h : b.tail < size then
    some ({ b with buf := b.buf.set b.tail i, tail := (b.tail + 1) % size }, true)
  else none

/-- The buffer, `*r` and the result, `none` for a load outside the array. -/
def popItem (b : Buffer size) (r : Int) : Option (Buffer size × Int × Bool) :=
  if isEmpty b then some (b, r, false)
  else if h : b.head < size then
    some ({ b with head := (b.head + 1) % size }, b.buf[b.head], true)
  else none

/-- The buffer `main` sets up around the array it gets from `malloc`. -/
def Buffer.setUp (buf : Vector Int size) : Buffer size := { buf, head := 0, tail := 0 }

/-- The values held, the oldest first. -/
def Buffer.contents (b : Buffer size) : List Int := ring b.buf b.head (inUse size b.head b.tail)

structure Buffer.Indices (b : Buffer size) : Prop where
  head_lt : b.head < size
  tail_lt : b.tail < size

variable {b : Buffer size} {i r : Int}

theorem Buffer.Indices.setUp {buf : Vector Int size} (hs : 0 < size) :
    (Buffer.setUp buf).Indices := ⟨hs, hs⟩

theorem Buffer.contents_setUp {buf : Vector Int size} : (Buffer.setUp buf).contents = [] := by
  rw [contents, setUp, show inUse size 0 0 = 0 by simp [inUse], ring_zero]

theorem Buffer.Indices.length_contents (h : b.Indices) :
    b.contents.length = inUse size b.head b.tail := length_ring (Nat.zero_lt_of_lt h.head_lt)

theorem Buffer.Indices.isFull_iff (h : b.Indices) :
    isFull b = true ↔ b.contents.length = size - 1 := by
  rw [isFull, beq_iff_eq, h.length_contents, eq_succ_iff_inUse h.head_lt h.tail_lt]

theorem Buffer.Indices.isEmpty_iff (h : b.Indices) : isEmpty b = true ↔ b.contents = [] := by
  rw [isEmpty, beq_iff_eq, eq_iff_inUse h.head_lt h.tail_lt, ← h.length_contents,
    List.length_eq_zero_iff]

theorem Buffer.Indices.length_le (h : b.Indices) : b.contents.length ≤ size - 1 := by
  rw [h.length_contents]
  exact Nat.le_sub_one_of_lt (inUse_lt h.head_lt)

theorem addItem_spec (h : b.Indices) (hf : b.contents.length < size - 1) : ∃ b',
    addItem b i = some (b', true) ∧ b'.contents = b.contents ++ [i] ∧ b'.Indices := by
  have hnf : ¬isFull b = true := fun hc => by have := h.isFull_iff.mp hc; omega
  have hlen := h.length_contents
  obtain ⟨hh, ht⟩ := h
  refine ⟨{ b with buf := b.buf.set b.tail i, tail := (b.tail + 1) % size }, ?_, ?_, ?_⟩
  · rw [addItem, if_neg hnf, dif_pos ht]
  · simp only [Buffer.contents]
    rw [inUse_tail_succ hh ht (by omega), ring_set_tail hh ht]
  · exact ⟨hh, Nat.mod_lt _ (Nat.zero_lt_of_lt ht)⟩

theorem popItem_spec (h : b.Indices) (he : b.contents ≠ []) : ∃ b' x,
    popItem b r = some (b', x, true) ∧ b.contents = x :: b'.contents ∧ b'.Indices := by
  have hne : ¬isEmpty b = true := fun hc => he (h.isEmpty_iff.mp hc)
  have hu : inUse size b.head b.tail ≠ 0 := by
    rw [← h.length_contents]
    exact fun hc => he (List.length_eq_zero_iff.mp hc)
  obtain ⟨hh, ht⟩ := h
  refine ⟨{ b with head := (b.head + 1) % size }, b.buf[b.head], ?_, ring_head hh ht hu, ?_⟩
  · rw [popItem, if_neg hne, dif_pos hh]
  · exact ⟨Nat.mod_lt _ (Nat.zero_lt_of_lt hh), ht⟩

/-! ## The threads -/

/-- Where a thread of `produce` is in its loop. `r` is what `rand` gave. -/
inductive Produce
  | semWait
  | rand
  | lock (r : Nat)
  | add (r : Nat)
  | unlock
  | semPost

/-- Where a thread of `consume` is in its loop. `r` is what `pop_item` left in the variable. -/
inductive Consume
  | semWait
  | lock
  | pop
  | unlock (r : Int)
  | semPost (r : Int)

inductive Thread
  | produce (pc : Produce)
  | consume (i : Nat) (pc : Consume)
  | exited

inductive Role
  | producer
  | consumer

def Role.start : Role → Thread
  | .producer => .produce .semWait
  | .consumer => .consume 0 .semWait

structure State (size : Nat) where
  queue : Buffer size
  semaphore1 : Nat
  semaphore2 : Nat
  /-- The thread that holds `mutex1`. -/
  mutex1 : Option Nat
  threads : List Thread
  /-- The calls of `add_item`, with their results. -/
  added : List (Int × Bool)
  /-- The calls of `pop_item`: what they left in `*r`, and their results. -/
  popped : List (Int × Bool)
  /-- An access outside the array has happened. -/
  faulted : Bool

namespace State
variable (s : State size)

def goto (tid : Nat) (th : Thread) : State size := { s with threads := s.threads.set tid th }

/-- One step of a thread of `produce`, where `rand` would give `rnd`. -/
def produce (tid rnd : Nat) : Produce → Option (State size)
  | .semWait =>
    if 0 < s.semaphore2 then
      some ({ s with semaphore2 := s.semaphore2 - 1 }.goto tid (.produce .rand))
    else none
  | .rand => some (s.goto tid (.produce (.lock rnd)))
  | .lock r =>
    if s.mutex1 = none then some ({ s with mutex1 := some tid }.goto tid (.produce (.add r)))
    else none
  | .add r =>
    match addItem s.queue r with
    | some (queue, res) =>
      some ({ s with queue, added := s.added ++ [((r : Int), res)] }.goto tid (.produce .unlock))
    | none => some { s with faulted := true }
  | .unlock => some ({ s with mutex1 := none }.goto tid (.produce .semPost))
  | .semPost => some ({ s with semaphore1 := s.semaphore1 + 1 }.goto tid (.produce .semWait))

/-- One step of a thread of `consume`, in round `i` of its loop of 8. -/
def consume (tid i : Nat) : Consume → Option (State size)
  | .semWait =>
    if 0 < s.semaphore1 then
      some ({ s with semaphore1 := s.semaphore1 - 1 }.goto tid (.consume i .lock))
    else none
  | .lock =>
    if s.mutex1 = none then some ({ s with mutex1 := some tid }.goto tid (.consume i .pop))
    else none
  | .pop =>
    match popItem s.queue (-1) with
    | some (queue, r, res) =>
      some ({ s with queue, popped := s.popped ++ [(r, res)] }.goto tid (.consume i (.unlock r)))
    | none => some { s with faulted := true }
  | .unlock r => some ({ s with mutex1 := none }.goto tid (.consume i (.semPost r)))
  | .semPost _ =>
    some ({ s with semaphore2 := s.semaphore2 + 1 }.goto tid
      (if i + 1 < 8 then .consume (i + 1) .semWait else .exited))

end State

structure Label where
  tid : Nat
  rnd : Nat

/-- The threads of the given roles, on the buffer and the semaphores `main` sets up. -/
def producersConsumers (roles : List Role) (buf : Vector Int size) :
    Machine (State size) Label where
  init :=
    { queue := .setUp buf, semaphore1 := 0, semaphore2 := size - 1, mutex1 := none
      threads := roles.map Role.start, added := [], popped := [], faulted := false }
  exec s l :=
    if s.faulted then none
    else
      match s.threads[l.tid]? with
      | some (.produce pc) => s.produce l.tid l.rnd pc
      | some (.consume i pc) => s.consume l.tid i pc
      | some .exited | none => none

end KoScripts.Concurrency.Semaphore
