import KoScripts.Concurrency.Mpmc
import KoScripts.Lib.Monitor

/-! # No lost wakeup among the producers and consumers

The threads of `src/concurrency/MPMC.c`: `produce_task` waits on `condP` while the queue is full
and signals `condQ`, `consume_task` waits on `condQ` while it is empty and signals `condP`. What
they wait for depends on the two indices only, so the array is left out. -/

namespace KoScripts.Concurrency.Mpmc
open Lib Lib.Monitor

/-- A task queue without its array. -/
structure Cursors where
  head : Nat
  tail : Nat

variable {size : Nat}

def TaskQueue.toCursors (tq : TaskQueue size) : Cursors := ⟨tq.head, tq.tail⟩

namespace Cursors
variable (size : Nat) (q : Cursors)

def isFull : Bool := q.head == (q.tail + 1) % size

def isEmpty : Bool := q.head == q.tail

def addItem : Cursors × Int := if q.isFull size then (q, -1) else ({ q with tail := q.tail + 1 }, 0)

def popItem : Cursors × Int := if q.isEmpty then (q, -1) else ({ q with head := q.head + 1 }, 0)

def occupancy : Nat := q.tail - q.head

end Cursors

/-- Where `add_item` does not fault, its indices and its return code do not depend on the array. -/
theorem toCursors_addItem {tq tq' : TaskQueue size} {tk : Task} {r : Int}
    (h : addItem tq tk = some (tq', r)) : tq.toCursors.addItem size = (tq'.toCursors, r) := by
  unfold addItem at h
  split at h
  · next hf => cases h; exact if_pos hf
  · next hf =>
    split at h
    · cases h; exact if_neg hf
    · cases h

theorem toCursors_popItem {tq tq' : TaskQueue size} {tk tk' : Task} {r : Int}
    (h : popItem tq tk = some (tq', tk', r)) : tq.toCursors.popItem = (tq'.toCursors, r) := by
  unfold popItem at h
  split at h
  · next he => cases h; exact if_pos he
  · next he =>
    split at h
    · cases h; exact if_neg he
    · cases h

/-- The loop of 25 rounds of `produce_task`. -/
def produceTask (size : Nat) : Monitor.Task Cursors where
  mustWait q := q.isFull size
  call q := ((q.addItem size).1, (q.addItem size).2 == 0)
  again i := i < 25

def consumeTask : Monitor.Task Cursors where
  mustWait q := q.isEmpty
  call q := (q.popItem.1, q.popItem.2 == 0)
  again _ := true

/-- The producers wait on `condP`, the consumers on `condQ`. -/
def tasks (size : Nat) : Side → Monitor.Task Cursors
  | .put => produceTask size
  | .take => consumeTask

/-- Any number of producers and consumers on an empty queue. -/
def mpmc (size : Nat) (sides : List Side) : Machine (State Cursors) Label :=
  monitor (tasks size) ⟨0, 0⟩ sides

/-- What a side waits for: free entries, or tasks. -/
def units (size : Nat) : Side → Cursors → Int
  | .put, q => (size - 1 : Nat) - (q.tail - q.head)
  | .take, q => q.tail - q.head

theorem Cursors.le_occupancy_of_isFull {q : Cursors} (hq : q.head ≤ q.tail)
    (h : q.isFull size = true) : q.head + (size - 1) ≤ q.tail := by
  have hmod := Nat.div_add_mod (q.tail + 1) size
  rw [← beq_iff_eq.mp h] at hmod
  -- `tail + 1` is `head` and a multiple of the size, which is not 0.
  cases hk : (q.tail + 1) / size with
  | zero => rw [hk, Nat.mul_zero] at hmod; omega
  | succ k =>
    rw [hk] at hmod
    have : size ≤ size * (k + 1) := Nat.le_mul_of_pos_right _ (Nat.succ_pos k)
    omega

theorem tasks_exchange (size : Nat) :
    Exchanges (tasks size) (fun q => q.head ≤ q.tail) (units size) where
  wait {x q} hq h := by
    cases x with
    | put =>
      have := Cursors.le_occupancy_of_isFull hq h
      simp only [units]
      omega
    | take =>
      have heq : q.head = q.tail := beq_iff_eq.mp h
      simp only [units]
      omega
  call {x q} hq h := by
    cases x with
    | put =>
      have hadd : q.addItem size = ({ q with tail := q.tail + 1 }, 0) :=
        if_neg (Bool.eq_false_iff.mp h)
      refine ⟨{ q with tail := q.tail + 1 }, ?_, Nat.le_succ_of_le hq, ?_, ?_⟩
      · simp only [tasks, produceTask, hadd]
        rfl
      · simp only [units]
        omega
      · simp only [units, Side.other]
        omega
    | take =>
      have hpop : q.popItem = ({ q with head := q.head + 1 }, 0) :=
        if_neg (Bool.eq_false_iff.mp h)
      have hne : q.head ≠ q.tail := fun hc => Bool.eq_false_iff.mp h (beq_iff_eq.mpr hc)
      refine ⟨{ q with head := q.head + 1 }, ?_, Nat.lt_of_le_of_ne hq hne, ?_, ?_⟩
      · simp only [tasks, consumeTask, hpop]
        rfl
      · simp only [units]
        omega
      · simp only [units, Side.other]
        omega

/-- With the mutex free, a consumer sleeps unwoken only if the tasks in the queue are at most the
consumers that have been woken and not looked again, and a producer likewise with the free entries;
and a producer and a consumer never sleep both unless a thread has been woken. -/
theorem no_lost_wakeup (hs : 2 ≤ size) (sides : List Side) {s : State Cursors}
    (h : (mpmc size sides).Reach Machine.anyStep s) :
    (s.mutex = none → (∃ th ∈ s.threads, th.asleepOn .take = true) →
      s.data.occupancy ≤ s.threads.countP (Thread.wokenOn .take)) ∧
    (s.mutex = none → (∃ th ∈ s.threads, th.asleepOn .put = true) →
      size - 1 - s.data.occupancy ≤ s.threads.countP (Thread.wokenOn .put)) ∧
    ((∃ th ∈ s.threads, th.asleepOn .put = true) →
      (∃ th ∈ s.threads, th.asleepOn .take = true) → ∃ th ∈ s.threads, th.beenWoken = true) := by
  have hi := inv_of_reach (tasks_exchange size) (Nat.le_refl 0) h
  have hle : s.data.head ≤ s.data.tail := hi.valid
  refine ⟨?_, ?_, hi.exists_beenWoken ?_⟩
  · intro hm hx
    have hu := hi.units_le hm hx
    simp only [units] at hu
    rw [Cursors.occupancy]
    omega
  · intro hm hx
    have hu := hi.units_le hm hx
    simp only [units] at hu
    rw [Cursors.occupancy]
    omega
  · simp only [units]
    omega

/-- Two consumers go to sleep, then a producer adds a task and wakes the first of them. -/
def wakeRun : List Label := [
  .step 0 0, .step 0 0, .step 1 0, .step 1 0,
  .step 2 0, .step 2 0, .step 2 0, .step 2 0, .step 2 0]

theorem no_lost_wakeup_wakeRun :
    ∃ s : State Cursors, s.mutex = none ∧ s.data.occupancy = 1 ∧
      s.data.occupancy ≤ s.threads.countP (Thread.wokenOn .take) := by
  let M := mpmc 2 [.take, .take, .put]
  have hrun : (M.run M.init wakeRun).map (fun s => (s.mutex, s.data.occupancy,
      s.threads.any (Thread.asleepOn .take))) = some (none, 1, true) := by decide +kernel
  obtain ⟨s, hreach, hp⟩ := Machine.reach_of_run hrun
  simp only [Prod.mk.injEq, List.any_eq_true] at hp
  exact ⟨s, hp.1, hp.2.1, (no_lost_wakeup (by decide) _ hreach).1 hp.1 hp.2.2⟩

end KoScripts.Concurrency.Mpmc
