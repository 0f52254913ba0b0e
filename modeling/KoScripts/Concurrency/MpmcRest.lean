import KoScripts.Concurrency.MpmcExecute
import KoScripts.Concurrency.MpmcWakeup
import KoScripts.Lib.MonitorRest

/-! # Where the producers and consumers end

A task is executed behind the `unlock` of the consumer that took it, and whatever its number is,
`executeTask` uses `fn[s]` of a table of `s` entries; `add_item` stores to `t[size]` once it has
taken in `size` tasks. Such a step is the last of a run here. The threads never come to rest without
one: until then there is always one that can go on, and no consumer has taken a second task. -/

namespace KoScripts.Concurrency.Mpmc
open Lib Lib.Monitor

/-! ## The accesses outside of the arrays -/

variable {size : Nat}

namespace Cursors
variable (q : Cursors)

/-- `add_item` would store behind the array. -/
def addsOutside (size : Nat) : Bool := !q.isFull size && decide (size ≤ q.tail)

/-- `pop_item` would load from behind the array. -/
def popsOutside (size : Nat) : Bool := !q.isEmpty && decide (size ≤ q.head)

end Cursors

theorem addItem_eq_none_iff {tq : TaskQueue size} {tk : Task} :
    addItem tq tk = none ↔ tq.toCursors.addsOutside size = true := by
  have hfull : tq.toCursors.isFull size = isFull tq := rfl
  have htail : tq.toCursors.tail = tq.tail := rfl
  unfold addItem Cursors.addsOutside
  rw [hfull, htail]
  split
  · next hf => simp [hf]
  · next hf =>
    split
    · next hlt => simp [Nat.not_le.mpr hlt]
    · next hge => simp [hf, Nat.not_lt.mp hge]

theorem popItem_eq_none_iff {tq : TaskQueue size} {tk : Task} :
    popItem tq tk = none ↔ tq.toCursors.popsOutside size = true := by
  have hempty : tq.toCursors.isEmpty = isEmpty tq := rfl
  have hhead : tq.toCursors.head = tq.head := rfl
  unfold popItem Cursors.popsOutside
  rw [hempty, hhead]
  split
  · next he => simp [he]
  · next he =>
    split
    · next hlt => simp [Nat.not_le.mpr hlt]
    · next hge => simp [he, Nat.not_lt.mp hge]

/-- No task is executed within its table: where `executeTask` returns, it has used `fn[s]`. -/
theorem executeTask_uses {s : Nat} {t t' : Stack} {v : Int} {out : Option (Nat × Int)}
    (h : executeTask s t = some (v, out, t')) : s ∈ t'.used := by
  unfold executeTask at h
  simp only at h
  split at h
  · cases h
    exact List.mem_cons_self
  · obtain ⟨u, -, hu⟩ := Option.map_eq_some_iff.mp h
    cases hu
    exact List.mem_cons_self

/-! ## The process -/

/-- The thread uses memory outside of an array with its next step: in its call, or, a consumer that
comes from a round of its loop, in `executeTask`. -/
def usesOutside (size : Nat) (q : Cursors) (th : Thread) : Bool :=
  match th.side, th.pc with
  | .put, .call _ => q.addsOutside size
  | .take, .call _ => q.popsOutside size
  | .take, .lock => 0 < th.round
  | _, _ => false

inductive Process
  | running (s : State Cursors)
  /-- A thread has used memory outside of an array. -/
  | outside

/-- Any number of producers and consumers on an empty queue, up to the first access outside of an
array. -/
def process (size : Nat) (sides : List Side) : Machine Process Label where
  init := .running (mpmc size sides).init
  exec
    | .running s, .step tid wake =>
      if s.threads[tid]?.any (usesOutside size s.data) then some .outside
      else ((mpmc size sides).exec s (.step tid wake)).map .running
    | .running s, .spurious side tid => ((mpmc size sides).exec s (.spurious side tid)).map .running
    | .outside, _ => none

/-! ## Up to there -/

/-- The calls a side has made so far. -/
def count : Side → Cursors → Int
  | .put, q => q.tail
  | .take, q => q.head

variable {sides : List Side} {s t : State Cursors} {x y : Process} {a : Thread} {l : Label}
  {ls : List Label} {tid : Nat}

theorem tasks_rounds : Rounds (tasks size) (fun q => q.head ≤ q.tail) count 25 where
  pos := by omega
  put _ := rfl
  take _ := rfl
  call {x q q'} _ h hq := by
    cases x with
    | put =>
      have hadd : q.addItem size = ({ q with tail := q.tail + 1 }, 0) :=
        if_neg (Bool.eq_false_iff.mp h)
      simp only [tasks, produceTask, hadd] at hq
      cases hq
      exact ⟨rfl, rfl⟩
    | take =>
      have hpop : q.popItem = ({ q with head := q.head + 1 }, 0) :=
        if_neg (Bool.eq_false_iff.mp h)
      simp only [tasks, consumeTask, hpop] at hq
      cases hq
      exact ⟨rfl, rfl⟩
  le h := Int.ofNat_le.mpr h

/-- A consumer is in its first round, or about to execute the task that it took there. -/
def Thread.First (th : Thread) : Prop :=
  th.side = .take → th.round = 0 ∨ th.round = 1 ∧ th.pc = .lock

structure Within (size : Nat) (s : State Cursors) : Prop where
  first : ∀ th ∈ s.threads, Thread.First th
  tail_le : s.data.tail ≤ size

theorem Within.set {m : Option Nat} {b : Thread} (h : Within size s) (hb : Thread.First b) :
    Within size ({ s with mutex := m }.goto tid b) where
  first th hth := by
    rcases List.mem_or_eq_of_mem_set hth with hth | rfl
    · exact h.first th hth
    · exact hb
  tail_le := h.tail_le

/-- A consumer that goes on is in its first round. -/
theorem Thread.First.round_eq (h : Thread.First a) (hin : usesOutside size s.data a = false)
    (hx : a.side = .take) : a.round = 0 := by
  rcases h hx with hzero | ⟨hone, hpc⟩
  · exact hzero
  · simp [usesOutside, hx, hone, hpc] at hin

theorem Within.woken {m : Option Nat} {th : Thread} {i : Nat} (h : Within size s)
    (hth : s.threads[i]? = some th) (hpc : th.pc = .asleep) :
    Within size ({ s with mutex := m }.goto i { th with pc := .woken }) := by
  refine h.set fun hx => .inl ?_
  rcases h.first th (List.mem_of_getElem? hth) hx with hzero | ⟨-, hlock⟩
  · exact hzero
  · cases hpc.symm.trans hlock

theorem Within.step (h : Within size s) (ha : s.threads[tid]? = some a)
    (hin : usesOutside size s.data a = false) (hst : Stepped (tasks size) s tid a t) :
    Within size t := by
  have hfirst : a.side = .take → a.round = 0 :=
    (h.first a (List.mem_of_getElem? ha)).round_eq hin
  cases hst with
  | quiet => exact h.set fun hx => .inl (hfirst hx)
  | @call w d hpc hgo hd =>
    have hthreads : Within size (s.goto tid { a with pc := .signal w }) :=
      h.set (m := s.mutex) fun hx => .inl (hfirst hx)
    refine ⟨hthreads.first, ?_⟩
    show d.tail ≤ size
    cases hx : a.side with
    | put =>
      rw [hx] at hgo hd
      have hfull : s.data.isFull size = false := hgo
      have hadd : s.data.addItem size = ({ s.data with tail := s.data.tail + 1 }, 0) :=
        if_neg (Bool.eq_false_iff.mp hfull)
      simp only [tasks, produceTask, hadd] at hd
      simp only [usesOutside, hx, hpc, Cursors.addsOutside, hfull] at hin
      obtain ⟨rfl, -⟩ := Prod.mk.inj hd
      exact Nat.lt_of_not_le fun hle => by simp [hle] at hin
    | take =>
      rw [hx] at hgo hd
      have hpop : s.data.popItem = ({ s.data with head := s.data.head + 1 }, 0) :=
        if_neg (Bool.eq_false_iff.mp hgo)
      simp only [tasks, consumeTask, hpop] at hd
      obtain ⟨rfl, -⟩ := Prod.mk.inj hd
      exact h.tail_le
  | signal => exact h.set (m := s.mutex) fun hx => .inl (hfirst hx)
  | wake hpc hth hasleep hne =>
    exact (h.woken (m := s.mutex) hth hasleep).set (m := s.mutex) fun hx => .inl (hfirst hx)
  | unlock hpc =>
    refine h.set fun hx => ?_
    have hx : a.side = .take := hx
    refine .inr ⟨congrArg (· + 1) (hfirst hx), ?_⟩
    rw [hx]
    rfl

/-- What holds up to the first access outside of an array. -/
structure Upto (size : Nat) (sides : List Side) (s : State Cursors) : Prop where
  inv : s.Inv (tasks size) (fun q => q.head ≤ q.tail) (units size)
  counted : s.Counted count 25 sides
  within : Within size s

theorem Upto.init : Upto size sides (mpmc size sides).init where
  inv := inv_init (Nat.le_refl 0)
  counted := counted_init (by omega) fun x => by cases x <;> rfl
  within := ⟨fun _ hth _ => .inl (monitor_lock hth).1, Nat.zero_le size⟩

theorem ranked_mpmc : (mpmc size sides).Ranked
    (fun s => s.Inv (tasks size) (fun q => q.head ≤ q.tail) (units size) ∧
      s.Counted count 25 sides)
    (State.rank count (25 * sides.count .put)) Label.gain :=
  ranked (tasks_exchange size) tasks_rounds

/-- A step of the process is one of the threads, or the last. -/
theorem Upto.exec (h : Upto size sides s) (hx : (process size sides).exec (.running s) l = some y) :
    y = .outside ∨ ∃ t, y = .running t ∧ Upto size sides t ∧
      (mpmc size sides).exec s l = some t := by
  cases l with
  | step tid wake =>
    simp only [process] at hx
    split at hx
    · cases hx
      exact .inl rfl
    · next hin =>
      obtain ⟨t, ht, rfl⟩ := Option.map_eq_some_iff.mp hx
      obtain ⟨hinv, hcounted⟩ := ranked_mpmc.keeps ⟨h.inv, h.counted⟩ ht
      refine .inr ⟨t, rfl, ⟨hinv, hcounted, ?_⟩, ht⟩
      simp only [mpmc, monitor] at ht
      split at ht
      · next th ha =>
        rw [ha] at hin
        exact h.within.step ha (Bool.eq_false_iff.mpr hin)
          (stepped (tasks_exchange size) h.inv ha ht)
      · cases ht
  | spurious side tid =>
    obtain ⟨t, ht, rfl⟩ := Option.map_eq_some_iff.mp hx
    obtain ⟨hinv, hcounted⟩ := ranked_mpmc.keeps ⟨h.inv, h.counted⟩ ht
    refine .inr ⟨t, rfl, ⟨hinv, hcounted, ?_⟩, ht⟩
    obtain ⟨th, hth, hasleep, rfl⟩ := State.wake_spec ht
    exact h.within.woken (m := s.mutex) hth (Thread.asleepOn_iff.mp hasleep).1

/-- No consumer has taken a second task. -/
theorem Upto.head_le (h : Upto size sides s) : s.data.head ≤ sides.count .take := by
  have hle : calls .take s.threads ≤ (1 : Nat) * (s.threads.map Thread.side).count .take := by
    refine calls_le fun th hth hx => ?_
    rcases h.within.first th hth hx with hzero | ⟨hone, hpc⟩
    · rw [hzero, Nat.zero_add]
      exact th.pc.called.toNat_le
    · rw [hone, hpc]
      exact Nat.le_refl 1
  have hcount : (s.data.head : Int) = calls .take s.threads := h.counted.counts .take
  rw [h.counted.sides] at hle
  omega

/-- The threads do not come to rest: the consumers that sleep have taken nothing. -/
theorem Upto.not_atRest (hs : 2 ≤ size) (hp : Side.put ∈ sides) (hc : Side.take ∈ sides)
    (h : Upto size sides s) : ¬(mpmc size sides).AtRest Label.gain s := by
  intro hrest
  have hdone := done_of_rest tasks_rounds h.inv h.counted hc (Int.le_refl _)
    (by simp only [units]; omega) hrest
  have hle : calls .take s.threads ≤ (0 : Nat) * (s.threads.map Thread.side).count .take := by
    refine calls_le fun th hth hx => ?_
    have hpc := hdone.asleep th hth hx
    rcases h.within.first th hth hx with hzero | ⟨-, hlock⟩
    · rw [hzero, hpc]
      exact Nat.le_refl 0
    · cases hpc.symm.trans hlock
  have hput := hdone.put
  have htaken := hdone.taken
  have hcount := h.counted.counts .take
  have hpos : 0 < sides.count .put := List.count_pos_iff.mpr hp
  omega

/-! ## The end -/

def Process.Inv (size : Nat) (sides : List Side) : Process → Prop
  | .running s => Upto size sides s
  | .outside => True

def Process.rank (sides : List Side) : Process → Int
  | .running s => s.rank count (25 * sides.count .put) + 1
  | .outside => 0

theorem ranked_process :
    (process size sides).Ranked (Process.Inv size sides) (Process.rank sides) Label.gain where
  nonneg {x} h := by
    cases x with
    | running s =>
      have hnonneg := ranked_mpmc.nonneg ⟨h.inv, h.counted⟩
      simp only [Process.rank]
      omega
    | outside => exact Int.le_refl 0
  keeps {x y l} h hx := by
    cases x with
    | running s =>
      rcases h.exec hx with rfl | ⟨t, rfl, ht, -⟩
      · trivial
      · exact ht
    | outside => cases hx
  step {x y l} h hx := by
    cases x with
    | running s =>
      rcases h.exec hx with rfl | ⟨t, rfl, -, ht⟩
      · have hnonneg := ranked_mpmc.nonneg ⟨h.inv, h.counted⟩
        simp only [Process.rank]
        omega
      · have hrank := ranked_mpmc.step ⟨h.inv, h.counted⟩ ht
        simp only [Process.rank]
        omega
    | outside => cases hx

theorem Process.Inv.outside_of_rest (hs : 2 ≤ size) (hp : Side.put ∈ sides)
    (hc : Side.take ∈ sides) (h : x.Inv size sides)
    (hrest : ∀ tid wake, (process size sides).exec x (.step tid wake) = none) : x = .outside := by
  cases x with
  | outside => rfl
  | running s =>
    refine absurd (atRest_iff.mpr fun tid wake => ?_) (Upto.not_atRest hs hp hc h)
    have hno := hrest tid wake
    simp only [process] at hno
    split at hno
    · cases hno
    · exact Option.map_eq_none_iff.mp hno

/-- With producers and consumers, every run is over after so many steps, 14 for a task and two for a
thread, and three more for every spurious wakeup; until then some thread can go on, so that it ends
with an access outside of an array. Up to there no consumer has taken a second task, nor has a task
been stored behind the array. -/
theorem ends_outside (hs : 2 ≤ size) (hp : Side.put ∈ sides) (hc : Side.take ∈ sides)
    (hrun : (process size sides).run (process size sides).init ls = some x) :
    ls.length ≤ 2 * sides.length + 14 * (25 * sides.count .put) + 1 +
      3 * ls.countP Label.isSpurious ∧
    (∀ s, x = .running s → s.data.head ≤ sides.count .take ∧ s.data.tail ≤ size) ∧
    ((∀ tid wake, (process size sides).exec x (.step tid wake) = none) → x = .outside) ∧
    ∃ ls', (∀ l ∈ ls', l.isSpurious = false) ∧ (process size sides).run x ls' = some .outside := by
  have hstart : (process size sides).init.Inv size sides := Upto.init
  obtain ⟨hi, -⟩ := ranked_process.run hstart hrun
  refine ⟨?_, ?_, fun hrest => hi.outside_of_rest hs hp hc hrest, ?_⟩
  · have hzero : ∀ x, count x ⟨0, 0⟩ = 0 := fun x => by cases x <;> rfl
    have hlen := ranked_process.length_le hstart hrun
    have hrank : (process size sides).init.rank sides =
        2 * sides.length + 14 * (25 * sides.count .put : Int) + 1 :=
      congrArg (· + 1) (rank_init hzero)
    rw [hrank, sum_gain] at hlen
    omega
  · rintro s rfl
    have hi : Upto size sides s := hi
    exact ⟨hi.head_le, hi.within.tail_le⟩
  · obtain ⟨ls', y, hpay, hrun', hrest⟩ := ranked_process.exists_rest hi
    obtain ⟨hy, -⟩ := ranked_process.run hi hrun'
    obtain rfl := hy.outside_of_rest hs hp hc fun tid wake => hrest _ rfl
    exact ⟨ls', fun l hl => Label.isSpurious_of_gain (hpay l hl), hrun'⟩

/-- A producer adds a task and a consumer takes it; both have unlocked. -/
def handOverRun : List Label :=
  List.replicate 5 (.step 0 0) ++ List.replicate 5 (.step 2 0)

/-- The two producers and four consumers of `main`, on its queue of size 5. -/
theorem ends_outside_handOverRun :
    ∃ s, (process 5 [.put, .put, .take, .take, .take, .take]).run
        (process 5 [.put, .put, .take, .take, .take, .take]).init handOverRun =
          some (.running s) ∧ s.data = ⟨1, 1⟩ ∧
      ∃ ls', (∀ l ∈ ls', l.isSpurious = false) ∧
        (process 5 [.put, .put, .take, .take, .take, .take]).run (.running s) ls' =
          some .outside := by
  have hrun : ((process 5 [.put, .put, .take, .take, .take, .take]).run
      (process 5 [.put, .put, .take, .take, .take, .take]).init handOverRun).bind
        (fun x => match x with
          | .running s => some (s.data.head, s.data.tail)
          | .outside => none) = some (1, 1) := by decide
  obtain ⟨x, hx, hdata⟩ := Option.bind_eq_some_iff.mp hrun
  cases x with
  | outside => cases hdata
  | running s =>
    obtain ⟨hhead, htail⟩ := Prod.mk.inj (Option.some.inj hdata)
    refine ⟨s, hx, ?_, (ends_outside (by decide) (by decide) (by decide) hx).2.2.2⟩
    obtain ⟨⟨head, tail⟩, mutex, threads⟩ := s
    cases hhead
    cases htail
    rfl

end KoScripts.Concurrency.Mpmc
