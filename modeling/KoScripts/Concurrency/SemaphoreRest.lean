import KoScripts.Concurrency.SemaphoreInvariant
import KoScripts.Lib.Termination
import Mathlib.Algebra.Order.BigOperators.Group.List
import Mathlib.Algebra.Order.Ring.Int

/-! # The consumers always finish

A consumer that has emptied an entry pays for one more round of a producer, so the steps that the
threads have left can be counted. With a producer among the threads none is blocked for good before
the consumers have exited. -/

namespace KoScripts.Concurrency.Semaphore
open Lib

/-- The steps a thread has left: a consumer's with those of the producers it will let go on. -/
def Thread.weight : Thread → Int
  | .produce .semWait => 0
  | .produce .rand => 5
  | .produce (.lock _) => 4
  | .produce (.add _) => 3
  | .produce .unlock => 2
  | .produce .semPost => 1
  | .consume i .semWait => 11 * (8 - i)
  | .consume i .lock => 11 * (8 - i) - 1
  | .consume i .pop => 11 * (8 - i) - 2
  | .consume i (.unlock _) => 11 * (8 - i) - 3
  | .consume i (.semPost _) => 11 * (8 - i) - 4
  | .exited => 0

/-- The calls of `pop_item` that a thread has made. -/
def Thread.pops : Thread → Int
  | .produce _ => 0
  | .consume i .semWait | .consume i .lock | .consume i .pop => i
  | .consume i (.unlock _) | .consume i (.semPost _) => i + 1
  | .exited => 8

def Thread.round : Thread → Nat
  | .consume i _ => i
  | _ => 0

def Thread.role : Thread → Role
  | .produce _ => .producer
  | .consume _ _ | .exited => .consumer

deriving instance DecidableEq for Role

def State.rank {size : Nat} (s : State size) : Int :=
  (s.threads.map Thread.weight).sum + 6 * s.semaphore2

variable {size : Nat} {s t : State size} {tid rnd : Nat} {roles : List Role}
  {buf : Vector Int size} {ls : List Label}

/-! ## What a step counts -/

structure State.Counted (roles : List Role) (s : State size) : Prop where
  roles : s.threads.map Thread.role = roles
  popped : (s.popped.length : Int) = (s.threads.map Thread.pops).sum
  rounds : ∀ th ∈ s.threads, th.round < 8
  owner : ∀ j, s.mutex1 = some j → j < s.threads.length

/-- A step is one of `th` in place of `a`, and takes one from the rank. -/
structure Counts (tid : Nat) (a th : Thread) (s t : State size) : Prop where
  threads : t.threads = s.threads.set tid th
  role : th.role = a.role
  popped : (t.popped.length : Int) + a.pops = s.popped.length + th.pops
  round : th.round < 8
  mutex1 : ∀ j, t.mutex1 = some j → j = tid ∨ s.mutex1 = some j
  rank : th.weight + 6 * t.semaphore2 + 1 = a.weight + 6 * s.semaphore2

theorem Counts.counted {a th : Thread} (hc : Counts tid a th s t) (h : s.Counted roles)
    (ha : s.threads[tid]? = some a) : t.Counted roles where
  roles := by rw [hc.threads, map_set_eq ha hc.role, h.roles]
  popped := by
    have hset := sum_map_set (b := th) (f := Thread.pops) ha
    have := h.popped
    have := hc.popped
    rw [hc.threads]
    omega
  rounds th' hth := by
    rw [hc.threads] at hth
    rcases List.mem_or_eq_of_mem_set hth with hth | rfl
    · exact h.rounds th' hth
    · exact hc.round
  owner j hj := by
    rw [hc.threads, List.length_set]
    rcases hc.mutex1 j hj with rfl | hj
    · exact (List.getElem?_eq_some_iff.mp ha).1
    · exact h.owner j hj

theorem Counts.rank_eq {a th : Thread} (hc : Counts tid a th s t)
    (ha : s.threads[tid]? = some a) : t.rank + 1 = s.rank := by
  have hset := sum_map_set (b := th) (f := Thread.weight) ha
  have := hc.rank
  rw [State.rank, State.rank, hc.threads]
  omega

theorem counts_produce {pc : Produce} (h : s.Inv) (ha : s.threads[tid]? = some (.produce pc))
    (hx : s.produce tid rnd pc = some t) : ∃ th, Counts tid (.produce pc) th s t := by
  cases pc with
  | semWait =>
    obtain ⟨hpos, hx⟩ := Option.ite_none_right_eq_some.mp hx
    cases hx
    refine ⟨.produce .rand, rfl, rfl, rfl, Nat.zero_lt_succ 7, fun _ => .inr, ?_⟩
    simp only [Thread.weight, State.goto]
    omega
  | rand =>
    cases hx
    exact ⟨.produce (.lock rnd), rfl, rfl, rfl, Nat.zero_lt_succ 7, fun _ => .inr, by
      simp only [Thread.weight, State.goto]; omega⟩
  | lock r =>
    obtain ⟨-, hx⟩ := Option.ite_none_right_eq_some.mp hx
    cases hx
    refine ⟨.produce (.add r), rfl, rfl, rfl, Nat.zero_lt_succ 7, fun j hj => ?_, ?_⟩
    · exact .inl (Option.some.inj hj).symm
    · simp only [Thread.weight, State.goto]
      omega
  | add r =>
    have hsafe : t.faulted = false := (h.add ha hx).safe
    simp only [State.produce] at hx
    split at hx
    · cases hx
      refine ⟨.produce .unlock, rfl, rfl, rfl, Nat.zero_lt_succ 7, fun _ => .inr, ?_⟩
      simp only [Thread.weight, State.goto]
      omega
    · cases hx
      cases hsafe
  | unlock =>
    cases hx
    refine ⟨.produce .semPost, rfl, rfl, rfl, Nat.zero_lt_succ 7, fun j hj => ?_, ?_⟩
    · cases hj
    · simp only [Thread.weight, State.goto]
      omega
  | semPost =>
    cases hx
    refine ⟨.produce .semWait, rfl, rfl, rfl, Nat.zero_lt_succ 7, fun _ => .inr, ?_⟩
    simp only [Thread.weight, State.goto]
    omega

theorem counts_consume {i : Nat} {pc : Consume} (h : s.Inv) (hi : i < 8)
    (ha : s.threads[tid]? = some (.consume i pc)) (hx : s.consume tid i pc = some t) :
    ∃ th, Counts tid (.consume i pc) th s t := by
  cases pc with
  | semWait =>
    obtain ⟨-, hx⟩ := Option.ite_none_right_eq_some.mp hx
    cases hx
    refine ⟨.consume i .lock, rfl, rfl, rfl, hi, fun _ => .inr, ?_⟩
    simp only [Thread.weight, State.goto]
    omega
  | lock =>
    obtain ⟨-, hx⟩ := Option.ite_none_right_eq_some.mp hx
    cases hx
    refine ⟨.consume i .pop, rfl, rfl, rfl, hi, fun j hj => ?_, ?_⟩
    · exact .inl (Option.some.inj hj).symm
    · simp only [Thread.weight, State.goto]
      omega
  | pop =>
    have hsafe := (h.pop ha hx).safe
    simp only [State.consume] at hx
    split at hx
    · next queue r res _ =>
      cases hx
      refine ⟨.consume i (.unlock r), rfl, rfl, ?_, hi, fun _ => .inr, ?_⟩
      · simp only [Thread.pops, State.goto, List.length_append, List.length_singleton]
        omega
      · simp only [Thread.weight, State.goto]
        omega
    · cases hx
      cases hsafe
  | unlock r =>
    cases hx
    refine ⟨.consume i (.semPost r), rfl, rfl, rfl, hi, fun j hj => ?_, ?_⟩
    · cases hj
    · simp only [Thread.weight, State.goto]
      omega
  | semPost r =>
    cases hx
    refine ⟨if i + 1 < 8 then .consume (i + 1) .semWait else .exited, rfl, ?_, ?_, ?_,
      fun _ => .inr, ?_⟩
    · split
      · rfl
      · rfl
    · split
      · simp only [Thread.pops, State.goto]
        omega
      · simp only [Thread.pops, State.goto]
        omega
    · split
      · next hlt => exact hlt
      · exact Nat.zero_lt_succ 7
    · split
      · simp only [Thread.weight, State.goto]
        omega
      · simp only [Thread.weight, State.goto]
        omega

theorem counts_exec {l : Label} (h : s.Inv) (hc : s.Counted roles)
    (hx : (producersConsumers roles buf).exec s l = some t) :
    ∃ a th, s.threads[l.tid]? = some a ∧ Counts l.tid a th s t := by
  obtain ⟨-, hx⟩ := Option.ite_none_left_eq_some.mp hx
  split at hx
  · next pc ha =>
    obtain ⟨th, hth⟩ := counts_produce h ha hx
    exact ⟨_, th, ha, hth⟩
  · next i pc ha =>
    obtain ⟨th, hth⟩ := counts_consume h (hc.rounds _ (List.mem_of_getElem? ha)) ha hx
    exact ⟨_, th, ha, hth⟩
  · cases hx
  · cases hx

/-! ## Rest -/

theorem inv_exec {l : Label} (h : s.Inv)
    (hx : (producersConsumers roles buf).exec s l = some t) : t.Inv := by
  obtain ⟨-, hx⟩ := Option.ite_none_left_eq_some.mp hx
  split at hx
  · next pc ha => exact h.produce ha hx
  · next i pc ha => exact h.consume ha hx
  · cases hx
  · cases hx

theorem counted_init : (producersConsumers roles buf).init.Counted roles where
  roles := by
    rw [producersConsumers, List.map_map]
    refine List.map_id'' (fun role => ?_) roles
    cases role <;> rfl
  popped := by
    have hzero : (roles.map Role.start).map Thread.pops = roles.map fun _ => (0 : Int) := by
      rw [List.map_map]
      refine List.map_congr_left fun role _ => ?_
      cases role <;> rfl
    simp [producersConsumers, hzero]
  rounds th hth := by
    obtain ⟨role, -, rfl⟩ := List.mem_map.mp hth
    cases role <;> exact Nat.zero_lt_succ 7
  owner j hj := by cases hj

theorem rank_init :
    (producersConsumers roles buf).init.rank =
      88 * roles.count .consumer + 6 * (size - 1 : Nat) := by
  have hweights : ((roles.map Role.start).map Thread.weight).sum =
      88 * (roles.count .consumer : Int) := by
    induction roles with
    | nil => rfl
    | cons role roles ih =>
      rw [List.map_cons, List.map_cons, List.sum_cons, ih, List.count_cons]
      cases role
      · simp [Role.start, Thread.weight]
      · simp [Role.start, Thread.weight]
        omega
  rw [State.rank]
  simp only [producersConsumers]
  rw [hweights]

theorem paced : (producersConsumers roles buf).Paced (fun s => s.Inv ∧ s.Counted roles)
    State.rank where
  nonneg {s} h := by
    have hweights : 0 ≤ (s.threads.map Thread.weight).sum := by
      refine List.sum_nonneg fun x hx => ?_
      obtain ⟨th, hth, rfl⟩ := List.mem_map.mp hx
      have hround := h.2.rounds th hth
      cases th with
      | produce pc => cases pc <;> simp only [Thread.weight] <;> omega
      | consume i pc =>
        simp only [Thread.round] at hround
        cases pc <;> simp only [Thread.weight] <;> omega
      | exited => exact Int.le_refl 0
    rw [State.rank]
    omega
  keeps h hx := by
    obtain ⟨a, th, ha, hcounts⟩ := counts_exec h.1 h.2 hx
    exact ⟨inv_exec h.1 hx, hcounts.counted h.2 ha⟩
  step h hx := by
    obtain ⟨a, th, ha, hcounts⟩ := counts_exec h.1 h.2 hx
    exact hcounts.rank_eq ha

/-- The consumers have exited and the producers wait for an entry. -/
structure State.Idle (s : State size) : Prop where
  threads : ∀ th ∈ s.threads, th = .exited ∨ th = .produce .semWait
  semaphore2 : s.semaphore2 = 0
  full : s.queue.contents.length = size - 1

/-- What cannot go on has nobody in the critical section, so the mutex is free. -/
theorem waits_of_rest (h : s.Inv) (hc : s.Counted roles)
    (hrest : ∀ l, (producersConsumers roles buf).exec s l = none) :
    ∀ th ∈ s.threads, th = .exited ∨ (th = .produce .semWait ∧ s.semaphore2 = 0) ∨
      ∃ i, th = .consume i .semWait ∧ s.semaphore1 = 0 := by
  have hproduce {pc : Produce} (hth : .produce pc ∈ s.threads) :
      ∃ tid, s.produce tid 0 pc = none := by
    obtain ⟨tid, htid⟩ := List.mem_iff_getElem?.mp hth
    have hnone := hrest ⟨tid, 0⟩
    simp only [producersConsumers, h.safe, htid] at hnone
    exact ⟨tid, hnone⟩
  have hconsume {i : Nat} {pc : Consume} (hth : .consume i pc ∈ s.threads) :
      ∃ tid, s.consume tid i pc = none := by
    obtain ⟨tid, htid⟩ := List.mem_iff_getElem?.mp hth
    have hnone := hrest ⟨tid, 0⟩
    simp only [producersConsumers, h.safe, htid] at hnone
    exact ⟨tid, hnone⟩
  have hfree : s.mutex1 = none := by
    refine h.exclusive.free hc.owner fun th hth => ?_
    cases th with
    | produce pc =>
      obtain ⟨tid, hnone⟩ := hproduce hth
      cases pc with
      | add r =>
        simp only [State.produce] at hnone
        split at hnone
        · cases hnone
        · cases hnone
      | unlock => cases hnone
      | semWait | rand | lock | semPost => rfl
    | consume i pc =>
      obtain ⟨tid, hnone⟩ := hconsume hth
      cases pc with
      | pop =>
        simp only [State.consume] at hnone
        split at hnone
        · cases hnone
        · cases hnone
      | unlock => cases hnone
      | semWait | lock | semPost => rfl
    | exited => rfl
  have hout : ∀ th ∈ s.threads, th.inSection = false := by
    intro th hth
    obtain ⟨tid, htid⟩ := List.mem_iff_getElem?.mp hth
    rw [Bool.eq_false_iff]
    intro hin
    cases hfree.symm.trans ((h.exclusive tid th htid).mp hin)
  intro th hth
  cases th with
  | exited => exact .inl rfl
  | produce pc =>
    obtain ⟨tid, hnone⟩ := hproduce hth
    cases pc with
    | semWait =>
      refine .inr (.inl ⟨rfl, Nat.eq_zero_of_not_pos fun hpos => ?_⟩)
      rw [State.produce, if_pos hpos] at hnone
      cases hnone
    | lock r =>
      rw [State.produce, if_pos hfree] at hnone
      cases hnone
    | add | unlock => cases hout _ hth
    | rand | semPost => cases hnone
  | consume i pc =>
    obtain ⟨tid, hnone⟩ := hconsume hth
    cases pc with
    | semWait =>
      refine .inr (.inr ⟨i, rfl, Nat.eq_zero_of_not_pos fun hpos => ?_⟩)
      rw [State.consume, if_pos hpos] at hnone
      cases hnone
    | lock =>
      rw [State.consume, if_pos hfree] at hnone
      cases hnone
    | pop | unlock => cases hout _ hth
    | semPost => cases hnone

/-- A producer that waits for an entry leaves a full buffer, and so no consumer that waits. -/
theorem idle_of_rest (hs : 2 ≤ size) (hp : Role.producer ∈ roles) (h : s.Inv)
    (hc : s.Counted roles) (hrest : ∀ l, (producersConsumers roles buf).exec s l = none) :
    s.Idle := by
  have hwaits := waits_of_rest h hc hrest
  have hzero {p : Thread → Bool} (hexited : p .exited = false)
      (hproduce : p (.produce .semWait) = false)
      (hconsume : ∀ i, p (.consume i .semWait) = false) : s.threads.countP p = 0 := by
    refine List.countP_eq_zero.mpr fun th hth => ?_
    rcases hwaits th hth with rfl | ⟨rfl, -⟩ | ⟨i, rfl, -⟩
    · rw [hexited]; exact Bool.false_ne_true
    · rw [hproduce]; exact Bool.false_ne_true
    · rw [hconsume]; exact Bool.false_ne_true
  have hitems := h.items
  have hslots := h.slots
  rw [hzero rfl rfl fun _ => rfl] at hitems hslots
  have hsem : s.semaphore2 = 0 := by
    rw [← hc.roles] at hp
    obtain ⟨th, hth, hrole⟩ := List.mem_map.mp hp
    rcases hwaits th hth with rfl | ⟨-, hsem⟩ | ⟨i, rfl, -⟩
    · cases hrole
    · exact hsem
    · cases hrole
  refine ⟨fun th hth => ?_, hsem, by omega⟩
  rcases hwaits th hth with rfl | ⟨rfl, -⟩ | ⟨i, -, hone⟩
  · exact .inl rfl
  · exact .inr rfl
  · omega

theorem sum_pops {ts : List Thread} (h : ∀ th ∈ ts, th = .exited ∨ th = .produce .semWait) :
    (ts.map Thread.pops).sum = 8 * ((ts.map Thread.role).count .consumer : Int) ∧
      (ts.map Thread.weight).sum = 0 := by
  induction ts with
  | nil => exact ⟨rfl, rfl⟩
  | cons th ts ih =>
    obtain ⟨hpops, hweight⟩ := ih fun th hth => h th (List.mem_cons_of_mem _ hth)
    simp only [List.map_cons, List.sum_cons, hpops, hweight, List.count_cons]
    rcases h th List.mem_cons_self with rfl | rfl
    · simp [Thread.pops, Thread.weight, Thread.role]
      omega
    · simp [Thread.pops, Thread.weight, Thread.role]

theorem State.Idle.counts (h : s.Idle) (hc : s.Counted roles) :
    s.popped.length = 8 * roles.count .consumer ∧ s.rank = 0 := by
  obtain ⟨hpops, hweight⟩ := sum_pops h.threads
  have hpopped := hc.popped
  rw [hpops, hc.roles] at hpopped
  refine ⟨by omega, ?_⟩
  rw [State.rank, hweight, h.semaphore2]
  rfl

/-- With a producer among the threads, every run comes to an end after the same number of steps:
each consumer has then popped eight values, the oldest that have been added, and the producers wait
in front of a full buffer. -/
theorem consumers_finish (hs : 2 ≤ size) (hp : Role.producer ∈ roles)
    (hrun : (producersConsumers roles buf).run (producersConsumers roles buf).init ls = some s) :
    ls.length ≤ 88 * roles.count .consumer + 6 * (size - 1) ∧
    ((∀ l, (producersConsumers roles buf).exec s l = none) →
      ls.length = 88 * roles.count .consumer + 6 * (size - 1) ∧
      (∀ th ∈ s.threads, th = .exited ∨ th = .produce .semWait) ∧
      s.popped.length = 8 * roles.count .consumer ∧
      s.popped.map Prod.fst = (s.added.map Prod.fst).take (8 * roles.count .consumer) ∧
      isFull s.queue = true) ∧
    ∃ ls' t, (producersConsumers roles buf).run s ls' = some t ∧
      ∀ l, (producersConsumers roles buf).exec t l = none := by
  have hpaced : (producersConsumers roles buf).Paced (fun s => s.Inv ∧ s.Counted roles)
      State.rank := paced
  obtain ⟨hi, hrank⟩ := hpaced.run ⟨inv_init hs, counted_init⟩ hrun
  rw [rank_init] at hrank
  have hnonneg := hpaced.nonneg hi
  refine ⟨by omega, fun hrest => ?_, hpaced.exists_rest hi⟩
  have hidle := idle_of_rest hs hp hi.1 hi.2 hrest
  obtain ⟨hlength, hzero⟩ := hidle.counts hi.2
  refine ⟨by omega, hidle.threads, hlength, ?_, hi.1.indices.isFull_iff.mpr hidle.full⟩
  have hmap : (s.popped.map Prod.fst).length = 8 * roles.count .consumer :=
    (List.length_map _).trans hlength
  rw [hi.1.history, ← hmap, List.take_left]

/-- One producer and three consumers. -/
theorem consumers_finish_three :
    ∃ ls t, (producersConsumers [.consumer, .consumer, .producer, .consumer] #v[0, 0]).run
        (producersConsumers [.consumer, .consumer, .producer, .consumer] #v[0, 0]).init ls =
          some t ∧
      ∀ l, (producersConsumers [.consumer, .consumer, .producer, .consumer] #v[0, 0]).exec t l =
        none := by
  have hrun : (producersConsumers [.consumer, .consumer, .producer, .consumer] #v[0, 0]).run
      (producersConsumers [.consumer, .consumer, .producer, .consumer] #v[0, 0]).init [] =
        some _ := rfl
  exact (consumers_finish (by decide) (by decide) hrun).2.2

end KoScripts.Concurrency.Semaphore
