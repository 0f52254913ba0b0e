import KoScripts.Lib.Termination
import KoScripts.Lib.Threads
import Mathlib.Algebra.Order.BigOperators.Group.List
import Mathlib.Algebra.Order.Ring.Int

/-! # The children of semaphore.c

Each thread of `child` adds one to `counter` three times, in a critical section that loads it,
sleeps and stores it. Behind the section it loads `counter` once more and prints what it has loaded;
another child may have gone on before either of the two. -/

namespace KoScripts.Concurrency.Semaphore
open Lib

/-- Where a thread of `child` is in round `i` of its loop of 3. `tmp` is what it has loaded in the
section, and `v` what it has loaded for `printf`. -/
inductive Child
  | lock (i : Nat)
  | load (i : Nat)
  | store (i : Nat) (tmp : Int)
  | unlock (i : Nat)
  | reload (i : Nat)
  | print (i : Nat) (v : Int)
  | exited

structure Children where
  counter : Int
  /-- The thread that holds `mutex1`. -/
  mutex1 : Option Nat
  threads : List Child
  /-- What has been printed, and by which thread. -/
  printed : List (Nat × Int)

namespace Children
variable (s : Children)

def goto (tid : Nat) (th : Child) : Children := { s with threads := s.threads.set tid th }

/-- One step of a thread of `child`. -/
def child (tid : Nat) : Child → Option Children
  | .lock i =>
    if s.mutex1 = none then some ({ s with mutex1 := some tid }.goto tid (.load i)) else none
  | .load i => some (s.goto tid (.store i s.counter))
  | .store i tmp => some ({ s with counter := tmp + 1 }.goto tid (.unlock i))
  | .unlock i => some ({ s with mutex1 := none }.goto tid (.reload i))
  | .reload i => some (s.goto tid (.print i s.counter))
  | .print i v =>
    some ({ s with printed := s.printed ++ [(tid, v)] }.goto tid
      (if i + 1 < 3 then .lock (i + 1) else .exited))
  | .exited => none

/-- What one thread has printed. -/
def printedBy (tid : Nat) : List Int := (s.printed.filter fun p => p.1 = tid).map Prod.snd

end Children

/-- `n` threads of `child`, of which a label names one. -/
def children (n : Nat) : Machine Children Nat where
  init := { counter := 0, mutex1 := none, threads := List.replicate n (.lock 0), printed := [] }
  exec s tid := s.threads[tid]?.bind (s.child tid)

namespace Child

def inSection : Child → Bool
  | .load _ | .store _ _ | .unlock _ => true
  | _ => false

/-- What a thread has added to `counter`. -/
def added : Child → Int
  | .lock i | .load i | .store i _ => i
  | .unlock i | .reload i | .print i _ => i + 1
  | .exited => 3

def prints : Child → Int
  | .lock i | .load i | .store i _ | .unlock i | .reload i | .print i _ => i
  | .exited => 3

/-- The steps that a thread has left. -/
def weight : Child → Int
  | .lock i => 6 * (3 - i)
  | .load i => 6 * (3 - i) - 1
  | .store i _ => 6 * (3 - i) - 2
  | .unlock i => 6 * (3 - i) - 3
  | .reload i => 6 * (3 - i) - 4
  | .print i _ => 6 * (3 - i) - 5
  | .exited => 0

def round : Child → Nat
  | .lock i | .load i | .store i _ | .unlock i | .reload i | .print i _ => i
  | .exited => 0

/-- What the thread has printed is no more than this. -/
def above (counter : Int) : Child → Int
  | .unlock _ | .reload _ => counter - 1
  | .print _ v => v - 1
  | _ => counter

/-- The thread is going to print what is in `counter`, if nobody stores before it has loaded. -/
def owes (counter : Int) : Child → Bool
  | .unlock _ | .reload _ => true
  | .print _ v => v = counter
  | _ => false

theorem above_mono (c : Int) (th : Child) : th.above c ≤ th.above (c + 1) := by
  cases th <;> simp only [above] <;> omega

end Child

variable {n tid : Nat} {s t : Children} {a : Child} {tids : List Nat}

namespace Children

/-- A step moves a thread that has not exited. -/
theorem child_threads (hx : s.child tid a = some t) :
    a ≠ .exited ∧ ∃ b, t.threads = s.threads.set tid b := by
  cases a with
  | lock i =>
    obtain ⟨-, hx⟩ := Option.ite_none_right_eq_some.mp hx
    cases hx
    exact ⟨Child.noConfusion, _, rfl⟩
  | load i | store i tmp | unlock i | reload i | print i v =>
    cases hx
    exact ⟨Child.noConfusion, _, rfl⟩
  | exited => cases hx

/-! ## The critical section -/

structure Locked (s : Children) : Prop where
  exclusive : Exclusive Child.inSection s.mutex1 s.threads
  owner : ∀ j, s.mutex1 = some j → j < s.threads.length
  /-- Nobody has stored since. -/
  loaded : ∀ th ∈ s.threads, ∀ i tmp, th = .store i tmp → tmp = s.counter

theorem Locked.child (h : s.Locked) (ha : s.threads[tid]? = some a)
    (hx : s.child tid a = some t) : t.Locked := by
  have htid : tid < s.threads.length := (List.getElem?_eq_some_iff.mp ha).1
  have hold {b : Child} (hb : ∀ i tmp, b = .store i tmp → tmp = s.counter) :
      ∀ th ∈ s.threads.set tid b, ∀ i tmp, th = .store i tmp → tmp = s.counter := by
    intro th hth
    rcases List.mem_or_eq_of_mem_set hth with hth | rfl
    · exact h.loaded th hth
    · exact hb
  have hlength {b : Child} : (s.threads.set tid b).length = s.threads.length :=
    List.length_set
  cases a with
  | lock i =>
    obtain ⟨hfree, hx⟩ := Option.ite_none_right_eq_some.mp hx
    cases hx
    refine ⟨.acquire (hfree ▸ h.exclusive) rfl, fun j hj => ?_, hold fun _ _ hb => by cases hb⟩
    cases hj
    exact Nat.lt_of_lt_of_eq htid hlength.symm
  | load i =>
    cases hx
    refine ⟨h.exclusive.keep ha rfl, fun j hj => ?_, hold fun _ _ hb => by cases hb; rfl⟩
    exact Nat.lt_of_lt_of_eq (h.owner j hj) hlength.symm
  | store i tmp =>
    cases hx
    refine ⟨h.exclusive.keep ha rfl, fun j hj => ?_, fun th hth i' tmp' heq => ?_⟩
    · exact Nat.lt_of_lt_of_eq (h.owner j hj) hlength.symm
    · -- Another thread at its store would be in the critical section too.
      obtain ⟨j, hj⟩ := List.mem_iff_getElem?.mp hth
      rcases getElem?_set_self_or hj with ⟨-, rfl⟩ | ⟨hne, hj⟩
      · cases heq
      · exact absurd (h.exclusive.unique hj ha (by rw [heq]; rfl) rfl) hne
  | unlock i =>
    cases hx
    refine ⟨h.exclusive.release ha rfl rfl, fun j hj => ?_, hold fun _ _ hb => by cases hb⟩
    cases hj
  | reload i =>
    cases hx
    refine ⟨h.exclusive.keep ha rfl, fun j hj => ?_, hold fun _ _ hb => by cases hb⟩
    exact Nat.lt_of_lt_of_eq (h.owner j hj) hlength.symm
  | print i v =>
    cases hx
    refine ⟨h.exclusive.keep ha ?_, fun j hj => ?_, hold fun i' tmp hb => ?_⟩
    · split
      · rfl
      · rfl
    · exact Nat.lt_of_lt_of_eq (h.owner j hj) hlength.symm
    · split at hb
      · cases hb
      · cases hb
  | exited => cases hx

/-! ## The counter -/

structure Counted (n : Nat) (s : Children) : Prop where
  length : s.threads.length = n
  counter : s.counter = (s.threads.map Child.added).sum
  printed : (s.printed.length : Int) = (s.threads.map Child.prints).sum
  rounds : ∀ th ∈ s.threads, th.round < 3

theorem Counted.set {c : Int} {m : Option Nat} {out : List (Nat × Int)} {b : Child} (h : s.Counted n)
    (ha : s.threads[tid]? = some a) (hcounter : c + a.added = s.counter + b.added)
    (hprinted : out.length + a.prints = s.printed.length + b.prints) (hround : b.round < 3) :
    ({ s with counter := c, mutex1 := m, printed := out }.goto tid b).Counted n where
  length := List.length_set.trans h.length
  counter := by
    have hset := sum_map_set (b := b) (f := Child.added) ha
    have := h.counter
    simp only [goto]
    omega
  printed := by
    have hset := sum_map_set (b := b) (f := Child.prints) ha
    have := h.printed
    simp only [goto]
    omega
  rounds th hth := by
    rcases List.mem_or_eq_of_mem_set hth with hth | rfl
    · exact h.rounds th hth
    · exact hround

theorem Counted.child (hl : s.Locked) (h : s.Counted n) (ha : s.threads[tid]? = some a)
    (hx : s.child tid a = some t) : t.Counted n := by
  have hround := h.rounds a (List.mem_of_getElem? ha)
  cases a with
  | lock i =>
    obtain ⟨-, hx⟩ := Option.ite_none_right_eq_some.mp hx
    cases hx
    exact h.set ha rfl rfl hround
  | load i | unlock i | reload i =>
    cases hx
    exact h.set ha rfl rfl hround
  | store i tmp =>
    cases hx
    have htmp := hl.loaded _ (List.mem_of_getElem? ha) i tmp rfl
    refine h.set ha ?_ rfl hround
    simp only [Child.added]
    omega
  | print i v =>
    cases hx
    have hi : i < 3 := hround
    refine h.set ha ?_ ?_ ?_
    · split
      · rfl
      · simp only [Child.added]
        omega
    · rw [List.length_append, List.length_singleton]
      split
      · simp only [Child.prints]
        omega
      · simp only [Child.prints]
        omega
    · split
      · next hlt => exact hlt
      · exact Nat.zero_lt_succ 2
  | exited => cases hx

theorem Counted.added_le (h : s.Counted n) (ha : s.threads[tid]? = some a) :
    a.added ≤ s.counter := by
  rw [h.counter]
  refine List.single_le_sum (fun x hx => ?_) _ (List.mem_map_of_mem (List.mem_of_getElem? ha))
  obtain ⟨th, -, rfl⟩ := List.mem_map.mp hx
  cases th <;> simp only [Child.added] <;> omega

theorem Counted.counter_le (h : s.Counted n) : s.counter ≤ 3 * n := by
  have hle : (s.threads.map Child.added).sum ≤ (s.threads.map Child.added).length • 3 := by
    refine List.sum_le_card_nsmul _ 3 fun x hx => ?_
    obtain ⟨th, hth, rfl⟩ := List.mem_map.mp hx
    have hround := h.rounds th hth
    cases th <;> simp only [Child.round, Child.added] at hround ⊢ <;> omega
  rw [List.length_map, h.length, ← h.counter, nsmul_eq_mul] at hle
  omega

/-! ## The output -/

structure Ordered (s : Children) : Prop where
  bounds : ∀ p ∈ s.printed, 1 ≤ p.2 ∧ p.2 ≤ s.counter
  loaded : ∀ th ∈ s.threads, ∀ i v, th = .print i v → 1 ≤ v ∧ v ≤ s.counter
  below : ∀ j th, s.threads[j]? = some th → ∀ v ∈ s.printedBy j, v ≤ th.above s.counter
  sorted : ∀ j, (s.printedBy j).Pairwise (· < ·)
  turns : ∀ j th, s.threads[j]? = some th → ((s.printedBy j).length : Int) = th.prints
  last : s.counter = 0 ∨ (∃ p ∈ s.printed, p.2 = s.counter) ∨
    ∃ th ∈ s.threads, th.owes s.counter = true

theorem printedBy_print {v : Int} {b : Child} (j : Nat) :
    ({ s with printed := s.printed ++ [(tid, v)] }.goto tid b).printedBy j =
      s.printedBy j ++ if tid = j then [v] else [] := by
  by_cases hj : tid = j
  · simp [printedBy, goto, hj]
  · simp [printedBy, goto, hj]

theorem mem_of_printedBy {v : Int} (h : v ∈ s.printedBy tid) : (tid, v) ∈ s.printed := by
  obtain ⟨⟨j, w⟩, hmem, rfl⟩ := List.mem_map.mp h
  obtain ⟨hp, hj⟩ := List.mem_filter.mp hmem
  obtain rfl : j = tid := of_decide_eq_true hj
  exact hp

/-- Who owes still does, unless it is the thread that steps. -/
theorem exists_owes {b : Child} {c : Int} (ha : s.threads[tid]? = some a)
    (howes : a.owes c = true → b.owes c = true) (h : ∃ th ∈ s.threads, th.owes c = true) :
    ∃ th ∈ s.threads.set tid b, th.owes c = true := by
  obtain ⟨th, hth, how⟩ := h
  obtain ⟨j, hj⟩ := List.mem_iff_getElem?.mp hth
  by_cases hjt : tid = j
  · obtain rfl : a = th := Option.some.inj ((hjt ▸ ha).symm.trans hj)
    have htid : tid < s.threads.length := (List.getElem?_eq_some_iff.mp ha).1
    exact ⟨b, List.mem_set htid b, howes how⟩
  · exact ⟨th, List.mem_of_getElem? ((List.getElem?_set_ne hjt).trans hj), how⟩

/-- A step that stores nothing and prints nothing. -/
theorem Ordered.move {m : Option Nat} {b : Child} (h : s.Ordered)
    (ha : s.threads[tid]? = some a) (hb : ∀ i v, b = .print i v → 1 ≤ v ∧ v ≤ s.counter)
    (habove : b.above s.counter = a.above s.counter) (hprints : b.prints = a.prints)
    (howes : a.owes s.counter = true → b.owes s.counter = true) :
    ({ s with mutex1 := m }.goto tid b).Ordered where
  bounds := h.bounds
  loaded th hth := by
    rcases List.mem_or_eq_of_mem_set hth with hth | rfl
    · exact h.loaded th hth
    · exact hb
  below j th hj := by
    rcases getElem?_set_self_or hj with ⟨rfl, rfl⟩ | ⟨-, hj⟩
    · exact fun v hv => (h.below j a ha v hv).trans habove.ge
    · exact h.below j th hj
  sorted := h.sorted
  turns j th hj := by
    rcases getElem?_set_self_or hj with ⟨rfl, rfl⟩ | ⟨-, hj⟩
    · exact (h.turns j a ha).trans hprints.symm
    · exact h.turns j th hj
  last := by
    rcases h.last with hzero | hlast | how
    · exact .inl hzero
    · exact .inr (.inl hlast)
    · exact .inr (.inr (exists_owes ha howes how))

theorem Ordered.store {i : Nat} (h : s.Ordered) (ha : s.threads[tid]? = some (.store i s.counter)) :
    ({ s with counter := s.counter + 1 }.goto tid (.unlock i)).Ordered where
  bounds p hp := by
    have hp := h.bounds p hp
    simp only [goto]
    omega
  loaded th hth i' v heq := by
    rcases List.mem_or_eq_of_mem_set hth with hth | rfl
    · have hv := h.loaded th hth i' v heq
      simp only [goto]
      omega
    · cases heq
  below j th hj v hv := by
    rcases getElem?_set_self_or hj with ⟨rfl, rfl⟩ | ⟨-, hj⟩
    · have hle : v ≤ s.counter := h.below j _ ha v hv
      simp only [Child.above, goto]
      omega
    · exact (h.below j th hj v hv).trans (th.above_mono _)
  sorted := h.sorted
  turns j th hj := by
    rcases getElem?_set_self_or hj with ⟨rfl, rfl⟩ | ⟨-, hj⟩
    · have hturns := h.turns j _ ha
      exact hturns
    · exact h.turns j th hj
  last := by
    have htid : tid < s.threads.length := (List.getElem?_eq_some_iff.mp ha).1
    exact .inr (.inr ⟨.unlock i, List.mem_set htid _, rfl⟩)

theorem Ordered.print {i : Nat} {v : Int} {b : Child} (h : s.Ordered)
    (ha : s.threads[tid]? = some (.print i v)) (hb : b = .lock (i + 1) ∨ b = .exited ∧ i = 2) :
    ({ s with printed := s.printed ++ [(tid, v)] }.goto tid b).Ordered := by
  have hv : 1 ≤ v ∧ v ≤ s.counter := h.loaded _ (List.mem_of_getElem? ha) i v rfl
  have hbelow : ∀ w ∈ s.printedBy tid, w < v := by
    intro w hw
    have hle : w ≤ v - 1 := h.below tid _ ha w hw
    omega
  have habove : b.above s.counter = s.counter := by rcases hb with rfl | ⟨rfl, -⟩ <;> rfl
  have hprints : b.prints = i + 1 := by rcases hb with rfl | ⟨rfl, rfl⟩ <;> rfl
  refine ⟨fun p hp => ?_, fun th hth i' w heq => ?_, fun j th hj w hw => ?_, fun j => ?_,
    fun j th hj => ?_, ?_⟩
  · rcases List.mem_append.mp hp with hp | hp
    · exact h.bounds p hp
    · rw [List.mem_singleton.mp hp]
      exact hv
  · rcases List.mem_or_eq_of_mem_set hth with hth | rfl
    · exact h.loaded th hth i' w heq
    · rcases hb with rfl | ⟨rfl, -⟩
      · cases heq
      · cases heq
  · rw [printedBy_print] at hw
    show w ≤ th.above s.counter
    rcases getElem?_set_self_or hj with ⟨rfl, rfl⟩ | ⟨hne, hj⟩
    · rw [if_pos rfl] at hw
      rw [habove]
      rcases List.mem_append.mp hw with hw | hw
      · exact (h.bounds _ (mem_of_printedBy hw)).2
      · rw [List.mem_singleton.mp hw]
        exact hv.2
    · rw [if_neg (Ne.symm hne), List.append_nil] at hw
      exact h.below j th hj w hw
  · rw [printedBy_print]
    by_cases hj : tid = j
    · subst hj
      rw [if_pos rfl]
      refine List.pairwise_append.mpr ⟨h.sorted tid, List.pairwise_singleton _ _, fun w hw x hx => ?_⟩
      rw [List.mem_singleton.mp hx]
      exact hbelow w hw
    · rw [if_neg hj, List.append_nil]
      exact h.sorted j
  · rw [printedBy_print]
    rcases getElem?_set_self_or hj with ⟨rfl, rfl⟩ | ⟨hne, hj⟩
    · have hturns : ((s.printedBy j).length : Int) = i := h.turns j _ ha
      rw [if_pos rfl, List.length_append, List.length_singleton, hprints]
      omega
    · rw [if_neg (Ne.symm hne), List.append_nil]
      exact h.turns j th hj
  · rcases h.last with hzero | ⟨p, hp, hlast⟩ | how
    · exact .inl hzero
    · exact .inr (.inl ⟨p, List.mem_append_left _ hp, hlast⟩)
    · by_cases heq : v = s.counter
      · exact .inr (.inl ⟨(tid, v), List.mem_append_right _ (List.mem_singleton_self _), heq⟩)
      · refine .inr (.inr (exists_owes ha (fun hc => ?_) how))
        exact absurd (of_decide_eq_true hc) heq

theorem Ordered.child (hl : s.Locked) (hc : s.Counted n) (h : s.Ordered)
    (ha : s.threads[tid]? = some a) (hx : s.child tid a = some t) : t.Ordered := by
  cases a with
  | lock i =>
    obtain ⟨-, hx⟩ := Option.ite_none_right_eq_some.mp hx
    cases hx
    exact h.move ha (fun _ _ hb => by cases hb) rfl rfl id
  | load i | unlock i =>
    cases hx
    exact h.move ha (fun _ _ hb => by cases hb) rfl rfl id
  | store i tmp =>
    cases hx
    obtain rfl := hl.loaded _ (List.mem_of_getElem? ha) i tmp rfl
    exact h.store ha
  | reload i =>
    cases hx
    have hone : (i : Int) + 1 ≤ s.counter := hc.added_le ha
    refine h.move ha (fun _ _ hb => ?_) rfl rfl fun _ => decide_eq_true rfl
    cases hb
    omega
  | print i v =>
    cases hx
    have hi : i < 3 := hc.rounds _ (List.mem_of_getElem? ha)
    refine h.print ha ?_
    split
    · exact .inl rfl
    · exact .inr ⟨rfl, by omega⟩
  | exited => cases hx

/-! ## The end -/

structure Inv (n : Nat) (s : Children) : Prop where
  locked : s.Locked
  counted : s.Counted n
  ordered : s.Ordered

/-- The steps that the threads have left. -/
def rank (s : Children) : Int := (s.threads.map Child.weight).sum

theorem inv_init : (children n).init.Inv n where
  locked := by
    refine ⟨fun j t hj => ?_, fun j hj => ?_, fun th hth i tmp heq => ?_⟩
    · rw [List.eq_of_mem_replicate (List.mem_of_getElem? hj)]
      exact iff_of_false Bool.false_ne_true fun hc => by cases hc
    · cases hj
    · cases heq.symm.trans (List.eq_of_mem_replicate hth)
  counted := by
    refine ⟨List.length_replicate, ?_, ?_, fun th hth => ?_⟩
    · simp [children, Child.added]
    · simp [children, Child.prints]
    · rw [List.eq_of_mem_replicate hth]
      exact Nat.zero_lt_succ 2
  ordered := by
    refine ⟨List.forall_mem_nil _, fun th hth i v heq => ?_, fun j th hj v hv => ?_, fun j => .nil,
      fun j th hj => ?_, .inl rfl⟩
    · cases heq.symm.trans (List.eq_of_mem_replicate hth)
    · cases hv
    · rw [List.eq_of_mem_replicate (List.mem_of_getElem? hj)]
      rfl

theorem rank_child (h : s.Counted n) (ha : s.threads[tid]? = some a)
    (hx : s.child tid a = some t) : t.rank + 1 = s.rank := by
  have hround : a.round < 3 := h.rounds a (List.mem_of_getElem? ha)
  have hset {b : Child} (hb : b.weight + 1 = a.weight) :
      ((s.threads.set tid b).map Child.weight).sum + 1 = s.rank := by
    have := sum_map_set (b := b) (f := Child.weight) ha
    rw [rank]
    omega
  cases a with
  | lock i =>
    obtain ⟨-, hx⟩ := Option.ite_none_right_eq_some.mp hx
    cases hx
    exact hset (by simp only [Child.weight]; omega)
  | load i | store i tmp | unlock i | reload i =>
    cases hx
    exact hset (by simp only [Child.weight]; omega)
  | print i v =>
    cases hx
    have hi : i < 3 := hround
    refine hset ?_
    split
    · simp only [Child.weight]
      omega
    · simp only [Child.weight]
      omega
  | exited => cases hx

theorem paced : (children n).Paced (Inv n) rank where
  nonneg {s} h := by
    refine List.sum_nonneg fun x hx => ?_
    obtain ⟨th, hth, rfl⟩ := List.mem_map.mp hx
    have hround := h.counted.rounds th hth
    cases th <;> simp only [Child.round, Child.weight] at hround ⊢ <;> omega
  keeps h hx := by
    obtain ⟨a, ha, hx⟩ := Option.bind_eq_some_iff.mp hx
    exact ⟨h.locked.child ha hx, h.counted.child h.locked ha hx,
      h.ordered.child h.locked h.counted ha hx⟩
  step h hx := by
    obtain ⟨a, ha, hx⟩ := Option.bind_eq_some_iff.mp hx
    exact rank_child h.counted ha hx

theorem rank_init : (children n).init.rank = 18 * n := by
  simp [rank, children, Child.weight]
  omega

/-- There is no deadlock: whoever waits for the mutex gets it in the end. -/
theorem Inv.exited_of_rest (h : s.Inv n) (hrest : ∀ tid, (children n).exec s tid = none) :
    ∀ th ∈ s.threads, th = .exited := by
  have hstuck : ∀ th ∈ s.threads, ∃ tid, s.child tid th = none := by
    intro th hth
    obtain ⟨tid, htid⟩ := List.mem_iff_getElem?.mp hth
    have hnone := hrest tid
    simp only [children, htid, Option.bind_some] at hnone
    exact ⟨tid, hnone⟩
  have hfree : s.mutex1 = none := by
    refine h.locked.exclusive.free h.locked.owner fun th hth => ?_
    obtain ⟨tid, hnone⟩ := hstuck th hth
    cases th with
    | load | store | unlock => cases hnone
    | lock | reload | print | exited => rfl
  intro th hth
  obtain ⟨tid, hnone⟩ := hstuck th hth
  cases th with
  | exited => rfl
  | lock i =>
    rw [child, if_pos hfree] at hnone
    cases hnone
  | load | store | unlock | reload | print => cases hnone

theorem Inv.done (h : s.Inv n) (hexited : ∀ th ∈ s.threads, th = .exited) :
    s.counter = 3 * n ∧ s.printed.length = 3 * n ∧ (∀ tid < n, (s.printedBy tid).length = 3) ∧
      (0 < n → ∃ p ∈ s.printed, p.2 = 3 * (n : Int)) ∧ s.rank = 0 ∧ s.mutex1 = none := by
  have hthreads : s.threads = List.replicate n .exited :=
    List.eq_replicate_iff.mpr ⟨h.counted.length, hexited⟩
  have hcounter := h.counted.counter
  have hprinted := h.counted.printed
  rw [hthreads, List.map_replicate, List.sum_replicate] at hcounter hprinted
  simp only [Child.added, Child.prints, nsmul_eq_mul] at hcounter hprinted
  have hall : s.counter = 3 * n := by omega
  refine ⟨hall, by omega, fun tid htid => ?_, fun hn => ?_, ?_, ?_⟩
  · have hth : s.threads[tid]? = some .exited := by
      rw [hthreads]
      exact List.getElem?_replicate_of_lt htid
    exact Int.ofNat.inj (h.ordered.turns tid _ hth)
  · rcases h.ordered.last with hzero | ⟨p, hp, hlast⟩ | ⟨th, hth, how⟩
    · omega
    · exact ⟨p, hp, hlast.trans hall⟩
    · rw [hexited th hth] at how
      cases how
  · rw [rank, hthreads, List.map_replicate, List.sum_replicate]
    simp [Child.weight]
  · refine h.locked.exclusive.free h.locked.owner fun th hth => ?_
    rw [hexited th hth]
    rfl

end Children

/-- However the children interleave, no addition is lost: they take 18 steps each and leave `3 * n`
in `counter`. Each prints three values between 1 and `3 * n`, every one greater than the one before,
and one of them prints `3 * n`. They never block each other for good. -/
theorem counter_exact (hrun : (children n).run (children n).init tids = some s) :
    tids.length ≤ 18 * n ∧ (∀ p ∈ s.printed, 1 ≤ p.2 ∧ p.2 ≤ 3 * n) ∧
    (∀ tid, (s.printedBy tid).Pairwise (· < ·)) ∧
    ((∀ tid, (children n).exec s tid = none) →
      tids.length = 18 * n ∧ (∀ th ∈ s.threads, th = .exited) ∧ s.counter = 3 * n ∧
      s.printed.length = 3 * n ∧ (∀ tid < n, (s.printedBy tid).length = 3) ∧
      (0 < n → ∃ p ∈ s.printed, p.2 = 3 * (n : Int))) ∧
    ∃ tids' t, (children n).run s tids' = some t ∧ ∀ tid, (children n).exec t tid = none := by
  obtain ⟨hi, hrank⟩ := Children.paced.run Children.inv_init hrun
  rw [Children.rank_init] at hrank
  have hle := hi.counted.counter_le
  have hnonneg := Children.paced.nonneg hi
  refine ⟨by omega, fun p hp => ?_, hi.ordered.sorted, fun hrest => ?_, ?_⟩
  · have hp := hi.ordered.bounds p hp
    exact ⟨hp.1, hp.2.trans hle⟩
  · have hexited := hi.exited_of_rest hrest
    obtain ⟨hcounter, hlength, hturns, hlast, hzero, -⟩ := hi.done hexited
    exact ⟨by omega, hexited, hcounter, hlength, hturns, hlast⟩
  · exact Children.paced.exists_rest hi

/-- The second child stores and prints between the load and the output of the first. -/
def overtakenRun : List Nat := [0, 0, 0, 0, 0, 1, 1, 1, 1, 1, 1, 0]

/-- It prints 2 before the other one prints 1, and six additions are made all the same. -/
theorem counter_exact_overtakenRun :
    ∃ s, (children 2).run (children 2).init overtakenRun = some s ∧
      s.printed = [(1, 2), (0, 1)] ∧
      ∃ tids t, (children 2).run s tids = some t ∧ t.counter = 6 ∧
        (t.printedBy 0).length = 3 ∧ (t.printedBy 1).length = 3 := by
  have hrun : ((children 2).run (children 2).init overtakenRun).map Children.printed =
      some [(1, 2), (0, 1)] := by decide
  obtain ⟨s, hs, hprinted⟩ := Option.map_eq_some_iff.mp hrun
  obtain ⟨-, -, -, -, tids, t, ht, hrest⟩ := counter_exact hs
  have hall : (children 2).run (children 2).init (overtakenRun ++ tids) = some t :=
    (Machine.run_append hs).trans ht
  obtain ⟨-, -, hcounter, -, hturns, -⟩ := (counter_exact hall).2.2.2.1 hrest
  exact ⟨s, hs, hprinted, tids, t, ht, hcounter, hturns 0 (by decide), hturns 1 (by decide)⟩

end KoScripts.Concurrency.Semaphore
