import KoScripts.Concurrency.SemaphoreInvariant

/-! # The shutdown of semaphore.c

`main` waits for the consumer only. The producer goes on for as long as `semaphore2` lets it, that
is until the buffer is full again, and the buffer may be freed and the mutex destroyed before. -/

namespace KoScripts.Concurrency.Semaphore
open Lib

/-- Where `main` is, from its `pthread_join(c)` on. -/
inductive Main
  | join
  | free
  | destroy
  /-- Behind `free(queue.buf)` and `pthread_mutex_destroy(&mutex1)`. -/
  | ret
  | returned
  deriving DecidableEq

structure Process where
  sys : State 5
  main : Main

inductive ProcessLabel
  | thread (l : Label)
  | main

/-- The consumer, thread 0, and the producer, thread 1. -/
def threads (buf : Vector Int 5) : Machine (State 5) Label :=
  producersConsumers [.consumer, .producer] buf

def Process.execMain (p : Process) : Option Process :=
  match p.main with
  | .join =>
    match p.sys.threads[0]? with
    | some Thread.exited => some { p with main := .free }
    | _ => none
  | .free => some { p with main := .destroy }
  | .destroy => some { p with main := .ret }
  | .ret => some { p with main := .returned }
  | .returned => none

/-- The process, whose threads end when `main` returns. -/
def process (buf : Vector Int 5) : Machine Process ProcessLabel where
  init := ⟨(threads buf).init, .join⟩
  exec p
    | .thread l =>
      if p.main = .returned then none
      else ((threads buf).exec p.sys l).map fun sys => { p with sys }
    | .main => p.execMain

/-- The thread is about to call `add_item` or `pop_item`, or to lock `mutex1`. -/
def Thread.uses : Thread → Bool
  | .produce (.lock _) | .produce (.add _) | .consume _ .lock | .consume _ .pop => true
  | _ => false

def Uses (s : State 5) (l : Label) : Prop := ∃ th ∈ s.threads[l.tid]?, th.uses = true

variable {buf : Vector Int 5} {s t : State 5} {p q : Process} {l : Label} {tid rnd : Nat}
  {G : Process → ProcessLabel → Prop}

/-! ## What a step leaves as it is -/

/-- A step of thread `tid` moves that thread, and gives the mutex to no other. -/
structure Moved (tid : Nat) (th : Thread) (s t : State 5) : Prop where
  threads : t.threads = s.threads.set tid th
  mutex1 : ∀ j, t.mutex1 = some j → j = tid ∨ s.mutex1 = some j

theorem produce_moved {pc : Produce} (h : s.Inv) (ha : s.threads[tid]? = some (.produce pc))
    (hx : s.produce tid rnd pc = some t) : ∃ pc', Moved tid (.produce pc') s t := by
  cases pc with
  | semWait =>
    obtain ⟨-, hx⟩ := Option.ite_none_right_eq_some.mp hx
    cases hx
    exact ⟨_, rfl, fun _ => .inr⟩
  | rand =>
    cases hx
    exact ⟨_, rfl, fun _ => .inr⟩
  | lock r =>
    obtain ⟨-, hx⟩ := Option.ite_none_right_eq_some.mp hx
    cases hx
    exact ⟨_, rfl, fun _ hj => .inl (Option.some.inj hj).symm⟩
  | add r =>
    have hsafe : t.faulted = false := (h.add ha hx).safe
    simp only [State.produce] at hx
    split at hx
    · cases hx
      exact ⟨_, rfl, fun _ => .inr⟩
    · cases hx
      cases hsafe
  | unlock =>
    cases hx
    exact ⟨_, rfl, fun _ hj => by cases hj⟩
  | semPost =>
    cases hx
    exact ⟨_, rfl, fun _ => .inr⟩

theorem consume_moved {i : Nat} {pc : Consume} (h : s.Inv)
    (ha : s.threads[tid]? = some (.consume i pc)) (hx : s.consume tid i pc = some t) :
    ∃ th, (th = .exited ∨ ∃ j pc', th = .consume j pc') ∧ Moved tid th s t := by
  cases pc with
  | semWait =>
    obtain ⟨-, hx⟩ := Option.ite_none_right_eq_some.mp hx
    cases hx
    exact ⟨_, .inr ⟨_, _, rfl⟩, rfl, fun _ => .inr⟩
  | lock =>
    obtain ⟨-, hx⟩ := Option.ite_none_right_eq_some.mp hx
    cases hx
    exact ⟨_, .inr ⟨_, _, rfl⟩, rfl, fun _ hj => .inl (Option.some.inj hj).symm⟩
  | pop =>
    have hsafe := (h.pop ha hx).safe
    simp only [State.consume] at hx
    split at hx
    · cases hx
      exact ⟨_, .inr ⟨_, _, rfl⟩, rfl, fun _ => .inr⟩
    · cases hx
      cases hsafe
  | unlock r =>
    cases hx
    exact ⟨_, .inr ⟨_, _, rfl⟩, rfl, fun _ hj => by cases hj⟩
  | semPost r =>
    cases hx
    refine ⟨_, ?_, rfl, fun _ => .inr⟩
    split
    · exact .inr ⟨_, _, rfl⟩
    · exact .inl rfl

/-! ## The two threads -/

structure Shape (s : State 5) : Prop where
  inv : s.Inv
  threads : ∃ c pc, (c = .exited ∨ ∃ i pc', c = .consume i pc') ∧ s.threads = [c, .produce pc]
  mutex1 : ∀ j, s.mutex1 = some j → j < 2

theorem Moved.shape {th : Thread} (hm : Moved tid th s t) (h : Shape s) (ht : t.Inv)
    (htid : tid < 2)
    (hth : ∃ c pc, (c = .exited ∨ ∃ i pc', c = .consume i pc') ∧ t.threads = [c, .produce pc]) :
    Shape t where
  inv := ht
  threads := hth
  mutex1 j hj := by
    rcases hm.mutex1 j hj with rfl | hj
    · exact htid
    · exact h.mutex1 j hj

theorem Shape.exec (h : Shape s) (hx : (Semaphore.threads buf).exec s l = some t) : Shape t := by
  obtain ⟨-, hx⟩ := Option.ite_none_left_eq_some.mp hx
  obtain ⟨c, pc, hc, hthreads⟩ := h.threads
  have htid {th : Thread} (ha : s.threads[l.tid]? = some th) :
      l.tid = 0 ∧ th = c ∨ l.tid = 1 ∧ th = .produce pc := by
    rw [hthreads] at ha
    have hlt : l.tid < 2 := (List.getElem?_eq_some_iff.mp ha).1
    have hcases : l.tid = 0 ∨ l.tid = 1 := by omega
    rcases hcases with heq | heq
    · rw [heq] at ha
      exact .inl ⟨heq, (Option.some.inj ha).symm⟩
    · rw [heq] at ha
      exact .inr ⟨heq, (Option.some.inj ha).symm⟩
  split at hx
  · next pc' ha =>
    obtain ⟨pc'', hm⟩ := produce_moved h.inv ha hx
    rcases htid ha with ⟨-, heq⟩ | ⟨heq, -⟩
    · rcases hc with hc | ⟨_, _, hc⟩
      all_goals
        rw [hc] at heq
        cases heq
    · refine hm.shape h (h.inv.produce ha hx) (by omega) ⟨c, pc'', hc, ?_⟩
      rw [hm.threads, hthreads, heq]
      rfl
  · next i pc' ha =>
    obtain ⟨th, hth, hm⟩ := consume_moved h.inv ha hx
    rcases htid ha with ⟨heq, -⟩ | ⟨-, heq⟩
    · refine hm.shape h (h.inv.consume ha hx) (by omega) ⟨th, pc, hth, ?_⟩
      rw [hm.threads, hthreads, heq]
      rfl
    · cases heq
  · cases hx
  · cases hx

theorem shape_init : Shape (Semaphore.threads buf).init where
  inv := inv_init (by decide)
  threads := ⟨_, _, .inr ⟨_, _, rfl⟩, rfl⟩
  mutex1 := nofun

/-- The consumer has been joined. -/
def Joined (p : Process) : Prop :=
  p.main ≠ .join → ∃ pc, p.sys.threads = [.exited, .produce pc]

/-- A thread that has been joined takes no step. -/
theorem exec_joined {pc : Produce} (h : s.threads = [.exited, .produce pc])
    (hx : (Semaphore.threads buf).exec s l = some t) : s.produce 1 l.rnd pc = some t := by
  obtain ⟨-, hx⟩ := Option.ite_none_left_eq_some.mp hx
  rw [h] at hx
  obtain ⟨tid, rnd⟩ := l
  match tid, hx with
  | 0, hx => cases hx
  | 1, hx => exact hx
  | n + 2, hx => cases hx

inductive MainStep (p : Process) : Process → Prop
  | join : p.main = .join → p.sys.threads[0]? = some .exited → MainStep p { p with main := .free }
  | free : p.main = .free → MainStep p { p with main := .destroy }
  | destroy : p.main = .destroy → MainStep p { p with main := .ret }
  | ret : p.main = .ret → MainStep p { p with main := .returned }

theorem mainStep_of_exec (hx : p.execMain = some q) : MainStep p q := by
  unfold Process.execMain at hx
  split at hx
  · next hmain =>
    split at hx
    · next hexited => cases hx; exact .join hmain hexited
    · cases hx
  · next hmain => cases hx; exact .free hmain
  · next hmain => cases hx; exact .destroy hmain
  · next hmain => cases hx; exact .ret hmain
  · cases hx

theorem MainStep.sys (hx : MainStep p q) : q.sys = p.sys := by
  cases hx <;> rfl

theorem Joined.main (h : Shape p.sys) (hj : Joined p) (hx : MainStep p q) : Joined q := by
  cases hx with
  | join _ hexited =>
    intro _
    obtain ⟨c, pc, -, hthreads⟩ := h.threads
    rw [hthreads] at hexited
    cases hexited
    exact ⟨pc, hthreads⟩
  | free hmain | destroy hmain | ret hmain =>
    intro _
    apply hj
    rw [hmain]
    nofun

theorem process_inv (h : (process buf).Reach G p) : Shape p.sys ∧ Joined p := by
  apply h.invariant (I := fun p => Shape p.sys ∧ Joined p) ⟨shape_init, fun hc => absurd rfl hc⟩
  intro p q a hi _ hx
  cases a with
  | thread l =>
    obtain ⟨-, hx⟩ := Option.ite_none_left_eq_some.mp hx
    obtain ⟨t, ht, rfl⟩ := Option.map_eq_some_iff.mp hx
    refine ⟨hi.1.exec ht, fun hmain => ?_⟩
    obtain ⟨pc, hthreads⟩ := hi.2 hmain
    have hx := exec_joined hthreads ht
    obtain ⟨pc', hm⟩ := produce_moved hi.1.inv (by rw [hthreads]; rfl) hx
    refine ⟨pc', ?_⟩
    rw [hm.threads, hthreads]
    rfl
  | main =>
    have hstep := mainStep_of_exec hx
    exact ⟨hstep.sys ▸ hi.1, hi.2.main hi.1 hstep⟩

/-! ## A full buffer -/

/-- The buffer is full when `main` destroys the mutex. -/
def FullAtDestroy : Process → ProcessLabel → Prop
  | p, .main => p.main = .destroy → isFull p.sys.queue = true
  | _, .thread _ => True

/-- With the consumer gone, the buffer is full when the producer owns no entry and is granted
none. -/
theorem Shape.isFull_iff {pc : Produce} (h : Shape s)
    (hthreads : s.threads = [.exited, .produce pc]) :
    isFull s.queue = true ↔ s.semaphore2 = 0 ∧ (Thread.produce pc).ownsSlot = false := by
  have hslots := h.inv.slots
  have hcount : s.threads.countP Thread.ownsSlot = (Thread.produce pc).ownsSlot.toNat := by
    rw [hthreads]
    cases pc <;> rfl
  rw [h.inv.indices.isFull_iff, ← Bool.toNat_eq_zero]
  omega

/-- It stays full. -/
theorem Shape.full_step {pc : Produce} (h : Shape s)
    (hthreads : s.threads = [.exited, .produce pc]) (hfull : isFull s.queue = true)
    (hx : s.produce 1 rnd pc = some t) : isFull t.queue = true := by
  obtain ⟨hzero, hslot⟩ := (h.isFull_iff hthreads).mp hfull
  cases pc with
  | semWait =>
    obtain ⟨hpos, -⟩ := Option.ite_none_right_eq_some.mp hx
    omega
  | rand | lock | add => cases hslot
  | unlock | semPost =>
    cases hx
    exact hfull

theorem full_of_reach (h : (process buf).Reach FullAtDestroy p) (hmain : p.main = .ret) :
    isFull p.sys.queue = true := by
  induction h with
  | init => cases hmain
  | @step p q a hr hg hx ih =>
    obtain ⟨hshape, hjoined⟩ := process_inv hr
    cases a with
    | thread l =>
      obtain ⟨-, hx⟩ := Option.ite_none_left_eq_some.mp hx
      obtain ⟨t, ht, rfl⟩ := Option.map_eq_some_iff.mp hx
      obtain ⟨pc, hthreads⟩ := hjoined (by rw [hmain]; nofun)
      exact hshape.full_step hthreads (ih hmain) (exec_joined hthreads ht)
    | main =>
      have hstep : MainStep p q := mainStep_of_exec hx
      rw [hstep.sys]
      cases hstep with
      | destroy hdestroy => exact hg hdestroy
      | join | free | ret => cases hmain

theorem not_uses_of_full (h : Shape p.sys) (hj : Joined p) (hmain : p.main = .ret)
    (hfull : isFull p.sys.queue = true) (l : Label) : ¬Uses p.sys l := by
  rintro ⟨th, hth, huses⟩
  obtain ⟨pc, hthreads⟩ := hj (by rw [hmain]; nofun)
  obtain ⟨-, hslot⟩ := (h.isFull_iff hthreads).mp hfull
  rw [hthreads] at hth
  rcases List.mem_pair.mp (List.mem_of_getElem? hth) with rfl | rfl
  · cases huses
  · cases pc with
    | lock | add => cases hslot
    | semWait | rand | unlock | semPost => cases huses

/-! ## A buffer that is not full -/

/-- The process can go on to a state in which a thread executes such a call. -/
def UsesLater (buf : Vector Int 5) (p : Process) : Prop :=
  ∃ ls q l, (process buf).run p ls = some q ∧ q.main = .ret ∧ Uses q.sys l ∧
    ((process buf).exec q (.thread l)).isSome = true

theorem UsesLater.of_exec {a : ProcessLabel} (hx : (process buf).exec p a = some q)
    (h : UsesLater buf q) : UsesLater buf p := by
  obtain ⟨ls, r, l, hr, hrest⟩ := h
  exact ⟨a :: ls, r, l, (Machine.run_cons_of_exec hx).trans hr, hrest⟩

/-- The producer, at `pc`, with the consumer gone and `main` at its `return`. -/
structure AtReturn (pc : Produce) (p : Process) : Prop where
  main : p.main = .ret
  shape : Shape p.sys
  threads : p.sys.threads = [.exited, .produce pc]

variable {pc pc' : Produce}

theorem AtReturn.exec (h : AtReturn pc p) (hx : p.sys.produce 1 rnd pc = some t) :
    (process buf).exec p (.thread ⟨1, rnd⟩) = some ⟨t, .ret⟩ := by
  have hsys : (Semaphore.threads buf).exec p.sys ⟨1, rnd⟩ = some t := by
    simp only [Semaphore.threads, producersConsumers, h.shape.inv.safe, h.threads]
    exact hx
  show (if p.main = .returned then none
    else ((Semaphore.threads buf).exec p.sys ⟨1, rnd⟩).map fun sys => { p with sys }) = _
  rw [h.main, hsys]
  rfl

theorem AtReturn.usesLater_of (h : AtReturn pc p) (hx : p.sys.produce 1 rnd pc = some t)
    (ht : t.threads = p.sys.threads.set 1 (.produce pc'))
    (hnext : AtReturn pc' ⟨t, .ret⟩ → UsesLater buf ⟨t, .ret⟩) : UsesLater buf p := by
  have hexec : (process buf).exec p (.thread ⟨1, rnd⟩) = some ⟨t, .ret⟩ := h.exec hx
  refine .of_exec hexec (hnext ⟨rfl, ?_, ?_⟩)
  · obtain ⟨-, hexec⟩ := Option.ite_none_left_eq_some.mp hexec
    obtain ⟨t', ht', heq⟩ := Option.map_eq_some_iff.mp hexec
    obtain rfl : t' = t := congrArg Process.sys heq
    exact h.shape.exec ht'
  · rw [ht, h.threads]
    rfl

/-- Nobody but the producer can hold the mutex, and it does only in its critical section. -/
theorem AtReturn.mutex1 (h : AtReturn pc p) (hout : (Thread.produce pc).inSection = false) :
    p.sys.mutex1 = none := by
  cases hm : p.sys.mutex1 with
  | none => rfl
  | some j =>
    have hlt := h.shape.mutex1 j hm
    have hin : ∀ th, p.sys.threads[j]? = some th → th.inSection = true := fun th hth =>
      (h.shape.inv.exclusive j th hth).mpr hm
    rw [h.threads] at hin
    have hj : j = 0 ∨ j = 1 := by omega
    rcases hj with rfl | rfl
    · cases hin _ rfl
    · rw [hin _ rfl] at hout
      cases hout

theorem AtReturn.usesLater_here (h : AtReturn pc p) (huses : (Thread.produce pc).uses = true)
    (hx : p.sys.produce 1 rnd pc = some t) : UsesLater buf p := by
  refine ⟨[], p, ⟨1, rnd⟩, rfl, h.main, ⟨_, ?_, huses⟩, ?_⟩
  · rw [h.threads]
    rfl
  · rw [h.exec hx]
    rfl

theorem AtReturn.lock {r : Nat} (h : AtReturn (.lock r) p) : UsesLater buf p := by
  have hx : p.sys.produce 1 0 (.lock r) =
      some ({ p.sys with mutex1 := some 1 }.goto 1 (.produce (.add r))) := if_pos (h.mutex1 rfl)
  exact h.usesLater_here rfl hx

theorem AtReturn.rand (h : AtReturn .rand p) : UsesLater buf p := by
  have hx : p.sys.produce 1 0 .rand = some (p.sys.goto 1 (.produce (.lock 0))) := rfl
  exact h.usesLater_of hx rfl fun hnext => hnext.lock

theorem AtReturn.semWait (h : AtReturn .semWait p) (hpos : 0 < p.sys.semaphore2) :
    UsesLater buf p := by
  have hx : p.sys.produce 1 0 .semWait =
      some ({ p.sys with semaphore2 := p.sys.semaphore2 - 1 }.goto 1 (.produce .rand)) :=
    if_pos hpos
  exact h.usesLater_of hx rfl fun hnext => hnext.rand

theorem AtReturn.semPost (h : AtReturn .semPost p) (hpos : 0 < p.sys.semaphore2) :
    UsesLater buf p := by
  have hx : p.sys.produce 1 0 .semPost =
      some ({ p.sys with semaphore1 := p.sys.semaphore1 + 1 }.goto 1 (.produce .semWait)) := rfl
  exact h.usesLater_of hx rfl fun hnext => hnext.semWait hpos

/-- The rest of its round leads the producer back to the critical section. -/
theorem AtReturn.usesLater (h : AtReturn pc p) (hfull : ¬isFull p.sys.queue = true) :
    UsesLater buf p := by
  have hleft : (Thread.produce pc).ownsSlot = false → 0 < p.sys.semaphore2 := fun hslot =>
    Nat.pos_of_ne_zero fun hzero => hfull ((h.shape.isFull_iff h.threads).mpr ⟨hzero, hslot⟩)
  cases pc with
  | semWait => exact h.semWait (hleft rfl)
  | rand => exact h.rand
  | lock r => exact h.lock
  | add r =>
    obtain ⟨t, hx⟩ : ∃ t, p.sys.produce 1 0 (.add r) = some t := by
      simp only [State.produce]
      split
      · exact ⟨_, rfl⟩
      · exact ⟨_, rfl⟩
    exact h.usesLater_here rfl hx
  | unlock =>
    have hx : p.sys.produce 1 0 .unlock =
        some ({ p.sys with mutex1 := none }.goto 1 (.produce .semPost)) := rfl
    exact h.usesLater_of hx rfl fun hnext => hnext.semPost (hleft rfl)
  | semPost => exact h.semPost (hleft rfl)

/-- If the buffer is full whenever `main` destroys the mutex, no thread calls `add_item` or
`pop_item` or locks the mutex after that. And from a destruction with a buffer that is not full,
the process can go on to a state in which one does. -/
theorem shutdown_order (buf : Vector Int 5) :
    (∀ p, (process buf).Reach FullAtDestroy p → p.main = .ret → ∀ l, ¬Uses p.sys l) ∧
    (∀ p a q, (process buf).Reach Machine.anyStep p → ¬FullAtDestroy p a →
      (process buf).exec p a = some q →
        ∃ ls r l, (process buf).run q ls = some r ∧ r.main = .ret ∧ Uses r.sys l ∧
          ((process buf).exec r (.thread l)).isSome = true) := by
  constructor
  · intro p h hmain
    obtain ⟨hshape, hjoined⟩ := process_inv h
    exact not_uses_of_full hshape hjoined hmain (full_of_reach h hmain)
  · intro p a q h hg hx
    obtain ⟨hshape, hjoined⟩ := process_inv h
    cases a with
    | thread l => exact absurd trivial hg
    | main =>
      obtain ⟨hmain, hfull⟩ := Classical.not_imp.mp hg
      obtain ⟨pc, hthreads⟩ := hjoined (by rw [hmain]; nofun)
      have hx : p.execMain = some q := hx
      rw [Process.execMain, hmain] at hx
      cases hx
      exact AtReturn.usesLater ⟨rfl, hshape, hthreads⟩ hfull

/-- A round of the producer and one of the consumer. -/
def round : List ProcessLabel :=
  List.replicate 6 (.thread ⟨1, 7⟩) ++ List.replicate 5 (.thread ⟨0, 0⟩)

/-- Eight values are produced and consumed, `main` frees and destroys, and the producer waits for
the next free entry. -/
def earlyShutdownRun : List ProcessLabel :=
  (List.replicate 8 round).flatten ++ [.main, .main, .main, .thread ⟨1, 7⟩, .thread ⟨1, 7⟩]

/-- It then locks the mutex that has been destroyed. -/
theorem shutdown_order_earlyShutdownRun : ∃ p q : Process,
    (process (Vector.replicate 5 0)).Reach Machine.anyStep p ∧ p.main = .ret ∧ Uses p.sys ⟨1, 0⟩ ∧
      (process (Vector.replicate 5 0)).exec p (.thread ⟨1, 0⟩) = some q := by
  have hrun : ((process (Vector.replicate 5 0)).run (process (Vector.replicate 5 0)).init
      earlyShutdownRun).map (fun p => (decide (p.main = .ret),
        p.sys.threads[(1 : Nat)]?.any Thread.uses,
        ((process (Vector.replicate 5 0)).exec p (.thread ⟨1, 0⟩)).isSome)) =
      some (true, true, true) := by decide +kernel
  obtain ⟨p, hp, heq⟩ := Machine.reach_of_run hrun
  simp only [Prod.mk.injEq, decide_eq_true_eq] at heq
  obtain ⟨hmain, huses, hsome⟩ := heq
  obtain ⟨q, hq⟩ := Option.isSome_iff_exists.mp hsome
  refine ⟨p, q, hp, hmain, ?_, hq⟩
  obtain ⟨th, hth, huses⟩ := (Option.any_eq_true _ _).mp huses
  exact ⟨th, hth, huses⟩

end KoScripts.Concurrency.Semaphore
