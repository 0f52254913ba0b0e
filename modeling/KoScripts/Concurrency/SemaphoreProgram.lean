import KoScripts.Concurrency.SemaphoreChild
import KoScripts.Concurrency.SemaphoreRest
import KoScripts.Concurrency.SemaphoreShutdown

/-! # The whole of semaphore.c

`main` joins its two children, then the consumer, frees the buffer and destroys the mutex, while the
producer goes on. A use of the buffer or of the mutex behind that is undefined, and so is the
destruction of a mutex that is held; a run that comes to one of them is over. The others come to the
`return` of `main`. -/

namespace KoScripts.Concurrency.Semaphore
open Lib

/-! ## The program -/

/-- The thread is about to call `add_item` or `pop_item`. -/
def Thread.usesBuf : Thread → Bool
  | .produce (.add _) | .consume _ .pop => true
  | _ => false

/-- The thread is about to lock or unlock `mutex1`. -/
def Thread.usesMutex : Thread → Bool
  | .produce (.lock _) | .produce .unlock | .consume _ .lock | .consume _ (.unlock _) => true
  | _ => false

/-- The step is undefined: `main` destroys the mutex while a thread holds it, or a thread uses the
buffer behind `free`, or the mutex behind `pthread_mutex_destroy`. -/
def Process.undefined (p : Process) : ProcessLabel → Bool
  | .main => p.main = .destroy && p.sys.mutex1.isSome
  | .thread l => p.sys.threads[l.tid]?.any fun th =>
      (p.main = .destroy || p.main = .ret) && th.usesBuf || p.main = .ret && th.usesMutex

/-- Where `main` is: in the join of child `t`, or behind its `printf("done\n")`. -/
inductive Program
  | joining (c : Children) (t : Nat)
  | working (c : Children) (p : Process)
  | undefined

inductive ProgramLabel
  | child (tid : Nat)
  | main
  | thread (l : Label)

def Process.work (buf : Vector Int 5) (c : Children) (p : Process) (l : ProcessLabel) :
    Option Program :=
  if p.undefined l then some .undefined else ((process buf).exec p l).map fun p => .working c p

/-- `main` with its two children, and then with the consumer and the producer, on the entries `buf`
of the array that `malloc` gives. All of them lock the same mutex. -/
def program (buf : Vector Int 5) : Machine Program ProgramLabel where
  init := .joining (children 2).init 0
  exec
    | .joining c t, .child tid => ((children 2).exec c tid).map fun c => .joining c t
    | .joining c t, .main =>
      match c.threads[t]? with
      | some .exited =>
        if t + 1 < 2 then some (.joining c (t + 1))
        else
          some (.working c { (process buf).init with
            sys := { (process buf).init.sys with mutex1 := c.mutex1 } })
      | _ => none
    | .joining _ _, .thread _ => none
    | .working _ _, .child _ => none
    | .working c p, .main => p.work buf c .main
    | .working c p, .thread l => p.work buf c (.thread l)
    | .undefined, _ => none

/-- `main` has returned, with six in `counter`, and with a consumer that has popped the first eight
values produced. -/
def Program.Returned (x : Program) : Prop :=
  ∃ c p, x = .working c p ∧ c.counter = 6 ∧ p.main = .returned ∧ p.sys.popped.length = 8 ∧
    p.sys.popped.map Prod.fst = (p.sys.added.map Prod.fst).take 8

/-- `main` has not yet freed the buffer. -/
def Program.BeforeFree : Program → Prop
  | .joining _ _ => True
  | .working _ p => p.main = .join ∨ p.main = .free
  | .undefined => False

/-- The buffer is full, and nobody holds the mutex. -/
def Process.Settled (p : Process) : Prop := isFull p.sys.queue = true ∧ p.sys.mutex1 = none

instance (p : Process) : Decidable p.Settled :=
  inferInstanceAs (Decidable (isFull p.sys.queue = true ∧ p.sys.mutex1 = none))

def SettledAtFree : Program → ProgramLabel → Prop
  | .working _ p, .main => p.main = .free → p.Settled
  | _, _ => True

instance (x : Program) (m : ProgramLabel) : Decidable (SettledAtFree x m) :=
  match x, m with
  | .working _ p, .main => inferInstanceAs (Decidable (p.main = .free → p.Settled))
  | .working _ _, .child _ | .working _ _, .thread _ => .isTrue trivial
  | .joining _ _, _ | .undefined, _ => .isTrue trivial

/-! ## The steps that are left -/

def Main.left : Main → Int
  | .join => 4
  | .free => 3
  | .destroy => 2
  | .ret => 1
  | .returned => 0

def Process.rank (p : Process) : Int := p.sys.rank + p.main.left

def Program.rank : Program → Int
  | .joining c t => c.rank + (2 - t) + 116
  | .working _ p => p.rank
  | .undefined => 0

variable {entries : Vector Int 5} {p q : Process} {l : ProcessLabel} {x y : Program}
  {m : ProgramLabel} {ms : List ProgramLabel} {c : Children}

/-- A state of the buffer's process, with its counts. -/
structure Process.Counted (entries : Vector Int 5) (p : Process) : Prop where
  reach : (process entries).Reach Machine.anyStep p
  counted : p.sys.Counted [.consumer, .producer]

def Program.Inv (entries : Vector Int 5) : Program → Prop
  | .joining c t => c.Inv 2 ∧ t < 2 ∧ ∀ j < t, c.threads[j]? = some .exited
  | .working c p => c.Inv 2 ∧ (∀ th ∈ c.threads, th = .exited) ∧ p.Counted entries
  | .undefined => True

namespace Process

theorem Counted.exec (h : p.Counted entries) (hx : (process entries).exec p l = some q) :
    q.Counted entries ∧ q.rank + 1 = p.rank := by
  have hreach : (process entries).Reach Machine.anyStep q := h.reach.step trivial hx
  cases l with
  | thread l =>
    obtain ⟨-, hx⟩ := Option.ite_none_left_eq_some.mp hx
    obtain ⟨t, ht, rfl⟩ := Option.map_eq_some_iff.mp hx
    obtain ⟨a, th, ha, hcounts⟩ := counts_exec (process_inv h.reach).1.inv h.counted ht
    have hrank := hcounts.rank_eq ha
    refine ⟨⟨hreach, hcounts.counted h.counted ha⟩, ?_⟩
    simp only [rank]
    omega
  | main =>
    have hstep : MainStep p q := mainStep_of_exec hx
    refine ⟨⟨hreach, hstep.sys ▸ h.counted⟩, ?_⟩
    cases hstep with
    | join hmain | free hmain | destroy hmain | ret hmain =>
      simp only [rank, hmain, Main.left]
      omega

theorem Counted.sys_rank_nonneg (h : p.Counted entries) : 0 ≤ p.sys.rank := by
  have hpaced : (threads entries).Paced
      (fun s => s.Inv ∧ s.Counted [.consumer, .producer]) State.rank := paced
  exact hpaced.nonneg ⟨(process_inv h.reach).1.inv, h.counted⟩

theorem Counted.rank_nonneg (h : p.Counted entries) : 0 ≤ p.rank := by
  have hleft : 0 ≤ p.main.left := by cases p.main <;> simp only [Main.left] <;> omega
  exact Int.add_nonneg h.sys_rank_nonneg hleft

/-- Nothing is undefined in front of `free`, or behind the `return`. -/
theorem main_of_undefined (h : p.undefined l = true) : p.main = .destroy ∨ p.main = .ret := by
  cases hmain : p.main with
  | destroy => exact .inl rfl
  | ret => exact .inr rfl
  | join | free | returned =>
    cases l with
    | main => simp [undefined, hmain] at h
    | thread l => simp [undefined, hmain] at h

theorem Counted.work (h : p.Counted entries) (hx : p.work entries c l = some x) :
    x = .undefined ∧ 1 ≤ p.rank ∨
      ∃ q, x = .working c q ∧ q.Counted entries ∧ q.rank + 1 = p.rank ∧
        (process entries).exec p l = some q := by
  unfold Process.work at hx
  split at hx
  · next hundefined =>
    cases hx
    have hsys := h.sys_rank_nonneg
    refine .inl ⟨rfl, ?_⟩
    rcases main_of_undefined hundefined with hmain | hmain
    · simp only [rank, hmain, Main.left]
      omega
    · simp only [rank, hmain, Main.left]
      omega
  · obtain ⟨q, hq, rfl⟩ := Option.map_eq_some_iff.mp hx
    obtain ⟨hcounted, hrank⟩ := h.exec hq
    exact .inr ⟨q, rfl, hcounted, hrank, hq⟩

theorem counted_start (hfree : c.mutex1 = none) :
    Counted entries { (process entries).init with
      sys := { (process entries).init.sys with mutex1 := c.mutex1 } } ∧
    rank { (process entries).init with
      sys := { (process entries).init.sys with mutex1 := c.mutex1 } } = 116 := by
  rw [hfree]
  refine ⟨⟨.init, counted_init⟩, ?_⟩
  have hrank : (threads entries).init.rank = 112 := rank_init
  exact congrArg (· + 4) hrank

end Process

theorem Program.Inv.exec (h : x.Inv entries) (hx : (program entries).exec x m = some y) :
    y.Inv entries ∧ y.rank + 1 ≤ x.rank := by
  cases x with
  | joining c t =>
    obtain ⟨hc, ht, hjoined⟩ := h
    cases m with
    | child tid =>
      obtain ⟨d, hd, rfl⟩ := Option.map_eq_some_iff.mp hx
      have hrank := Children.paced.step hc hd
      refine ⟨⟨Children.paced.keeps hc hd, ht, fun j hj => ?_⟩, ?_⟩
      · obtain ⟨a, ha, hd⟩ := Option.bind_eq_some_iff.mp hd
        obtain ⟨hne, b, hthreads⟩ := Children.child_threads hd
        have hold := hjoined j hj
        rw [hthreads, List.getElem?_set_ne, hold]
        rintro rfl
        exact hne (Option.some.inj (ha.symm.trans hold))
      · simp only [Program.rank]
        omega
    | main =>
      simp only [program] at hx
      split at hx
      · next hexited =>
        have hbelow : ∀ j < t + 1, c.threads[j]? = some .exited := by
          intro j hj
          rcases Nat.lt_succ_iff_lt_or_eq.mp hj with hj | rfl
          · exact hjoined j hj
          · exact hexited
        split at hx
        · next hlt =>
          cases hx
          refine ⟨⟨hc, hlt, hbelow⟩, ?_⟩
          simp only [Program.rank]
          omega
        · cases hx
          have hall : ∀ th ∈ c.threads, th = .exited := by
            intro th hth
            obtain ⟨j, hj⟩ := List.mem_iff_getElem?.mp hth
            have hlt : j < c.threads.length := (List.getElem?_eq_some_iff.mp hj).1
            rw [hc.counted.length] at hlt
            exact Option.some.inj (hj.symm.trans (hbelow j (by omega)))
          obtain ⟨-, -, -, -, hzero, hfree⟩ := hc.done hall
          obtain ⟨hcounted, hstart⟩ := Process.counted_start hfree
          refine ⟨⟨hc, hall, hcounted⟩, ?_⟩
          simp only [Program.rank, hstart, hzero]
          omega
      · cases hx
    | thread l => cases hx
  | working c p =>
    obtain ⟨hc, hall, hp⟩ := h
    cases m with
    | child tid => cases hx
    | main | thread l =>
      rcases hp.work hx with ⟨rfl, hpos⟩ | ⟨q, rfl, hcounted, hrank, -⟩
      · exact ⟨trivial, hpos⟩
      · exact ⟨⟨hc, hall, hcounted⟩, hrank.le⟩
  | undefined => cases hx

theorem Program.Inv.rank_nonneg (h : x.Inv entries) : 0 ≤ x.rank := by
  cases x with
  | joining c t =>
    obtain ⟨hc, ht, -⟩ := h
    have := Children.paced.nonneg hc
    simp only [Program.rank]
    omega
  | working c p => exact h.2.2.rank_nonneg
  | undefined => exact Int.le_refl 0

theorem ranked_program :
    (program entries).Ranked (Program.Inv entries) Program.rank fun _ => 0 where
  nonneg h := h.rank_nonneg
  keeps h hx := (h.exec hx).1
  step h hx := by
    have := (h.exec hx).2
    omega

theorem inv_program_init (entries : Vector Int 5) :
    (program entries).init.Inv entries ∧ (program entries).init.rank = 154 := by
  refine ⟨⟨Children.inv_init, Nat.zero_lt_succ 1, fun j hj => by cases hj⟩, ?_⟩
  have hchildren : (children 2).init.rank = 36 := Children.rank_init
  simp only [program, Program.rank, hchildren]
  omega

/-! ## Where nothing can go on -/

/-- The threads that cannot go on have left the buffer full and the mutex free. -/
theorem Process.Counted.settled (h : p.Counted entries) (hmain : p.main ≠ .returned)
    (hrest : ∀ l, (process entries).exec p (.thread l) = none) :
    p.sys.threads[0]? = some .exited ∧ p.Settled := by
  have hshape := (process_inv h.reach).1
  have hrestSys : ∀ l, (threads entries).exec p.sys l = none := by
    intro l
    have hnone : (if p.main = .returned then none
        else ((threads entries).exec p.sys l).map fun sys => { p with sys }) = none := hrest l
    rw [if_neg hmain, Option.map_eq_none_iff] at hnone
    exact hnone
  have hidle := idle_of_rest (by decide) (by decide) hshape.inv h.counted hrestSys
  refine ⟨?_, hshape.inv.indices.isFull_iff.mpr hidle.full, ?_⟩
  · obtain ⟨c, pc, hc, hthreads⟩ := hshape.threads
    rw [hthreads]
    rcases hidle.threads c (by rw [hthreads]; exact List.mem_cons_self) with rfl | rfl
    · rfl
    · rcases hc with hc | ⟨_, _, hc⟩
      · cases hc
      · cases hc
  · refine hshape.inv.exclusive.free h.counted.owner fun th hth => ?_
    rcases hidle.threads th hth with rfl | rfl
    · rfl
    · rfl

/-- The consumer exits, so `main` is not left in its join. -/
theorem Process.Counted.main_moves (h : p.Counted entries) (hmain : p.main ≠ .returned)
    (hrest : ∀ l, (process entries).exec p (.thread l) = none) : p.execMain ≠ none := by
  obtain ⟨hexited, -⟩ := h.settled hmain hrest
  intro hnone
  unfold Process.execMain at hnone
  split at hnone
  · rw [hexited] at hnone
    cases hnone
  · cases hnone
  · cases hnone
  · cases hnone
  · next hreturned => exact hmain hreturned

theorem Process.Counted.popped (h : p.Counted entries) (hmain : p.main = .returned) :
    p.sys.popped.length = 8 ∧
      p.sys.popped.map Prod.fst = (p.sys.added.map Prod.fst).take 8 := by
  obtain ⟨hshape, hjoined⟩ := process_inv h.reach
  obtain ⟨pc, hthreads⟩ := hjoined (by rw [hmain]; nofun)
  have hpopped := h.counted.popped
  rw [hthreads] at hpopped
  have hlength : p.sys.popped.length = 8 := Int.ofNat.inj hpopped
  refine ⟨hlength, ?_⟩
  have hmap : (p.sys.popped.map Prod.fst).length = 8 := (List.length_map _).trans hlength
  rw [hshape.inv.history, ← hmap, List.take_left]

/-- The children exit, so `main` is not left in a join. -/
theorem Program.Inv.joining_moves {t : Nat} (h : (Program.joining c t).Inv entries) :
    ∃ m, (program entries).exec (.joining c t) m ≠ none := by
  obtain ⟨hc, ht, -⟩ := h
  by_contra hnone
  have hrest := not_exists_not.mp hnone
  have hall : ∀ th ∈ c.threads, th = .exited := hc.exited_of_rest fun tid => by
    have hchild : ((children 2).exec c tid).map (Program.joining · t) = none := hrest (.child tid)
    exact Option.map_eq_none_iff.mp hchild
  have htlt : t < c.threads.length := by rw [hc.counted.length]; exact ht
  have hexited : c.threads[t]? = some .exited := by
    rw [List.getElem?_eq_getElem htlt, hall _ (List.getElem_mem htlt)]
  have hmain := hrest .main
  simp only [program, hexited] at hmain
  split at hmain
  · cases hmain
  · cases hmain

/-- What is at rest under a guard that lets `main` free a settled buffer is over. -/
theorem Program.Inv.returned_of_rest (h : x.Inv entries) (hx : x ≠ .undefined)
    (hrest : ∀ m, SettledAtFree x m → (program entries).exec x m = none) : x.Returned := by
  cases x with
  | undefined => exact absurd rfl hx
  | joining c t =>
    obtain ⟨m, hm⟩ := h.joining_moves
    exact absurd (hrest m (by cases m <;> trivial)) hm
  | working c p =>
    obtain ⟨hc, hall, hp⟩ := h
    have hwork {l : ProcessLabel} (hnone : p.work entries c l = none) :
        (process entries).exec p l = none := by
      unfold Process.work at hnone
      split at hnone
      · cases hnone
      · exact Option.map_eq_none_iff.mp hnone
    have hmain : p.main = .returned := by
      by_contra hmain
      have hthreads : ∀ l, (process entries).exec p (.thread l) = none := fun l =>
        hwork (hrest (.thread l) trivial)
      have hsettled := (hp.settled hmain hthreads).2
      exact hp.main_moves hmain hthreads (hwork (hrest .main fun _ => hsettled))
    obtain ⟨hlength, hpopped⟩ := hp.popped hmain
    exact ⟨c, p, rfl, (hc.done hall).1, hmain, hlength, hpopped⟩

/-! ## A settled buffer -/

/-- From `free` on the buffer is full and the mutex free. -/
def Program.Kept : Program → Prop
  | .joining _ _ => True
  | .working _ p => p.main = .join ∨ p.main = .free ∨ p.Settled
  | .undefined => False

theorem Program.BeforeFree.kept (h : x.BeforeFree) : x.Kept := by
  cases x with
  | joining => trivial
  | working c p => exact h.imp id .inl
  | undefined => cases h

/-- A producer with a full buffer, outside of its critical section, uses neither the buffer nor the
mutex. -/
theorem Process.Settled.producer {pc : Produce} (h : p.Settled) (hshape : Shape p.sys)
    (hthreads : p.sys.threads = [.exited, .produce pc]) :
    p.sys.semaphore2 = 0 ∧ (pc = .semWait ∨ pc = .semPost) := by
  obtain ⟨hzero, hslot⟩ := (hshape.isFull_iff hthreads).mp h.1
  refine ⟨hzero, ?_⟩
  cases pc with
  | semWait => exact .inl rfl
  | semPost => exact .inr rfl
  | rand | lock | add => cases hslot
  | unlock =>
    have hone : p.sys.threads[1]? = some (.produce .unlock) := by rw [hthreads]; rfl
    have howner := (hshape.inv.exclusive 1 _ hone).mp rfl
    cases h.2.symm.trans howner

theorem Process.Settled.defined (h : p.Settled) (hp : p.Counted entries) :
    p.undefined l = false := by
  by_contra hundefined
  have hundefined : p.undefined l = true := Bool.eq_true_of_not_eq_false hundefined
  obtain ⟨hshape, hjoined⟩ := process_inv hp.reach
  have hmain : p.main ≠ .join := by
    rcases main_of_undefined hundefined with hmain | hmain
    · rw [hmain]; exact Main.noConfusion
    · rw [hmain]; exact Main.noConfusion
  obtain ⟨pc, hthreads⟩ := hjoined hmain
  cases l with
  | main =>
    rw [Process.undefined, h.2] at hundefined
    simp at hundefined
  | thread l =>
    obtain ⟨th, hth, huses⟩ := (Option.any_eq_true _ _).mp hundefined
    rw [hthreads] at hth
    rcases List.mem_pair.mp (List.mem_of_getElem? hth) with rfl | rfl
    · simp [Thread.usesBuf, Thread.usesMutex] at huses
    · rcases (h.producer hshape hthreads).2 with rfl | rfl
      · simp [Thread.usesBuf, Thread.usesMutex] at huses
      · simp [Thread.usesBuf, Thread.usesMutex] at huses

/-- It stays settled. -/
theorem Process.Settled.exec (h : p.Settled) (hp : p.Counted entries) (hmain : p.main ≠ .join)
    (hx : (process entries).exec p l = some q) : q.Settled := by
  obtain ⟨hshape, hjoined⟩ := process_inv hp.reach
  cases l with
  | main =>
    have hstep : MainStep p q := mainStep_of_exec hx
    rw [Process.Settled, hstep.sys]
    exact h
  | thread l =>
    obtain ⟨-, hx⟩ := Option.ite_none_left_eq_some.mp hx
    obtain ⟨t, ht, rfl⟩ := Option.map_eq_some_iff.mp hx
    obtain ⟨pc, hthreads⟩ := hjoined hmain
    obtain ⟨hzero, hpc⟩ := h.producer hshape hthreads
    have hx := exec_joined hthreads ht
    rcases hpc with rfl | rfl
    · obtain ⟨hpos, -⟩ := Option.ite_none_right_eq_some.mp hx
      omega
    · cases hx
      exact h

theorem Program.Kept.exec (h : x.Kept) (hi : x.Inv entries) (hg : SettledAtFree x m)
    (hx : (program entries).exec x m = some y) : y.Kept := by
  cases x with
  | undefined => cases hx
  | joining c t =>
    cases m with
    | child tid =>
      obtain ⟨d, -, rfl⟩ := Option.map_eq_some_iff.mp hx
      trivial
    | thread l => cases hx
    | main =>
      simp only [program] at hx
      split at hx
      · split at hx
        · cases hx
          trivial
        · cases hx
          exact .inl rfl
      · cases hx
  | working c p =>
    obtain ⟨-, -, hp⟩ := hi
    have hdefined {l : ProcessLabel} : p.undefined l = false := by
      by_contra hundefined
      have hundefined : p.undefined l = true := Bool.eq_true_of_not_eq_false hundefined
      rcases h with hmain | hmain | hsettled
      · rcases Process.main_of_undefined hundefined with hc | hc <;> cases hmain.symm.trans hc
      · rcases Process.main_of_undefined hundefined with hc | hc <;> cases hmain.symm.trans hc
      · cases (hsettled.defined hp).symm.trans hundefined
    have hwork {l : ProcessLabel} (hx : p.work entries c l = some y) :
        ∃ q, y = .working c q ∧ (process entries).exec p l = some q := by
      rw [Process.work, if_neg (Bool.eq_false_iff.mp hdefined)] at hx
      obtain ⟨q, hq, rfl⟩ := Option.map_eq_some_iff.mp hx
      exact ⟨q, rfl, hq⟩
    cases m with
    | child tid => cases hx
    | thread l =>
      obtain ⟨q, rfl, hq⟩ := hwork hx
      have hmain : q.main = p.main := by
        obtain ⟨-, hq⟩ := Option.ite_none_left_eq_some.mp hq
        obtain ⟨t, -, rfl⟩ := Option.map_eq_some_iff.mp hq
        rfl
      rcases h with hjoin | hfree | hsettled
      · exact .inl (hmain.trans hjoin)
      · exact .inr (.inl (hmain.trans hfree))
      · by_cases hjoin : p.main = .join
        · exact .inl (hmain.trans hjoin)
        · exact .inr (.inr (hsettled.exec hp hjoin hq))
    | main =>
      obtain ⟨q, rfl, hq⟩ := hwork hx
      have hstep : MainStep p q := mainStep_of_exec hq
      have hsettled (hs : p.Settled) : q.Settled := by
        rw [Process.Settled, hstep.sys]
        exact hs
      cases hstep with
      | join => exact .inr (.inl rfl)
      | free hmain => exact .inr (.inr (hsettled (hg hmain)))
      | destroy hmain | ret hmain =>
        rcases h with hc | hc | hs
        · cases hmain.symm.trans hc
        · cases hmain.symm.trans hc
        · exact .inr (.inr (hsettled hs))

/-! ## A buffer that is not settled -/

/-- A run of the buffer's process is one of the program, unless it comes to a step that is
undefined. -/
theorem run_work {ls : List ProcessLabel} (hr : (process entries).run p ls = some q) :
    ∃ ms, (program entries).run (.working c p) ms = some (.working c q) ∨
      (program entries).run (.working c p) ms = some .undefined := by
  induction ls generalizing p with
  | nil =>
    cases hr
    exact ⟨[], .inl rfl⟩
  | cons l ls ih =>
    obtain ⟨u, hu, hr⟩ := Option.bind_eq_some_iff.mp hr
    obtain ⟨m, hm⟩ : ∃ m, (program entries).exec (.working c p) m = p.work entries c l := by
      cases l with
      | main => exact ⟨.main, rfl⟩
      | thread l => exact ⟨.thread l, rfl⟩
    unfold Process.work at hm
    split at hm
    · exact ⟨[m], .inr (Machine.run_cons_of_exec hm)⟩
    · rw [hu, Option.map_some] at hm
      obtain ⟨ms, hms⟩ := ih hr
      refine ⟨m :: ms, ?_⟩
      rw [Machine.run_cons_of_exec hm]
      exact hms

theorem UsesLater.undefined (h : UsesLater entries p) :
    ∃ ms, (program entries).run (.working c p) ms = some .undefined := by
  obtain ⟨ls, q, l, hr, hmain, ⟨th, hth, huses⟩, -⟩ := h
  obtain ⟨ms, hms | hms⟩ := run_work (c := c) hr
  · have hundefined : q.undefined (.thread l) = true := by
      refine (Option.any_eq_true _ _).mpr ⟨th, hth, ?_⟩
      rw [hmain]
      unfold Thread.uses at huses
      split at huses
      · rfl
      · rfl
      · rfl
      · rfl
      · cases huses
    have hx : (program entries).exec (.working c q) (.thread l) = some .undefined :=
      if_pos hundefined
    exact ⟨ms ++ [.thread l], (Machine.run_append hms).trans (Machine.run_cons_of_exec hx)⟩
  · exact ⟨ms, hms⟩

/-- What is freed before it is settled can be used. -/
theorem Process.Counted.undefined_of_free (h : p.Counted entries) (hmain : p.main = .free)
    (hset : ¬p.Settled) :
    ∃ ms, (program entries).run (.working c { p with main := .destroy }) ms = some .undefined := by
  by_cases hfree : p.sys.mutex1 = none
  · obtain ⟨hshape, hjoined⟩ := process_inv h.reach
    obtain ⟨pc, hthreads⟩ := hjoined (by rw [hmain]; exact Main.noConfusion)
    have hfull : ¬isFull p.sys.queue = true := fun hfull => hset ⟨hfull, hfree⟩
    have hlater : UsesLater entries { p with main := .ret } :=
      AtReturn.usesLater ⟨rfl, hshape, hthreads⟩ hfull
    obtain ⟨ms, hms⟩ := hlater.undefined (c := c)
    have hx : (program entries).exec (.working c { p with main := .destroy }) .main =
        some (.working c { p with main := .ret }) := by
      have hdefined : Process.undefined { p with main := .destroy } .main = false := by
        simp [Process.undefined, hfree]
      exact if_neg (Bool.eq_false_iff.mp hdefined)
    exact ⟨.main :: ms, (Machine.run_cons_of_exec hx).trans hms⟩
  · have hx : (program entries).exec (.working c { p with main := .destroy }) .main =
        some .undefined := by
      have hundefined : Process.undefined { p with main := .destroy } .main = true := by
        simpa [Process.undefined, Option.isSome_iff_ne_none] using hfree
      exact if_pos hundefined
    exact ⟨[.main], Machine.run_cons_of_exec hx⟩

/-! ## The runs of the program -/

theorem reach_inv {G : Program → ProgramLabel → Prop} (h : (program entries).Reach G x) :
    x.Inv entries :=
  h.invariant (inv_program_init entries).1 fun hi _ hx => (Program.Inv.exec hi hx).1

/-- As long as the buffer has not been freed, the program can be brought to its `return`. -/
theorem Program.Inv.exists_returned (h : x.Inv entries) (hk : x.Kept) :
    ∃ ms y, (program entries).run x ms = some y ∧ y.Returned := by
  have hranked : ((program entries).restrict SettledAtFree).Ranked
      (fun x => x.Inv entries ∧ x.Kept) Program.rank fun _ => 0 := by
    refine ⟨fun h => h.1.rank_nonneg, fun h hx => ?_, fun h hx => ?_⟩
    · obtain ⟨hg, hx⟩ := Option.ite_none_right_eq_some.mp hx
      exact ⟨(h.1.exec hx).1, h.2.exec h.1 hg hx⟩
    · obtain ⟨-, hx⟩ := Option.ite_none_right_eq_some.mp hx
      have := (h.1.exec hx).2
      omega
  obtain ⟨ms, y, -, hr, hrest⟩ := hranked.exists_rest ⟨h, hk⟩
  obtain ⟨⟨hi, hky⟩, -⟩ := hranked.run ⟨h, hk⟩ hr
  refine ⟨ms, y, Machine.run_of_restrict hr, hi.returned_of_rest ?_ fun m hg => ?_⟩
  · rintro rfl
    exact hky
  · have hnone : (if SettledAtFree y m then (program entries).exec y m else none) = none :=
      hrest m rfl
    rw [if_pos hg] at hnone
    exact hnone

/-- However its threads interleave, the program ends, after at most 154 steps: at the `return` of
`main`, with six in `counter` and with a consumer that has popped the first eight values produced,
or at a step that is undefined. It never comes to one if the buffer is full and the mutex free when
`main` frees the buffer, and from any other `free` it can; and up to `free` it can be brought to its
`return`. -/
theorem main_returns (entries : Vector Int 5) :
    (∀ ms x, (program entries).run (program entries).init ms = some x →
      ms.length ≤ 154 ∧
      ((∀ m, (program entries).exec x m = none) → x.Returned ∨ x = .undefined) ∧
      (x.BeforeFree → ∃ ms' y, (program entries).run x ms' = some y ∧ y.Returned)) ∧
    (∀ x, (program entries).Reach SettledAtFree x → x ≠ .undefined) ∧
    ∀ x m y, (program entries).Reach Machine.anyStep x → ¬SettledAtFree x m →
      (program entries).exec x m = some y →
        ∃ ms, (program entries).run y ms = some .undefined := by
  refine ⟨fun ms x hrun => ?_, fun x h => ?_, fun x m y h hg hx => ?_⟩
  · obtain ⟨hinit, hstart⟩ := inv_program_init entries
    obtain ⟨hi, -⟩ := ranked_program.run hinit hrun
    have hlength := ranked_program.length_le hinit hrun
    have hzero : (ms.map fun _ => 0).sum = 0 := by simp
    rw [hstart, hzero] at hlength
    refine ⟨by omega, fun hrest => ?_, fun hbefore => hi.exists_returned hbefore.kept⟩
    by_cases hx : x = .undefined
    · exact .inr hx
    · exact .inl (hi.returned_of_rest hx fun m _ => hrest m)
  · have hkept : x.Kept := h.invariant_with reach_inv trivial
      fun hi hk hg hx => hk.exec hi hg hx
    rintro rfl
    exact hkept
  · have hi := reach_inv h
    cases x with
    | undefined => cases hx
    | joining c t => exact absurd (by cases m <;> trivial) hg
    | working c p =>
      cases m with
      | child tid => cases hx
      | thread l => exact absurd trivial hg
      | main =>
        obtain ⟨hmain, hset⟩ := Classical.not_imp.mp hg
        have hexec : (process entries).exec p .main = some { p with main := .destroy } := by
          show p.execMain = _
          rw [Process.execMain, hmain]
        have hdefined : p.undefined .main = false := by simp [Process.undefined, hmain]
        have hwork : p.work entries c .main = some (.working c { p with main := .destroy }) := by
          rw [Process.work, if_neg (Bool.eq_false_iff.mp hdefined), hexec]
          rfl
        obtain rfl := Option.some.inj (hx.symm.trans hwork)
        exact hi.2.2.undefined_of_free hmain hset

end KoScripts.Concurrency.Semaphore
