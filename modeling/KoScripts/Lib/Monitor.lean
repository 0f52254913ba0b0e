import KoScripts.Lib.Machine
import KoScripts.Lib.Threads

/-! # Two condition variables behind one mutex

The threads of two sides share data behind a mutex. Each repeats: lock; while the data make it
wait, wait on the condition variable of its side; call; if the call succeeded, signal one thread
of the other side; unlock. A thread that sleeps is woken by a signal or spuriously, and has to
take the mutex and look at the data again before it goes on.

When every call takes one unit of what its side waits for and gives one to the other side, no
wakeup is lost: with the mutex free, the units a sleeping side waits for are at most its threads
that have been woken and not looked again. -/

namespace Lib.Monitor

universe u

inductive Side
  | put
  | take
deriving DecidableEq

def Side.other : Side → Side
  | .put => .take
  | .take => .put

@[simp] theorem Side.other_ne {x : Side} : x.other ≠ x := by cases x <;> nofun

theorem Side.eq_or_other (x y : Side) : y = x ∨ y = x.other := by
  cases x <;> cases y <;> decide

/-- What a thread of one side runs. `call` tells whether it succeeded, `again n` whether there is
another round after `n` of them. -/
structure Task (σ : Type u) where
  mustWait : σ → Bool
  call : σ → σ × Bool
  again : Nat → Bool

/-- Where a thread is in its round. `w` is set if it has been woken in it. -/
inductive Pc
  | lock
  | check (w : Bool)
  | asleep
  | woken
  | call (w : Bool)
  | signal (w : Bool)
  | unlock (w : Bool)
  | exited

structure Thread where
  side : Side
  round : Nat
  pc : Pc

def Thread.asleepOn (x : Side) (th : Thread) : Bool :=
  match th.pc with
  | .asleep => decide (th.side = x)
  | _ => false

def Thread.wokenOn (x : Side) (th : Thread) : Bool :=
  match th.pc with
  | .woken => decide (th.side = x)
  | _ => false

structure State (σ : Type u) where
  data : σ
  mutex : Option Nat
  threads : List Thread

inductive Label
  /-- A step of thread `tid`, which wakes `wake` if it is a signal. -/
  | step (tid wake : Nat)
  | spurious (side : Side) (tid : Nat)

namespace State
variable {σ : Type u} (s : State σ)

def goto (tid : Nat) (th : Thread) : State σ := { s with threads := s.threads.set tid th }

/-- Thread `tid` sleeps on the condition variable of `x` and is woken. -/
def wake (x : Side) (tid : Nat) : Option (State σ) :=
  match s.threads[tid]? with
  | some th => if th.asleepOn x then some (s.goto tid { th with pc := .woken }) else none
  | none => none

/-- A signal wakes one of the threads that sleep, if there are any. -/
def signal (x : Side) (tid : Nat) : Option (State σ) :=
  if s.threads.any (·.asleepOn x) then s.wake x tid else some s

def stepThread (task : Task σ) (tid wake : Nat) (th : Thread) : Option (State σ) :=
  match th.pc with
  | .lock =>
    if s.mutex = none then
      some ({ s with mutex := some tid }.goto tid { th with pc := .check false })
    else none
  | .check w =>
    if task.mustWait s.data then some ({ s with mutex := none }.goto tid { th with pc := .asleep })
    else some (s.goto tid { th with pc := .call w })
  | .asleep => none
  | .woken =>
    if s.mutex = none then
      some ({ s with mutex := some tid }.goto tid { th with pc := .check true })
    else none
  | .call w =>
    some ({ s with data := (task.call s.data).1 }.goto tid
      { th with pc := if (task.call s.data).2 then .signal w else .unlock w })
  | .signal w => (s.signal th.side.other wake).map (·.goto tid { th with pc := .unlock w })
  | .unlock _ =>
    some ({ s with mutex := none }.goto tid
      { th with round := th.round + 1, pc := if task.again (th.round + 1) then .lock else .exited })
  | .exited => none

end State

/-- Threads of the given sides, on the data `d`. -/
def monitor {σ : Type u} (task : Side → Task σ) (d : σ) (sides : List Side) :
    Machine (State σ) Label where
  init := { data := d, mutex := none, threads := sides.map fun side => ⟨side, 0, .lock⟩ }
  exec s
    | .step tid wake =>
      match s.threads[tid]? with
      | some th => s.stepThread (task th.side) tid wake th
      | none => none
    | .spurious side tid => s.wake side tid

/-- A call takes a unit of what its side waits for and gives one to the other side. -/
structure Exchanges {σ : Type u} (task : Side → Task σ) (valid : σ → Prop)
    (units : Side → σ → Int) : Prop where
  wait : ∀ {x d}, valid d → (task x).mustWait d = true → units x d ≤ 0
  call : ∀ {x d}, valid d → (task x).mustWait d = false → ∃ d', (task x).call d = (d', true) ∧
    valid d' ∧ units x d' = units x d - 1 ∧ units x.other d' = units x.other d + 1

/-! ## The invariant -/

def Pc.inSection : Pc → Bool
  | .check _ | .call _ | .signal _ | .unlock _ => true
  | _ => false

def Thread.inSection (th : Thread) : Bool := th.pc.inSection

/-- What a thread answers for towards the sleepers of its own side and of the other: one unit if
it has been woken and has not taken it, or has given one and not signalled; and less by one if it
has taken a unit without having been woken for it. -/
def Pc.credit (own : Bool) : Pc → Int
  | .woken | .check true | .call true => bif own then 1 else 0
  | .signal true => bif own then 0 else 1
  | .signal false => bif own then -1 else 1
  | _ => 0

def Thread.credit (x : Side) (th : Thread) : Int := th.pc.credit (decide (th.side = x))

/-- The thread has been woken in its present round, and holds the mutex if it has gone on. -/
def Pc.beenWoken : Pc → Bool
  | .woken | .check true | .call true | .signal true => true
  | _ => false

def Thread.beenWoken (th : Thread) : Bool := th.pc.beenWoken

def credits (x : Side) (ts : List Thread) : Int := (ts.map (Thread.credit x)).sum

section
variable {σ : Type u} {task : Side → Task σ} {valid : σ → Prop} {units : Side → σ → Int}
  {s t : State σ} {tid i : Nat} {a b : Thread} {x : Side} {w : Bool}

/-- A thread that has looked at the data goes on to its call with the data unchanged. -/
def Ready (task : Side → Task σ) (d : σ) (ts : List Thread) : Prop :=
  ∀ th ∈ ts, ∀ w, th.pc = .call w → (task th.side).mustWait d = false

structure State.Inv (task : Side → Task σ) (valid : σ → Prop) (units : Side → σ → Int)
    (s : State σ) : Prop where
  valid : valid s.data
  exclusive : Exclusive Thread.inSection s.mutex s.threads
  ready : Ready task s.data s.threads
  covered : ∀ x, (∃ th ∈ s.threads, th.asleepOn x = true) →
    units x s.data ≤ credits x s.threads

theorem Ready.set {d : σ} {ts : List Thread} (h : Ready task d ts)
    (hb : ∀ w, b.pc = .call w → (task b.side).mustWait d = false) :
    Ready task d (ts.set tid b) := by
  intro th hth w hw
  rcases List.mem_or_eq_of_mem_set hth with hth | rfl
  · exact h th hth w hw
  · exact hb w hw

theorem credits_set (h : s.threads[tid]? = some a) :
    credits x (s.threads.set tid b) = credits x s.threads - a.credit x + b.credit x :=
  sum_map_set h

theorem exists_asleep_of_set {ts : List Thread} (hb : b.asleepOn x = false)
    (h : ∃ th ∈ ts.set tid b, th.asleepOn x = true) : ∃ th ∈ ts, th.asleepOn x = true := by
  obtain ⟨th, hth, hx⟩ := h
  rcases List.mem_or_eq_of_mem_set hth with hth | rfl
  · exact ⟨th, hth, hx⟩
  · rw [hb] at hx; cases hx

/-- With the mutex free, only threads that have been woken count. -/
theorem credits_of_free (h : Exclusive Thread.inSection none s.threads) :
    credits x s.threads = s.threads.countP (Thread.wokenOn x) := by
  have hout : ∀ th ∈ s.threads, th.inSection = false := by
    intro th hth
    obtain ⟨j, hj⟩ := List.mem_iff_getElem?.mp hth
    exact Bool.eq_false_iff.mpr fun hc => nomatch (h j th hj).mp hc
  generalize s.threads = ts at hout ⊢
  induction ts with
  | nil => rfl
  | cons th ts ih =>
    have ih := ih fun th hth => hout th (List.mem_cons_of_mem _ hth)
    have hth := hout th List.mem_cons_self
    have hc : th.credit x = (th.wokenOn x).toNat := by
      obtain ⟨side, n, pc⟩ := th
      cases pc with
      | check | call | signal | unlock => cases hth
      | lock | asleep | exited => rfl
      | woken => cases side <;> cases x <;> rfl
    rw [credits, List.map_cons, List.sum_cons, ← credits, ih, hc, List.countP_cons]
    cases th.wokenOn x with
    | false => simp
    | true => simp; omega

/-- Nothing is negative with the mutex free. -/
theorem credits_nonneg_of_free (h : Exclusive Thread.inSection none s.threads) :
    0 ≤ credits x s.threads := by
  rw [credits_of_free h]
  exact Int.natCast_nonneg _

theorem State.wake_spec (h : s.wake x tid = some t) : ∃ th, s.threads[tid]? = some th ∧
    th.asleepOn x = true ∧ t = s.goto tid { th with pc := .woken } := by
  unfold wake at h
  split at h
  · next th hth =>
    obtain ⟨hx, h⟩ := Option.ite_none_right_eq_some.mp h
    cases h
    exact ⟨th, hth, hx, rfl⟩
  · cases h

theorem Thread.asleepOn_iff {th : Thread} :
    th.asleepOn x = true ↔ th.pc = .asleep ∧ th.side = x := by
  obtain ⟨side, n, pc⟩ := th
  cases pc <;> simp [asleepOn]

theorem Thread.credit_asleep {th : Thread} (hpc : th.pc = .asleep) : th.credit x = 0 := by
  rw [Thread.credit, hpc]
  rfl

/-- A thread that is woken answers for a unit towards its own side. -/
theorem Thread.credit_woken (th : Thread) :
    Thread.credit x { th with pc := .woken } = if th.side = x then 1 else 0 := by
  rw [Thread.credit]
  split
  case isTrue h =>
    rw [decide_eq_true h]
    rfl
  case isFalse h =>
    rw [decide_eq_false h]
    rfl

namespace State.Inv

/-- A step that leaves the data and all credits as they are. -/
theorem move {mutex : Option Nat} {n : Nat} {pc : Pc} (h : s.Inv task valid units)
    (ha : s.threads[tid]? = some a)
    (hm : Exclusive Thread.inSection mutex (s.threads.set tid ⟨a.side, n, pc⟩))
    (hc : ∀ own, pc.credit own = a.pc.credit own) (hb : pc ≠ .asleep)
    (hr : ∀ w, pc = .call w → (task a.side).mustWait s.data = false) :
    ({ s with mutex }.goto tid ⟨a.side, n, pc⟩).Inv task valid units where
  valid := h.valid
  exclusive := hm
  ready := h.ready.set hr
  covered x hx := by
    have hawake : Thread.asleepOn x ⟨a.side, n, pc⟩ = false :=
      Bool.eq_false_iff.mpr fun hc => hb (Thread.asleepOn_iff.mp hc).1
    have hcov := h.covered x (exists_asleep_of_set hawake hx)
    have hcr : Thread.credit x ⟨a.side, n, pc⟩ = a.credit x := hc _
    simp only [goto]
    rw [credits_set ha]
    omega

/-- The thread that goes to sleep leaves the mutex free, and nothing to wait for on its side. -/
theorem sleep (hE : Exchanges task valid units) (h : s.Inv task valid units)
    (ha : s.threads[tid]? = some a) (hpc : a.pc = .check w)
    (hwait : (task a.side).mustWait s.data = true) :
    ({ s with mutex := none }.goto tid { a with pc := .asleep }).Inv task valid units := by
  have hm : Exclusive Thread.inSection none (s.threads.set tid { a with pc := .asleep }) :=
    h.exclusive.release ha (by rw [Thread.inSection, hpc]; rfl) rfl
  refine ⟨h.valid, hm, h.ready.set nofun, ?_⟩
  intro x hx
  simp only [goto] at hx ⊢
  rcases a.side.eq_or_other x with rfl | rfl
  · exact Int.le_trans (hE.wait h.valid hwait) (credits_nonneg_of_free (s := ⟨s.data, none, _⟩) hm)
  · have hawake : Thread.asleepOn a.side.other { a with pc := .asleep } = false :=
      decide_eq_false Side.other_ne.symm
    have hcov := h.covered _ (exists_asleep_of_set hawake hx)
    have hca : a.credit a.side.other = 0 := by
      rw [Thread.credit, hpc, decide_eq_false Side.other_ne.symm]
      cases w <;> rfl
    have hcb : Thread.credit a.side.other { a with pc := .asleep } = 0 := rfl
    rw [credits_set ha]
    omega

/-- The call takes its unit on the credit of a thread that has been woken, or against it. -/
theorem call (h : s.Inv task valid units) (ha : s.threads[tid]? = some a) (hpc : a.pc = .call w)
    {d : σ} (hv : valid d) (h1 : units a.side d = units a.side s.data - 1)
    (h2 : units a.side.other d = units a.side.other s.data + 1) :
    ({ s with data := d }.goto tid { a with pc := .signal w }).Inv task valid units := by
  have hin : a.inSection = true := by rw [Thread.inSection, hpc]; rfl
  refine ⟨hv, h.exclusive.keep ha hin.symm, ?_, ?_⟩
  · -- No other thread is in its section, so none has looked at the data as they were.
    intro th hth w' hw
    obtain ⟨j, hj⟩ := List.mem_iff_getElem?.mp hth
    rcases getElem?_set_self_or hj with ⟨-, rfl⟩ | ⟨hne, hj⟩
    · cases hw
    · exact absurd (h.exclusive.unique hj ha (by rw [Thread.inSection, hw]; rfl) hin) hne
  · intro x hx
    have hcov := h.covered x (exists_asleep_of_set rfl hx)
    simp only [goto]
    rw [credits_set ha]
    rcases a.side.eq_or_other x with rfl | rfl
    · have hcr : Thread.credit a.side { a with pc := .signal w } = a.credit a.side - 1 := by
        rw [Thread.credit, Thread.credit, hpc, decide_eq_true rfl]
        cases w <;> rfl
      omega
    · have hcr : Thread.credit a.side.other { a with pc := .signal w } =
          a.credit a.side.other + 1 := by
        rw [Thread.credit, Thread.credit, hpc, decide_eq_false Side.other_ne.symm]
        cases w <;> rfl
      omega

theorem credit_signal (hpc : a.pc = .signal w) :
    a.credit a.side ≤ 0 ∧ a.credit a.side.other = 1 := by
  rw [Thread.credit, Thread.credit, hpc, decide_eq_true rfl, decide_eq_false Side.other_ne.symm]
  cases w <;> decide

/-- The thread that is woken takes over the unit that the signalling thread answered for. -/
theorem signal (h : s.Inv task valid units) (ha : s.threads[tid]? = some a)
    (hpc : a.pc = .signal w) (hx : s.signal a.side.other i = some t) :
    (t.goto tid { a with pc := .unlock w }).Inv task valid units := by
  have hin : a.inSection = true := by rw [Thread.inSection, hpc]; rfl
  obtain ⟨hown, hother⟩ := credit_signal hpc
  have hzero {x : Side} : Thread.credit x { a with pc := .unlock w } = 0 := rfl
  unfold State.signal at hx
  split at hx
  · obtain ⟨th, hth, hasleep, rfl⟩ := State.wake_spec hx
    obtain ⟨hpcth, hside⟩ := Thread.asleepOn_iff.mp hasleep
    have hne : i ≠ tid := by
      intro heq
      rw [heq, ha] at hth
      cases hth
      rw [hpc] at hpcth
      cases hpcth
    have ha' : (s.threads.set i { th with pc := .woken })[tid]? = some a := by
      rw [List.getElem?_set_ne hne, ha]
    have hkeep := h.exclusive.keep (b := { th with pc := .woken }) hth
      (by rw [Thread.inSection, Thread.inSection, hpcth]; rfl)
    refine ⟨h.valid, hkeep.keep ha' hin.symm, ?_, ?_⟩
    · exact (h.ready.set (b := { th with pc := .woken }) nofun).set nofun
    · intro x hx
      have hcov := h.covered x (exists_asleep_of_set rfl (exists_asleep_of_set rfl hx))
      have hcr := credits_set (s := s.goto i { th with pc := .woken })
        (b := { a with pc := .unlock w }) (x := x) ha'
      simp only [goto] at hcr ⊢
      rw [hcr, credits_set hth, Thread.credit_asleep hpcth, Thread.credit_woken, hside, hzero]
      rcases a.side.eq_or_other x with rfl | rfl
      · rw [if_neg Side.other_ne]
        omega
      · rw [if_pos rfl]
        omega
  · next hnone =>
    cases hx
    refine ⟨h.valid, h.exclusive.keep ha hin.symm, h.ready.set nofun, fun x hx => ?_⟩
    have hx := exists_asleep_of_set rfl hx
    have hcov := h.covered x hx
    simp only [goto]
    rw [credits_set ha, hzero]
    rcases a.side.eq_or_other x with rfl | rfl
    · omega
    · exact absurd (List.any_eq_true.mpr hx) hnone

theorem spurious (h : s.Inv task valid units) (hx : s.wake x tid = some t) :
    t.Inv task valid units := by
  obtain ⟨th, hth, hasleep, rfl⟩ := State.wake_spec hx
  obtain ⟨hpc, rfl⟩ := Thread.asleepOn_iff.mp hasleep
  refine ⟨h.valid, h.exclusive.keep hth (by rw [Thread.inSection, Thread.inSection, hpc]; rfl),
    h.ready.set nofun, fun x hx => ?_⟩
  have hcov := h.covered x (exists_asleep_of_set rfl hx)
  simp only [goto]
  rw [credits_set hth, Thread.credit_asleep hpc, Thread.credit_woken]
  split <;> omega

theorem stepThread (hE : Exchanges task valid units) (h : s.Inv task valid units)
    (ha : s.threads[tid]? = some a) (hx : s.stepThread (task a.side) tid i a = some t) :
    t.Inv task valid units := by
  unfold State.stepThread at hx
  split at hx
  · next hpc =>
    obtain ⟨hfree, hx⟩ := Option.ite_none_right_eq_some.mp hx
    cases hx
    exact h.move ha ((hfree ▸ h.exclusive).acquire rfl) (fun _ => by rw [hpc]; rfl) nofun nofun
  · next w hpc =>
    split at hx
    · next hwait => cases hx; exact h.sleep hE ha hpc hwait
    · next hgo =>
      cases hx
      refine h.move ha (h.exclusive.keep ha ?_) ?_ nofun ?_
      · rw [Thread.inSection, Thread.inSection, hpc]; rfl
      · intro own
        rw [hpc]
        cases w <;> rfl
      · intro _ _
        exact Bool.eq_false_iff.mpr hgo
  · cases hx
  · next hpc =>
    obtain ⟨hfree, hx⟩ := Option.ite_none_right_eq_some.mp hx
    cases hx
    exact h.move ha ((hfree ▸ h.exclusive).acquire rfl) (fun _ => by rw [hpc]; rfl) nofun nofun
  · next w hpc =>
    cases hx
    have hgo := h.ready a (List.mem_of_getElem? ha) w hpc
    obtain ⟨d, hd, hv, h1, h2⟩ := hE.call h.valid hgo
    rw [hd]
    exact h.call ha hpc hv h1 h2
  · next w hpc =>
    obtain ⟨u, hu, rfl⟩ := Option.map_eq_some_iff.mp hx
    exact h.signal ha hpc hu
  · next w hpc =>
    cases hx
    have hin : a.inSection = true := by rw [Thread.inSection, hpc]; rfl
    split
    · exact h.move ha (h.exclusive.release ha hin rfl) (fun _ => by rw [hpc]; rfl) nofun nofun
    · exact h.move ha (h.exclusive.release ha hin rfl) (fun _ => by rw [hpc]; rfl) nofun nofun
  · cases hx

end State.Inv

theorem inv_init {d : σ} {sides : List Side} (hd : valid d) :
    (monitor task d sides).init.Inv task valid units := by
  have hlock : ∀ th ∈ (monitor task d sides).init.threads, th.pc = .lock := by
    intro th hth
    obtain ⟨side, -, rfl⟩ := List.mem_map.mp hth
    rfl
  refine ⟨hd, ?_, ?_, ?_⟩
  · intro j th hj
    have hout : ¬th.inSection = true := by
      rw [Thread.inSection, hlock th (List.mem_of_getElem? hj)]
      exact Bool.false_ne_true
    exact iff_of_false hout (fun hc => nomatch hc)
  · intro th hth w hw
    rw [hlock th hth] at hw
    cases hw
  · rintro x ⟨th, hth, hx⟩
    rw [Thread.asleepOn, hlock th hth] at hx
    cases hx

theorem inv_of_reach (hE : Exchanges task valid units) {d : σ} {sides : List Side} (hd : valid d)
    (h : (monitor task d sides).Reach Machine.anyStep s) : s.Inv task valid units := by
  apply h.invariant (inv_init hd)
  intro s t l hi _ hx
  cases l with
  | step tid wake =>
    simp only [monitor] at hx
    split at hx
    · next th ha => exact hi.stepThread hE ha hx
    · cases hx
  | spurious side tid => exact hi.spurious hx

/-! ## No wakeup is lost -/

/-- What a sleeping side waits for is answered for by its threads that have been woken. -/
theorem State.Inv.units_le (h : s.Inv task valid units) (hm : s.mutex = none)
    (hx : ∃ th ∈ s.threads, th.asleepOn x = true) :
    units x s.data ≤ s.threads.countP (Thread.wokenOn x) := by
  have hcov := h.covered x hx
  rwa [credits_of_free (hm ▸ h.exclusive)] at hcov

theorem credits_add_le (ts : List Thread) :
    credits .put ts + credits .take ts ≤ ts.countP Thread.beenWoken := by
  induction ts with
  | nil => exact Int.le_refl 0
  | cons th ts ih =>
    have hth : th.credit .put + th.credit .take ≤ th.beenWoken.toNat := by
      rw [Thread.credit, Thread.credit, Thread.beenWoken]
      cases th.pc with
      | lock | asleep | exited | woken => cases th.side <;> decide
      | check w | call w | signal w | unlock w => cases th.side <;> cases w <;> decide
    have hc : ((th :: ts).countP Thread.beenWoken : Int) =
        ts.countP Thread.beenWoken + th.beenWoken.toNat := by
      rw [List.countP_cons]
      cases th.beenWoken <;> simp
    simp only [credits, List.map_cons, List.sum_cons] at ih ⊢
    omega

/-- The two sides do not both sleep while there is a unit for one of them, unless a thread has been
woken. -/
theorem State.Inv.exists_beenWoken (h : s.Inv task valid units)
    (hu : 0 < units .put s.data + units .take s.data)
    (hput : ∃ th ∈ s.threads, th.asleepOn .put = true)
    (htake : ∃ th ∈ s.threads, th.asleepOn .take = true) :
    ∃ th ∈ s.threads, th.beenWoken = true := by
  have h1 := h.covered .put hput
  have h2 := h.covered .take htake
  have h3 := credits_add_le s.threads
  exact List.countP_pos_iff.mp (by omega)

end
end Lib.Monitor
