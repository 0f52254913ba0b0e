import KoScripts.Lib.Monitor
import KoScripts.Lib.Termination

/-! # A monitor comes to rest

When the threads that put have a fixed number of rounds, the threads of a monitor can only take so
many steps, however they are scheduled, unless they are woken spuriously again and again. Where no
thread can take a step any more, every thread has exited or sleeps, what has been put has been
taken, and no thread that puts is left.

The rank counts the calls that are still to come, and how far each thread is from its next one: a
signal pays for the thread it wakes. -/

namespace Lib.Monitor

universe u

/-- The steps of a round that neither touch the data nor end it. -/
inductive Pc.Quiet : Pc → Pc → Prop
  | lock : Quiet .lock (.check false)
  | woken : Quiet .woken (.check true)
  | sleep {w : Bool} : Quiet (.check w) .asleep
  | go {w : Bool} : Quiet (.check w) (.call w)

def Pc.weight : Pc → Int
  | .lock | .woken => 2
  | .check _ => 1
  | .signal _ => 6
  | .unlock _ => 3
  | .asleep | .call _ | .exited => 0

/-- The call of the present round has been made. -/
def Pc.called : Pc → Bool
  | .signal _ | .unlock _ => true
  | _ => false

/-- The calls a thread has made on the side `x`. -/
def Thread.calls (x : Side) (th : Thread) : Int :=
  if th.side = x then th.round + th.pc.called.toNat else 0

def Thread.weight (th : Thread) : Int := th.pc.weight

def calls (x : Side) (ts : List Thread) : Int := (ts.map (Thread.calls x)).sum

def weights (ts : List Thread) : Int := (ts.map Thread.weight).sum

/-- The threads that put make `n` rounds, those that take go on for ever, and `count` counts the
calls of a side. -/
structure Rounds {σ : Type u} (task : Side → Task σ) (valid : σ → Prop) (count : Side → σ → Int)
    (n : Nat) : Prop where
  pos : 0 < n
  put : ∀ i, (task .put).again i = decide (i < n)
  take : ∀ i, (task .take).again i = true
  call : ∀ {x d d'}, valid d → (task x).mustWait d = false → (task x).call d = (d', true) →
    count x d' = count x d + 1 ∧ count x.other d' = count x.other d
  le : ∀ {d}, valid d → count .take d ≤ count .put d

section
variable {σ : Type u} {task : Side → Task σ} {valid : σ → Prop} {units count : Side → σ → Int}
  {n : Nat} {s t : State σ} {tid i : Nat} {a b : Thread} {x : Side} {pc pc' : Pc}
  {sides : List Side}

/-- What a step of a thread can be. -/
inductive Stepped (task : Side → Task σ) (s : State σ) (tid : Nat) (a : Thread) : State σ → Prop
  | quiet {pc : Pc} {m : Option Nat} : Pc.Quiet a.pc pc → m = none ∨ m = some tid ∨ m = s.mutex →
      Stepped task s tid a ({ s with mutex := m }.goto tid { a with pc })
  | call {w : Bool} {d : σ} : a.pc = .call w → (task a.side).mustWait s.data = false →
      (task a.side).call s.data = (d, true) →
      Stepped task s tid a ({ s with data := d }.goto tid { a with pc := .signal w })
  | signal {w : Bool} : a.pc = .signal w →
      Stepped task s tid a (s.goto tid { a with pc := .unlock w })
  | wake {w : Bool} {i : Nat} {th : Thread} : a.pc = .signal w → s.threads[i]? = some th →
      th.pc = .asleep → i ≠ tid →
      Stepped task s tid a
        ((s.goto i { th with pc := .woken }).goto tid { a with pc := .unlock w })
  | unlock {w : Bool} : a.pc = .unlock w →
      Stepped task s tid a ({ s with mutex := none }.goto tid
        { a with
          round := a.round + 1
          pc := if (task a.side).again (a.round + 1) then .lock else .exited })

theorem stepped (hE : Exchanges task valid units) (h : s.Inv task valid units)
    (ha : s.threads[tid]? = some a) (hx : s.stepThread (task a.side) tid i a = some t) :
    Stepped task s tid a t := by
  unfold State.stepThread at hx
  split at hx
  · next hpc =>
    obtain ⟨-, hx⟩ := Option.ite_none_right_eq_some.mp hx
    cases hx
    exact .quiet (hpc ▸ .lock) (.inr (.inl rfl))
  · next w hpc =>
    split at hx
    · cases hx
      exact .quiet (hpc ▸ .sleep) (.inl rfl)
    · cases hx
      exact .quiet (m := s.mutex) (hpc ▸ .go) (.inr (.inr rfl))
  · cases hx
  · next hpc =>
    obtain ⟨-, hx⟩ := Option.ite_none_right_eq_some.mp hx
    cases hx
    exact .quiet (hpc ▸ .woken) (.inr (.inl rfl))
  · next w hpc =>
    cases hx
    have hgo := h.ready a (List.mem_of_getElem? ha) w hpc
    obtain ⟨d, hd, -⟩ := hE.call h.valid hgo
    rw [hd]
    exact .call hpc hgo hd
  · next w hpc =>
    obtain ⟨u, hu, rfl⟩ := Option.map_eq_some_iff.mp hx
    unfold State.signal at hu
    split at hu
    · obtain ⟨th, hth, hasleep, rfl⟩ := State.wake_spec hu
      have hpcth := (Thread.asleepOn_iff.mp hasleep).1
      refine .wake hpc hth hpcth ?_
      rintro rfl
      cases ha.symm.trans hth
      cases hpc.symm.trans hpcth
    · cases hu
      exact .signal hpc
  · next w hpc =>
    cases hx
    exact .unlock hpc
  · cases hx

/-- How many rounds the threads have made, and who owns the mutex. -/
structure State.Counted (count : Side → σ → Int) (n : Nat) (sides : List Side) (s : State σ) :
    Prop where
  sides : s.threads.map Thread.side = sides
  owner : ∀ i, s.mutex = some i → i < s.threads.length
  put : ∀ th ∈ s.threads, th.side = .put → th.round ≤ n ∧ (th.pc = .exited ↔ th.round = n)
  take : ∀ th ∈ s.threads, th.side = .take → th.pc ≠ .exited
  counts : ∀ x, count x s.data = calls x s.threads

theorem calls_set (h : s.threads[tid]? = some a) :
    calls x (s.threads.set tid b) = calls x s.threads - a.calls x + b.calls x :=
  sum_map_set h

theorem weights_set (h : s.threads[tid]? = some a) :
    weights (s.threads.set tid b) = weights s.threads - a.weight + b.weight :=
  sum_map_set h

theorem Pc.Quiet.facts (h : Pc.Quiet pc pc') : pc ≠ .exited ∧ pc' ≠ .exited ∧
    pc.called = false ∧ pc'.called = false ∧ pc'.weight + 1 ≤ pc.weight := by
  cases h <;> exact ⟨nofun, nofun, rfl, rfl, by simp [weight]⟩

namespace State.Counted

/-- A step of one thread that counts the calls it makes. -/
theorem set {m : Option Nat} {d : σ} (h : s.Counted count n sides) (ha : s.threads[tid]? = some a)
    (hm : m = none ∨ m = some tid ∨ m = s.mutex) (hside : b.side = a.side)
    (hput : a.side = .put → b.round ≤ n ∧ (b.pc = .exited ↔ b.round = n))
    (htake : a.side = .take → b.pc ≠ .exited)
    (hc : ∀ x, count x d = count x s.data - a.calls x + b.calls x) :
    (State.goto ⟨d, m, s.threads⟩ tid b).Counted count n sides where
  sides := (map_set_eq ha hside).trans h.sides
  owner i hi := by
    rw [goto, List.length_set]
    rcases hm with rfl | rfl | rfl
    · cases hi
    · cases hi
      exact (List.getElem?_eq_some_iff.mp ha).1
    · exact h.owner i hi
  put th hth hx := by
    rcases List.mem_or_eq_of_mem_set hth with hth | rfl
    · exact h.put th hth hx
    · exact hput (hside.symm.trans hx)
  take th hth hx := by
    rcases List.mem_or_eq_of_mem_set hth with hth | rfl
    · exact h.take th hth hx
    · exact htake (hside.symm.trans hx)
  counts x := by
    show count x d = calls x (s.threads.set tid b)
    rw [calls_set ha, hc, h.counts]

/-- A step of one thread that leaves its calls and rounds as they are. -/
theorem move {m : Option Nat} (h : s.Counted count n sides) (ha : s.threads[tid]? = some a)
    (hm : m = none ∨ m = some tid ∨ m = s.mutex) (hpc : a.pc ≠ .exited) (hpc' : pc ≠ .exited)
    (hcalled : pc.called = a.pc.called) :
    ({ s with mutex := m }.goto tid { a with pc }).Counted count n sides := by
  refine h.set ha hm rfl (fun hx => ?_) (fun _ => hpc') fun x => ?_
  · have hold := h.put a (List.mem_of_getElem? ha) hx
    exact ⟨hold.1, iff_of_false hpc' fun hn => hpc (hold.2.mpr hn)⟩
  · have hcalls : Thread.calls x { a with pc } = a.calls x := by
      rw [Thread.calls, Thread.calls, hcalled]
    omega

theorem step (hR : Rounds task valid count n) (hv : valid s.data) (h : s.Counted count n sides)
    (ha : s.threads[tid]? = some a) (hst : Stepped task s tid a t) : t.Counted count n sides := by
  cases hst with
  | quiet hq hm =>
    obtain ⟨h₁, h₂, h₃, h₄, -⟩ := hq.facts
    exact h.move ha hm h₁ h₂ (h₄.trans h₃.symm)
  | @call w d hpc hgo hd =>
    obtain ⟨hown, hother⟩ := hR.call hv hgo hd
    have hold := h.put a (List.mem_of_getElem? ha)
    refine h.set (m := s.mutex) ha (.inr (.inr rfl)) rfl (fun hx => ?_) (fun _ => nofun)
      fun x => ?_
    · refine ⟨(hold hx).1, iff_of_false nofun fun hn => ?_⟩
      cases hpc.symm.trans ((hold hx).2.mpr hn)
    · rw [Thread.calls, Thread.calls, hpc]
      rcases a.side.eq_or_other x with rfl | rfl
      · rw [if_pos rfl, if_pos rfl, hown]
        simp only [Pc.called, Bool.toNat_true, Bool.toNat_false]
        omega
      · rw [if_neg Side.other_ne.symm, if_neg Side.other_ne.symm, hother]
        omega
  | signal hpc =>
    exact h.move (m := s.mutex) ha (.inr (.inr rfl)) (by rw [hpc]; nofun) nofun
      (by rw [hpc]; rfl)
  | @wake w i th hpc hth hasleep hne =>
    have h₁ : ({ s with mutex := s.mutex }.goto i { th with pc := .woken }).Counted count n sides :=
      h.move hth (.inr (.inr rfl)) (by rw [hasleep]; nofun) nofun (by rw [hasleep]; rfl)
    have ha' : (s.threads.set i { th with pc := .woken })[tid]? = some a := by
      rw [List.getElem?_set_ne hne, ha]
    exact h₁.move (m := s.mutex) ha' (.inr (.inr rfl)) (by rw [hpc]; nofun) nofun
      (by rw [hpc]; rfl)
  | @unlock w hpc =>
    refine h.set ha (.inl rfl) rfl (fun hx => ?_) (fun hx => ?_) fun x => ?_
    · have hold := h.put a (List.mem_of_getElem? ha) hx
      have hne : a.round ≠ n := fun hn => by cases hpc.symm.trans (hold.2.mpr hn)
      have hle : a.round + 1 ≤ n := Nat.lt_of_le_of_ne hold.1 hne
      refine ⟨hle, ?_⟩
      show (if _ then Pc.lock else Pc.exited) = .exited ↔ a.round + 1 = n
      rw [hx, hR.put]
      rcases Nat.lt_or_eq_of_le hle with hlt | heq
      · rw [if_pos (decide_eq_true hlt)]
        exact iff_of_false nofun (Nat.ne_of_lt hlt)
      · rw [if_neg (by simp [heq])]
        exact iff_of_true rfl heq
    · show (if _ then Pc.lock else Pc.exited) ≠ .exited
      rw [hx, hR.take]
      nofun
    · have hcalled : ∀ {c : Bool}, (if c then Pc.lock else Pc.exited).called = false := by
        intro c
        cases c <;> rfl
      rw [Thread.calls, Thread.calls, hpc, hcalled]
      by_cases hx : a.side = x
      · rw [if_pos hx, if_pos hx]
        simp only [Pc.called, Bool.toNat_true, Bool.toNat_false]
        omega
      · rw [if_neg hx, if_neg hx]
        omega

theorem spurious (h : s.Counted count n sides) (hx : s.wake x tid = some t) :
    t.Counted count n sides := by
  obtain ⟨th, hth, hasleep, rfl⟩ := State.wake_spec hx
  obtain ⟨hpc, -⟩ := Thread.asleepOn_iff.mp hasleep
  exact h.move (m := s.mutex) hth (.inr (.inr rfl)) (by rw [hpc]; nofun) nofun (by rw [hpc]; rfl)

end State.Counted

/-! ## The rank -/

/-- The calls that can still be made, seven for each, and what the threads have left of them. -/
def State.rank (count : Side → σ → Int) (total : Int) (s : State σ) : Int :=
  weights s.threads + 7 * (2 * total - count .put s.data - count .take s.data)

def Label.isSpurious : Label → Bool
  | .step .. => false
  | .spurious .. => true

/-- Nothing but a spurious wakeup gives anything to the rank. -/
def Label.gain : Label → Nat
  | .step .. => 0
  | .spurious .. => 3

theorem Label.isSpurious_of_gain {l : Label} (h : l.gain = 0) : l.isSpurious = false := by
  cases l with
  | step => rfl
  | spurious => cases h

theorem sum_gain (ls : List Label) :
    (ls.map Label.gain).sum = 3 * ls.countP Label.isSpurious := by
  induction ls with
  | nil => rfl
  | cons l ls ih =>
    rw [List.map_cons, List.sum_cons, List.countP_cons, ih]
    cases l with
    | step => exact Nat.zero_add _
    | spurious => exact Nat.add_comm ..

theorem atRest_iff {d : σ} : (monitor task d sides).AtRest Label.gain s ↔
    ∀ tid wake, (monitor task d sides).exec s (.step tid wake) = none := by
  refine ⟨fun h tid wake => h _ rfl, fun h l hl => ?_⟩
  cases l with
  | step tid wake => exact h tid wake
  | spurious => cases hl

theorem Stepped.rank {total : Int} (hR : Rounds task valid count n) (hv : valid s.data)
    (ha : s.threads[tid]? = some a) (hst : Stepped task s tid a t) :
    t.rank count total + 1 ≤ s.rank count total := by
  cases hst with
  | @quiet pc m hq hm =>
    have hw : Thread.weight { a with pc } + 1 ≤ a.weight := hq.facts.2.2.2.2
    simp only [State.rank, State.goto]
    rw [weights_set ha]
    omega
  | @call w d hpc hgo hd =>
    have hw : Thread.weight { a with pc := .signal w } = a.weight + 6 := by
      rw [Thread.weight, Thread.weight, hpc]
      rfl
    have hsum : count .put d + count .take d = count .put s.data + count .take s.data + 1 := by
      obtain ⟨hown, hother⟩ := hR.call hv hgo hd
      cases hx : a.side <;> rw [hx] at hown hother <;> simp only [Side.other] at hother <;> omega
    simp only [State.rank, State.goto]
    rw [weights_set ha]
    omega
  | @signal w hpc =>
    have hw : Thread.weight { a with pc := .unlock w } + 1 ≤ a.weight := by
      rw [Thread.weight, Thread.weight, hpc]
      simp [Pc.weight]
    simp only [State.rank, State.goto]
    rw [weights_set ha]
    omega
  | @wake w i th hpc hth hasleep hne =>
    have ha' : (s.threads.set i { th with pc := .woken })[tid]? = some a := by
      rw [List.getElem?_set_ne hne, ha]
    have hw : Thread.weight { a with pc := .unlock w } = a.weight - 3 := by
      rw [Thread.weight, Thread.weight, hpc]
      rfl
    have hw' : Thread.weight { th with pc := .woken } = th.weight + 2 := by
      rw [Thread.weight, Thread.weight, hasleep]
      rfl
    have hset := weights_set (s := s.goto i { th with pc := .woken })
      (b := { a with pc := .unlock w }) ha'
    simp only [State.rank, State.goto] at hset ⊢
    rw [hset, weights_set hth]
    omega
  | @unlock w hpc =>
    have hw : ∀ r, ∀ c : Bool,
        Thread.weight { a with round := r, pc := if c then .lock else .exited } + 1 ≤ a.weight := by
      intro r c
      rw [Thread.weight, Thread.weight, hpc]
      cases c <;> simp [Pc.weight]
    have hw := hw (a.round + 1) ((task a.side).again (a.round + 1))
    simp only [State.rank, State.goto]
    rw [weights_set ha]
    omega

theorem State.rank_spurious {total : Int} (hx : s.wake x tid = some t) :
    t.rank count total + 1 ≤ s.rank count total + 3 := by
  obtain ⟨th, hth, hasleep, rfl⟩ := State.wake_spec hx
  have hw : Thread.weight { th with pc := .woken } = th.weight + 2 := by
    rw [Thread.weight, Thread.weight, (Thread.asleepOn_iff.mp hasleep).1]
    rfl
  simp only [State.rank, State.goto]
  rw [weights_set hth]
  omega

theorem weights_nonneg (ts : List Thread) : 0 ≤ weights ts := by
  induction ts with
  | nil => exact Int.le_refl 0
  | cons th ts ih =>
    have hth : 0 ≤ th.weight := by
      rw [Thread.weight]
      cases th.pc <;> simp [Pc.weight]
    rw [weights, List.map_cons, List.sum_cons, ← weights]
    omega

theorem calls_le {ts : List Thread}
    (h : ∀ th ∈ ts, th.side = x → th.round + th.pc.called.toNat ≤ n) :
    calls x ts ≤ n * (ts.map Thread.side).count x := by
  induction ts with
  | nil => exact Int.le_refl 0
  | cons th ts ih =>
    have ih := ih fun th hth => h th (List.mem_cons_of_mem _ hth)
    rw [calls, List.map_cons, List.sum_cons, ← calls, List.map_cons, List.count_cons, Thread.calls]
    by_cases hx : th.side = x
    · have hcalled := h th List.mem_cons_self hx
      rw [if_pos hx, if_pos (beq_iff_eq.mpr hx), Nat.cast_add, Int.mul_add]
      omega
    · rw [if_neg hx, if_neg fun hc => hx (beq_iff_eq.mp hc)]
      simpa using ih

theorem calls_put_le {ts : List Thread}
    (h : ∀ th ∈ ts, th.side = .put → th.round ≤ n ∧ (th.pc = .exited ↔ th.round = n)) :
    calls .put ts ≤ n * (ts.map Thread.side).count .put := by
  refine calls_le fun th hth hx => ?_
  obtain ⟨hle, hex⟩ := h th hth hx
  cases hc : th.pc.called with
  | false => exact hle
  | true =>
    refine Nat.lt_of_le_of_ne hle fun hn => ?_
    rw [hex.mpr hn] at hc
    cases hc

theorem calls_put_eq {ts : List Thread} (h : ∀ th ∈ ts, th.side = .put →
    th.round = n ∧ th.pc = .exited) : calls .put ts = n * (ts.map Thread.side).count .put := by
  induction ts with
  | nil => rfl
  | cons th ts ih =>
    have ih := ih fun th hth => h th (List.mem_cons_of_mem _ hth)
    rw [calls, List.map_cons, List.sum_cons, ← calls, List.map_cons, List.count_cons, Thread.calls,
      ih]
    by_cases hx : th.side = .put
    · obtain ⟨hr, hpc⟩ := h th List.mem_cons_self hx
      rw [if_pos hx, if_pos (beq_iff_eq.mpr hx), hr, hpc, Nat.cast_add, Int.mul_add]
      simp only [Pc.called, Bool.toNat_false]
      omega
    · rw [if_neg hx, if_neg fun hc => hx (beq_iff_eq.mp hc)]
      simp

theorem monitor_lock {d : σ} {th : Thread} (h : th ∈ (monitor task d sides).init.threads) :
    th.round = 0 ∧ th.pc = .lock := by
  obtain ⟨side, -, rfl⟩ := List.mem_map.mp h
  exact ⟨rfl, rfl⟩

theorem counted_init {d : σ} (hn : 0 < n) (hd : ∀ x, count x d = 0) :
    (monitor task d sides).init.Counted count n sides where
  sides := by
    rw [monitor, List.map_map]
    exact List.map_id sides
  owner _ := nofun
  put th hth _ := by
    obtain ⟨hr, hpc⟩ := monitor_lock hth
    rw [hr, hpc]
    exact ⟨Nat.zero_le n, iff_of_false (fun hc => by cases hc) (Nat.ne_of_lt hn)⟩
  take th hth _ := by
    rw [(monitor_lock hth).2]
    intro hc
    cases hc
  counts x := by
    rw [show (monitor task d sides).init.data = d from rfl, hd, monitor, calls, List.map_map]
    induction sides with
    | nil => rfl
    | cons y sides ih =>
      rw [List.map_cons, List.sum_cons, ← ih]
      exact (Int.add_zero _).trans (ite_self 0) |>.symm

/-- The invariant of the runs, and the rank that their steps take from. -/
theorem ranked {d : σ} (hE : Exchanges task valid units) (hR : Rounds task valid count n) :
    (monitor task d sides).Ranked (fun s => s.Inv task valid units ∧ s.Counted count n sides)
      (State.rank count (n * sides.count .put)) Label.gain where
  nonneg {s} h := by
    have hw := weights_nonneg s.threads
    have hput := calls_put_le h.2.put
    have hle := hR.le h.1.valid
    rw [← h.2.counts, h.2.sides] at hput
    rw [State.rank]
    omega
  keeps {s t l} h hx := by
    cases l with
    | step tid wake =>
      simp only [monitor] at hx
      split at hx
      · next th ha =>
        exact ⟨h.1.stepThread hE ha hx, h.2.step hR h.1.valid ha (stepped hE h.1 ha hx)⟩
      · cases hx
    | spurious side tid => exact ⟨h.1.spurious hx, h.2.spurious hx⟩
  step {s t l} h hx := by
    cases l with
    | step tid wake =>
      simp only [monitor] at hx
      split at hx
      · next th ha =>
        have hrank : t.rank count (n * sides.count .put) + 1 ≤
            s.rank count (n * sides.count .put) := (stepped hE h.1 ha hx).rank hR h.1.valid ha
        exact Int.le_trans hrank (Int.le_of_eq (Int.add_zero _).symm)
      · cases hx
    | spurious side tid => exact State.rank_spurious hx

theorem rank_init {d : σ} {total : Int} (hd : ∀ x, count x d = 0) :
    (monitor task d sides).init.rank count total = 2 * sides.length + 14 * total := by
  have hw : weights (monitor task d sides).init.threads = 2 * sides.length := by
    rw [monitor, weights, List.map_map]
    induction sides with
    | nil => rfl
    | cons x sides ih =>
      rw [List.map_cons, List.sum_cons, ih, List.length_cons]
      simp only [Function.comp_apply, Thread.weight, Pc.weight]
      omega
  rw [State.rank, hw, show (monitor task d sides).init.data = d from rfl, hd, hd]
  omega

/-! ## Rest -/

theorem exists_signal (s : State σ) (x : Side) : ∃ wake, s.signal x wake ≠ none := by
  by_cases hany : s.threads.any (·.asleepOn x) = true
  · obtain ⟨th, hth, hasleep⟩ := List.any_eq_true.mp hany
    obtain ⟨wake, hwake⟩ := List.mem_iff_getElem?.mp hth
    refine ⟨wake, ?_⟩
    rw [State.signal, if_pos hany, State.wake, hwake]
    show (if th.asleepOn x = true then _ else none) ≠ none
    rw [if_pos hasleep]
    exact Option.some_ne_none _
  · refine ⟨0, ?_⟩
    rw [State.signal, if_neg hany]
    exact Option.some_ne_none _

/-- A thread that owns the mutex can go on. -/
theorem State.stepThread_inSection (s : State σ) (task : Task σ) (tid : Nat) {th : Thread}
    (hin : th.inSection = true) : ∃ wake, s.stepThread task tid wake th ≠ none := by
  obtain ⟨side, round, pc⟩ := th
  cases pc with
  | lock | asleep | woken | exited => cases hin
  | check w =>
    refine ⟨0, ?_⟩
    simp only [stepThread]
    split <;> exact Option.some_ne_none _
  | call w => exact ⟨0, Option.some_ne_none _⟩
  | signal w =>
    obtain ⟨wake, hwake⟩ := exists_signal s side.other
    exact ⟨wake, fun hc => hwake (Option.map_eq_none_iff.mp hc)⟩
  | unlock w => exact ⟨0, Option.some_ne_none _⟩

/-- Where no thread can take a step, the mutex is free, and every thread sleeps or has exited. -/
theorem idle_of_rest {d : σ} (hi : s.Inv task valid units) (hc : s.Counted count n sides)
    (hrest : (monitor task d sides).AtRest Label.gain s) :
    s.mutex = none ∧ ∀ th ∈ s.threads, th.pc = .asleep ∨ th.pc = .exited := by
  have hstuck : ∀ {tid th}, s.threads[tid]? = some th → ∀ wake,
      s.stepThread (task th.side) tid wake th = none := by
    intro tid th hth wake
    have := hrest (.step tid wake) rfl
    simp only [monitor, hth] at this
    exact this
  have hfree : s.mutex = none := by
    cases hm : s.mutex with
    | none => rfl
    | some tid =>
      have hlt := hc.owner tid hm
      have hth := List.getElem?_eq_getElem hlt
      obtain ⟨wake, hgo⟩ := s.stepThread_inSection (task s.threads[tid].side) tid
        ((hi.exclusive tid _ hth).mpr hm)
      exact absurd (hstuck hth wake) hgo
  refine ⟨hfree, fun th hth => ?_⟩
  obtain ⟨tid, hth⟩ := List.mem_iff_getElem?.mp hth
  have hno := hstuck hth 0
  cases hpc : th.pc with
  | asleep => exact .inl rfl
  | exited => exact .inr rfl
  | lock =>
    simp only [State.stepThread, hpc, hfree, if_true] at hno
    cases hno
  | woken =>
    simp only [State.stepThread, hpc, hfree, if_true] at hno
    cases hno
  | check w | call w | signal w | unlock w =>
    have hin : th.inSection = true := by
      rw [Thread.inSection, hpc]
      rfl
    cases hfree.symm.trans ((hi.exclusive tid th hth).mp hin)

/-- What is left where no thread can take a step, and there is a thread that takes: the threads that
put have made all their rounds, those that take sleep, and all that was put has been taken. -/
structure State.Done (count : Side → σ → Int) (n : Nat) (sides : List Side) (s : State σ) :
    Prop where
  free : s.mutex = none
  exited : ∀ th ∈ s.threads, th.side = .put → th.pc = .exited
  asleep : ∀ th ∈ s.threads, th.side = .take → th.pc = .asleep
  put : count .put s.data = n * sides.count .put
  taken : count .take s.data = count .put s.data

theorem done_of_rest {d : σ} (hR : Rounds task valid count n) (hi : s.Inv task valid units)
    (hc : s.Counted count n sides) (htake : Side.take ∈ sides)
    (hu : count .put s.data - count .take s.data ≤ units .take s.data)
    (hpos : 0 < units .put s.data + units .take s.data)
    (hrest : (monitor task d sides).AtRest Label.gain s) : s.Done count n sides := by
  obtain ⟨hfree, hidle⟩ := idle_of_rest hi hc hrest
  have hasleep : ∀ th ∈ s.threads, th.side = .take → th.pc = .asleep := fun th hth hx =>
    (hidle th hth).resolve_right (hc.take th hth hx)
  have htaker : ∃ th ∈ s.threads, th.asleepOn .take = true := by
    obtain ⟨th, hth, hx⟩ := List.mem_map.mp (hc.sides ▸ htake)
    exact ⟨th, hth, Thread.asleepOn_iff.mpr ⟨hasleep th hth hx, hx⟩⟩
  have hexited : ∀ th ∈ s.threads, th.side = .put → th.pc = .exited := by
    intro th hth hx
    refine (hidle th hth).resolve_left fun hpc => ?_
    obtain ⟨w, hw, hwoken⟩ := hi.exists_beenWoken hpos
      ⟨th, hth, Thread.asleepOn_iff.mpr ⟨hpc, hx⟩⟩ htaker
    rcases hidle w hw with hpc | hpc <;> rw [Thread.beenWoken, hpc] at hwoken <;> cases hwoken
  refine ⟨hfree, hexited, hasleep, ?_, ?_⟩
  · rw [hc.counts, ← hc.sides]
    exact calls_put_eq fun th hth hx =>
      ⟨(hc.put th hth hx).2.mp (hexited th hth hx), hexited th hth hx⟩
  · have hnone : s.threads.countP (Thread.wokenOn .take) = 0 := by
      refine List.countP_eq_zero.mpr fun th hth hwoken => ?_
      rcases hidle th hth with hpc | hpc <;> rw [Thread.wokenOn, hpc] at hwoken <;> cases hwoken
    have hle := hi.units_le hfree htaker
    rw [hnone] at hle
    have := hR.le hi.valid
    omega

end
end Lib.Monitor
