import KoScripts.Concurrency.Semaphore

/-! # The semaphores count what the buffer holds

Between a wait and the matching post a thread owns what the semaphore has granted it: a consumer
an item until it has popped one, a producer a free entry until it has filled one, and after the
critical section each owes the other side a post. Counted with these, `semaphore1` is the number
of values in the buffer and `semaphore2` that of free entries, so no call is ever refused. -/

namespace KoScripts.Concurrency.Semaphore
open Lib

/-- The thread has waited for a value and not popped it, or added one and not posted it. -/
def Thread.ownsItem : Thread → Bool
  | .produce .unlock | .produce .semPost | .consume _ .lock | .consume _ .pop => true
  | _ => false

/-- The thread has waited for an entry and not filled it, or emptied one and not posted it. -/
def Thread.ownsSlot : Thread → Bool
  | .produce .rand | .produce (.lock _) | .produce (.add _) => true
  | .consume _ (.unlock _) | .consume _ (.semPost _) => true
  | _ => false

def Thread.inSection : Thread → Bool
  | .produce (.add _) | .produce .unlock | .consume _ .pop | .consume _ (.unlock _) => true
  | _ => false

/-- The variable a consumer prints, from its `pop_item` on. -/
def Thread.got : Thread → Option Int
  | .consume _ (.unlock r) | .consume _ (.semPost r) => some r
  | _ => none

variable {size : Nat} {s t : State size} {tid rnd : Nat}

structure State.Inv (s : State size) : Prop where
  indices : s.queue.Indices
  safe : s.faulted = false
  items : s.queue.contents.length = s.semaphore1 + s.threads.countP Thread.ownsItem
  slots : s.queue.contents.length + s.semaphore2 + s.threads.countP Thread.ownsSlot = size - 1
  history : s.added.map Prod.fst = s.popped.map Prod.fst ++ s.queue.contents
  added : ∀ c ∈ s.added, 0 ≤ c.1 ∧ c.2 = true
  popped : ∀ c ∈ s.popped, c.2 = true
  got : ∀ th ∈ s.threads, ∀ r, th.got = some r → r ∈ s.popped.map Prod.fst
  exclusive : Exclusive Thread.inSection s.mutex1 s.threads

namespace State.Inv

/-- A step outside the buffer: what the thread gains or gives up, its semaphores lose or gain. -/
theorem move {a b : Thread} {semaphore1 semaphore2 : Nat} {mutex1 : Option Nat} (h : s.Inv)
    (ha : s.threads[tid]? = some a)
    (h1 : semaphore1 + b.ownsItem.toNat = s.semaphore1 + a.ownsItem.toNat)
    (h2 : semaphore2 + b.ownsSlot.toNat = s.semaphore2 + a.ownsSlot.toNat)
    (hg : b.got = none ∨ b.got = a.got)
    (hm : Exclusive Thread.inSection mutex1 (s.threads.set tid b)) :
    ({ s with semaphore1, semaphore2, mutex1 }.goto tid b).Inv where
  indices := h.indices
  safe := h.safe
  items := by
    have := countP_set_add (b := b) (p := Thread.ownsItem) ha
    have := h.items
    simp only [goto]
    omega
  slots := by
    have := countP_set_add (b := b) (p := Thread.ownsSlot) ha
    have := h.slots
    simp only [goto]
    omega
  history := h.history
  added := h.added
  popped := h.popped
  got th hth r hr := by
    rcases List.mem_or_eq_of_mem_set hth with hth | rfl
    · exact h.got th hth r hr
    · rcases hg with hg | hg
      · rw [hg] at hr; cases hr
      · exact h.got a (List.mem_of_getElem? ha) r (hg ▸ hr)
  exclusive := hm

/-- A producer in its critical section owns a free entry. -/
theorem add {r : Nat} (h : s.Inv) (ha : s.threads[tid]? = some (.produce (.add r)))
    (hx : s.produce tid rnd (.add r) = some t) : t.Inv := by
  have hown : 1 ≤ s.threads.countP Thread.ownsSlot := toNat_le_countP (p := Thread.ownsSlot) ha
  have hslots := h.slots
  obtain ⟨queue, hadd, hcontents, hind⟩ := addItem_spec (i := (r : Int)) h.indices (by omega)
  simp only [produce, hadd, Option.some.injEq] at hx
  subst hx
  have hlen : queue.contents.length = s.queue.contents.length + 1 := by
    rw [hcontents, List.length_append]; rfl
  refine ⟨hind, h.safe, ?_, ?_, ?_, ?_, h.popped, ?_, h.exclusive.keep ha rfl⟩
  · have hset : (s.threads.set tid (.produce .unlock)).countP Thread.ownsItem =
      s.threads.countP Thread.ownsItem + 1 := countP_set_enter ha rfl rfl
    have := h.items
    simp only [goto]
    omega
  · have hset : (s.threads.set tid (.produce .unlock)).countP Thread.ownsSlot + 1 =
      s.threads.countP Thread.ownsSlot := countP_set_leave ha rfl rfl
    simp only [goto]
    omega
  · simp only [goto, List.map_append, h.history, hcontents, List.append_assoc]
    rfl
  · intro c hc
    rcases List.mem_append.mp hc with hc | hc
    · exact h.added c hc
    · rw [List.mem_singleton.mp hc]
      exact ⟨Int.natCast_nonneg r, rfl⟩
  · intro th hth v hv
    rcases List.mem_or_eq_of_mem_set hth with hth | rfl
    · exact h.got th hth v hv
    · cases hv

/-- A consumer in its critical section owns a value. -/
theorem pop {i : Nat} (h : s.Inv) (ha : s.threads[tid]? = some (.consume i .pop))
    (hx : s.consume tid i .pop = some t) : t.Inv := by
  have hown : 1 ≤ s.threads.countP Thread.ownsItem := toNat_le_countP (p := Thread.ownsItem) ha
  have hitems := h.items
  have hne : s.queue.contents ≠ [] := fun hc => by rw [hc, List.length_nil] at hitems; omega
  obtain ⟨queue, x, hpop, hcontents, hind⟩ := popItem_spec (r := -1) h.indices hne
  simp only [consume, hpop, Option.some.injEq] at hx
  subst hx
  have hlen : s.queue.contents.length = queue.contents.length + 1 := by
    rw [hcontents, List.length_cons]
  refine ⟨hind, h.safe, ?_, ?_, ?_, h.added, ?_, ?_, h.exclusive.keep ha rfl⟩
  · have hset : (s.threads.set tid (.consume i (.unlock x))).countP Thread.ownsItem + 1 =
      s.threads.countP Thread.ownsItem := countP_set_leave ha rfl rfl
    simp only [goto]
    omega
  · have hset : (s.threads.set tid (.consume i (.unlock x))).countP Thread.ownsSlot =
      s.threads.countP Thread.ownsSlot + 1 := countP_set_enter ha rfl rfl
    have := h.slots
    simp only [goto]
    omega
  · simp only [goto, List.map_append, h.history, hcontents, List.append_assoc]
    rfl
  · intro c hc
    rcases List.mem_append.mp hc with hc | hc
    · exact h.popped c hc
    · rw [List.mem_singleton.mp hc]
  · intro th hth v hv
    simp only [goto, List.map_append, List.mem_append]
    rcases List.mem_or_eq_of_mem_set hth with hth | rfl
    · exact .inl (h.got th hth v hv)
    · cases hv
      exact .inr (List.mem_singleton_self x)

theorem produce {pc : Produce} (h : s.Inv) (ha : s.threads[tid]? = some (.produce pc))
    (hx : s.produce tid rnd pc = some t) : t.Inv := by
  cases pc with
  | semWait =>
    obtain ⟨hpos, hx⟩ := Option.ite_none_right_eq_some.mp hx
    cases hx
    refine h.move ha rfl ?_ (.inl rfl) (h.exclusive.keep ha rfl)
    simp only [Thread.ownsSlot, Bool.toNat_true, Bool.toNat_false]
    omega
  | rand => cases hx; exact h.move ha rfl rfl (.inl rfl) (h.exclusive.keep ha rfl)
  | lock r =>
    obtain ⟨hfree, hx⟩ := Option.ite_none_right_eq_some.mp hx
    cases hx
    exact h.move ha rfl rfl (.inl rfl) ((hfree ▸ h.exclusive).acquire rfl)
  | add r => exact h.add ha hx
  | unlock => cases hx; exact h.move ha rfl rfl (.inl rfl) (h.exclusive.release ha rfl rfl)
  | semPost => cases hx; exact h.move ha rfl rfl (.inl rfl) (h.exclusive.keep ha rfl)

theorem consume {i : Nat} {pc : Consume} (h : s.Inv)
    (ha : s.threads[tid]? = some (.consume i pc)) (hx : s.consume tid i pc = some t) : t.Inv := by
  cases pc with
  | semWait =>
    obtain ⟨hpos, hx⟩ := Option.ite_none_right_eq_some.mp hx
    cases hx
    refine h.move ha ?_ rfl (.inl rfl) (h.exclusive.keep ha rfl)
    simp only [Thread.ownsItem, Bool.toNat_true, Bool.toNat_false]
    omega
  | lock =>
    obtain ⟨hfree, hx⟩ := Option.ite_none_right_eq_some.mp hx
    cases hx
    exact h.move ha rfl rfl (.inl rfl) ((hfree ▸ h.exclusive).acquire rfl)
  | pop => exact h.pop ha hx
  | unlock r => cases hx; exact h.move ha rfl rfl (.inr rfl) (h.exclusive.release ha rfl rfl)
  | semPost r =>
    cases hx
    split
    · exact h.move ha rfl rfl (.inl rfl) (h.exclusive.keep ha rfl)
    · exact h.move ha rfl rfl (.inl rfl) (h.exclusive.keep ha rfl)

end State.Inv

section
variable {roles : List Role} {buf : Vector Int size}

theorem Role.start_idle {p : Thread → Bool} (hp : p (.produce .semWait) = false)
    (hc : p (.consume 0 .semWait) = false) {th : Thread} (h : th ∈ roles.map Role.start) :
    p th = false := by
  obtain ⟨role, -, rfl⟩ := List.mem_map.mp h
  cases role with
  | producer => exact hp
  | consumer => exact hc

theorem inv_init (hs : 2 ≤ size) : (producersConsumers roles buf).init.Inv := by
  have hzero {p : Thread → Bool} (hp : p (.produce .semWait) = false)
      (hc : p (.consume 0 .semWait) = false) : (roles.map Role.start).countP p = 0 :=
    List.countP_eq_zero.mpr fun th hth => by
      rw [Role.start_idle hp hc hth]
      exact Bool.false_ne_true
  have hempty : (Buffer.setUp buf).contents = [] := Buffer.contents_setUp
  refine ⟨.setUp (by omega), rfl, ?_, ?_, ?_, fun _ hc => (nomatch hc), fun _ hc => (nomatch hc),
    ?_, ?_⟩
  · simp only [producersConsumers, hempty]
    rw [hzero rfl rfl]
    rfl
  · simp only [producersConsumers, hempty]
    rw [hzero rfl rfl, List.length_nil, Nat.zero_add, Nat.add_zero]
  · simp only [producersConsumers, hempty]
    rfl
  · intro th hth r hr
    obtain ⟨role, -, rfl⟩ := List.mem_map.mp hth
    cases role <;> cases hr
  · intro j th hj
    have hout := Role.start_idle (p := Thread.inSection) rfl rfl (List.mem_of_getElem? hj)
    rw [hout]
    exact iff_of_false Bool.false_ne_true (fun hc => nomatch hc)

theorem inv_of_reach (hs : 2 ≤ size)
    (h : (producersConsumers roles buf).Reach Machine.anyStep s) : s.Inv := by
  apply h.invariant (inv_init hs)
  intro s t l hi _ hx
  obtain ⟨-, hx⟩ := Option.ite_none_left_eq_some.mp hx
  split at hx
  · next pc ha => exact hi.produce ha hx
  · next i pc ha => exact hi.consume ha hx
  · cases hx
  · cases hx

/-- At most one thread is between its lock and its unlock. -/
theorem mutex1_exclusive (hs : 2 ≤ size)
    (h : (producersConsumers roles buf).Reach Machine.anyStep s) {i j : Nat} {a b : Thread}
    (ha : s.threads[i]? = some a) (hb : s.threads[j]? = some b) (hia : a.inSection = true)
    (hib : b.inSection = true) : i = j :=
  (inv_of_reach hs h).exclusive.unique ha hb hia hib

/-- No call of `add_item` or `pop_item` is refused, no consumer is left with `r = -1`, and what has
been popped, followed by what the buffer holds, is what has been added. -/
theorem nothing_lost_or_duplicated (hs : 2 ≤ size) (roles : List Role) (buf : Vector Int size)
    {s : State size} (h : (producersConsumers roles buf).Reach Machine.anyStep s) :
    s.faulted = false ∧ (∀ c ∈ s.added, c.2 = true) ∧ (∀ c ∈ s.popped, c.2 = true) ∧
      (∀ th ∈ s.threads, th.got ≠ some (-1)) ∧
      s.added.map Prod.fst = s.popped.map Prod.fst ++ s.queue.contents ∧
      s.queue.contents.length ≤ size - 1 := by
  have hi := inv_of_reach hs h
  refine ⟨hi.safe, fun c hc => (hi.added c hc).2, hi.popped, ?_, hi.history, hi.indices.length_le⟩
  intro th hth hr
  have hmem : (-1 : Int) ∈ s.added.map Prod.fst := by
    rw [hi.history]
    exact List.mem_append_left _ (hi.got th hth _ hr)
  obtain ⟨c, hc, hneg⟩ := List.mem_map.mp hmem
  have := (hi.added c hc).1
  omega

end

/-- Thread 0 produces 7, then thread 1 pops it. -/
def roundTrip : List Label := [
  ⟨0, 0⟩, ⟨0, 7⟩, ⟨0, 0⟩, ⟨0, 0⟩, ⟨0, 0⟩, ⟨0, 0⟩,
  ⟨1, 0⟩, ⟨1, 0⟩, ⟨1, 0⟩]

theorem nothing_lost_or_duplicated_roundTrip :
    ∃ s : State 5, s.popped = [(7, true)] ∧
      s.added.map Prod.fst = s.popped.map Prod.fst ++ s.queue.contents := by
  let M : Machine (State 5) Label :=
    producersConsumers [.producer, .consumer] (Vector.replicate 5 0)
  have hrun : (M.run M.init roundTrip).map State.popped = some [(7, true)] := by decide +kernel
  obtain ⟨s, hreach, hpopped⟩ := Machine.reach_of_run hrun
  exact ⟨s, hpopped, (nothing_lost_or_duplicated (by decide) _ _ hreach).2.2.2.2.1⟩

end KoScripts.Concurrency.Semaphore
