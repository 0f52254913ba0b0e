import Mathlib.Data.Int.Order.Basic
import Mathlib.Data.Nat.Fib.Basic

/-! # Executing a task

`executeTask` of `src/concurrency/MPMC.c` fills a table of terms on the stack and returns `fn[s]`.
The table is declared with `s` entries, one less than the terms need: the accesses from `fn[s]` on
go to the memory behind it, which `Stack` holds as well. -/

namespace KoScripts.Concurrency.Mpmc

/-- The stack from the start of `fn` on, as ints, and the indices of `fn` read or written so far,
the last first. -/
structure Stack where
  cells : Nat → Int
  used : List Nat

namespace Stack

def load (t : Stack) (i : Nat) : Int × Stack := (t.cells i, { t with used := i :: t.used })

def store (t : Stack) (i : Nat) (x : Int) : Stack where
  cells j := if j = i then x else t.cells j
  used := i :: t.used

end Stack

/-- The sum of two ints, `none` where it overflows. -/
def addInt (x y : Int) : Option Int :=
  if -2 ^ 31 ≤ x + y ∧ x + y < 2 ^ 31 then some (x + y) else none

/-- One round of the loop of `executeTask`. -/
def nextTerm (t : Stack) (i : Nat) : Option Stack :=
  let (x, t) := t.load (i - 1)
  let (y, t) := t.load (i - 2)
  (addInt x y).map (t.store i)

/-- The loop of `executeTask` from `i` on, with `n` rounds to go. -/
def fillTable (t : Stack) (i : Nat) : Nat → Option Stack
  | 0 => some t
  | n + 1 => (nextTerm t i).bind fun t => fillTable t (i + 1) n

/-- The value returned, the two arguments of `printf` where it is reached, and the stack. -/
def executeTask (s : Nat) (t : Stack) : Option (Int × Option (Nat × Int) × Stack) :=
  let t := t.store 0 1
  let t := t.store 1 1
  if s < 2 then
    let (x, t) := t.load s
    some (x, none, t)
  else
    (fillTable t 2 (s + 1 - 2)).map fun t =>
      let (x, t) := t.load s
      let (y, t) := t.load s
      (y, some (s, x), t)

/-! ## The accesses -/

/-- The terms before the `n`-th are in the table, and nothing behind them has been used. -/
structure Stack.Holds (t : Stack) (n : Nat) : Prop where
  cells_eq : ∀ j < n, t.cells j = Nat.fib (j + 1)
  used_lt : ∀ i ∈ t.used, i < n

variable {t t' : Stack} {i n s : Nat}

theorem Stack.Holds.load (h : t.Holds n) (hi : i < n) :
    (t.load i).1 = Nat.fib (i + 1) ∧ (t.load i).2.Holds n :=
  ⟨h.cells_eq i hi, h.cells_eq, List.forall_mem_cons.mpr ⟨hi, h.used_lt⟩⟩

theorem Stack.Holds.store (h : t.Holds n) : (t.store n (Nat.fib (n + 1))).Holds (n + 1) where
  cells_eq j hj := by
    rcases Nat.lt_or_eq_of_le (Nat.le_of_lt_succ hj) with hj | rfl
    · exact (if_neg (Nat.ne_of_lt hj)).trans (h.cells_eq j hj)
    · exact if_pos rfl
  used_lt i hi := by
    rcases List.mem_cons.mp hi with rfl | hi
    · exact Nat.lt_succ_self i
    · exact Nat.lt_succ_of_lt (h.used_lt i hi)

/-- The two stores before the loop. -/
theorem Stack.holds_two (cells : Nat → Int) :
    ((Stack.store ⟨cells, []⟩ 0 1).store 1 1).Holds 2 := by
  have h : Stack.Holds ⟨cells, []⟩ 0 :=
    ⟨fun j hj => absurd hj j.not_lt_zero, fun i hi => nomatch hi⟩
  exact h.store.store

theorem addInt_fib (h : Nat.fib (n + 2) < 2 ^ 31) :
    addInt (Nat.fib (n + 1)) (Nat.fib n) = some (Nat.fib (n + 2) : Int) := by
  have hsum : (Nat.fib (n + 1) : Int) + Nat.fib n = Nat.fib (n + 2) := by
    rw [Nat.fib_add_two, Nat.cast_add, Int.add_comm]
  rw [addInt, hsum]
  apply if_pos
  omega

theorem nextTerm_spec (h : t.Holds i) (hi : 2 ≤ i) (hf : Nat.fib (i + 1) < 2 ^ 31) :
    ∃ t', nextTerm t i = some t' ∧ t'.Holds (i + 1) := by
  obtain ⟨k, rfl⟩ := Nat.exists_eq_add_of_le' hi
  have ⟨hx, h1⟩ := h.load (i := k + 1) (by omega)
  have ⟨hy, h2⟩ := h1.load (i := k) (by omega)
  refine ⟨_, ?_, h2.store⟩
  change (addInt (t.load (k + 1)).1 ((t.load (k + 1)).2.load k).1).map _ = _
  rw [hx, hy, addInt_fib hf]
  rfl

theorem fillTable_spec (h : t.Holds i) (hi : 2 ≤ i) (hf : Nat.fib (i + n) < 2 ^ 31) :
    ∃ t', fillTable t i n = some t' ∧ t'.Holds (i + n) := by
  induction n generalizing t i with
  | zero => exact ⟨t, rfl, h⟩
  | succ n ih =>
    have hle : Nat.fib (i + 1) ≤ Nat.fib (i + (n + 1)) := Nat.fib_mono (by omega)
    have ⟨t1, ht1, h1⟩ := nextTerm_spec h hi (Nat.lt_of_le_of_lt hle hf)
    have heq : i + (n + 1) = i + 1 + n := by omega
    rw [heq] at hf ⊢
    have ⟨t2, ht2, h2⟩ := ih h1 (Nat.le_succ_of_le hi) hf
    refine ⟨t2, ?_, h2⟩
    rw [fillTable, ht1]
    exact ht2

/-- For every task whose terms fit in an int, `executeTask` returns the term. On the way it uses
`fn[s]`, behind the table of `s` entries, and no index behind that one and `fn[1]`. -/
theorem executeTask_outside (s : Nat) (cells : Nat → Int) (hf : Nat.fib (s + 1) < 2 ^ 31) :
    ∃ v out t, executeTask s ⟨cells, []⟩ = some (v, out, t) ∧ v = Nat.fib (s + 1) ∧
      ¬(∀ i ∈ t.used, i < s) ∧ ∀ i ∈ t.used, i < max 2 (s + 1) := by
  have h2 := Stack.holds_two cells
  rcases Nat.lt_or_ge s 2 with hs | hs
  · have ⟨hv, h⟩ := h2.load hs
    refine ⟨_, none, _, if_pos hs, hv, fun hc => ?_, fun i hi => ?_⟩
    · exact Nat.lt_irrefl s (hc s (.head _))
    · exact Nat.lt_of_lt_of_le (h.used_lt i hi) (Nat.le_max_left ..)
  · have hn : 2 + (s + 1 - 2) = s + 1 := by omega
    have ⟨t, ht, h⟩ := fillTable_spec (n := s + 1 - 2) h2 (Nat.le_refl 2) (by rwa [hn])
    rw [hn] at h
    have ⟨_, h3⟩ := h.load (Nat.lt_succ_self s)
    have ⟨hv, h4⟩ := h3.load (Nat.lt_succ_self s)
    refine ⟨_, some (s, (t.load s).1), ((t.load s).2.load s).2, ?_, hv, fun hc => ?_,
      fun i hi => ?_⟩
    · rw [executeTask, if_neg (Nat.not_lt.mpr hs), ht]
      rfl
    · exact Nat.lt_irrefl s (hc s (.head _))
    · exact Nat.lt_of_lt_of_le (h4.used_lt i hi) (Nat.le_max_right ..)

theorem executeTask_outside_thirtyThree :
    Nat.fib 34 < 2 ^ 31 ∧ ∃ v out t, executeTask 33 ⟨fun _ => 0, []⟩ = some (v, out, t) ∧
      v = Nat.fib 34 ∧ ¬(∀ i ∈ t.used, i < 33) ∧ ∀ i ∈ t.used, i < max 2 34 :=
  have hf : Nat.fib 34 < 2 ^ 31 := by decide +kernel
  ⟨hf, executeTask_outside 33 (fun _ => 0) hf⟩

/-- The loop is entered for 2, and stores to `fn[2]` of two entries. -/
theorem executeTask_two :
    ¬∀ v out t, executeTask 2 ⟨fun _ => 0, []⟩ = some (v, out, t) → ∀ i ∈ t.used, i < 2 := by
  intro h
  have h2 := h 2 (some (2, 2)) ⟨_, [2, 2, 2, 0, 1, 1, 0]⟩ rfl 2 (.head _)
  exact absurd h2 (Nat.lt_irrefl 2)

end KoScripts.Concurrency.Mpmc
