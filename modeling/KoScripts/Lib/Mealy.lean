import Mathlib.Data.List.Basic

/-! # Mealy machines

A transducer reads its input one symbol at a time and emits a list of symbols for each. What it
emits for a concatenation is what it emits for the parts, so the way an input is cut into chunks
does not show in the output. -/

namespace Lib

universe u v w

structure Mealy (σ : Type u) (α : Type v) (β : Type w) where
  next : σ → α → σ
  out : σ → α → List β

namespace Mealy
variable {σ : Type u} {α : Type v} {β : Type w} (M : Mealy σ α β)

/-- The state after an input. -/
def state (q : σ) (xs : List α) : σ := xs.foldl M.next q

/-- Everything emitted over an input. -/
def output : σ → List α → List β
  | _, [] => []
  | q, x :: xs => M.out q x ++ output (M.next q x) xs

variable {M} {q : σ} {x : α} {xs ys : List α}

@[simp] theorem state_nil : M.state q [] = q := rfl

@[simp] theorem state_cons : M.state q (x :: xs) = M.state (M.next q x) xs := rfl

@[simp] theorem output_nil : M.output q [] = [] := rfl

@[simp] theorem output_cons : M.output q (x :: xs) = M.out q x ++ M.output (M.next q x) xs := rfl

theorem output_singleton : M.output q [x] = M.out q x := List.append_nil _

theorem state_append : M.state q (xs ++ ys) = M.state (M.state q xs) ys := List.foldl_append

theorem output_append : M.output q (xs ++ ys) = M.output q xs ++ M.output (M.state q xs) ys := by
  induction xs generalizing q with
  | nil => rfl
  | cons x xs ih =>
    rw [List.cons_append, output_cons, ih, output_cons, state_cons, List.append_assoc]

/-- A longer input only adds to the output. -/
theorem output_prefix (h : xs <+: ys) : M.output q xs <+: M.output q ys := by
  obtain ⟨zs, rfl⟩ := h
  rw [output_append]
  exact List.prefix_append ..

/-- A transducer that emits at most one symbol per input symbol emits no more than it reads. -/
theorem length_output_le (h : ∀ q x, (M.out q x).length ≤ 1) :
    (M.output q xs).length ≤ xs.length := by
  induction xs generalizing q with
  | nil => exact Nat.le_refl 0
  | cons x xs ih =>
    have hx := h q x
    have hxs := ih (q := M.next q x)
    rw [output_cons, List.length_append, List.length_cons]
    omega

/-- If it emits at most one symbol per input symbol, every end of its output is what it emits for an
end of its input. -/
theorem exists_of_suffix_output (h : ∀ q x, (M.out q x).length ≤ 1) {zs : List β}
    (hz : zs <:+ M.output q xs) : ∃ ys zs', xs = ys ++ zs' ∧ M.output (M.state q ys) zs' = zs := by
  induction xs generalizing q with
  | nil =>
    obtain rfl := List.suffix_nil.mp hz
    exact ⟨[], [], rfl, rfl⟩
  | cons x xs ih =>
    obtain ⟨ws, hws⟩ := hz
    cases ws with
    | nil => exact ⟨[], x :: xs, rfl, hws.symm⟩
    | cons w ws =>
      have hrest : zs <:+ M.output (M.next q x) xs := by
        rw [output_cons] at hws
        have hx := h q x
        cases hout : M.out q x with
        | nil => exact ⟨w :: ws, by rw [hws, hout, List.nil_append]⟩
        | cons o os =>
          rw [hout] at hx hws
          obtain rfl := List.eq_nil_of_length_eq_zero (Nat.le_zero.mp (Nat.le_of_succ_le_succ hx))
          exact ⟨ws, (List.cons.inj hws).2⟩
      obtain ⟨ys, zs', rfl, hout⟩ := ih hrest
      exact ⟨x :: ys, zs', rfl, hout⟩

/-- The same for the parts at its beginning. -/
theorem exists_of_prefix_output (h : ∀ q x, (M.out q x).length ≤ 1) {zs : List β}
    (hz : zs <+: M.output q xs) : ∃ ys ys', xs = ys ++ ys' ∧ M.output q ys = zs := by
  obtain ⟨ws, hws⟩ := hz
  obtain ⟨ys, ys', rfl, hout⟩ := exists_of_suffix_output h (hws ▸ List.suffix_append zs ws)
  rw [output_append, hout, List.append_left_inj] at hws
  exact ⟨ys, ys', rfl, hws.symm⟩

end Mealy
end Lib
