import Mathlib.Data.List.Basic

/-! # Diverging lists

Two lists diverge if they differ in a place that both have. What diverges from an expected list is
no beginning of it, and whatever is put before or behind, it stays so. -/

namespace Lib

universe u
variable {α : Type u} {l m l' m' : List α} {x y : α}

inductive Diverges : List α → List α → Prop
  | head {x y : α} {l m : List α} : x ≠ y → Diverges (x :: l) (y :: m)
  | cons {x : α} {l m : List α} : Diverges l m → Diverges (x :: l) (x :: m)

theorem diverges_of_head? (hl : l.head? = some x) (hm : m.head? = some y) (hne : x ≠ y) :
    Diverges l m := by
  obtain ⟨l, rfl⟩ := List.head?_eq_some_iff.mp hl
  obtain ⟨m, rfl⟩ := List.head?_eq_some_iff.mp hm
  exact .head hne

namespace Diverges

theorem not_prefix (h : Diverges l m) : ¬l <+: m := by
  induction h with
  | head hne => exact fun hp => hne (List.cons_prefix_cons.mp hp).1
  | cons _ ih => exact fun hp => ih (List.cons_prefix_cons.mp hp).2

theorem append_right (h : Diverges l m) : Diverges (l ++ l') (m ++ m') := by
  induction h with
  | head hne => exact .head hne
  | cons _ ih => exact .cons ih

theorem append_left (h : Diverges l m) : Diverges (l' ++ l) (l' ++ m) := by
  induction l' with
  | nil => exact h
  | cons x l' ih => exact .cons ih

end Diverges
end Lib
