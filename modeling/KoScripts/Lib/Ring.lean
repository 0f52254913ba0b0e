import Mathlib.Data.List.Basic

/-! # Circular buffers

`ring buf head n` is the list of the `n` entries of a buffer from `head` on, round its end. With
one entry kept free, both indices of a circular buffer stay inside it and tell how many entries
are in use, `inUse`. -/

namespace Lib

universe u
variable {α : Type u} {size : Nat} {buf : Vector α size} {head tail n : Nat} {x : α}

def ring (buf : Vector α size) (head n : Nat) : List α :=
  (List.range n).filterMap fun k => buf[(head + k) % size]?

def inUse (size head tail : Nat) : Nat := (tail + size - head) % size

theorem ring_zero : ring buf head 0 = [] := rfl

theorem ring_succ_last (h : buf[(head + n) % size]? = some x) :
    ring buf head (n + 1) = ring buf head n ++ [x] := by
  rw [ring, List.range_succ, List.filterMap_append]
  exact congrArg _ (List.filterMap_cons_some h)

theorem length_ring (hs : 0 < size) : (ring buf head n).length = n := by
  induction n with
  | zero => rfl
  | succ n ih =>
    rw [ring_succ_last (Vector.getElem?_eq_getElem (Nat.mod_lt _ hs)), List.length_append, ih]
    rfl

theorem ring_succ_first (h : head < size) :
    ring buf head (n + 1) = buf[head] :: ring buf ((head + 1) % size) n := by
  rw [ring, List.range_succ_eq_map, List.filterMap_cons, Nat.add_zero, Nat.mod_eq_of_lt h,
    List.filterMap_map]
  simp only [Vector.getElem?_eq_getElem h]
  refine congrArg _ (List.filterMap_congr fun k _ => ?_)
  rw [Function.comp_apply, Nat.mod_add_mod, Nat.succ_eq_add_one, Nat.add_right_comm, Nat.add_assoc]

/-! ## The two indices -/

theorem succ_mod_cases {i : Nat} (h : i < size) :
    i + 1 < size ∧ (i + 1) % size = i + 1 ∨ i + 1 = size ∧ (i + 1) % size = 0 := by
  rcases Nat.lt_or_eq_of_le (Nat.succ_le_of_lt h) with h | h
  · exact .inl ⟨h, Nat.mod_eq_of_lt h⟩
  · exact .inr ⟨h, by rw [← Nat.succ_eq_add_one, h, Nat.mod_self]⟩

theorem inUse_cases (hh : head < size) (ht : tail < size) :
    head ≤ tail ∧ inUse size head tail + head = tail ∨
      tail < head ∧ inUse size head tail + head = tail + size := by
  rcases Nat.lt_or_ge tail head with h | h
  · refine .inr ⟨h, ?_⟩
    rw [inUse, Nat.mod_eq_of_lt (by omega)]
    omega
  · refine .inl ⟨h, ?_⟩
    rw [inUse, show tail + size - head = tail - head + size by omega, Nat.add_mod_right,
      Nat.mod_eq_of_lt (by omega)]
    omega

theorem inUse_lt (hh : head < size) : inUse size head tail < size :=
  Nat.mod_lt _ (by omega)

theorem eq_iff_inUse (hh : head < size) (ht : tail < size) :
    head = tail ↔ inUse size head tail = 0 := by
  have := inUse_cases hh ht
  omega

theorem eq_succ_iff_inUse (hh : head < size) (ht : tail < size) :
    head = (tail + 1) % size ↔ inUse size head tail = size - 1 := by
  have := inUse_cases hh ht
  have := succ_mod_cases ht
  omega

theorem inUse_tail_succ (hh : head < size) (ht : tail < size)
    (h : inUse size head tail < size - 1) :
    inUse size head ((tail + 1) % size) = inUse size head tail + 1 := by
  have := inUse_cases hh ht
  have := inUse_cases hh (Nat.mod_lt (tail + 1) (Nat.zero_lt_of_lt ht))
  have := succ_mod_cases ht
  omega

theorem inUse_head_succ (hh : head < size) (ht : tail < size) (h : inUse size head tail ≠ 0) :
    inUse size head tail = inUse size ((head + 1) % size) tail + 1 := by
  have := inUse_cases hh ht
  have := inUse_cases (Nat.mod_lt (head + 1) (Nat.zero_lt_of_lt hh)) ht
  have := succ_mod_cases hh
  omega

theorem tail_eq (hh : head < size) (ht : tail < size) :
    (head + inUse size head tail) % size = tail := by
  rcases inUse_cases hh ht with ⟨-, h⟩ | ⟨-, h⟩
  · rw [Nat.add_comm, h, Nat.mod_eq_of_lt ht]
  · rw [Nat.add_comm, h, Nat.add_mod_right, Nat.mod_eq_of_lt ht]

/-- The entry at `tail` is none of those in use. -/
theorem ring_set_tail (hh : head < size) (ht : tail < size) :
    ring (buf.set tail x) head (inUse size head tail + 1) =
      ring buf head (inUse size head tail) ++ [x] := by
  have hx : (buf.set tail x)[(head + inUse size head tail) % size]? = some x := by
    rw [tail_eq hh ht, Vector.getElem?_set_self]
  rw [ring_succ_last hx]
  refine congrArg (· ++ [x]) (List.filterMap_congr fun k hk => ?_)
  have hne : tail ≠ (head + k) % size := by
    have hk := List.mem_range.mp hk
    have hlt : inUse size head tail < size := inUse_lt hh
    have := inUse_cases hh ht
    rcases Nat.lt_or_ge (head + k) size with h | h
    · rw [Nat.mod_eq_of_lt h]; omega
    · rw [Nat.mod_eq_sub_mod h, Nat.mod_eq_of_lt (by omega)]; omega
  rw [Vector.getElem?_set, if_neg hne]

theorem ring_head (hh : head < size) (ht : tail < size) (h : inUse size head tail ≠ 0) :
    ring buf head (inUse size head tail) =
      buf[head] :: ring buf ((head + 1) % size) (inUse size ((head + 1) % size) tail) := by
  rw [inUse_head_succ hh ht h, ring_succ_first hh]

end Lib
