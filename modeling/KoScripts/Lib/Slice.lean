import Mathlib.Data.List.Basic

/-! # Slices of a fixed-size buffer

`slice buf i j` is the list of the entries `i ≤ k < j` of a buffer. A staging buffer with a read
index `i` and a write index `j` stands for this list: writing at `j` appends, advancing `i` drops,
and a write outside the slice leaves it as it is. -/

namespace Lib

universe u
variable {α : Type u} {n : Nat} {buf buf' : Vector α n} {i j k m : Nat}

def slice (buf : Vector α n) (i j : Nat) : List α := (buf.toList.take j).drop i

@[simp] theorem length_slice (h : j ≤ n) : (slice buf i j).length = j - i := by
  simp [slice, Nat.min_eq_left h]

theorem slice_of_le (h : j ≤ i) : slice buf i j = [] :=
  List.drop_eq_nil_of_le (Nat.le_trans (List.length_take_le ..) h)

@[simp] theorem slice_self : slice buf i i = [] := slice_of_le (Nat.le_refl i)

theorem getElem?_slice : (slice buf i j)[k]? = if i + k < j then buf[i + k]? else none := by
  rw [slice, List.getElem?_drop, List.getElem?_take]
  split
  · rw [Vector.getElem?_toList]
  · rfl

/-- Two buffers with the same entries in a range have the same slice there. -/
theorem slice_congr (H : ∀ k, i ≤ k → k < j → buf[k]? = buf'[k]?) :
    slice buf i j = slice buf' i j := by
  apply List.ext_getElem?
  intro k
  rw [getElem?_slice, getElem?_slice]
  split
  · exact H _ (Nat.le_add_right ..) ‹_›
  · rfl

theorem slice_append_slice (hij : i ≤ j) (hjk : j ≤ k) :
    slice buf i j ++ slice buf j k = slice buf i k := by
  have h : buf.toList.take j = (buf.toList.take k).take j := by
    rw [List.take_take, Nat.min_eq_left hjk]
  have hd : (buf.toList.take k).drop j = ((buf.toList.take k).drop i).drop (j - i) := by
    rw [List.drop_drop, Nat.add_sub_cancel' hij]
  rw [slice, slice, slice, h, List.drop_take, hd, List.take_append_drop]

theorem slice_succ (h : j < n) : slice buf j (j + 1) = [buf[j]] := by
  apply List.ext_getElem?
  intro k
  rw [getElem?_slice]
  cases k with
  | zero => simp [h]
  | succ k => rw [if_neg (by omega)]; rfl

/-- A write outside a slice does not show in it. -/
theorem slice_set_of_not_mem {x : α} (h : k < n) (hk : k < i ∨ j ≤ k) :
    slice (buf.set k x) i j = slice buf i j :=
  slice_congr fun m h1 h2 => by
    rw [Vector.getElem?_set, if_neg (by omega)]

/-- A write at the end of a slice appends to it. -/
theorem slice_set_end {x : α} (hij : i ≤ j) (h : j < n) :
    slice (buf.set j x) i (j + 1) = slice buf i j ++ [x] := by
  rw [← slice_append_slice hij (Nat.le_succ j), slice_set_of_not_mem h (.inr (Nat.le_refl j)),
    slice_succ h, Vector.getElem_set_self]

theorem drop_slice : (slice buf i j).drop k = slice buf (i + k) j := by
  rw [slice, slice, List.drop_drop]

end Lib
