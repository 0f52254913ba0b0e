import Mathlib.Data.Multiset.UnionInter

/-! # Handles

What a system hands out under numbers and takes back, such as areas of memory or open directories.
A number is handed out once; giving back what is not held is an error. -/

namespace Lib

structure Handles where
  next : Nat
  live : Multiset Nat
  fresh : ∀ i ∈ live, i < next
  nodup : live.Nodup

namespace Handles
variable (h : Handles)

def empty : Handles := ⟨0, 0, fun _ hi => absurd hi (Multiset.notMem_zero _), Multiset.nodup_zero⟩

/-- The handles after `next` has been handed out. -/
def acquire : Handles where
  next := h.next + 1
  live := h.next ::ₘ h.live
  fresh i hi := by
    rcases Multiset.mem_cons.mp hi with rfl | hi
    · exact Nat.lt_succ_self _
    · exact Nat.lt_succ_of_lt (h.fresh i hi)
  nodup := Multiset.nodup_cons.mpr ⟨fun hi => Nat.lt_irrefl _ (h.fresh _ hi), h.nodup⟩

theorem mem_acquire : h.next ∈ h.acquire.live := Multiset.mem_cons_self _ _

def release (i : Nat) : Option Handles :=
  if i ∈ h.live then
    some {
      next := h.next
      live := h.live.erase i
      fresh := fun j hj => h.fresh j (Multiset.mem_of_mem_erase hj)
      nodup := h.nodup.erase i }
  else none

def releaseAll : Handles → List Nat → Option Handles
  | h, [] => some h
  | h, i :: is => (h.release i).bind fun h => releaseAll h is

variable {h} {g : Handles} {i : Nat} {own : Multiset Nat} {is : List Nat}

/-- What is held beyond `h` can be given back, and what is left is held beyond `h`. -/
theorem release_of_live (hg : g.live = i ::ₘ own + h.live) :
    ∃ g', g.release i = some g' ∧ g'.live = own + h.live := by
  have hi : i ∈ g.live := by
    rw [hg, Multiset.cons_add]
    exact Multiset.mem_cons_self _ _
  refine ⟨_, if_pos hi, ?_⟩
  change g.live.erase i = _
  rw [hg, Multiset.cons_add, Multiset.erase_cons_head]

theorem releaseAll_of_live (hg : g.live = (is : Multiset Nat) + own + h.live) :
    ∃ g', g.releaseAll is = some g' ∧ g'.live = own + h.live := by
  induction is generalizing g with
  | nil => exact ⟨g, rfl, by rw [hg, Multiset.coe_nil, Multiset.zero_add]⟩
  | cons i is ih =>
    rw [← Multiset.cons_coe, Multiset.cons_add] at hg
    obtain ⟨g', hrelease, hg'⟩ := release_of_live hg
    obtain ⟨g'', hall, hg''⟩ := ih hg'
    refine ⟨g'', ?_, hg''⟩
    rw [releaseAll, hrelease]
    exact hall

end Handles

end Lib
