import Mathlib.Data.List.Basic
import Mathlib.Logic.Function.Basic

/-! # Doubly linked lists

The links of a heap are one map for each direction. `Seg k p l n` says that the nodes `l` are
linked in this order both ways, with `p` in front of the first and `n` behind the last. It splits
at every node, so that an update is followed through the pieces it does not touch and the one
boundary it moves. -/

namespace Lib

universe u

structure Links (α : Type u) where
  next : α → Option α
  prev : α → Option α

namespace Links
variable {α : Type u}

def Seg (k : Links α) : Option α → List α → Option α → Prop
  | _, [], _ => True
  | p, a :: l, n => k.prev a = p ∧ k.next a = l.head?.or n ∧ Seg k (some a) l n

/-- The list `l`, closed at both ends. -/
def Repr (k : Links α) (l : List α) : Prop := k.Seg none l none

/-- Both links of `a` are the same. -/
structure SameAt (k k' : Links α) (a : α) : Prop where
  next : k'.next a = k.next a
  prev : k'.prev a = k.prev a

variable {k k' k'' : Links α} {a b t : α} {l l₁ l₂ : List α} {o p p' n n' v : Option α}

theorem SameAt.refl : SameAt k k a := ⟨rfl, rfl⟩

theorem SameAt.trans (h : SameAt k k' a) (h' : SameAt k' k'' a) : SameAt k k'' a :=
  ⟨h'.next.trans h.next, h'.prev.trans h.prev⟩

theorem seg_append : k.Seg p (l₁ ++ l₂) n ↔
    k.Seg p l₁ (l₂.head?.or n) ∧ k.Seg (l₁.getLast?.or p) l₂ n := by
  induction l₁ generalizing p with
  | nil => exact ⟨fun h => ⟨trivial, h⟩, fun h => h.2⟩
  | cons a l ih =>
    have hlast : (a :: l).getLast?.or p = l.getLast?.or (some a) := by
      rw [List.getLast?_cons]
      cases l.getLast? <;> rfl
    rw [List.cons_append, Seg, Seg, ih, hlast, List.head?_append, Option.or_assoc,
      and_assoc, and_assoc]

/-- A segment depends on the links of its own nodes alone. -/
theorem Seg.congr (h : k.Seg p l n) (hs : ∀ a ∈ l, SameAt k k' a) : k'.Seg p l n := by
  induction l generalizing p with
  | nil => trivial
  | cons a l ih =>
    obtain ⟨h₁, h₂, h⟩ := h
    have ha := hs a List.mem_cons_self
    exact ⟨ha.prev.trans h₁, ha.next.trans h₂, ih h fun b hb => hs b (List.mem_cons_of_mem a hb)⟩

theorem Repr.congr (h : k.Repr l) (hs : ∀ a ∈ l, SameAt k k' a) : k'.Repr l := Seg.congr h hs

theorem Repr.prev_eq (h : k.Repr (l₁ ++ a :: l₂)) : k.prev a = l₁.getLast? :=
  (seg_append.mp h).2.1.trans (Option.or_none ..)

theorem Repr.next_eq (h : k.Repr (l₁ ++ a :: l₂)) : k.next a = l₂.head? :=
  (seg_append.mp h).2.2.1.trans (Option.or_none ..)

theorem getLast?_ne_of_notMem (h : a ∉ l) : l.getLast? ≠ some a :=
  fun he => h (List.mem_of_getLast? he)

theorem head?_ne_of_notMem (h : a ∉ l) : l.head? ≠ some a :=
  fun he => h (List.mem_of_mem_head? (Option.mem_def.mpr he))

/-! ## Writes -/

variable [DecidableEq α]

def setNext (k : Links α) (a : α) (v : Option α) : Links α :=
  { k with next := Function.update k.next a v }

def setPrev (k : Links α) (a : α) (v : Option α) : Links α :=
  { k with prev := Function.update k.prev a v }

/-- `if (o) o->next = v` -/
def setNextOf (k : Links α) (o v : Option α) : Links α :=
  match o with
  | none => k
  | some a => k.setNext a v

/-- `if (o) o->prev = v` -/
def setPrevOf (k : Links α) (o v : Option α) : Links α :=
  match o with
  | none => k
  | some a => k.setPrev a v

theorem sameAt_setNext (h : b ≠ a) : SameAt k (k.setNext a v) b :=
  ⟨Function.update_of_ne h .., rfl⟩

theorem sameAt_setPrev (h : b ≠ a) : SameAt k (k.setPrev a v) b :=
  ⟨rfl, Function.update_of_ne h ..⟩

theorem sameAt_setNextOf (h : o ≠ some b) : SameAt k (k.setNextOf o v) b := by
  cases o with
  | none => exact .refl
  | some a => exact sameAt_setNext fun he => h (congrArg some he.symm)

theorem sameAt_setPrevOf (h : o ≠ some b) : SameAt k (k.setPrevOf o v) b := by
  cases o with
  | none => exact .refl
  | some a => exact sameAt_setPrev fun he => h (congrArg some he.symm)

theorem Seg.setNext_last (h : k.Seg p (l ++ [a]) n) (ha : a ∉ l) :
    (k.setNext a v).Seg p (l ++ [a]) v := by
  obtain ⟨hl, h₁, h₂, -⟩ := seg_append.mp h
  have hl : (k.setNext a v).Seg p l (some a) := hl.congr fun b hb =>
    sameAt_setNext (ne_of_mem_of_not_mem hb ha)
  exact seg_append.mpr ⟨hl, h₁, Function.update_self .., trivial⟩

theorem Seg.setPrev_first (h : k.Seg p (a :: l) n) (ha : a ∉ l) :
    (k.setPrev a v).Seg v (a :: l) n :=
  ⟨Function.update_self .., h.2.1,
    h.2.2.congr fun _ hb => sameAt_setPrev (ne_of_mem_of_not_mem hb ha)⟩

/-- The end of a segment, relinked. -/
theorem Seg.setNextOf_last (h : k.Seg p l n) (hl : l.Nodup) :
    (k.setNextOf l.getLast? v).Seg p l v := by
  rcases List.eq_nil_or_concat l with rfl | ⟨l, a, rfl⟩
  · trivial
  · rw [List.concat_eq_append] at h hl ⊢
    rw [List.getLast?_concat]
    exact h.setNext_last fun ha => (List.nodup_append.mp hl).2.2 a ha a (by simp) rfl

/-- The start of a segment, relinked. -/
theorem Seg.setPrevOf_first (h : k.Seg p l n) (hl : l.Nodup) :
    (k.setPrevOf l.head? v).Seg v l n := by
  cases l with
  | nil => trivial
  | cons a l => exact h.setPrev_first (List.nodup_cons.mp hl).1

/-! ## The three updates of a list -/

/-- Put `a` in front of the list whose first node is `head`. -/
def push (k : Links α) (head : Option α) (a : α) : Links α :=
  ((k.setNext a head).setPrev a none).setPrevOf head (some a)

/-- Put `a` behind the list whose last node is `tail`. -/
def append (k : Links α) (tail a : α) : Links α :=
  ((k.setNext a none).setPrev a (some tail)).setNext tail (some a)

/-- Take `a` out, between its two neighbours. -/
def unlink (k : Links α) (a : α) : Links α :=
  (k.setNextOf (k.prev a) (k.next a)).setPrevOf (k.next a) (k.prev a)

theorem sameAt_push (ha : b ≠ a) (ho : o ≠ some b) : SameAt k (k.push o a) b :=
  ((sameAt_setNext ha).trans (sameAt_setPrev ha)).trans (sameAt_setPrevOf ho)

theorem sameAt_unlink (hp : k.prev a ≠ some b) (hn : k.next a ≠ some b) :
    SameAt k (k.unlink a) b :=
  (sameAt_setNextOf hp).trans (sameAt_setPrevOf hn)

theorem Repr.push (h : k.Repr l) (hl : l.Nodup) (ha : a ∉ l) :
    (k.push l.head? a).Repr (a :: l) := by
  have hseg : ((k.setNext a l.head?).setPrev a none).Seg none l none :=
    Seg.congr h fun b hb =>
      have hne := ne_of_mem_of_not_mem hb ha
      (sameAt_setNext hne).trans (sameAt_setPrev hne)
  have hself := sameAt_setPrevOf (k := (k.setNext a l.head?).setPrev a none) (v := some a)
    (head?_ne_of_notMem ha)
  refine ⟨hself.prev.trans (Function.update_self ..), ?_, hseg.setPrevOf_first hl⟩
  rw [Option.or_none]
  exact hself.next.trans (Function.update_self ..)

theorem Repr.append (h : k.Repr l) (hl : l.Nodup) (ht : l.getLast? = some t) (ha : a ∉ l) :
    (k.append t a).Repr (l ++ [a]) := by
  have hne : a ≠ t := fun he => ha (he ▸ List.mem_of_getLast? ht)
  have hseg : ((k.setNext a none).setPrev a (some t)).Seg none l none :=
    Seg.congr h fun b hb =>
      have hne := ne_of_mem_of_not_mem hb ha
      (sameAt_setNext hne).trans (sameAt_setPrev hne)
  have hnew := hseg.setNextOf_last (v := some a) hl
  rw [ht] at hnew
  refine seg_append.mpr ⟨hnew, ?_, ?_, trivial⟩
  · rw [ht]
    exact Function.update_self ..
  · exact (Function.update_of_ne hne ..).trans (Function.update_self ..)

theorem Repr.unlink (h : k.Repr (l₁ ++ a :: l₂)) (hl : (l₁ ++ a :: l₂).Nodup) :
    (k.unlink a).Repr (l₁ ++ l₂) := by
  obtain ⟨h₁, h₂⟩ := seg_append.mp h
  obtain ⟨hl₁, hl₂, hdis⟩ := List.nodup_append.mp hl
  have hl₂ := (List.nodup_cons.mp hl₂).2
  have hout : ∀ b ∈ l₁, b ∉ l₂ := fun b hb hm => hdis b hb b (List.mem_cons_of_mem a hm) rfl
  rw [Links.unlink, h.prev_eq, h.next_eq]
  refine seg_append.mpr ⟨?_, ?_⟩
  · rw [Option.or_none]
    exact (h₁.setNextOf_last hl₁).congr fun b hb =>
      sameAt_setPrevOf (head?_ne_of_notMem (hout b hb))
  · have h₂ : (k.setNextOf l₁.getLast? l₂.head?).Seg (some a) l₂ none := h₂.2.2.congr fun b hb =>
      sameAt_setNextOf (getLast?_ne_of_notMem fun hm => hout b hm hb)
    rw [Option.or_none]
    exact h₂.setPrevOf_first hl₂

/-- Taking `a` out of its list changes no link of a node that is not in that list. -/
theorem Repr.sameAt_unlink (h : k.Repr (l₁ ++ a :: l₂)) (hb : b ∉ l₁ ++ a :: l₂) :
    SameAt k (k.unlink a) b := by
  apply Links.sameAt_unlink
  · rw [h.prev_eq]
    exact getLast?_ne_of_notMem fun hm => hb (List.mem_append_left _ hm)
  · rw [h.next_eq]
    exact head?_ne_of_notMem fun hm => hb (List.mem_append_right _ (List.mem_cons_of_mem a hm))

end Links
end Lib
