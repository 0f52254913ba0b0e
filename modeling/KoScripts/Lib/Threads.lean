import Mathlib.Algebra.Ring.Int.Defs
import Mathlib.Data.List.Basic

/-! # A list of threads

A step of thread `i` replaces the entry at `i`. Counting invariants over the threads follow from
what the step changes in the count of that one entry, and mutual exclusion is the statement that
the threads inside the critical section are those whose index the mutex holds. -/

namespace Lib

universe u
variable {θ : Type u} {ts : List θ} {i j : Nat} {a b t : θ} {p inside : θ → Bool}
  {owner : Option Nat}

theorem getElem?_set_self_or (h : (ts.set i b)[j]? = some t) :
    j = i ∧ t = b ∨ j ≠ i ∧ ts[j]? = some t := by
  rw [List.getElem?_set] at h
  split at h
  · next heq =>
    split at h
    · cases h; exact .inl ⟨heq.symm, rfl⟩
    · cases h
  · next hne => exact .inr ⟨fun hc => hne hc.symm, h⟩

theorem toNat_le_countP (h : ts[i]? = some a) : (p a).toNat ≤ ts.countP p := by
  cases hp : p a with
  | false => exact Nat.zero_le _
  | true => exact List.countP_pos_iff.mpr ⟨a, List.mem_of_getElem? h, hp⟩

/-- What a step adds to a count of threads and takes from it. -/
theorem countP_set_add (h : ts[i]? = some a) :
    (ts.set i b).countP p + (p a).toNat = ts.countP p + (p b).toNat := by
  have hle := toNat_le_countP (p := p) h
  obtain ⟨hi, rfl⟩ := List.getElem?_eq_some_iff.mp h
  rw [List.countP_set hi]
  cases hp : p ts[i] <;> cases p b <;>
    simp only [hp, Bool.toNat_true, Bool.toNat_false] at hle ⊢ <;> simp <;> omega

theorem countP_set_enter (h : ts[i]? = some a) (ha : p a = false) (hb : p b = true) :
    (ts.set i b).countP p = ts.countP p + 1 := by
  have hset := countP_set_add (b := b) (p := p) h
  rw [ha, hb] at hset
  exact hset

theorem countP_set_leave (h : ts[i]? = some a) (ha : p a = true) (hb : p b = false) :
    (ts.set i b).countP p + 1 = ts.countP p := by
  have hset := countP_set_add (b := b) (p := p) h
  rw [ha, hb] at hset
  exact hset

/-- The same for a sum over the threads. -/
theorem sum_map_set {f : θ → Int} (h : ts[i]? = some a) :
    ((ts.set i b).map f).sum = (ts.map f).sum - f a + f b := by
  induction ts generalizing i with
  | nil => cases h
  | cons t ts ih =>
    cases i with
    | zero =>
      cases h
      simp only [List.set_cons_zero, List.map_cons, List.sum_cons]
      omega
    | succ i =>
      have ih := ih (i := i) h
      simp only [List.set_cons_succ, List.map_cons, List.sum_cons, ih]
      omega

/-- What a step leaves as it is in every thread. -/
theorem map_set_eq {γ : Type*} {f : θ → γ} (h : ts[i]? = some a) (hf : f b = f a) :
    (ts.set i b).map f = ts.map f := by
  induction ts generalizing i with
  | nil => cases h
  | cons t ts ih =>
    cases i with
    | zero =>
      cases h
      rw [List.set_cons_zero, List.map_cons, List.map_cons, hf]
    | succ i => rw [List.set_cons_succ, List.map_cons, List.map_cons, ih h]

/-- A change of every thread that is one of thread `i` only. -/
theorem map_eq_set {f : θ → θ} (h : ts[i]? = some a)
    (hf : ∀ j t, j ≠ i → ts[j]? = some t → f t = t) : ts.map f = ts.set i (f a) := by
  apply List.ext_getElem?
  intro j
  rw [List.getElem?_map]
  by_cases hji : j = i
  · subst hji
    rw [h, List.getElem?_set_self (List.getElem?_eq_some_iff.mp h).1]
    rfl
  · rw [List.getElem?_set_ne fun hc => hji hc.symm]
    cases ht : ts[j]? with
    | none => rfl
    | some t => rw [Option.map_some, hf j t hji ht]

/-- The threads inside the critical section are the one that owns the mutex, if any. -/
def Exclusive (inside : θ → Bool) (owner : Option Nat) (ts : List θ) : Prop :=
  ∀ (j : Nat) (t : θ), ts[j]? = some t → (inside t = true ↔ owner = some j)

namespace Exclusive

theorem acquire (h : Exclusive inside none ts) (hb : inside b = true) :
    Exclusive inside (some i) (ts.set i b) := by
  intro j t hj
  rcases getElem?_set_self_or hj with ⟨rfl, rfl⟩ | ⟨hne, hj⟩
  · exact iff_of_true hb rfl
  · have hout : ¬inside t = true := fun hc => nomatch (h j t hj).mp hc
    exact iff_of_false hout fun hc => hne (Option.some.inj hc).symm

theorem release (h : Exclusive inside owner ts) (ha : ts[i]? = some a) (hin : inside a = true)
    (hb : inside b = false) : Exclusive inside none (ts.set i b) := by
  intro j t hj
  rcases getElem?_set_self_or hj with ⟨rfl, rfl⟩ | ⟨hne, hj⟩
  · rw [hb]; exact iff_of_false Bool.false_ne_true (fun hc => nomatch hc)
  · have hi := (h i a ha).mp hin
    have hout : ¬inside t = true := fun hc =>
      hne (Option.some.inj (((h j t hj).mp hc).symm.trans hi))
    exact iff_of_false hout fun hc => nomatch hc

theorem keep (h : Exclusive inside owner ts) (ha : ts[i]? = some a) (hab : inside b = inside a) :
    Exclusive inside owner (ts.set i b) := by
  intro j t hj
  rcases getElem?_set_self_or hj with ⟨rfl, rfl⟩ | ⟨-, hj⟩
  · rw [hab]; exact h j a ha
  · exact h j t hj

theorem unique (h : Exclusive inside owner ts) (ha : ts[i]? = some a) (hb : ts[j]? = some b)
    (hia : inside a = true) (hib : inside b = true) : i = j :=
  Option.some.inj (((h i a ha).mp hia).symm.trans ((h j b hb).mp hib))

/-- With every thread outside, nobody holds the mutex. -/
theorem free (h : Exclusive inside owner ts) (hlt : ∀ j, owner = some j → j < ts.length)
    (hout : ∀ t ∈ ts, inside t = false) : owner = none := by
  cases howner : owner with
  | none => rfl
  | some j =>
    have hj := hlt j howner
    have hin := (h j ts[j] (List.getElem?_eq_getElem hj)).mpr howner
    rw [hout _ (List.getElem_mem hj)] at hin
    cases hin

end Exclusive
end Lib
