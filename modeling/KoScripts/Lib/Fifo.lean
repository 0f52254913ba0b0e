import Mathlib.Data.List.Basic

/-! # Bounded first-in first-out queues

An implementation of a queue answers each call with a status code. `Queue.IsFifo cap s cs` compares
the calls `cs`, made from the state `s` on, one by one with a list of capacity `cap`: none faults,
one is refused exactly when the list is full (empty) and then changes nothing, and the others
append and hand out the oldest. -/

namespace Lib

universe u v w

/-- `pop r` is handed a variable that holds `r`. -/
inductive Call (α : Type v)
  | add (x : α)
  | pop (r : α)

/-- An implementation of a queue. A call that faults is `none`. -/
structure Queue (σ : Type u) (α : Type v) (ρ : Type w) where
  contents : σ → List α
  add : σ → α → Option (σ × ρ)
  pop : σ → α → Option (σ × α × ρ)
  done : ρ
  refused : ρ

namespace Queue
variable {σ : Type u} {α : Type v} {ρ : Type w}

inductive IsFifo (Q : Queue σ α ρ) (cap : Nat) : σ → List (Call α) → Prop
  | nil {s : σ} : IsFifo Q cap s []
  | addFull {s : σ} {x : α} {cs : List (Call α)} : (Q.contents s).length = cap →
    Q.add s x = some (s, Q.refused) → IsFifo Q cap s cs → IsFifo Q cap s (.add x :: cs)
  | add {s t : σ} {x : α} {cs : List (Call α)} : (Q.contents s).length < cap →
    Q.add s x = some (t, Q.done) → Q.contents t = Q.contents s ++ [x] → IsFifo Q cap t cs →
    IsFifo Q cap s (.add x :: cs)
  | popEmpty {s : σ} {r : α} {cs : List (Call α)} : Q.contents s = [] →
    Q.pop s r = some (s, r, Q.refused) → IsFifo Q cap s cs → IsFifo Q cap s (.pop r :: cs)
  | pop {s t : σ} {r x : α} {cs : List (Call α)} : Q.contents s = x :: Q.contents t →
    Q.pop s r = some (t, x, Q.done) → IsFifo Q cap t cs → IsFifo Q cap s (.pop r :: cs)

/-- What has to be said of the single calls, made where `Inv` holds. -/
structure Keeps (Q : Queue σ α ρ) (cap : Nat) (Inv : σ → Prop) : Prop where
  length_le : ∀ {s : σ}, Inv s → (Q.contents s).length ≤ cap
  addFull : ∀ {s : σ} {x : α}, Inv s → (Q.contents s).length = cap →
    Q.add s x = some (s, Q.refused)
  add : ∀ {s : σ} {x : α}, Inv s → (Q.contents s).length < cap → ∃ t,
    Q.add s x = some (t, Q.done) ∧ Q.contents t = Q.contents s ++ [x] ∧ Inv t
  popEmpty : ∀ {s : σ} {r : α}, Inv s → Q.contents s = [] → Q.pop s r = some (s, r, Q.refused)
  pop : ∀ {s : σ} {r : α}, Inv s → Q.contents s ≠ [] → ∃ t x,
    Q.pop s r = some (t, x, Q.done) ∧ Q.contents s = x :: Q.contents t ∧ Inv t

variable {Q : Queue σ α ρ} {cap : Nat} {s t : σ} {x r : α} {c : ρ} {cs : List (Call α)}

/-- The state after a list of calls, `none` once one has faulted. -/
def after (Q : Queue σ α ρ) : σ → List (Call α) → Option σ
  | s, [] => some s
  | s, .add x :: cs => (Q.add s x).bind fun (t, _) => Q.after t cs
  | s, .pop r :: cs => (Q.pop s r).bind fun (t, _, _) => Q.after t cs

/-- From a state of the invariant, every list of calls is answered first-in first-out and ends in
a state of the invariant. -/
theorem Keeps.isFifo {Inv : σ → Prop} (H : Q.Keeps cap Inv) (h : Inv s) (cs : List (Call α)) :
    Q.IsFifo cap s cs ∧ ∃ t, Q.after s cs = some t ∧ Inv t := by
  induction cs generalizing s with
  | nil => exact ⟨.nil, s, rfl, h⟩
  | cons c cs ih =>
    cases c with
    | add x =>
      rcases Nat.lt_or_eq_of_le (H.length_le h) with hlt | hfull
      · have ⟨t, ha, hc, ht⟩ := H.add (x := x) h hlt
        have ⟨hq, u, hu, hi⟩ := ih ht
        exact ⟨.add hlt ha hc hq, u, by rw [after, ha]; exact hu, hi⟩
      · have ha := H.addFull (x := x) h hfull
        have ⟨hq, u, hu, hi⟩ := ih h
        exact ⟨.addFull hfull ha hq, u, by rw [after, ha]; exact hu, hi⟩
    | pop r =>
      cases he : Q.contents s with
      | nil =>
        have hp := H.popEmpty (r := r) h he
        have ⟨hq, u, hu, hi⟩ := ih h
        exact ⟨.popEmpty he hp hq, u, by rw [after, hp]; exact hu, hi⟩
      | cons y ys =>
        have ⟨t, x, hp, hc, ht⟩ := H.pop (r := r) h (by rw [he]; exact List.cons_ne_nil y ys)
        have ⟨hq, u, hu, hi⟩ := ih ht
        exact ⟨.pop hc hp hq, u, by rw [after, hp]; exact hu, hi⟩

end Queue

section
variable {α : Type v} {cap : Nat} {xs : List α} {x r : α} {cs : List (Call α)}

end
end Lib
