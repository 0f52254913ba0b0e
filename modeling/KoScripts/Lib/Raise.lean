import Mathlib.Logic.Basic

/-! # Programs that raise

A program maps a state to the way it ends: it returns, it raises an exception, or it never comes
back. A `try` statement evaluates the expression of its `except` clause when an exception gets
there, which may raise itself; a `finally` block runs behind a body that returns or raises, and
what it raises replaces the exception of the body. For each construct there is a rule for what it
takes to return, and one for an invariant that holds however it ends. -/

namespace Lib

universe u v

inductive Outcome (ε : Type u) (σ : Type v)
  | returns (s : σ)
  | raises (e : ε) (s : σ)
  | never

/-- The state left behind, if there is an end. -/
def Outcome.final {ε : Type u} {σ : Type v} : Outcome ε σ → Option σ
  | .returns s | .raises _ s => some s
  | .never => none

def Program (ε : Type u) (σ : Type v) := σ → Outcome ε σ

namespace Program
variable {ε : Type u} {σ : Type v}

def skip : Program ε σ := .returns

/-- A call that raises `x`, if that is an exception, and changes the state by `f` else. -/
def call (x : Option ε) (f : σ → σ) : Program ε σ := fun s =>
  match x with
  | some e => .raises e s
  | none => .returns (f s)

def seq (c d : Program ε σ) : Program ε σ := fun s =>
  match c s with
  | .returns t => d t
  | .raises e t => .raises e t
  | .never => .never

/-- `try: c except clause: handler`. -/
def tryExcept (c : Program ε σ) (clause : ε → Except ε Bool) (handler : Program ε σ) :
    Program ε σ := fun s =>
  match c s with
  | .returns t => .returns t
  | .raises e t =>
    match clause e with
    | .error e' => .raises e' t
    | .ok true => handler t
    | .ok false => .raises e t
  | .never => .never

/-- `try: c finally: fin`. -/
def tryFinally (c fin : Program ε σ) : Program ε σ := fun s =>
  match c s with
  | .returns t => fin t
  | .raises e t =>
    match fin t with
    | .returns u => .raises e u
    | .raises e' u => .raises e' u
    | .never => .never
  | .never => .never

variable {c d fin handler : Program ε σ} {clause : ε → Except ε Bool} {x : Option ε} {f : σ → σ}
  {s t : σ}

/-! ## Returning -/

theorem call_returns_iff : call x f s = .returns t ↔ x = none ∧ f s = t := by
  cases x with
  | none => simp [call]
  | some e => simp [call]

theorem seq_returns_iff : c.seq d s = .returns t ↔ ∃ u, c s = .returns u ∧ d u = .returns t := by
  rw [seq]
  cases c s with
  | returns u => simp
  | raises e u => simp
  | never => simp

theorem tryFinally_returns_iff :
    c.tryFinally fin s = .returns t ↔ ∃ u, c s = .returns u ∧ fin u = .returns t := by
  rw [tryFinally]
  cases c s with
  | returns u => simp
  | raises e u => cases h : fin u <;> simp [h]
  | never => simp

/-- A clause that always raises swallows nothing. -/
theorem tryExcept_returns_iff {e' : ε} (h : ∀ e, clause e = .error e') :
    c.tryExcept clause handler s = .returns t ↔ c s = .returns t := by
  rw [tryExcept]
  cases c s with
  | returns u => rfl
  | raises e u => simp [h]
  | never => rfl

/-! ## Invariants -/

/-- However the program ends, `I` holds then if it held before. -/
def Keeps (I : σ → Prop) (c : Program ε σ) : Prop := ∀ s t, I s → (c s).final = some t → I t

variable {I : σ → Prop}

theorem keeps_skip : Keeps I (skip : Program ε σ) := by
  intro s t h hx
  cases hx
  exact h

theorem keeps_call (hf : ∀ s, I s → I (f s)) : Keeps I (call x f : Program ε σ) := by
  intro s t h hx
  cases x with
  | none =>
    cases hx
    exact hf s h
  | some e =>
    cases hx
    exact h

theorem Keeps.seq (hc : Keeps I c) (hd : Keeps I d) : Keeps I (c.seq d) := by
  intro s t h hx
  rw [Program.seq] at hx
  have hc := hc s
  cases hcs : c s with
  | returns u =>
    rw [hcs] at hx hc
    exact hd u t (hc u h rfl) hx
  | raises e u =>
    rw [hcs] at hx hc
    exact hc t h hx
  | never =>
    rw [hcs] at hx
    cases hx

theorem Keeps.tryExcept (hc : Keeps I c) (hh : Keeps I handler) :
    Keeps I (c.tryExcept clause handler) := by
  intro s t h hx
  rw [Program.tryExcept] at hx
  have hc := hc s
  cases hcs : c s with
  | returns u =>
    rw [hcs] at hx hc
    exact hc t h hx
  | raises e u =>
    rw [hcs] at hx hc
    have hu := hc u h rfl
    simp only at hx
    split at hx
    · cases hx; exact hu
    · exact hh u t hu hx
    · cases hx; exact hu
  | never =>
    rw [hcs] at hx
    cases hx

theorem Keeps.tryFinally (hc : Keeps I c) (hf : Keeps I fin) : Keeps I (c.tryFinally fin) := by
  intro s t h hx
  rw [Program.tryFinally] at hx
  have hc := hc s
  cases hcs : c s with
  | returns u =>
    rw [hcs] at hx hc
    exact hf u t (hc u h rfl) hx
  | raises e u =>
    rw [hcs] at hx hc
    have hf := hf u
    simp only at hx
    cases hfu : fin u with
    | returns v =>
      rw [hfu] at hx hf
      exact hf t (hc u h rfl) hx
    | raises e' v =>
      rw [hfu] at hx hf
      exact hf t (hc u h rfl) hx
    | never =>
      rw [hfu] at hx
      cases hx
  | never =>
    rw [hcs] at hx
    cases hx

/-- Where an invariant of the first part is lost in the end, the first part has returned. -/
theorem Keeps.returns_of_seq (hc : Keeps I c) (hs : I s) (hx : (c.seq d s).final = some t)
    (ht : ¬I t) : ∃ u, c s = .returns u ∧ (d u).final = some t := by
  rw [Program.seq] at hx
  have hc := hc s
  cases hcs : c s with
  | returns u =>
    rw [hcs] at hx
    exact ⟨u, rfl, hx⟩
  | raises e u =>
    rw [hcs] at hx hc
    exact absurd (hc t hs hx) ht
  | never =>
    rw [hcs] at hx
    cases hx

end Program
end Lib
