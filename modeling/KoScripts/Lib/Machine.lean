import Mathlib.Data.List.Basic

/-! # Labelled machines and their runs

The nondeterminism of a machine (the schedule, what the environment answers) is carried by the
labels: `exec s a` is the state after `a`, and `none` where `a` cannot happen in `s`. A run may be
restricted by a guard on its steps, so that "in every run whose steps all meet a condition" is a
statement about `Reach` under that guard. -/

namespace Lib

universe u v

structure Machine (σ : Type u) (α : Type v) where
  init : σ
  exec : σ → α → Option σ

namespace Machine
variable {σ : Type u} {α : Type v} (M : Machine σ α)

/-- The guard that every step meets. -/
def anyStep : σ → α → Prop := fun _ _ => True

/-- The states of the runs whose steps all meet the guard `G`. -/
inductive Reach (G : σ → α → Prop) : σ → Prop
  | init : Reach G M.init
  | step {s t : σ} {a : α} : Reach G s → G s a → M.exec s a = some t → Reach G t

/-- The state after a list of labels, if they can all happen one after the other. -/
def run : σ → List α → Option σ
  | s, [] => some s
  | s, a :: as => (M.exec s a).bind fun t => run t as

/-- The machine whose steps are those that meet the guard. -/
def restrict (G : σ → α → Prop) [∀ s a, Decidable (G s a)] : Machine σ α :=
  ⟨M.init, fun s a => if G s a then M.exec s a else none⟩

variable {M} {G G' : σ → α → Prop} {I J : σ → Prop} {s t u : σ} {a : α} {as bs : List α}

/-- The invariant rule. -/
theorem Reach.invariant (h : M.Reach G s) (init : I M.init)
    (step : ∀ {s t : σ} {a : α}, I s → G s a → M.exec s a = some t → I t) : I s := by
  induction h with
  | init => exact init
  | step _ hg hx ih => exact step ih hg hx

/-- The invariant rule for `I`, with a known invariant `J` at hand in every state. -/
theorem Reach.invariant_with (h : M.Reach G s) (known : ∀ {s}, M.Reach G s → J s)
    (init : I M.init)
    (step : ∀ {s t : σ} {a : α}, J s → I s → G s a → M.exec s a = some t → I t) : I s := by
  induction h with
  | init => exact init
  | step hr hg hx ih => exact step (known hr) ih hg hx

theorem Reach.mono (hG : ∀ {s a}, G s a → G' s a) (h : M.Reach G s) : M.Reach G' s := by
  induction h with
  | init => exact .init
  | step _ hg hx ih => exact .step ih (hG hg) hx

theorem Reach.of_restrict [∀ s a, Decidable (G s a)] (h : (M.restrict G).Reach G' s) :
    M.Reach G s := by
  induction h with
  | init => exact .init
  | step _ _ hx ih =>
    obtain ⟨hg, hx⟩ := Option.ite_none_right_eq_some.mp hx
    exact .step ih hg hx

theorem Reach.any (h : M.Reach G s) : M.Reach anyStep s := h.mono fun _ => trivial

/-! ## Runs given by their labels -/

theorem run_cons : M.run s (a :: as) = (M.exec s a).bind fun t => M.run t as := rfl

theorem run_cons_of_exec (h : M.exec s a = some t) : M.run s (a :: as) = M.run t as := by
  rw [run_cons, h]; rfl

theorem run_append (h : M.run s as = some t) : M.run s (as ++ bs) = M.run t bs := by
  induction as generalizing s with
  | nil => cases h; rfl
  | cons a as ih =>
    rw [run_cons, Option.bind_eq_some_iff] at h
    obtain ⟨v, hv, h⟩ := h
    rw [List.cons_append, run_cons_of_exec hv, ih h]

/-- The steps of a component are steps of the machine in which it is embedded by `f`. -/
theorem run_map {τ : Type*} {β : Type*} {f : τ → σ} {g : β → α} {step : τ → β → Option τ}
    {x y : τ} {bs : List β}
    (h : ∀ {x b y}, step x b = some y → M.exec (f x) (g b) = some (f y))
    (hr : bs.foldlM step x = some y) : M.run (f x) (bs.map g) = some (f y) := by
  induction bs generalizing x with
  | nil => cases hr; rfl
  | cons b bs ih =>
    rw [List.foldlM_cons, Option.bind_eq_bind, Option.bind_eq_some_iff] at hr
    obtain ⟨z, hz, hr⟩ := hr
    rw [List.map_cons, run_cons_of_exec (h hz), ih hr]

theorem run_of_restrict [∀ s a, Decidable (G s a)] (h : (M.restrict G).run s as = some t) :
    M.run s as = some t := by
  induction as generalizing s with
  | nil => exact h
  | cons a as ih =>
    obtain ⟨u, hu, h⟩ := Option.bind_eq_some_iff.mp h
    rw [run_cons_of_exec (Option.ite_none_right_eq_some.mp hu).2]
    exact ih h

/-- A run given by labels that meet the guard in every state. -/
theorem Reach.run_of (h : M.Reach G s) (hr : M.run s as = some t) (hG : ∀ s, ∀ a ∈ as, G s a) :
    M.Reach G t := by
  induction as generalizing s with
  | nil => cases hr; exact h
  | cons a as ih =>
    rw [run_cons, Option.bind_eq_some_iff] at hr
    obtain ⟨v, hv, hr⟩ := hr
    exact ih (h.step (hG s a List.mem_cons_self) hv) hr
      fun s b hb => hG s b (List.mem_cons_of_mem a hb)

theorem Reach.run (h : M.Reach anyStep s) (hr : M.run s as = some t) : M.Reach anyStep t :=
  h.run_of hr fun _ _ _ => trivial

/-- A state at the end of a run, known by what can be computed of it. -/
theorem reach_of_run {β : Type*} {f : σ → β} {b : β} (h : (M.run M.init as).map f = some b) :
    ∃ s, M.Reach anyStep s ∧ f s = b := by
  obtain ⟨s, hs, hb⟩ := Option.map_eq_some_iff.mp h
  exact ⟨s, Reach.init.run hs, hb⟩

end Machine
end Lib
