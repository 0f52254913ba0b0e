import KoScripts.Lib.Machine
import Mathlib.Algebra.GroupWithZero.Nat

/-! # Runs that come to an end

Every step takes one from a rank that is never negative, unless its label pays for it. Then a run is
no longer than what its labels have paid allows, and the steps that pay nothing, taken as long as
there is one, lead to a state of rest. -/

namespace Lib.Machine

universe u v
variable {σ : Type u} {α : Type v} {M : Machine σ α} {J : σ → Prop} {rank : σ → Int}
  {gain : α → Nat} {s t : σ} {a : α} {as : List α}

/-- The steps from states with `J` keep `J` and take one from the rank that their label does not
give. -/
structure Ranked (M : Machine σ α) (J : σ → Prop) (rank : σ → Int) (gain : α → Nat) : Prop where
  nonneg : ∀ {s}, J s → 0 ≤ rank s
  keeps : ∀ {s t a}, J s → M.exec s a = some t → J t
  step : ∀ {s t a}, J s → M.exec s a = some t → rank t + 1 ≤ rank s + gain a

/-- No step that pays nothing is left. -/
def AtRest (M : Machine σ α) (gain : α → Nat) (s : σ) : Prop :=
  ∀ a, gain a = 0 → M.exec s a = none

theorem Ranked.run (h : Ranked M J rank gain) (hs : J s) (hr : M.run s as = some t) :
    J t ∧ as.length + rank t ≤ rank s + (as.map gain).sum := by
  induction as generalizing s with
  | nil =>
    cases hr
    exact ⟨hs, by simp⟩
  | cons a as ih =>
    rw [run_cons, Option.bind_eq_some_iff] at hr
    obtain ⟨u, hu, hr⟩ := hr
    obtain ⟨ht, hle⟩ := ih (h.keeps hs hu) hr
    have hstep := h.step hs hu
    refine ⟨ht, ?_⟩
    rw [List.length_cons, List.map_cons, List.sum_cons]
    omega

/-- A run is no longer than the rank at its start and what its labels give. -/
theorem Ranked.length_le (h : Ranked M J rank gain) (hs : J s) (hr : M.run s as = some t) :
    (as.length : Int) ≤ rank s + (as.map gain).sum := by
  obtain ⟨ht, hle⟩ := h.run hs hr
  have := h.nonneg ht
  omega

/-- From every state there is a way to rest by steps that pay nothing. -/
theorem Ranked.exists_rest (h : Ranked M J rank gain) (hs : J s) :
    ∃ as t, (∀ a ∈ as, gain a = 0) ∧ M.run s as = some t ∧ AtRest M gain t := by
  induction hn : (rank s).toNat using Nat.strongRecOn generalizing s with
  | ind n ih =>
    by_cases hrest : AtRest M gain s
    · exact ⟨[], s, nofun, rfl, hrest⟩
    · obtain ⟨a, ha⟩ := not_forall.mp hrest
      obtain ⟨hgain, hexec⟩ := Classical.not_imp.mp ha
      obtain ⟨u, hu⟩ := Option.ne_none_iff_exists'.mp hexec
      have hstep := h.step hs hu
      have hu0 := h.nonneg (h.keeps hs hu)
      rw [hgain] at hstep
      obtain ⟨as, t, hpay, hr, hrest⟩ := ih _ (by omega) (h.keeps hs hu) rfl
      refine ⟨a :: as, t, List.forall_mem_cons.mpr ⟨hgain, hpay⟩, ?_, hrest⟩
      rw [run_cons_of_exec hu, hr]

/-- Every step takes exactly one from the rank. -/
structure Paced (M : Machine σ α) (J : σ → Prop) (rank : σ → Int) : Prop where
  nonneg : ∀ {s}, J s → 0 ≤ rank s
  keeps : ∀ {s t a}, J s → M.exec s a = some t → J t
  step : ∀ {s t a}, J s → M.exec s a = some t → rank t + 1 = rank s

theorem Paced.ranked (h : Paced M J rank) : Ranked M J rank fun _ => 0 where
  nonneg := h.nonneg
  keeps := h.keeps
  step hs hx := by
    have := h.step hs hx
    omega

theorem Paced.run (h : Paced M J rank) (hs : J s) (hr : M.run s as = some t) :
    J t ∧ as.length + rank t = rank s := by
  induction as generalizing s with
  | nil =>
    cases hr
    exact ⟨hs, by simp⟩
  | cons a as ih =>
    rw [run_cons, Option.bind_eq_some_iff] at hr
    obtain ⟨u, hu, hr⟩ := hr
    obtain ⟨ht, heq⟩ := ih (h.keeps hs hu) hr
    have hstep := h.step hs hu
    refine ⟨ht, ?_⟩
    rw [List.length_cons]
    omega

/-- From every state there is a way to one in which no step is left. -/
theorem Paced.exists_rest (h : Paced M J rank) (hs : J s) :
    ∃ as t, M.run s as = some t ∧ ∀ a, M.exec t a = none := by
  obtain ⟨as, t, -, hr, hrest⟩ := h.ranked.exists_rest hs
  exact ⟨as, t, hr, fun a => hrest a rfl⟩

end Lib.Machine
