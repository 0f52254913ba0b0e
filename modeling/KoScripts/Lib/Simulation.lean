import KoScripts.Lib.Termination

/-! # Simulations between machines

A step of the one machine is matched by a run of the other, which may be empty. What holds of the
runs of the second then holds of those of the first, and where the second is ranked and the first
can follow it, the first comes to rest as well. -/

namespace Lib.Machine

universe u v u' v'
variable {σ : Type u} {α : Type v} {τ : Type u'} {β : Type v'} {A : Machine σ α} {B : Machine τ β}
  {R : σ → τ → Prop} {s t : σ} {x y : τ} {as : List α} {bs : List β}

/-- Every step of `A` is matched by a run of `B`. -/
structure Simulates (A : Machine σ α) (B : Machine τ β) (R : σ → τ → Prop) : Prop where
  init : R A.init B.init
  step : ∀ {s t x a}, R s x → A.exec s a = some t → ∃ bs y, B.run x bs = some y ∧ R t y

theorem Simulates.run (h : Simulates A B R) (hR : R s x) (hr : A.run s as = some t) :
    ∃ bs y, B.run x bs = some y ∧ R t y := by
  induction as generalizing s x with
  | nil =>
    cases hr
    exact ⟨[], x, rfl, hR⟩
  | cons a as ih =>
    obtain ⟨u, hu, hr⟩ := Option.bind_eq_some_iff.mp hr
    obtain ⟨bs, z, hbs, hz⟩ := h.step hR hu
    obtain ⟨bs', y, hbs', hy⟩ := ih hz hr
    exact ⟨bs ++ bs', y, (run_append hbs).trans hbs', hy⟩

/-- The two can go on to related states, and `B` does move. -/
def BringsOn (A : Machine σ α) (B : Machine τ β) (R : σ → τ → Prop) (s : σ) (x : τ) : Prop :=
  ∃ as t bs y, A.run s as = some t ∧ B.run x bs = some y ∧ bs ≠ [] ∧ R t y

/-- As long as `B` is not at rest, `A` can bring it on. -/
def Follows (A : Machine σ α) (B : Machine τ β) (R : σ → τ → Prop) : Prop :=
  ∀ s x, R s x → (∃ b, B.exec x b ≠ none) → BringsOn A B R s x

/-- `A` can come to where `B` is at rest. -/
theorem Follows.exists_rest {J : τ → Prop} {rank : τ → Int} (h : Follows A B R)
    (hB : B.Ranked J rank fun _ => 0) (hJ : J x) (hR : R s x) :
    ∃ as t y, A.run s as = some t ∧ R t y ∧ J y ∧ ∀ b, B.exec y b = none := by
  induction hn : (rank x).toNat using Nat.strongRecOn generalizing s x with
  | ind n ih =>
    by_cases hrest : ∃ b, B.exec x b ≠ none
    · obtain ⟨as, t, bs, y, has, hbs, hne, hR'⟩ := h s x hR hrest
      obtain ⟨hJ', hle⟩ := hB.run hJ hbs
      have hpos := List.length_pos_iff.mpr hne
      have hnonneg := hB.nonneg hJ'
      have hzero : (bs.map fun _ => 0).sum = 0 := by simp
      rw [hzero] at hle
      obtain ⟨as', u, z, has', hR'', hJ'', hz⟩ := ih (rank y).toNat (by omega) hJ' hR' rfl
      exact ⟨as ++ as', u, z, (run_append has).trans has', hR'', hJ'', hz⟩
    · exact ⟨[], s, x, rfl, hR, hJ, not_exists_not.mp hrest⟩

end Lib.Machine
