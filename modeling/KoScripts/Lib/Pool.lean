import KoScripts.Lib.Machine

/-! # Pools of independent machines

Any number of instances of one machine, started one after the other and stepped in any order. They
share nothing but the process: when one of them is `ended`, none of them takes a step any more. What
an instance does is then a run of the machine by itself, and no other instance sees it. -/

namespace Lib

universe u v

inductive PoolLabel (α : Type v)
  | start
  | step (i : Nat) (a : α)

namespace Machine
variable {σ : Type u} {α : Type v} (M : Machine σ α) (ended : σ → Bool)

def pool : Machine (List σ) (PoolLabel α) where
  init := []
  exec cs l :=
    if cs.any ended then none
    else
      match l with
      | .start => some (cs ++ [M.init])
      | .step i a => cs[i]?.bind fun c => (M.exec c a).map fun d => cs.set i d

/-- The guard `G` on the steps of every instance. -/
def Each (G : σ → α → Prop) : List σ → PoolLabel α → Prop
  | _, .start => True
  | cs, .step i a => ∀ c ∈ cs[i]?, G c a

instance {G : σ → α → Prop} [∀ c a, Decidable (G c a)] (cs : List σ) (l : PoolLabel α) :
    Decidable (Each G cs l) :=
  match l with
  | .start => .isTrue trivial
  | .step i a => inferInstanceAs (Decidable (∀ c ∈ cs[i]?, G c a))

variable {M ended} {G : σ → α → Prop} {cs ds : List σ} {c d : σ} {i j : Nat} {a : α} {as : List α}
  {l : PoolLabel α} {ls : List (PoolLabel α)}

theorem not_ended_of_exec (h : (M.pool ended).exec cs l = some ds) : cs.any ended = false := by
  simpa using (Option.ite_none_left_eq_some.mp h).1

theorem pool_start (h : (M.pool ended).exec cs .start = some ds) : ds = cs ++ [M.init] :=
  (Option.some.inj (Option.ite_none_left_eq_some.mp h).2).symm

theorem pool_step (h : (M.pool ended).exec cs (.step i a) = some ds) :
    ∃ c d, cs[i]? = some c ∧ M.exec c a = some d ∧ ds = cs.set i d := by
  obtain ⟨c, hc, h⟩ := Option.bind_eq_some_iff.mp (Option.ite_none_left_eq_some.mp h).2
  obtain ⟨d, hd, rfl⟩ := Option.map_eq_some_iff.mp h
  exact ⟨c, d, hc, hd, rfl⟩

theorem pool_exec_step (hended : cs.any ended = false) (hc : cs[i]? = some c)
    (hx : M.exec c a = some d) : (M.pool ended).exec cs (.step i a) = some (cs.set i d) := by
  show (if cs.any ended = true then none
    else cs[i]?.bind fun c => (M.exec c a).map fun d => cs.set i d) = _
  rw [hended, hc, Option.bind_some, hx]
  rfl

theorem forall_mem_set {P : σ → Prop} (h : ∀ c ∈ cs, P c) (hd : P d) : ∀ c ∈ cs.set i d, P c := by
  intro c hc
  rcases List.mem_or_eq_of_mem_set hc with hc | rfl
  · exact h c hc
  · exact hd

/-- Every instance in a run of the pool has come there by a run of its own. -/
theorem Reach.of_pool (h : (M.pool ended).Reach (Each G) cs) : ∀ c ∈ cs, M.Reach G c := by
  induction h with
  | init => nofun
  | @step cs ds l _ hg hx ih =>
    intro c hc
    cases l with
    | start =>
      rw [pool_start hx] at hc
      rcases List.mem_append.mp hc with hc | hc
      · exact ih c hc
      · rw [List.mem_singleton.mp hc]
        exact .init
    | step i a =>
      obtain ⟨b, d, hb, hd, rfl⟩ := pool_step hx
      rcases List.mem_or_eq_of_mem_set hc with hc | rfl
      · exact ih c hc
      · exact .step (ih b (List.mem_of_getElem? hb)) (hg b hb) hd

/-! ## Noninterference -/

theorem not_ended_set (hended : cs.any ended = false) (hd : ended d = false) :
    (cs.set i d).any ended = false := by
  simp only [List.any_eq_false, Bool.not_eq_true] at hended ⊢
  exact forall_mem_set hended hd

/-- The steps of one instance are steps of the pool, as long as no instance is ended. -/
theorem pool_run_step (hended : ∀ {c d a}, M.exec c a = some d → ended c = false)
    (hcs : cs.any ended = false) (hc : cs[i]? = some c) (hr : M.run c as = some d) :
    (M.pool ended).run cs (as.map (.step i)) = some (cs.set i d) := by
  induction as generalizing cs c with
  | nil =>
    cases hr
    obtain ⟨hi, rfl⟩ := List.getElem?_eq_some_iff.mp hc
    exact congrArg some (List.set_getElem_self hi).symm
  | cons a as ih =>
    rw [run_cons, Option.bind_eq_some_iff] at hr
    obtain ⟨b, hb, hr⟩ := hr
    have hi : i < cs.length := (List.getElem?_eq_some_iff.mp hc).1
    rw [List.map_cons, run_cons_of_exec (pool_exec_step hcs hc hb)]
    cases as with
    | nil =>
      cases hr
      rfl
    | cons a' as' =>
      obtain ⟨b', hb', -⟩ := Option.bind_eq_some_iff.mp hr
      rw [ih (not_ended_set hcs (hended hb')) (List.getElem?_set_self hi) hr, List.set_set]

/-- An instance that takes no step any more may be replaced by another: whatever the others do,
they do it as before. -/
theorem run_set (hc : cs[i]? = some c) (hstuck : ∀ a, M.exec c a = none) (hd : ended d = false)
    (hr : (M.pool ended).run cs ls = some ds) :
    (M.pool ended).run (cs.set i d) ls = some (ds.set i d) := by
  induction ls generalizing cs with
  | nil =>
    cases hr
    rfl
  | cons l ls ih =>
    rw [run_cons, Option.bind_eq_some_iff] at hr
    obtain ⟨es, hes, hr⟩ := hr
    have hi : i < cs.length := (List.getElem?_eq_some_iff.mp hc).1
    have hended := not_ended_set (i := i) (not_ended_of_exec hes) hd
    cases l with
    | start =>
      obtain rfl := pool_start hes
      have hx : (M.pool ended).exec (cs.set i d) .start = some ((cs ++ [M.init]).set i d) := by
        rw [List.set_append_left _ _ hi]
        exact if_neg (Bool.eq_false_iff.mp hended)
      rw [run_cons_of_exec hx]
      exact ih (List.getElem?_append_left hi ▸ hc) hr
    | step j a =>
      obtain ⟨b, b', hb, hx, rfl⟩ := pool_step hes
      have hne : j ≠ i := by
        rintro rfl
        obtain rfl := Option.some.inj (hb.symm.trans hc)
        rw [hstuck] at hx
        cases hx
      have hb' : (cs.set i d)[j]? = some b := by
        rw [List.getElem?_set_ne hne.symm]
        exact hb
      rw [run_cons_of_exec (pool_exec_step hended hb' hx), List.set_comm _ _ hne.symm]
      refine ih ?_ hr
      rw [List.getElem?_set_ne hne]
      exact hc

end Machine
end Lib
