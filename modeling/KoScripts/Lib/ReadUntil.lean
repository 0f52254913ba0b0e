import Mathlib.Data.List.Infix

/-! # Reading until a condition holds

A loop receives one segment after the other, behind the last one the end of the stream again and
again, and leaves when what it has put together satisfies a condition. Where the condition is kept
by what comes later, only the stream decides whether the loop ends, not the way it is cut. -/

namespace Lib

universe u
variable {α : Type u}

/-- The next segment, nothing at the end, and the segments still to come. -/
def receive : List (List α) → List α × List (List α)
  | [] => ([], [])
  | segment :: segments => (segment, segments)

/-- The segments received until the condition holds of all that has been received. -/
def readUntil (done : List α → Prop) [DecidablePred done] :
    Nat → List α → List (List α) → Option (List (List α))
  | 0, _, _ => none
  | fuel + 1, acc, segments =>
    let (segment, segments) := receive segments
    let acc := acc ++ segment
    if done acc then some [segment]
    else (readUntil done fuel acc segments).map fun log => segment :: log

section
variable {done : List α → Prop} [DecidablePred done] {fuel : Nat} {acc : List α}
  {segments log pre : List (List α)}

theorem readUntil_cases (h : readUntil done (fuel + 1) acc segments = some log) :
    done (acc ++ (receive segments).1) ∧ log = [(receive segments).1] ∨
      ¬done (acc ++ (receive segments).1) ∧ ∃ log',
        readUntil done fuel (acc ++ (receive segments).1) (receive segments).2 = some log' ∧
          log = (receive segments).1 :: log' := by
  rw [readUntil] at h
  simp only at h
  split at h
  case isTrue hdone =>
    cases h
    exact .inl ⟨hdone, rfl⟩
  case isFalse hnot =>
    obtain ⟨log', hlog', rfl⟩ := Option.map_eq_some_iff.mp h
    exact .inr ⟨hnot, log', hlog', rfl⟩

theorem readUntil_ne_nil (h : readUntil done fuel acc segments = some log) : log ≠ [] := by
  cases fuel with
  | zero => cases h
  | succ fuel =>
    obtain ⟨-, rfl⟩ | ⟨-, log', -, rfl⟩ := readUntil_cases h
    · exact List.cons_ne_nil _ _
    · exact List.cons_ne_nil _ _

/-- What is received are the segments, and then nothing any more. -/
theorem readUntil_received (h : readUntil done fuel acc segments = some log) :
    ∃ k, log <+: segments ++ List.replicate k [] := by
  induction fuel generalizing acc segments log with
  | zero => cases h
  | succ fuel ih =>
    obtain ⟨-, rfl⟩ | ⟨-, log', hlog', rfl⟩ := readUntil_cases h
    · cases segments with
      | nil => exact ⟨1, List.prefix_refl _⟩
      | cons segment segments => exact ⟨0, List.cons_prefix_cons.mpr ⟨rfl, List.nil_prefix⟩⟩
    · obtain ⟨k, hk⟩ := ih hlog'
      cases segments with
      | nil => exact ⟨k + 1, List.cons_prefix_cons.mpr ⟨rfl, hk⟩⟩
      | cons segment segments => exact ⟨k, List.cons_prefix_cons.mpr ⟨rfl, hk⟩⟩

/-- The loop leaves behind a segment if and only if the condition holds of what there is then. -/
theorem readUntil_leaves_iff (h : readUntil done fuel acc segments = some log) (hne : pre ≠ [])
    (hpre : pre <+: log) : pre = log ↔ done (acc ++ pre.flatten) := by
  induction fuel generalizing acc segments log pre with
  | zero => cases h
  | succ fuel ih =>
    obtain ⟨segment, pre, rfl⟩ := List.exists_cons_of_ne_nil hne
    obtain ⟨hdone, rfl⟩ | ⟨hnot, log', hlog', rfl⟩ := readUntil_cases h
    · obtain ⟨rfl, hnil⟩ := List.cons_prefix_cons.mp hpre
      cases List.prefix_nil.mp hnil
      rw [List.flatten_singleton]
      exact iff_of_true rfl hdone
    · obtain ⟨rfl, htail⟩ := List.cons_prefix_cons.mp hpre
      rw [List.flatten_cons, ← List.append_assoc, List.cons.injEq, eq_self, true_and]
      cases pre with
      | nil =>
        rw [List.flatten_nil, List.append_nil]
        exact iff_of_false (readUntil_ne_nil hlog').symm hnot
      | cons segment' pre => exact ih hlog' (List.cons_ne_nil segment' pre) htail

/-- The condition holds of what has been received. -/
theorem readUntil_done (h : readUntil done fuel acc segments = some log) :
    done (acc ++ log.flatten) :=
  (readUntil_leaves_iff h (readUntil_ne_nil h) (List.prefix_refl log)).mp rfl

theorem readUntil_flatten_prefix (h : readUntil done fuel acc segments = some log) :
    log.flatten <+: segments.flatten := by
  obtain ⟨k, rest, hrest⟩ := readUntil_received h
  refine ⟨rest.flatten, ?_⟩
  rw [← List.flatten_append, hrest, List.flatten_append, List.flatten_replicate_nil,
    List.append_nil]

/-- A loop whose condition holds of the whole stream leaves, at the latest at its end. -/
theorem readUntil_of_done (h : done (acc ++ segments.flatten)) :
    ∃ log, readUntil done (segments.length + 1) acc segments = some log := by
  induction segments generalizing acc with
  | nil => exact ⟨[[]], if_pos h⟩
  | cons segment segments ih =>
    rw [List.flatten_cons, ← List.append_assoc] at h
    obtain ⟨log, hlog⟩ := ih h
    rw [List.length_cons, readUntil]
    simp only [receive, hlog]
    split
    · exact ⟨[segment], rfl⟩
    · exact ⟨segment :: log, rfl⟩

/-- A loop whose condition holds of the whole stream does not receive the end of it. -/
theorem readUntil_prefix (h : readUntil done fuel acc segments = some log) (hne : segments ≠ [])
    (hdone : done (acc ++ segments.flatten)) : log <+: segments := by
  obtain ⟨k, hlog⟩ := readUntil_received h
  have hsegments : segments <+: segments ++ List.replicate k [] := List.prefix_append segments _
  obtain hle | hle := List.prefix_or_prefix_of_prefix hlog hsegments
  · exact hle
  · rw [(readUntil_leaves_iff h hne hle).mpr hdone]

/-- With a condition that is kept by what comes later, the loop ends if and only if the condition
holds of the whole stream. -/
theorem readUntil_ends_iff (hmono : ∀ xs ys, done xs → done (xs ++ ys)) :
    (∃ fuel log, readUntil done fuel acc segments = some log) ↔ done (acc ++ segments.flatten) := by
  constructor
  · rintro ⟨fuel, log, h⟩
    obtain ⟨later, hlater⟩ := readUntil_flatten_prefix h
    rw [← hlater, ← List.append_assoc]
    exact hmono _ later (readUntil_done h)
  · intro h
    exact ⟨segments.length + 1, readUntil_of_done h⟩

end
end Lib
