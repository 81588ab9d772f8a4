import Mathlib.Data.List.Induction

/-!
# Nesting

The level of brackets that are open at the end of a list, where a closing bracket with nothing to
close is passed over.

* `level_pos_iff`: a bracket is open when some end of the list opens more than it closes.
-/

namespace Nesting

variable {α : Type} [DecidableEq α]

def levelStep (opening closing : α) (n : Int) (a : α) : Int :=
  if a = opening then n + 1 else if a = closing then max 0 (n - 1) else n

/-- The level after the list. -/
def level (opening closing : α) (w : List α) : Int := w.foldl (levelStep opening closing) 0

theorem level_concat (opening closing : α) (w : List α) (a : α) :
    level opening closing (w ++ [a]) = levelStep opening closing (level opening closing w) a :=
  List.foldl_append ..

/-- How many more brackets a list opens than it closes. -/
def surplus (opening closing : α) (w : List α) : Int := w.count opening - w.count closing

theorem surplus_concat {opening closing : α} (hne : opening ≠ closing) (w : List α) (a : α) :
    surplus opening closing (w ++ [a]) = surplus opening closing w +
      if a = opening then 1 else if a = closing then -1 else 0 := by
  unfold surplus
  rw [List.count_append, List.count_append, List.count_singleton, List.count_singleton]
  by_cases ho : a = opening
  · subst ho
    simp only [beq_self_eq_true, if_true, beq_iff_eq, if_neg hne]
    omega
  · by_cases hc : a = closing
    · subst hc
      simp only [beq_iff_eq, if_neg ho, if_true]
      omega
    · simp only [beq_iff_eq, if_neg ho, if_neg hc]
      omega

theorem surplus_le_level {opening closing : α} (hne : opening ≠ closing) {v w : List α}
    (h : v <:+ w) : surplus opening closing v ≤ level opening closing w := by
  induction w using List.reverseRecOn generalizing v with
  | nil =>
    rw [List.suffix_nil.mp h]
    exact Int.le_refl 0
  | append_singleton w a ih =>
    rw [level_concat, levelStep]
    obtain rfl | ⟨v, rfl, hv⟩ := List.suffix_concat_iff.mp h
    · have hnil := ih (List.nil_suffix (l := w))
      have hzero : surplus opening closing ([] : List α) = 0 := rfl
      split
      · omega
      · split <;> omega
    · have hle := ih hv
      rw [surplus_concat hne]
      split
      · omega
      · split <;> omega

/-- The level is reached by an end of the list. -/
theorem exists_surplus {opening closing : α} (hne : opening ≠ closing) (w : List α) :
    ∃ v, v <:+ w ∧ surplus opening closing v = level opening closing w := by
  induction w using List.reverseRecOn with
  | nil => exact ⟨[], List.suffix_rfl, rfl⟩
  | append_singleton w a ih =>
    obtain ⟨v, hv, heq⟩ := ih
    have hnonneg := surplus_le_level hne (List.nil_suffix (l := w))
    have hzero : surplus opening closing ([] : List α) = 0 := rfl
    have hsuffix : v ++ [a] <:+ w ++ [a] := List.suffix_concat_iff.mpr (.inr ⟨v, rfl, hv⟩)
    have hsurplus := surplus_concat hne v a
    rw [level_concat, levelStep, ← heq]
    by_cases ho : a = opening
    · rw [if_pos ho] at hsurplus ⊢
      exact ⟨v ++ [a], hsuffix, hsurplus⟩
    · rw [if_neg ho] at hsurplus ⊢
      by_cases hc : a = closing
      · rw [if_pos hc] at hsurplus ⊢
        by_cases hpos : 0 < surplus opening closing v
        · exact ⟨v ++ [a], hsuffix, by omega⟩
        · exact ⟨[], List.nil_suffix, by omega⟩
      · rw [if_neg hc] at hsurplus ⊢
        exact ⟨v ++ [a], hsuffix, by omega⟩

theorem level_pos_iff {opening closing : α} (hne : opening ≠ closing) (w : List α) :
    0 < level opening closing w ↔ ∃ v, v <:+ w ∧ v.count closing < v.count opening := by
  constructor
  · intro h
    obtain ⟨v, hv, heq⟩ := exists_surplus hne w
    refine ⟨v, hv, ?_⟩
    unfold surplus at heq
    omega
  · rintro ⟨v, hv, hlt⟩
    have hle := surplus_le_level hne hv
    unfold surplus at hle
    omega

end Nesting
