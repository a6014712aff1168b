import Mathlib.Algebra.BigOperators.Group.List.Basic
import Mathlib.Algebra.Order.Group.Basic
import Mathlib.Data.List.Induction
import Mathlib.Data.List.Infix

namespace Apue
set_option autoImplicit true

variable {α : Type u} [AddCommGroup α] [LinearOrder α]

/-- The level after a list of flows: what does not fit in runs over, and no more than is there flows
out. -/
def reservoir (cap : α) (flows : List α) : α :=
  flows.foldl (fun level d => max 0 (min cap (level + d))) 0

/-- Every final stretch of the flows brings in at most `v`, or has a final part that does even from
a full reservoir. -/
def LevelLe (cap v : α) (flows : List α) : Prop :=
  ∀ mid, mid <:+ flows → mid.sum ≤ v ∨ ∃ suf, suf <:+ mid ∧ cap + suf.sum ≤ v

theorem reservoir_concat (cap : α) (flows : List α) (d : α) :
    reservoir cap (flows ++ [d]) = max 0 (min cap (reservoir cap flows + d)) :=
  List.foldl_concat _ _ _ _

theorem reservoir_nonneg (cap : α) (flows : List α) : 0 ≤ reservoir cap flows := by
  induction flows using List.reverseRecOn with
  | nil => exact le_refl 0
  | append_singleton flows d _ =>
    rw [reservoir_concat]
    exact le_max_left _ _

theorem reservoir_le {cap : α} (hc : 0 ≤ cap) (flows : List α) : reservoir cap flows ≤ cap := by
  induction flows using List.reverseRecOn with
  | nil => exact hc
  | append_singleton flows d _ =>
    rw [reservoir_concat]
    exact max_le hc (min_le_left _ _)

theorem levelLe_nil {cap : α} (hc : 0 ≤ cap) (v : α) : LevelLe cap v [] ↔ 0 ≤ v := by
  constructor
  · intro h
    rcases h [] (List.suffix_refl _) with hv | ⟨suf, hs, hv⟩
    · exact hv
    · rw [List.suffix_nil.mp hs, List.sum_nil, add_zero] at hv
      exact hc.trans hv
  · intro hv mid hm
    left
    rw [List.suffix_nil.mp hm]
    exact hv

variable [IsOrderedAddMonoid α]

/-- One more flow shifts the bound, unless the whole reservoir is below it. -/
theorem levelLe_concat {cap : α} (hc : 0 ≤ cap) (v : α) (flows : List α) (d : α) :
    LevelLe cap v (flows ++ [d]) ↔ 0 ≤ v ∧ (cap ≤ v ∨ LevelLe cap (v - d) flows) := by
  constructor
  · intro h
    constructor
    · rcases h [] (List.nil_suffix) with hv | ⟨suf, hs, hv⟩
      · exact hv
      · rw [List.suffix_nil.mp hs, List.sum_nil, add_zero] at hv
        exact hc.trans hv
    · by_cases hcv : cap ≤ v
      · exact .inl hcv
      · right
        intro mid hm
        have hcat : mid ++ [d] <:+ flows ++ [d] := List.suffix_concat_iff.mpr (.inr ⟨mid, rfl, hm⟩)
        rcases h (mid ++ [d]) hcat with hv | ⟨suf, hs, hv⟩
        · left
          rw [List.sum_append, List.sum_singleton] at hv
          exact le_sub_iff_add_le.mpr hv
        · right
          rcases List.suffix_concat_iff.mp hs with rfl | ⟨suf, rfl, hs'⟩
          · rw [List.sum_nil, add_zero] at hv
            exact absurd hv hcv
          · rw [List.sum_append, List.sum_singleton, ← add_assoc] at hv
            exact ⟨suf, hs', le_sub_iff_add_le.mpr hv⟩
  · rintro ⟨h0, h⟩ mid hm
    rcases List.suffix_concat_iff.mp hm with rfl | ⟨mid, rfl, hm'⟩
    · exact .inl h0
    · rcases h with hcv | h
      · right
        apply Exists.intro []
        apply And.intro List.nil_suffix
        rw [List.sum_nil, add_zero]
        exact hcv
      · rcases h mid hm' with hv | ⟨suf, hs, hv⟩
        · left
          rw [List.sum_append, List.sum_singleton]
          exact le_sub_iff_add_le.mp hv
        · right
          apply Exists.intro (suf ++ [d])
          apply And.intro (List.suffix_concat_iff.mpr (.inr ⟨suf, rfl, hs⟩))
          rw [List.sum_append, List.sum_singleton, ← add_assoc]
          exact le_sub_iff_add_le.mp hv

theorem reservoir_le_iff {cap : α} (hc : 0 ≤ cap) (v : α) (flows : List α) :
    reservoir cap flows ≤ v ↔ LevelLe cap v flows := by
  induction flows using List.reverseRecOn generalizing v with
  | nil =>
    rw [levelLe_nil hc]
    rfl
  | append_singleton flows d ih =>
    rw [reservoir_concat, levelLe_concat hc, max_le_iff, min_le_iff, ← ih, le_sub_iff_add_le]

end Apue
