import Mathlib.Algebra.BigOperators.Group.Finset.Piecewise
import Mathlib.Data.Fintype.Card

namespace Apue
set_option autoImplicit true

/-- The number of members of a family that have a property. -/
def census [Fintype ι] (p : σ → Bool) (f : ι → σ) : Nat :=
  (Finset.univ.filter fun i => p (f i)).card

theorem census_eq_sum [Fintype ι] (p : σ → Bool) (f : ι → σ) :
    census p f = ∑ i, (p (f i)).toNat := by
  rw [census, Finset.card_filter]
  refine Finset.sum_congr rfl fun i _ => ?_
  cases p (f i) <;> rfl

/-- When one member changes, a sum over the family changes by what that member adds. -/
theorem sum_update [Fintype ι] [DecidableEq ι] (w : σ → Nat) (f : ι → σ) (i : ι) (x : σ) :
    ∑ j, w (Function.update f i x j) + w (f i) = ∑ j, w (f j) + w x := by
  have hothers : ∑ j ∈ Finset.univ.erase i, w (Function.update f i x j) =
      ∑ j ∈ Finset.univ.erase i, w (f j) := by
    refine Finset.sum_congr rfl fun j hj => ?_
    rw [Function.update_of_ne (Finset.ne_of_mem_erase hj)]
  have hsum := Finset.add_sum_erase Finset.univ (fun j => w (Function.update f i x j))
    (Finset.mem_univ i)
  have hsum' := Finset.add_sum_erase Finset.univ (fun j => w (f j)) (Finset.mem_univ i)
  simp only [Function.update_self] at hsum
  rw [← hsum, ← hsum', hothers]
  omega

theorem census_update [Fintype ι] [DecidableEq ι] (p : σ → Bool) (f : ι → σ) (i : ι) (x : σ) :
    census p (Function.update f i x) + (p (f i)).toNat = census p f + (p x).toNat := by
  rw [census_eq_sum, census_eq_sum]
  exact sum_update (fun y => (p y).toNat) f i x

theorem census_lt_card [Fintype ι] {p : σ → Bool} {f : ι → σ} {i : ι} (h : p (f i) = false) :
    census p f < Fintype.card ι :=
  Finset.card_lt_univ_of_notMem (x := i) (by simp [h])

theorem census_eq_card [Fintype ι] {p : σ → Bool} {f : ι → σ} (h : ∀ i, p (f i) = true) :
    census p f = Fintype.card ι := by
  simp [census, h]

theorem census_eq_zero [Fintype ι] {p : σ → Bool} {f : ι → σ} (h : ∀ i, p (f i) = false) :
    census p f = 0 := by
  simp [census, h]

theorem eq_of_census_le_one [Fintype ι] {p : σ → Bool} {f : ι → σ} {i j : ι}
    (hc : census p f ≤ 1) (hi : p (f i) = true) (hj : p (f j) = true) : i = j :=
  Finset.card_le_one.1 hc i (by simp [hi]) j (by simp [hj])

end Apue
