import Apue.Memory
import Mathlib.Data.Nat.Prime.Basic
import Mathlib.Tactic.NormNum.Prime

namespace Apue.Prime
set_option autoImplicit true

/-- for (int j = ..; j < bound; j++) if (i % j == 0) .. , left with false at the first divisor. -/
def noDivisor (i bound j : Int) : Except Fault Bool :=
  if j < bound then
    if i.tmod j = 0 then .ok false
    else
      match addInt j 1 with
      | .ok _ => noDivisor i bound (j + 1)
      | .error e => .error e
  else .ok true
termination_by (bound - j).toNat
decreasing_by omega

/-- The test of `ps/prime.c`: the value of mark after the loop. -/
def mark (i : Int) : Except Fault Bool := noDivisor i (i.tdiv 2) 2

/-- The test of `thread/prime.c`: whether `routine` gets to its printf. -/
def routine (i : Int) : Except Fault Bool := noDivisor i i 2

theorem noDivisor_stop (h : ¬j < bound) : noDivisor i bound j = .ok true := by
  rw [noDivisor, if_neg h]

theorem noDivisor_found (h : j < bound) (hd : i.tmod j = 0) :
    noDivisor i bound j = .ok false := by
  rw [noDivisor, if_pos h, if_pos hd]

/-- The counter stays below the bound, which is an int, so that it does not overflow. -/
theorem noDivisor_next (h : j < bound) (hd : ¬i.tmod j = 0) (hj : 0 ≤ j) (hb : bound ≤ intMax) :
    noDivisor i bound j = noDivisor i bound (j + 1) := by
  rw [noDivisor, if_pos h, if_neg hd, addInt_of_nonneg (by omega) (by omega)]

theorem tmod_eq_zero_iff {n k : Nat} : (n : Int).tmod k = 0 ↔ k ∣ n := by
  rw [← Int.dvd_iff_tmod_eq_zero, Int.natCast_dvd_natCast]

theorem noDivisor_eq (n bound : Nat) (hb : (bound : Int) ≤ intMax) (j : Nat) :
    ∃ b, noDivisor n bound j = .ok b ∧ (b = true ↔ ∀ k, j ≤ k → k < bound → ¬k ∣ n) := by
  induction hk : bound - j generalizing j with
  | zero =>
    refine ⟨true, noDivisor_stop (by omega), ?_⟩
    simp only [true_iff]
    intro k hjk hkb
    omega
  | succ d ih =>
    have hlt : (j : Int) < bound := by omega
    by_cases hd : j ∣ n
    · refine ⟨false, noDivisor_found hlt (tmod_eq_zero_iff.2 hd), ?_⟩
      simp only [Bool.false_eq_true, false_iff]
      intro hall
      exact hall j (Nat.le_refl j) (by omega) hd
    · obtain ⟨b, hr, hiff⟩ := ih (j + 1) (by omega)
      have hnext := noDivisor_next hlt (fun h => hd (tmod_eq_zero_iff.1 h)) (by omega) hb
      refine ⟨b, hnext.trans hr, hiff.trans ?_⟩
      constructor
      · intro hall k hjk hkb
        rcases Nat.eq_or_lt_of_le hjk with rfl | hlt
        · exact hd
        · exact hall k hlt hkb
      · intro hall k hjk hkb
        exact hall k (Nat.le_of_succ_le hjk) hkb

theorem exists_dvd_lt_half {n : Nat} (h5 : 5 ≤ n) (hn : ¬n.Prime) :
    ∃ k, 2 ≤ k ∧ k < n / 2 ∧ k ∣ n := by
  have hp : n.minFac.Prime := Nat.minFac_prime (by omega)
  have hd : n.minFac ∣ n := Nat.minFac_dvd n
  have hsq : n.minFac ^ 2 ≤ n := Nat.minFac_sq_le_self (by omega) hn
  refine ⟨n.minFac, hp.two_le, ?_, hd⟩
  generalize n.minFac = p at hp hd hsq
  have h2 := hp.two_le
  rw [Nat.pow_two] at hsq
  -- twice a factor p ≥ 3 is below p * p, and an even n ≥ 5 is at least 6
  rcases Nat.eq_or_lt_of_le h2 with rfl | h3
  · omega
  · have h3p : 3 * p ≤ p * p := Nat.mul_le_mul_right p h3
    omega

theorem prime_iff_no_divisor {n : Nat} (h2 : 2 ≤ n) :
    n.Prime ↔ ∀ k, 2 ≤ k → k < n → ¬k ∣ n := by
  rw [Nat.prime_def_lt']
  exact and_iff_right h2

theorem prime_iff_no_divisor_half {n : Nat} (h5 : 5 ≤ n) :
    n.Prime ↔ ∀ k, 2 ≤ k → k < n / 2 → ¬k ∣ n := by
  constructor
  · intro hp k hk hlt
    exact (prime_iff_no_divisor (by omega)).1 hp k hk (by omega)
  · intro hall
    by_contra hn
    obtain ⟨k, hk, hlt, hd⟩ := exists_dvd_lt_half h5 hn
    exact hall k hk hlt hd

/-- Both programs test for primality from 5 on. -/
theorem prime_tests_agree (i : Int) (h5 : 5 ≤ i) (hi : i ≤ intMax) :
    ∃ b, mark i = .ok b ∧ routine i = .ok b ∧ (b = true ↔ i.toNat.Prime) := by
  obtain ⟨n, rfl⟩ := Int.eq_ofNat_of_zero_le (by omega : 0 ≤ i)
  have hn : 5 ≤ n := by omega
  have hhalf : (n : Int).tdiv 2 = (n / 2 : Nat) := rfl
  obtain ⟨b, hb, hbp⟩ := noDivisor_eq n (n / 2) (by omega) 2
  obtain ⟨c, hc, hcp⟩ := noDivisor_eq n n hi 2
  rw [← prime_iff_no_divisor_half hn] at hbp
  rw [← prime_iff_no_divisor (by omega)] at hcp
  have hbc : b = c := Bool.eq_iff_iff.2 (hbp.trans hcp.symm)
  refine ⟨b, ?_, ?_, hbp⟩
  · rw [mark, hhalf]
    exact hb
  · rw [routine, hbc]
    exact hc

theorem prime_tests_agree_30011 : (5 : Int) ≤ 30011 ∧ (30011 : Int) ≤ intMax ∧
    mark 30011 = .ok true ∧ routine 30011 = .ok true := by
  obtain ⟨b, hm, hr, hp⟩ := prime_tests_agree 30011 (by decide) (by decide)
  have hprime : Nat.Prime 30011 := by norm_num
  obtain rfl : b = true := hp.2 hprime
  exact ⟨by decide, by decide, hm, hr⟩

/-- Below 5 the tests differ: the halved bound lets 4 through. -/
example : mark 4 = .ok true ∧ routine 4 = .ok false := by
  refine ⟨noDivisor_stop (by decide), noDivisor_found (by decide) (by decide)⟩

end Apue.Prime
