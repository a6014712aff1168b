import Apue.Census
import Apue.Memory

namespace Apue.CreateJoin
set_option autoImplicit true

/-- The thread that creates N others one by one and then joins them one by one. -/
inductive Main where
  | create (i : Nat)
  | join (i : Nat)
  | ended
  deriving DecidableEq, Repr

variable {N : Nat} {P : Type u} {absent exited : P} {thread : Fin N → P} {i : Fin N} {pc : P}

def Main.Fits (absent exited : P) (thread : Fin N → P) : Main → Prop
  | .create k => k ≤ N ∧ ∀ i : Fin N, thread i = absent ↔ k ≤ i
  | .join k => k ≤ N ∧ (∀ i, thread i ≠ absent) ∧ ∀ i : Fin N, (i : Nat) < k → thread i = exited
  | .ended => ∀ i, thread i = exited

theorem fits_start : (Main.create 0).Fits absent exited fun _ : Fin N => absent :=
  ⟨Nat.zero_le N, fun i => ⟨fun _ => Nat.zero_le i, fun _ => rfl⟩⟩

theorem Main.Fits.absent_of_create (h : (Main.create i).Fits absent exited thread) :
    thread i = absent :=
  (h.2 i).2 (Nat.le_refl _)

theorem Main.Fits.ne_ended {m : Main} (h : m.Fits absent exited thread)
    (he : thread i ≠ exited) : m ≠ .ended := by
  rintro rfl
  exact he (h i)

theorem Main.Fits.update {m : Main} (h : m.Fits absent exited thread) (ha : thread i ≠ absent)
    (he : thread i ≠ exited) (hpc : pc ≠ absent) :
    m.Fits absent exited (Function.update thread i pc) := by
  cases m with
  | create k =>
    refine ⟨h.1, fun j => ?_⟩
    by_cases hji : j = i
    · subst hji
      rw [Function.update_self]
      exact ⟨fun hp => absurd hp hpc, fun hk => absurd ((h.2 j).2 hk) ha⟩
    · rw [Function.update_of_ne hji]
      exact h.2 j
  | join k =>
    refine ⟨h.1, fun j => ?_, fun j hj => ?_⟩
    · by_cases hji : j = i
      · subst hji
        rw [Function.update_self]
        exact hpc
      · rw [Function.update_of_ne hji]
        exact h.2.1 j
    · have hji : j ≠ i := fun hji => he (hji ▸ h.2.2 j hj)
      rw [Function.update_of_ne hji]
      exact h.2.2 j hj
  | ended => exact absurd (h i) he

theorem Main.Fits.create (h : (Main.create i).Fits absent exited thread) (hpc : pc ≠ absent) :
    (Main.create (i + 1)).Fits absent exited (Function.update thread i pc) := by
  refine ⟨i.isLt, fun j => ?_⟩
  by_cases hji : j = i
  · subst hji
    rw [Function.update_self]
    exact ⟨fun hp => absurd hp hpc, fun hle => absurd hle (Nat.not_succ_le_self _)⟩
  · have hne : (j : Nat) ≠ i := fun he => hji (Fin.ext he)
    rw [Function.update_of_ne hji, h.2 j]
    omega

theorem Main.Fits.created (h : (Main.create N).Fits absent exited thread) :
    (Main.join 0).Fits absent exited thread := by
  refine ⟨Nat.zero_le N, fun i hi => ?_, fun i hi => absurd hi (Nat.not_lt_zero _)⟩
  exact absurd ((h.2 i).1 hi) (Nat.not_le.2 i.isLt)

theorem Main.Fits.join (h : (Main.join i).Fits absent exited thread) (hi : thread i = exited) :
    (Main.join (i + 1)).Fits absent exited thread := by
  refine ⟨i.isLt, h.2.1, fun j hj => ?_⟩
  rcases Nat.lt_succ_iff_lt_or_eq.1 hj with hlt | he
  · exact h.2.2 j hlt
  · rw [Fin.ext he]
    exact hi

theorem Main.Fits.ended (h : (Main.join N).Fits absent exited thread) :
    Main.ended.Fits absent exited thread :=
  fun i => h.2.2 i i.isLt

theorem Main.Fits.next {m : Main} (h : m.Fits absent exited thread) :
    (∃ i : Fin N, m = .create i) ∨ m = .create N ∨
      (∃ i : Fin N, m = .join i ∧ thread i ≠ absent) ∨ m = .join N ∨ m = .ended := by
  cases m with
  | create k =>
    rcases Nat.lt_or_eq_of_le h.1 with hk | rfl
    · exact .inl ⟨⟨k, hk⟩, rfl⟩
    · exact .inr (.inl rfl)
  | join k =>
    rcases Nat.lt_or_eq_of_le h.1 with hk | rfl
    · exact .inr (.inr (.inl ⟨⟨k, hk⟩, rfl, h.2.1 _⟩))
    · exact .inr (.inr (.inr (.inl rfl)))
  | ended => exact .inr (.inr (.inr (.inr rfl)))

def Main.rank (N : Nat) : Main → Nat
  | .create k => 2 * N + 2 - k
  | .join k => N + 1 - k
  | .ended => 0

/-- The steps that are left, where a thread at pc has `w pc` of them to make. -/
def rank (w : P → Nat) (m : Main) (thread : Fin N → P) : Nat := m.rank N + ∑ i, w (thread i)

section Rank

variable (w : P → Nat)

theorem rank_update (m : Main) (h : w pc < w (thread i)) :
    rank w m (Function.update thread i pc) < rank w m thread := by
  have hsum := sum_update w thread i pc
  simp only [rank]
  omega

theorem rank_create (h : w pc ≤ w (thread i)) :
    rank w (.create (i + 1)) (Function.update thread i pc) < rank w (.create i) thread := by
  have hsum := sum_update w thread i pc
  have hlt := i.isLt
  simp only [rank, Main.rank]
  omega

theorem rank_created (thread : Fin N → P) :
    rank w (.join 0) thread < rank w (.create N) thread := by
  simp only [rank, Main.rank]
  omega

theorem rank_join (i : Fin N) (thread : Fin N → P) :
    rank w (.join (i + 1)) thread < rank w (.join i) thread := by
  have hlt := i.isLt
  simp only [rank, Main.rank]
  omega

theorem rank_ended (thread : Fin N → P) : rank w .ended thread < rank w (.join N) thread := by
  simp only [rank, Main.rank]
  omega

theorem rank_start (N : Nat) (absent : P) :
    rank w (.create 0) (fun _ : Fin N => absent) = 2 * N + 2 + N * w absent := by
  have hsum : ∑ _ : Fin N, w absent = N * w absent := by
    rw [Finset.sum_const_nat fun _ _ => rfl, Finset.card_univ, Fintype.card_fin]
  rw [rank, hsum]
  rfl

end Rank

/-- A variable that each thread increments once, without losing an increment. -/
structure Tally (counted : P → Bool) (held : P → Option Int) (thread : Fin N → P) (count : Int) :
    Prop where
  count_eq : count = census counted thread
  loaded : ∀ i a, held (thread i) = some a → a = count

variable {counted : P → Bool} {held : P → Option Int} {count c : Int}

theorem tally_start (hc : counted absent = false) (hh : held absent = none) :
    Tally counted held (fun _ : Fin N => absent) 0 := by
  refine ⟨?_, fun i a hi => ?_⟩
  · rw [census_eq_zero fun _ => hc]
    rfl
  · cases hh.symm.trans hi

/-- One thread moves on. The variable changes only while no other thread has loaded it. -/
theorem Tally.update (h : Tally counted held thread count)
    (hc : c + (counted (thread i)).toNat = count + (counted pc).toNat)
    (hi : ∀ a, held pc = some a → a = c)
    (ho : c = count ∨ ∀ j, j ≠ i → held (thread j) = none) :
    Tally counted held (Function.update thread i pc) c := by
  have hcounted := census_update counted thread i pc
  have hcount := h.count_eq
  refine ⟨by omega, fun j a hj => ?_⟩
  by_cases hji : j = i
  · subst hji
    rw [Function.update_self] at hj
    exact hi a hj
  · rw [Function.update_of_ne hji] at hj
    rcases ho with rfl | hnone
    · exact h.loaded j a hj
    · cases (hnone j hji).symm.trans hj

theorem Tally.eq_of_counted (h : Tally counted held thread count)
    (hd : ∀ i, counted (thread i) = true) : count = N := by
  rw [h.count_eq, census_eq_card hd, Fintype.card_fin]

theorem Tally.addInt_eq (h : Tally counted held thread count) (hi : held (thread i) = some a)
    (hc : counted (thread i) = false) (hN : (N : Int) ≤ intMax) :
    addInt a 1 = .ok (count + 1) := by
  have hlt := census_lt_card hc
  rw [Fintype.card_fin] at hlt
  have hcount := h.count_eq
  rw [h.loaded i a hi]
  exact addInt_of_nonneg (by omega) (by omega)

end Apue.CreateJoin
