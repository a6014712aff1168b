import Apue.Decimal
import Mathlib.Algebra.Ring.Nat
import Mathlib.Data.List.TakeWhile

namespace Apue
set_option autoImplicit true

/-- How atoi reads a text: blanks and a sign, then the digits, then what ends them. -/
structure Numeral (l : List Char) (neg : Bool) (ds t : List Char) : Prop where
  parts : signed (l.dropWhile isspace) = (neg, ds ++ t)
  digits : ∀ c ∈ ds, c.isDigit = true
  ends : ∀ c ∈ t.head?, c.isDigit = false

def signedValue (neg : Bool) (ds : List Char) : Int :=
  if neg then -(Nat.ofDigitChars 10 ds 0) else Nat.ofDigitChars 10 ds 0

theorem head?_dropWhile_isDigit (l : List Char) :
    ∀ c ∈ (l.dropWhile Char.isDigit).head?, c.isDigit = false := by
  intro c hc
  have h := List.head?_dropWhile_not Char.isDigit l
  rw [Option.mem_def.1 hc] at h
  exact h

theorem exists_numeral (l : List Char) : ∃ neg ds t, Numeral l neg ds t :=
  ⟨(signed (l.dropWhile isspace)).1, _, _, by rw [List.takeWhile_append_dropWhile],
    fun _ hc => List.mem_takeWhile_imp hc, head?_dropWhile_isDigit _⟩

theorem takeWhile_isDigit {ds t : List Char} (hd : ∀ c ∈ ds, c.isDigit = true)
    (ht : ∀ c ∈ t.head?, c.isDigit = false) : (ds ++ t).takeWhile Char.isDigit = ds := by
  rw [List.takeWhile_append_of_pos hd]
  cases t with
  | nil => exact List.append_nil ds
  | cons c t => rw [List.takeWhile_cons_of_neg (by rw [ht c rfl]; simp), List.append_nil]

theorem dropWhile_isDigit {ds t : List Char} (hd : ∀ c ∈ ds, c.isDigit = true)
    (ht : ∀ c ∈ t.head?, c.isDigit = false) : (ds ++ t).dropWhile Char.isDigit = t := by
  rw [List.dropWhile_append_of_pos hd]
  cases t with
  | nil => rfl
  | cons c t => rw [List.dropWhile_cons_of_neg (by rw [ht c rfl]; simp)]

theorem Numeral.atoi_ok_iff (h : Numeral l neg ds t) :
    atoi l = .ok v ↔
      t ≠ [] ∧ v = signedValue neg ds ∧ intMin ≤ v ∧ v ≤ intMax := by
  simp only [atoi, h.parts, takeWhile_isDigit h.digits h.ends, dropWhile_isDigit h.digits h.ends]
  by_cases ht : t = []
  · simp [ht]
  · rw [if_neg ht]
    change (if intMin ≤ signedValue neg ds ∧ signedValue neg ds ≤ intMax then _ else _) = _ ↔ _
    constructor
    · intro hv
      split at hv
      · next hr =>
        cases hv
        exact ⟨ht, rfl, hr⟩
      · cases hv
    · rintro ⟨-, rfl, hr⟩
      exact if_pos hr

theorem signed_append {m : List Char} (hm : m ≠ []) (r : List Char) :
    signed (m ++ r) = ((signed m).1, (signed m).2 ++ r) := by
  obtain ⟨c, m, rfl⟩ := List.exists_cons_of_ne_nil hm
  rw [List.cons_append]
  unfold signed
  split <;> split <;> simp_all

theorem Numeral.parts_append (h : Numeral l neg ds t) (hne : ds ++ t ≠ []) (r : List Char) :
    signed ((l ++ r).dropWhile isspace) = (neg, ds ++ t ++ r) := by
  have hm : l.dropWhile isspace ≠ [] := by
    intro hm
    have hp := h.parts
    rw [hm] at hp
    exact hne (congrArg Prod.snd hp).symm
  rw [List.dropWhile_append, if_neg (by simpa using hm), signed_append hm, h.parts]

/-- What follows a text does not matter behind the byte that ends the number. -/
theorem Numeral.append (h : Numeral l neg ds t) (ht : t ≠ []) (r : List Char) :
    Numeral (l ++ r) neg ds (t ++ r) := by
  refine ⟨?_, h.digits, ?_⟩
  · rw [h.parts_append (by simp [ht]), List.append_assoc]
  · obtain ⟨c, t, rfl⟩ := List.exists_cons_of_ne_nil ht
    exact h.ends

theorem Numeral.extend (h : Numeral l neg ds []) (hd : ds ≠ []) (r : List Char) :
    Numeral (l ++ r) neg (ds ++ r.takeWhile Char.isDigit) (r.dropWhile Char.isDigit) := by
  refine ⟨?_, ?_, head?_dropWhile_isDigit r⟩
  · rw [h.parts_append (by simp [hd]), List.append_nil, List.append_assoc,
      List.takeWhile_append_dropWhile]
  · intro c hc
    rcases List.mem_append.1 hc with hc | hc
    · exact h.digits c hc
    · exact List.mem_takeWhile_imp hc

theorem exists_sign (m : List Char) : ∃ sg, m = sg ++ (signed m).2 ∧
    (∀ c ∈ sg, c.isDigit = false) ∧ ((signed m).1 = true → sg ≠ []) := by
  unfold signed
  split
  · refine ⟨['-'], rfl, fun c hc => ?_, fun _ => List.cons_ne_nil _ _⟩
    rw [List.mem_singleton.1 hc]
    rfl
  · refine ⟨['+'], rfl, fun c hc => ?_, fun _ => List.cons_ne_nil _ _⟩
    rw [List.mem_singleton.1 hc]
    rfl
  · exact ⟨[], rfl, nofun, nofun⟩

theorem Numeral.exists_lead (h : Numeral l neg ds t) : ∃ lead, l = lead ++ (ds ++ t) ∧
    (∀ c ∈ lead, c.isDigit = false) ∧ (neg = true → lead ≠ []) := by
  obtain ⟨sg, hm, hsg, hneg⟩ := exists_sign (l.dropWhile isspace)
  rw [h.parts] at hm hneg
  refine ⟨l.takeWhile isspace ++ sg, ?_, fun c hc => ?_, fun hn => ?_⟩
  · rw [List.append_assoc, ← hm, List.takeWhile_append_dropWhile]
  · rcases List.mem_append.1 hc with hc | hc
    · have hb := List.mem_takeWhile_imp hc
      by_contra hd
      rw [isspace_of_isDigit (by simpa using hd)] at hb
      cases hb
    · exact hsg c hc
  · simp [hneg hn]

theorem Numeral.value (h : Numeral s neg ds t) (hne : ds ++ t ≠ [])
    (hv : atoi (s ++ ['\x00']) = .ok v) : v = signedValue neg ds := by
  by_cases ht : t = []
  · subst ht
    rw [List.append_nil] at hne
    have hv' := ((h.extend hne ['\x00']).atoi_ok_iff.1 hv).2.1
    rwa [List.takeWhile_cons_of_neg (by decide), List.append_nil] at hv'
  · exact ((h.append ht ['\x00']).atoi_ok_iff.1 hv).2.1

theorem Numeral.no_digit (h : Numeral s neg ds t) (hne : ¬ds ++ t ≠ []) :
    ∀ c ∈ s, c.isDigit = false := by
  obtain ⟨lead, rfl, hnd, -⟩ := h.exists_lead
  rwa [not_not.1 hne, List.append_nil]

theorem decimal_numeral (i : Int) (l : List Char) :
    Numeral (decimal i ++ l) (decide (i < 0))
      (Nat.toDigits 10 i.natAbs ++ l.takeWhile Char.isDigit) (l.dropWhile Char.isDigit) := by
  have hdigit : ∀ n, ∀ c ∈ Nat.toDigits 10 n, c.isDigit = true := fun n c hc =>
    isDigit_of_mem_decimal (n := n) hc
  refine ⟨?_, fun c hc => ?_, head?_dropWhile_isDigit l⟩
  · rw [List.append_assoc, List.takeWhile_append_dropWhile]
    cases i with
    | ofNat n =>
      obtain ⟨c, r, hr⟩ := List.exists_cons_of_ne_nil
        (List.ne_nil_of_length_pos (Nat.length_toDigits_pos (b := 10) (n := n)))
      have hc := hdigit n c (by rw [hr]; exact List.mem_cons_self)
      have hblank : ¬isspace c = true := by rw [isspace_of_isDigit hc]; simp
      have hneg : decide (Int.ofNat n < 0) = false := by simp
      have habs : (Int.ofNat n).natAbs = n := rfl
      rw [decimal, hneg, habs, hr, List.cons_append, List.dropWhile_cons_of_neg hblank,
        signed_of_isDigit hc]
    | negSucc n =>
      have hneg : decide (Int.negSucc n < 0) = true := by simp
      rw [decimal, hneg, List.cons_append, List.dropWhile_cons_of_neg (by decide)]
      rfl
  · rcases List.mem_append.1 hc with hc | hc
    · exact hdigit _ c hc
    · exact List.mem_takeWhile_imp hc

theorem signedValue_toDigits (i : Int) :
    signedValue (decide (i < 0)) (Nat.toDigits 10 i.natAbs) = i := by
  simp only [signedValue, Nat.ofDigitChars_ten_toDigits, decide_eq_true_eq]
  split <;> omega

theorem ofDigitChars_append (ds e : List Char) :
    Nat.ofDigitChars 10 (ds ++ e) 0 =
      10 ^ e.length * Nat.ofDigitChars 10 ds 0 + Nat.ofDigitChars 10 e 0 := by
  rw [Nat.ofDigitChars_append, Nat.ofDigitChars_eq_ofDigitChars_zero]

theorem ofDigitChars_le_append (ds e : List Char) :
    Nat.ofDigitChars 10 ds 0 ≤ Nat.ofDigitChars 10 (ds ++ e) 0 := by
  rw [ofDigitChars_append]
  exact Nat.le_add_right_of_le (Nat.le_mul_of_pos_left _ (Nat.pow_pos (by decide)))

theorem ofDigitChars_lt_append {ds e : List Char} (hd : 0 < Nat.ofDigitChars 10 ds 0)
    (he : e ≠ []) : Nat.ofDigitChars 10 ds 0 < Nat.ofDigitChars 10 (ds ++ e) 0 := by
  rw [ofDigitChars_append]
  have hlen : 0 < e.length := List.length_pos_iff.2 he
  have hpow : 1 < 10 ^ e.length := Nat.one_lt_pow (Nat.ne_of_gt hlen) (by decide)
  have hlt : 1 * Nat.ofDigitChars 10 ds 0 < 10 ^ e.length * Nat.ofDigitChars 10 ds 0 :=
    Nat.mul_lt_mul_of_pos_right hpow hd
  omega

/-- Digits behind the text of a number that is not 0 make it larger in absolute value. -/
theorem signedValue_decimal {i w : Int} {e : List Char}
    (hw : w = signedValue (decide (i < 0)) (Nat.toDigits 10 i.natAbs ++ e)) :
    (0 < i → i ≤ w ∧ (e ≠ [] → i < w)) ∧ (i < 0 → w ≤ i ∧ (e ≠ [] → w < i)) ∧
      (i = 0 → w = Nat.ofDigitChars 10 e 0) := by
  have hle := ofDigitChars_le_append (Nat.toDigits 10 i.natAbs) e
  have hlt : 0 < i.natAbs → e ≠ [] →
      i.natAbs < Nat.ofDigitChars 10 (Nat.toDigits 10 i.natAbs ++ e) 0 := by
    intro hi he
    have hpos : 0 < Nat.ofDigitChars 10 (Nat.toDigits 10 i.natAbs) 0 := by
      rwa [Nat.ofDigitChars_ten_toDigits]
    have h := ofDigitChars_lt_append hpos he
    rwa [Nat.ofDigitChars_ten_toDigits] at h
  rw [Nat.ofDigitChars_ten_toDigits] at hle
  refine ⟨fun hi => ?_, fun hi => ?_, fun hi => ?_⟩
  · have hneg : decide (i < 0) = false := by simp; omega
    rw [hneg, signedValue] at hw
    simp only [Bool.false_eq_true, if_false] at hw
    refine ⟨by omega, fun he => ?_⟩
    have := hlt (by omega) he
    omega
  · have hneg : decide (i < 0) = true := by simp [hi]
    rw [hneg, signedValue] at hw
    simp only [if_true] at hw
    refine ⟨by omega, fun he => ?_⟩
    have := hlt (by omega) he
    omega
  · subst hi
    have h0 : Nat.toDigits 10 (0 : Int).natAbs = ['0'] := rfl
    rw [h0, signedValue] at hw
    simp only [Int.lt_irrefl, decide_false, Bool.false_eq_true, if_false, ofDigitChars_append] at hw
    rw [hw]
    simp [Nat.ofDigitChars]

end Apue
