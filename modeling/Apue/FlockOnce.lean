import Apue.Flock
import Apue.Numeral

namespace Apue.Flock
set_option autoImplicit true

/-- What one child leaves in the file: its read, atoi, i++ and snprintf, lseek and write. -/
def increment (file buf : List Char) : Except Fault (List Char) := do
  let r ← Child.call file { Child.start buf with pc := .read }
  let r ← Child.call r.1 r.2
  let r ← Child.call r.1 r.2
  let r ← Child.call r.1 r.2
  return r.1

theorem decimal_length_int {i : Int} (hl : intMin ≤ i) (hu : i ≤ intMax) :
    (decimal i).length ≤ 11 := by
  cases i with
  | ofNat n => exact Nat.le_succ_of_le (decimal_length_le hu)
  | negSucc n =>
    have hn : n + 1 < 10000000000 := by
      simp only [intMin] at hl
      omega
    exact Nat.succ_le_succ ((Nat.length_toDigits_le_iff (by decide) (by decide)).2 hn)

theorem increment_eq (s buf : List Char) :
    increment s buf = (do
      let v ← atoi (overwrite buf 0 (s.take bufSize))
      let i ← addInt v 1
      let r := snprintf (overwrite buf 0 (s.take bufSize)) i
      return overwrite s 0 (r.1.take r.2)) := by
  have hread : Child.call s { Child.start buf with pc := .read } =
      .ok (s, ⟨.convert, 0 + (s.take bufSize).length, overwrite buf 0 (s.take bufSize), 0,
        fun _ => false, false⟩) := rfl
  rw [increment, hread, ok_bind, Child.call]
  cases hv : atoi (overwrite buf 0 (s.take bufSize)) with
  | error e => rfl
  | ok v =>
    rw [ok_bind, ok_bind]
    cases hi : addInt v 1 with
    | error e => rfl
    | ok i => rfl

/-- The buffer is not terminated behind the bytes read, and the file is not truncated behind the
text written. -/
theorem increment_ok_iff (hs : s.length < bufSize) (hb : buf.length = bufSize) :
    increment s buf = .ok f ↔ ∃ v, atoi (s ++ buf.drop s.length) = .ok v ∧ v + 1 ≤ intMax ∧
      f = decimal (v + 1) ++ s.drop (decimal (v + 1)).length := by
  have htext : ∀ i, intMin ≤ i → i ≤ intMax → (snprintf (s ++ buf.drop s.length) i).1.take
      (snprintf (s ++ buf.drop s.length) i).2 = decimal i := by
    intro i hl hu
    have hlen := decimal_length_int hl hu
    refine snprintf_take ?_
    rw [List.length_append, List.length_drop, hb]
    simp only [bufSize] at hs ⊢
    omega
  rw [increment_eq, List.take_of_length_le (Nat.le_of_lt hs), overwrite_zero]
  constructor
  · intro h
    obtain ⟨v, hv, h⟩ := bind_ok h
    obtain ⟨i, hi, h⟩ := bind_ok h
    obtain ⟨rfl, hl, hu⟩ := addInt_ok hi
    refine ⟨v, hv, hu, ?_⟩
    rw [← htext (v + 1) hl hu, ← overwrite_zero]
    exact (Except.ok.inj h).symm
  · rintro ⟨v, hv, hu, rfl⟩
    have hl : intMin ≤ v + 1 := by
      obtain ⟨neg, ds, t, hn⟩ := exists_numeral (s ++ buf.drop s.length)
      have hmin := (hn.atoi_ok_iff.1 hv).2.2.1
      omega
    rw [hv, ok_bind, addInt_of_range hl hu, ok_bind]
    simp only [htext (v + 1) hl hu, overwrite_zero]
    rfl

/-- The digits of the old text behind the new one, as atoi will read them. -/
def overlap (s : List Char) (k : Nat) : List Char :=
  (s.drop k ++ ['\x00']).takeWhile Char.isDigit

theorem overlap_eq_nil_iff {s : List Char} {k : Nat} :
    overlap s k = [] ↔ ∀ c, s[k]? = some c → c.isDigit = false := by
  rw [overlap, ← List.head?_drop]
  cases s.drop k with
  | nil => simp
  | cons c l =>
    cases hc : c.isDigit <;> simp [hc]

theorem overlap_of_no_digit {s : List Char} (h : ∀ c ∈ s, c.isDigit = false) (k : Nat) :
    overlap s k = [] :=
  overlap_eq_nil_iff.2 fun c hc => h c (List.mem_of_getElem? hc)

theorem overlap_one (h : Numeral s true ds t) :
    overlap s 1 = ds ∨ overlap s 1 = [] := by
  obtain ⟨lead, hs, hnd, hne⟩ := h.exists_lead
  obtain ⟨c, lead, rfl⟩ := List.exists_cons_of_ne_nil (hne rfl)
  subst hs
  cases lead with
  | nil =>
    left
    have hends : ∀ c ∈ (t ++ ['\x00']).head?, c.isDigit = false := by
      cases t with
      | nil =>
        intro c hc
        cases hc
        rfl
      | cons x t => exact h.ends
    change (ds ++ t ++ ['\x00']).takeWhile Char.isDigit = ds
    rw [List.append_assoc]
    exact takeWhile_isDigit h.digits hends
  | cons d lead =>
    right
    have hd := hnd d (List.mem_cons_of_mem _ List.mem_cons_self)
    exact List.takeWhile_cons_of_neg (by rw [hd]; simp)

theorem atoi_written_iff {i w : Int} (s : List Char) :
    atoi (decimal i ++ s.drop (decimal i).length ++ ['\x00']) = .ok w ↔
      w = signedValue (decide (i < 0))
        (Nat.toDigits 10 i.natAbs ++ overlap s (decimal i).length) ∧
      intMin ≤ w ∧ w ≤ intMax := by
  rw [List.append_assoc, (decimal_numeral i _).atoi_ok_iff]
  have hne : (s.drop (decimal i).length ++ ['\x00']).dropWhile Char.isDigit ≠ [] := by
    rw [Ne, List.dropWhile_eq_nil_iff]
    intro h
    exact absurd (h '\x00' (by simp)) (by decide)
  simp only [ne_eq, hne, not_false_eq_true, true_and, overlap]

/-- A child that has not read the number of the file does not leave its successor there. -/
theorem read_eq_of_written {s r : List Char} (hv : atoi (s ++ ['\x00']) = .ok v)
    (hr : atoi (s ++ r) = .ok u)
    (hw : v + 1 = signedValue (decide (u + 1 < 0))
      (Nat.toDigits 10 (u + 1).natAbs ++ overlap s (decimal (u + 1)).length)) : u = v := by
  obtain ⟨neg, ds, t, h⟩ := exists_numeral s
  obtain ⟨hpos, hneg, hzero⟩ := signedValue_decimal hw
  by_cases hne : ds ++ t ≠ []
  · have hval := h.value hne hv
    by_cases ht : t = []
    · -- the number runs to the end of the file, so that the old bytes of buf can continue it
      subst ht
      rw [List.append_nil] at hne
      have hval' := ((h.extend hne r).atoi_ok_iff.1 hr).2.1
      have hle := ofDigitChars_le_append ds (r.takeWhile Char.isDigit)
      cases neg with
      | false =>
        simp only [signedValue, Bool.false_eq_true, if_false] at hval hval'
        have := (hpos (by omega)).1
        omega
      | true =>
        simp only [signedValue, if_true] at hval hval'
        rcases Int.lt_trichotomy (u + 1) 0 with hi | hi | hi
        · have := (hneg hi).1
          omega
        · -- "-1" has become "0", in which the digits behind it are the zeros of "-0" or none
          have hlen : (decimal (u + 1)).length = 1 := by rw [hi]; rfl
          have hw0 := hzero hi
          rw [hlen] at hw0
          rcases overlap_one h with ho | ho
          · rw [ho] at hw0
            omega
          · rw [ho] at hw0
            simp only [Nat.ofDigitChars_nil] at hw0
            omega
        · omega
    · have hval' := ((h.append ht r).atoi_ok_iff.1 hr).2.1
      rw [hval, hval']
  · rw [overlap_of_no_digit (h.no_digit hne), List.append_nil, signedValue_toDigits] at hw
    omega

theorem overlap_eq_nil_of_written {s : List Char} (hv : atoi (s ++ ['\x00']) = .ok v)
    (hw : v + 1 = signedValue (decide (v + 1 < 0))
      (Nat.toDigits 10 (v + 1).natAbs ++ overlap s (decimal (v + 1)).length)) :
    overlap s (decimal (v + 1)).length = [] := by
  obtain ⟨hpos, hneg, hzero⟩ := signedValue_decimal hw
  by_contra ho
  rcases Int.lt_trichotomy (v + 1) 0 with hi | hi | hi
  · exact absurd ((hneg hi).2 ho) (Int.lt_irrefl _)
  · have hlen : (decimal (v + 1)).length = 1 := by rw [hi]; rfl
    have hw0 := hzero hi
    rw [hlen] at hw0 ho
    obtain ⟨neg, ds, t, h⟩ := exists_numeral s
    by_cases hne : ds ++ t ≠ []
    · have hval := h.value hne hv
      cases neg with
      | false =>
        simp only [signedValue, Bool.false_eq_true, if_false] at hval
        omega
      | true =>
        simp only [signedValue, if_true] at hval
        rw [(overlap_one h).resolve_right ho] at hw0
        omega
    · exact ho (overlap_of_no_digit (h.no_digit hne) 1)
  · exact absurd ((hpos hi).2 ho) (Int.lt_irrefl _)

/-- Neither what the buffer held before nor what the write leaves of the old text may add a
digit. -/
theorem increment_iff (hs : s.length < bufSize) (hb : buf.length = bufSize)
    (hv : atoi (s ++ ['\x00']) = .ok v) (hmax : v < intMax) :
    (∃ f, increment s buf = .ok f ∧ atoi (f ++ ['\x00']) = .ok (v + 1)) ↔
      atoi (s ++ buf.drop s.length) = .ok v ∧
        ∀ c, s[(decimal (v + 1)).length]? = some c → c.isDigit = false := by
  constructor
  · rintro ⟨f, hf, hval⟩
    obtain ⟨u, hu, -, rfl⟩ := (increment_ok_iff hs hb).1 hf
    obtain ⟨hw, -⟩ := (atoi_written_iff s).1 hval
    obtain rfl := read_eq_of_written hv hu hw
    exact ⟨hu, overlap_eq_nil_iff.1 (overlap_eq_nil_of_written hv hw)⟩
  · rintro ⟨hu, ho⟩
    refine ⟨_, (increment_ok_iff hs hb).2 ⟨v, hu, hmax, rfl⟩, (atoi_written_iff s).2 ?_⟩
    obtain ⟨neg, ds, t, hn⟩ := exists_numeral (s ++ ['\x00'])
    have hmin := (hn.atoi_ok_iff.1 hv).2.2.1
    rw [overlap_eq_nil_iff.2 ho, List.append_nil, signedValue_toDigits]
    exact ⟨rfl, by omega, hmax⟩

theorem increment_iff_nine : ∃ f, increment ['9'] nuls = .ok f ∧ atoi (f ++ ['\x00']) = .ok 10 :=
  (increment_iff (s := ['9']) (v := 9) (by decide) List.length_replicate rfl (by decide)).2
    ⟨rfl, fun c hc => (by cases hc)⟩

theorem increment_minus_one : atoi ['-', '1', '\x00'] = .ok (-1) ∧
    increment ['-', '1'] nuls = .ok ['0', '1'] ∧ atoi ['0', '1', '\x00'] = .ok 1 := by
  refine ⟨rfl, (increment_ok_iff (by decide) List.length_replicate).2 ?_, rfl⟩
  exact ⟨-1, rfl, by decide, rfl⟩

end Apue.Flock
