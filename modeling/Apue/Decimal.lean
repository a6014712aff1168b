import Apue.Memory

namespace Apue
set_option autoImplicit true

def isspace (c : Char) : Bool :=
  c == ' ' || c == '\t' || c == '\n' || c == '\x0b' || c == '\x0c' || c == '\r'

def signed : List Char → Bool × List Char
  | '-' :: l => (true, l)
  | '+' :: l => (false, l)
  | l => (false, l)

/-- Undefined where the digits run to the end of the buffer, and where the value is not in the range
of int. -/
def atoi (buf : List Char) : Except Fault Int :=
  let l := signed (buf.dropWhile isspace)
  let n := Nat.ofDigitChars 10 (l.2.takeWhile Char.isDigit) 0
  let v : Int := if l.1 then -n else n
  if l.2.dropWhile Char.isDigit = [] then .error .bounds
  else if intMin ≤ v ∧ v ≤ intMax then .ok v
  else .error .overflow

/-- The text that %d prints. -/
def decimal : Int → List Char
  | .ofNat n => Nat.toDigits 10 n
  | .negSucc n => '-' :: Nat.toDigits 10 (n + 1)

/-- Replace what stands at an offset. A gap before it is filled with NUL. -/
def overwrite (l : List Char) (off : Nat) (data : List Char) : List Char :=
  l.take off ++ List.replicate (off - l.length) '\x00' ++ data ++ l.drop (off + data.length)

/-- snprintf(buf, size, "%d", i) on a buffer of size bytes: the buffer and the result. -/
def snprintf (buf : List Char) (i : Int) : List Char × Nat :=
  (overwrite buf 0 ((decimal i).take (buf.length - 1) ++ ['\x00']), (decimal i).length)

theorem overwrite_zero (l data : List Char) : overwrite l 0 data = data ++ l.drop data.length := by
  simp [overwrite]

theorem decimal_length_pos (n : Nat) : 0 < (decimal n).length := Nat.length_toDigits_pos

theorem isDigit_of_mem_decimal {n : Nat} (h : c ∈ decimal n) : c.isDigit = true :=
  Nat.isDigit_of_mem_toDigits (by decide) (by decide) h

theorem decimal_length_mono {m n : Nat} (h : m ≤ n) : (decimal m).length ≤ (decimal n).length :=
  (Nat.length_toDigits_le_iff (by decide) Nat.length_toDigits_pos).2
    (Nat.lt_of_le_of_lt h
      ((Nat.length_toDigits_le_iff (by decide) Nat.length_toDigits_pos).1 (Nat.le_refl _)))

theorem decimal_length_le {n : Nat} (h : (n : Int) ≤ intMax) : (decimal n).length ≤ 10 := by
  refine (Nat.length_toDigits_le_iff (by decide) (by decide)).2 ?_
  have hn : n ≤ 2147483647 := by
    simp only [intMax] at h
    omega
  exact Nat.lt_of_le_of_lt hn (by decide)

theorem isspace_of_isDigit (h : c.isDigit = true) : isspace c = false := by
  simp only [Char.isDigit, Bool.and_eq_true, decide_eq_true_eq] at h
  simp only [isspace, Bool.or_eq_false_iff, beq_eq_false_iff_ne, ne_eq]
  refine ⟨⟨⟨⟨⟨?_, ?_⟩, ?_⟩, ?_⟩, ?_⟩, ?_⟩
  all_goals
    rintro rfl
    exact absurd h.1 (by decide)

theorem signed_of_isDigit (h : c.isDigit = true) : signed (c :: l) = (false, c :: l) := by
  unfold signed
  split
  · next he =>
    cases he
    cases h
  · next he =>
    cases he
    cases h
  · rfl

theorem atoi_digits {ds : List Char} (hds : ∀ c ∈ ds, c.isDigit = true) (hne : ds ≠ [])
    (hx : x.isDigit = false) (hr : (Nat.ofDigitChars 10 ds 0 : Int) ≤ intMax) :
    atoi (ds ++ x :: l) = .ok (Nat.ofDigitChars 10 ds 0) := by
  obtain ⟨c, r, rfl⟩ := List.exists_cons_of_ne_nil hne
  have hc := hds c List.mem_cons_self
  have hdrop : (c :: r ++ x :: l).dropWhile isspace = c :: r ++ x :: l := by
    rw [List.cons_append, List.dropWhile_cons_of_neg]
    rw [isspace_of_isDigit hc]
    simp
  have htake : (c :: r ++ x :: l).takeWhile Char.isDigit = c :: r := by
    rw [List.takeWhile_append_of_pos hds, List.takeWhile_cons_of_neg (by rw [hx]; simp),
      List.append_nil]
  have hend : (c :: r ++ x :: l).dropWhile Char.isDigit = x :: l := by
    rw [List.dropWhile_append_of_pos hds, List.dropWhile_cons_of_neg (by rw [hx]; simp)]
  have hsigned : signed (c :: r ++ x :: l) = (false, c :: r ++ x :: l) := signed_of_isDigit hc
  simp only [atoi, hdrop, hsigned, htake, hend]
  rw [if_neg (by simp), if_pos]
  · rfl
  · have hmin : intMin ≤ 0 := by decide
    exact ⟨Int.le_trans hmin (Int.natCast_nonneg _), hr⟩

theorem atoi_decimal {n : Nat} (h : (n : Int) ≤ intMax) (l : List Char) :
    atoi (decimal n ++ '\x00' :: l) = .ok n := by
  have hv : Nat.ofDigitChars 10 (decimal n) 0 = n := Nat.ofDigitChars_ten_toDigits
  have hne : decimal n ≠ [] := List.ne_nil_of_length_pos (decimal_length_pos n)
  rw [atoi_digits (fun c => isDigit_of_mem_decimal) hne (by decide) (by rw [hv]; exact h), hv]

theorem atoi_nul (l : List Char) : atoi ('\x00' :: l) = .ok 0 := by
  have hspace : ('\x00' :: l).dropWhile isspace = '\x00' :: l :=
    List.dropWhile_cons_of_neg (by decide)
  have hdigit : ('\x00' :: l).dropWhile Char.isDigit = '\x00' :: l :=
    List.dropWhile_cons_of_neg (by decide)
  have hnone : ('\x00' :: l).takeWhile Char.isDigit = [] :=
    List.takeWhile_cons_of_neg (by decide)
  have hsigned : signed ('\x00' :: l) = (false, '\x00' :: l) := rfl
  simp only [atoi, hspace, hsigned, hdigit, hnone]
  rw [if_neg (by simp)]
  rfl

theorem snprintf_take (h : (decimal i).length < buf.length) :
    (snprintf buf i).1.take (snprintf buf i).2 = decimal i := by
  have htext : (decimal i).take (buf.length - 1) = decimal i :=
    List.take_of_length_le (by omega)
  simp only [snprintf, overwrite_zero, htext, List.append_assoc]
  exact List.take_left

end Apue
