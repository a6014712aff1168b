import Mathlib.Data.List.Basic
import Mathlib.Data.List.TakeWhile

namespace Apue
set_option autoImplicit true

def eof : Int := -1

/-- Conversion to a char that is signed. -/
def toChar (i : Int) : Int := (i + 128) % 256 - 128

def fgetc : List UInt8 → Int × List UInt8
  | [] => (eof, [])
  | b :: l => (b.toNat, l)

/-- fputc writes its argument as an unsigned char. -/
def fputc (c : Int) (f : List UInt8) : List UInt8 := f ++ [UInt8.ofNat (c % 256).toNat]

theorem fgetc_length (h : (fgetc l).1 ≠ eof) : (fgetc l).2.length < l.length := by
  cases l with
  | nil => exact absurd rfl h
  | cons b l => exact Nat.lt_succ_self _

/-- while (1) { char c = fgetc(src); if (c == EOF) break; fputc(c, dst); } -/
def copyChars (src dst : List UInt8) : List UInt8 :=
  let c := toChar (fgetc src).1
  if c = eof then dst else copyChars (fgetc src).2 (fputc c dst)
termination_by src.length
decreasing_by
  apply fgetc_length
  intro he
  rename_i hc
  exact hc (congrArg toChar he)

/-- As a signed char, the byte 0xff is EOF. -/
theorem toChar_toNat_eq_eof {b : UInt8} : toChar b.toNat = eof ↔ b = 255 := by
  have hb := b.toNat_lt
  rw [← UInt8.toNat_inj]
  simp only [toChar, eof, UInt8.toNat_ofNat]
  omega

theorem fputc_toChar (b : UInt8) (f : List UInt8) : fputc (toChar b.toNat) f = f ++ [b] := by
  have hb := b.toNat_lt
  have hn : (toChar b.toNat % 256).toNat = b.toNat := by
    simp only [toChar]
    omega
  rw [fputc, hn, UInt8.ofNat_toNat]

theorem copyChars_nil (dst : List UInt8) : copyChars [] dst = dst := by
  rw [copyChars]
  exact if_pos rfl

theorem copyChars_cons (b : UInt8) (l dst : List UInt8) :
    copyChars (b :: l) dst = if b = 255 then dst else copyChars l (dst ++ [b]) := by
  rw [copyChars]
  simp only [fgetc, toChar_toNat_eq_eof, fputc_toChar]

theorem copyChars_eq (src dst : List UInt8) :
    copyChars src dst = dst ++ src.takeWhile (· ≠ 255) := by
  induction src generalizing dst with
  | nil => rw [copyChars_nil, List.takeWhile_nil, List.append_nil]
  | cons b l ih =>
    rw [copyChars_cons]
    by_cases hb : b = 255
    · rw [if_pos hb, List.takeWhile_cons_of_neg (by simp [hb]), List.append_nil]
    · rw [if_neg hb, ih, List.takeWhile_cons_of_pos (by simp [hb]), List.append_assoc]
      rfl

theorem copyChars_eq_self_iff {src : List UInt8} : copyChars src [] = src ↔ 255 ∉ src := by
  rw [copyChars_eq, List.nil_append, List.takeWhile_eq_self_iff]
  constructor
  · intro h hm
    exact absurd (h _ hm) (by decide)
  · intro h b hb
    have hne : b ≠ 255 := fun he => h (he ▸ hb)
    exact decide_eq_true hne

/-- The lines of a text, each with the newline that ends it. -/
def linesOf [DecidableEq α] (nl : α) : List α → List (List α)
  | [] => []
  | b :: l =>
    if b = nl then [b] :: linesOf nl l
    else
      match linesOf nl l with
      | [] => [[b]]
      | x :: xs => (b :: x) :: xs

/-- A text without its line number `n`, counted from 1. -/
def withoutLine [DecidableEq α] (nl : α) (n : Nat) (l : List α) : List α :=
  ((linesOf nl l).eraseIdx (n - 1)).flatten

theorem flatten_linesOf [DecidableEq α] (nl : α) (l : List α) : (linesOf nl l).flatten = l := by
  induction l with
  | nil => rfl
  | cons b l ih =>
    rw [linesOf]
    split
    · rw [List.flatten_cons, ih]
      rfl
    · cases hl : linesOf nl l with
      | nil =>
        rw [hl] at ih
        rw [← ih]
        rfl
      | cons x xs =>
        rw [hl] at ih
        rw [← ih]
        rfl

theorem withoutLine_of_length_lt [DecidableEq α] {nl : α} {n : Nat} {l : List α}
    (h : (linesOf nl l).length < n) : withoutLine nl n l = l := by
  have hle : (linesOf nl l).length ≤ n - 1 := Nat.le_sub_one_of_lt h
  rw [withoutLine, List.eraseIdx_of_length_le hle, flatten_linesOf]

theorem withoutLine_one_nl [DecidableEq α] (nl : α) (l : List α) :
    withoutLine nl 1 (nl :: l) = l := by
  rw [withoutLine, linesOf, if_pos rfl, Nat.sub_self, List.eraseIdx_cons_zero, flatten_linesOf]

theorem withoutLine_one_cons [DecidableEq α] {nl b : α} (l : List α) (hb : b ≠ nl) :
    withoutLine nl 1 (b :: l) = withoutLine nl 1 l := by
  simp only [withoutLine, linesOf, if_neg hb, Nat.sub_self]
  cases linesOf nl l <;> rfl

theorem withoutLine_succ_nl [DecidableEq α] (nl : α) (n : Nat) (l : List α) :
    withoutLine nl (n + 2) (nl :: l) = nl :: withoutLine nl (n + 1) l := by
  rw [withoutLine, linesOf, if_pos rfl]
  rfl

theorem withoutLine_succ_cons [DecidableEq α] {nl b : α} (n : Nat) (l : List α) (hb : b ≠ nl) :
    withoutLine nl (n + 2) (b :: l) = b :: withoutLine nl (n + 2) l := by
  simp only [withoutLine, linesOf, if_neg hb]
  cases linesOf nl l <;> rfl

end Apue
