import Apue.CharPtr
import Apue.Du

namespace Apue.Du.Pointer
set_option autoImplicit true

def strEndsWithLoop (end0 end1 : CharPtr) : Nat → Nat → Except Fault Int
  | _, 0 => .ok 1
  | i, k + 1 => do
    let c ← (end0.add (-i)).deref
    let d ← (end1.add (-i)).deref
    if c ≠ d then .ok 0 else strEndsWithLoop end0 end1 (i + 1) k

/-- For an empty string the end pointer stands before it; the loop then has no turn and reads
nothing. -/
def strEndsWith (src suffix : CharPtr) : Except Fault Int := do
  let len0 ← src.strlen
  let len1 ← suffix.strlen
  if len0 < len1 then .ok 0
  else
    let end0 := (src.add len0).add (-1)
    let end1 := (suffix.add len1).add (-1)
    strEndsWithLoop end0 end1 0 len1

/-- x || y for tests of two results, the second of which is computed only if the first fails. -/
def orTest (test : Int → Bool) (x y : Except Fault Int) : Except Fault Bool := do
  let k ← x
  if test k then .ok true
  else
    let k ← y
    return test k

def slashDot : StoredString := .literal ['/', '.'] (by decide)

def slashDotdot : StoredString := .literal ['/', '.', '.'] (by decide)

/-- str_ends_with(path, "/.") || str_ends_with(path, "/..") -/
def endsSpecial (path : CharPtr) : Except Fault Bool :=
  orTest (· != 0) (strEndsWith path slashDot.ptr) (strEndsWith path slashDotdot.ptr)

/-- strcmp(name, ".") == 0 || strcmp(name, "..") == 0 -/
def isSpecial (name : CharPtr) : Except Fault Bool :=
  orTest (· == 0) (name.strcmp (StoredString.literal dot (by decide)).ptr)
    (name.strcmp (StoredString.literal dotdot (by decide)).ptr)

theorem orTest_eq (hx : x = .ok k) (hy : y = .ok l) (hk : test k = b) (hl : test l = c) :
    orTest test x y = .ok (b || c) := by
  subst hx hy hk hl
  rw [orTest, ok_bind, ok_bind]
  cases test k <;> rfl

/-- The end pointer leaves the array only for an empty string that stands at its start. -/
theorem end_inside_iff (s : StoredString) :
    0 ≤ ((s.ptr.add s.chars.length).add (-1)).index ↔ s.before ≠ [] ∨ s.chars ≠ [] := by
  have hindex : ((s.ptr.add s.chars.length).add (-1)).index =
      (s.before.length : Int) + s.chars.length + -1 := rfl
  rw [hindex, ← List.length_pos_iff, ← List.length_pos_iff]
  omega

theorem deref_end (s : StoredString) (hi : i < s.chars.length) :
    (((s.ptr.add s.chars.length).add (-1)).add (-(i : Int))).deref =
      .ok (s.chars.get ⟨s.chars.length - 1 - i, by omega⟩) := by
  have hindex : (s.chars.length : Int) + (-1 + -(i : Int)) =
      ((s.chars.length - 1 - i : Nat) : Int) := by omega
  rw [CharPtr.add_add, CharPtr.add_add, hindex]
  apply s.deref_add
  exact List.getElem?_eq_getElem _

theorem strEndsWithLoop_eq {src suffix : StoredString}
    (hle : suffix.chars.length ≤ src.chars.length) (h : i + k = suffix.chars.length) :
    strEndsWithLoop ((src.ptr.add src.chars.length).add (-1))
        ((suffix.ptr.add suffix.chars.length).add (-1)) i k =
      .ok (if Du.strEndsWithLoop src.chars suffix.chars i k then 1 else 0) := by
  induction k generalizing i with
  | zero => rfl
  | succ k ih =>
    -- the index stays below the shorter length, so that both pointers are inside their strings
    have hsuffix : i < suffix.chars.length := by omega
    have hsrc : i < src.chars.length := Nat.lt_of_lt_of_le hsuffix hle
    rw [strEndsWithLoop, deref_end src hsrc, ok_bind, deref_end suffix hsuffix, ok_bind,
      Du.strEndsWithLoop, ih (by omega), List.getElem?_eq_getElem (by omega),
      List.getElem?_eq_getElem (by omega)]
    simp only [List.get_eq_getElem, ne_eq, Option.some.injEq]
    split <;> rfl

theorem strEndsWith_eq (src suffix : StoredString) :
    strEndsWith src.ptr suffix.ptr =
      .ok (if Du.strEndsWith src.chars suffix.chars then 1 else 0) := by
  rw [strEndsWith, src.strlen_ptr, ok_bind, suffix.strlen_ptr, ok_bind, Du.strEndsWith]
  by_cases hlt : src.chars.length < suffix.chars.length
  · rw [if_pos hlt, if_pos hlt]
    rfl
  · rw [if_neg hlt, if_neg hlt]
    exact strEndsWithLoop_eq (Nat.not_lt.1 hlt) (Nat.zero_add _)

theorem endsSpecial_eq (path : StoredString) :
    endsSpecial path.ptr = .ok (Du.endsSpecial path.chars) := by
  have htest : ∀ b : Bool, ((if b then (1 : Int) else 0) != 0) = b := by decide
  rw [endsSpecial, Du.endsSpecial]
  exact orTest_eq (strEndsWith_eq path slashDot) (strEndsWith_eq path slashDotdot) (htest _)
    (htest _)

theorem isSpecial_eq (name : StoredString) :
    isSpecial name.ptr = .ok (Du.isSpecial name.chars) := by
  have htest {k : Int} {d : List Char} (h : k = 0 ↔ name.chars = d) :
      (k == 0) = (name.chars == d) := by
    rw [Bool.eq_iff_iff, beq_iff_eq, beq_iff_eq, h]
  obtain ⟨k, hk, hdot⟩ := name.strcmp_ptr (.literal dot (by decide))
  obtain ⟨l, hl, hdotdot⟩ := name.strcmp_ptr (.literal dotdot (by decide))
  exact orTest_eq hk hl (htest hdot) (htest hdotdot)

/-- The tests of the two traversals agree on every entry of a directory, and skip the two special
directories only. -/
theorem skip_tests_agree :
    (∀ src suffix : StoredString,
      (strEndsWith src.ptr suffix.ptr = .ok 1 ↔ ∃ p, src.chars = p ++ suffix.chars) ∧
        (strEndsWith src.ptr suffix.ptr = .ok 0 ↔ ¬∃ p, src.chars = p ++ suffix.chars)) ∧
      ∀ (path : List Char) (entry name : StoredString),
        entry.chars = path ++ '/' :: name.chars → '/' ∉ name.chars →
        endsSpecial entry.ptr = isSpecial name.ptr ∧
          isSpecial name.ptr = .ok (decide (name.chars = dot ∨ name.chars = dotdot)) := by
  constructor
  · intro src suffix
    have hsuffix : Du.strEndsWith src.chars suffix.chars = true ↔
        ∃ p, src.chars = p ++ suffix.chars :=
      strEndsWith_iff_suffix.trans (exists_congr fun p => eq_comm)
    rw [← hsuffix, strEndsWith_eq]
    cases Du.strEndsWith src.chars suffix.chars <;> decide
  · intro path entry name hentry hname
    constructor
    · rw [endsSpecial_eq, isSpecial_eq, hentry, endsSpecial_child path hname]
    · rw [isSpecial_eq, Du.isSpecial, Bool.decide_or, beq_eq_decide, beq_eq_decide]

/-- The entries a., ... and .x of a directory d are visited, and .. is not. -/
theorem skip_tests_agree_dots :
    endsSpecial (StoredString.literal ['d', '/', 'a', '.'] (by decide)).ptr = .ok false ∧
      endsSpecial (StoredString.literal ['d', '/', '.', '.', '.'] (by decide)).ptr = .ok false ∧
      endsSpecial (StoredString.literal ['d', '/', '.', 'x'] (by decide)).ptr = .ok false ∧
      endsSpecial (StoredString.literal ['d', '/', '.', '.'] (by decide)).ptr = .ok true := by
  have hskip (n : List Char) (hn : nul ∉ n) (hd : nul ∉ 'd' :: '/' :: n) (h : '/' ∉ n) :
      endsSpecial (StoredString.literal ('d' :: '/' :: n) hd).ptr =
        .ok (decide (n = dot ∨ n = dotdot)) := by
    obtain ⟨hagree, hspecial⟩ := skip_tests_agree.2 ['d'] (.literal ('d' :: '/' :: n) hd)
      (.literal n hn) rfl h
    exact hagree.trans hspecial
  refine ⟨?_, ?_, ?_, ?_⟩
  · exact hskip ['a', '.'] (by decide) (by decide) (by decide)
  · exact hskip ['.', '.', '.'] (by decide) (by decide) (by decide)
  · exact hskip ['.', 'x'] (by decide) (by decide) (by decide)
  · exact hskip dotdot (by decide) (by decide) (by decide)

end Apue.Du.Pointer
