import Apue.Decimal
import Mathlib.Data.List.Infix

namespace Apue.Glob
set_option autoImplicit true

/-- A piece of a pattern: an asterisk, a character that stands for itself, or one of a set. -/
inductive Piece where
  | star
  | lit (c : Char)
  | one (p : Char → Bool)

def classes : List (List Char × (Char → Bool)) :=
  [(['a', 'l', 'n', 'u', 'm'], Char.isAlphanum),
   (['a', 'l', 'p', 'h', 'a'], Char.isAlpha),
   (['b', 'l', 'a', 'n', 'k'], fun c => c == ' ' || c == '\t'),
   (['c', 'n', 't', 'r', 'l'], fun c => c.toNat < 32 || c.toNat == 127),
   (['d', 'i', 'g', 'i', 't'], Char.isDigit),
   (['g', 'r', 'a', 'p', 'h'], fun c => 32 < c.toNat && c.toNat < 127),
   (['l', 'o', 'w', 'e', 'r'], Char.isLower),
   (['p', 'r', 'i', 'n', 't'], fun c => 32 ≤ c.toNat && c.toNat < 127),
   (['p', 'u', 'n', 'c', 't'], fun c => 32 < c.toNat && c.toNat < 127 && !c.isAlphanum),
   (['s', 'p', 'a', 'c', 'e'], isspace),
   (['u', 'p', 'p', 'e', 'r'], Char.isUpper),
   (['x', 'd', 'i', 'g', 'i', 't'], fun c =>
     c.isDigit || ('a' ≤ c && c ≤ 'f') || ('A' ≤ c && c ≤ 'F'))]

def endpoint : List Char → Option (Char × List Char)
  | '\\' :: c :: l => some (c, l)
  | '[' :: '.' :: c :: '.' :: ']' :: l => some (c, l)
  | c :: l => some (c, l)
  | [] => none

def item (l : List Char) : Option ((Char → Bool) × List Char) :=
  let single := (endpoint l).bind fun (lo, r) =>
    match r with
    | '-' :: ']' :: _ => some ((· == lo), r)
    | '-' :: h => (endpoint h).map fun (hi, r) => (fun c => lo ≤ c && c ≤ hi, r)
    | _ => some ((· == lo), r)
  match l with
  | '[' :: ':' :: r =>
    match classes.lookup (r.takeWhile (· != ':')), r.dropWhile (· != ':') with
    | some p, ':' :: ']' :: r => some (p, r)
    | _, _ => single
  | '[' :: '=' :: c :: '=' :: ']' :: r => some ((· == c), r)
  | _ => single

/-- What stands in a bracket expression up to the bracket that ends it. A right bracket at its
beginning is one of its characters. -/
def items : Nat → Bool → List Char → Option ((Char → Bool) × List Char)
  | 0, _, _ => none
  | fuel + 1, first, l =>
    match first, l with
    | false, ']' :: r => some (fun _ => false, r)
    | _, _ => do
      let (p, r) ← item l
      let (q, r) ← items fuel false r
      return (fun c => p c || q c, r)

/-- The set that a bracket expression stands for, behind its left bracket. -/
def bracket : List Char → Option ((Char → Bool) × List Char)
  | '!' :: l => (items (l.length + 1) true l).map fun (p, r) => (fun c => !p c, r)
  | '^' :: l => (items (l.length + 1) true l).map fun (p, r) => (fun c => !p c, r)
  | l => items (l.length + 1) true l

/-- A left bracket without a right one stands for itself. A backslash that ends the pattern escapes
the slash behind it. -/
def parse : Nat → List Char → List Piece
  | 0, _ => []
  | _ + 1, [] => []
  | fuel + 1, '*' :: l => .star :: parse fuel l
  | fuel + 1, '?' :: l => .one (fun _ => true) :: parse fuel l
  | fuel + 1, '[' :: l =>
    match bracket l with
    | some (p, r) => .one p :: parse fuel r
    | none => .lit '[' :: parse fuel l
  | _ + 1, ['\\'] => []
  | fuel + 1, '\\' :: c :: l => .lit c :: parse fuel l
  | fuel + 1, c :: l => .lit c :: parse fuel l

def pieces (pattern : List Char) : List Piece := parse pattern.length pattern

def matchPieces : List Piece → List Char → Bool
  | [], s => s.isEmpty
  | .star :: ps, s => s.tails.any (matchPieces ps)
  | .lit d :: ps, c :: s => c == d && matchPieces ps s
  | .one p :: ps, c :: s => p c && matchPieces ps s
  | _ :: _, [] => false

/-- A period at the beginning of a name is matched by a period of the pattern only. -/
def leadingPeriod : List Piece → List Char → Bool
  | .lit '.' :: _, '.' :: _ => true
  | _, '.' :: _ => false
  | _, _ => true

/-- Whether a name without slashes matches one component of a pattern. -/
def fnmatch (pattern name : List Char) : Bool :=
  leadingPeriod (pieces pattern) name && matchPieces (pieces pattern) name

example : fnmatch ['[', '!', 'a', '-', 'c', ']', '?'] ['d', 'x'] = true := by decide
example : fnmatch ['[', ']', '-', ']', '*'] ['-'] = true := by decide
example : fnmatch ['[', '[', ':', 'd', 'i', 'g', 'i', 't', ':', ']', ']'] ['7'] = true := by decide

def hidden (name : List Char) : Bool := name.head? == some '.'

theorem matchPieces_star (s : List Char) : matchPieces [.star] s = true := by
  simp only [matchPieces, List.any_eq_true]
  exact ⟨[], (List.mem_tails _ _).2 List.nil_suffix, rfl⟩

theorem fnmatch_star (name : List Char) : fnmatch ['*'] name = !hidden name := by
  have hp : pieces ['*'] = [.star] := rfl
  rw [fnmatch, hp, matchPieces_star, Bool.and_true]
  cases name with
  | nil => rfl
  | cons c s =>
    by_cases hc : c = '.'
    · subst hc
      rfl
    · simp [leadingPeriod, hidden, hc]

theorem fnmatch_period_star (name : List Char) : fnmatch ['.', '*'] name = hidden name := by
  have hp : pieces ['.', '*'] = [.lit '.', .star] := rfl
  rw [fnmatch, hp]
  cases name with
  | nil => rfl
  | cons c s =>
    by_cases hc : c = '.'
    · subst hc
      simp [leadingPeriod, hidden, matchPieces]
    · have hne : (c == '.') = false := beq_false_of_ne hc
      simp [hidden, matchPieces, hne]

def special (c : Char) : Bool := c == '*' || c == '?' || c == '[' || c == '\\'

theorem parse_plain (h : ∀ c ∈ l, special c = false) (hf : l.length ≤ fuel) :
    parse fuel l = l.map .lit := by
  induction l generalizing fuel with
  | nil => cases fuel <;> rfl
  | cons c l ih =>
    cases fuel with
    | zero => cases hf
    | succ fuel =>
      have hc := h c List.mem_cons_self
      simp only [special, Bool.or_eq_false_iff, beq_eq_false_iff_ne] at hc
      rw [List.map_cons, ← ih (fun d hd => h d (List.mem_cons_of_mem _ hd))
        (Nat.le_of_succ_le_succ hf)]
      simp [parse, hc]

theorem matchPieces_lits : matchPieces (l.map .lit) s = true ↔ l = s := by
  induction l generalizing s with
  | nil => cases s <;> simp [matchPieces]
  | cons d l ih =>
    cases s with
    | nil => simp [matchPieces]
    | cons c s =>
      rw [List.map_cons, matchPieces, Bool.and_eq_true, beq_iff_eq, ih, List.cons.injEq,
        eq_comm]

theorem fnmatch_plain (h : ∀ c ∈ l, special c = false) : fnmatch l s = true ↔ l = s := by
  rw [fnmatch, pieces, parse_plain h (Nat.le_refl _), Bool.and_eq_true, matchPieces_lits]
  constructor
  · rintro ⟨-, hs⟩
    exact hs
  · rintro rfl
    refine ⟨?_, rfl⟩
    cases l with
    | nil => rfl
    | cons c l =>
      by_cases hc : c = '.'
      · subst hc
        rfl
      · simp [leadingPeriod, hc]

end Apue.Glob
