import Apue.Memory

namespace Apue
set_option autoImplicit true

/-- A pointer to const char: an array and an index, which may lie outside of the array as long as
nothing is read there. -/
structure CharPtr where
  array : List Char
  index : Int

namespace CharPtr

def add (p : CharPtr) (k : Int) : CharPtr := { p with index := p.index + k }

def rest (p : CharPtr) : Except Fault (List Char) :=
  if 0 ≤ p.index then .ok (p.array.drop p.index.toNat) else .error .bounds

def deref (p : CharPtr) : Except Fault Char :=
  match p.rest with
  | .ok (c :: _) => .ok c
  | _ => .error .bounds

def strlen (p : CharPtr) : Except Fault Nat := do
  let s ← p.rest >>= cString
  return s.length

/-- Two arrays up to the first difference or the common NUL. -/
def compareChars : List Char → List Char → Except Fault Int
  | c :: s, d :: t =>
    if c ≠ d then .ok (c.toNat - d.toNat)
    else if c = nul then .ok 0
    else compareChars s t
  | _, _ => .error .bounds

def strcmp (p q : CharPtr) : Except Fault Int := do
  let s ← p.rest
  let t ← q.rest
  compareChars s t

theorem add_add (p : CharPtr) (a b : Int) : (p.add a).add b = p.add (a + b) := by
  rw [add, add, add, Int.add_assoc]

end CharPtr

/-- A string with its NUL somewhere in an array. -/
structure StoredString where
  before : List Char
  chars : List Char
  behind : List Char
  no_nul : nul ∉ chars

namespace StoredString
variable (s t : StoredString)

def ptr : CharPtr := ⟨s.before ++ (s.chars ++ nul :: s.behind), s.before.length⟩

def literal (l : List Char) (h : nul ∉ l) : StoredString := ⟨[], l, [], h⟩

theorem rest_add (k : Nat) :
    (s.ptr.add k).rest = .ok ((s.chars ++ nul :: s.behind).drop k) := by
  have hindex : (s.ptr.add k).index = ((s.before.length + k : Nat) : Int) := rfl
  have harray : (s.ptr.add k).array = s.before ++ (s.chars ++ nul :: s.behind) := rfl
  rw [CharPtr.rest, hindex, harray, if_pos (Int.natCast_nonneg _), Int.toNat_natCast,
    List.drop_length_add_append]

theorem rest_ptr : s.ptr.rest = .ok (s.chars ++ nul :: s.behind) := s.rest_add 0

theorem deref_add {k : Nat} (h : s.chars[k]? = some c) : (s.ptr.add k).deref = .ok c := by
  obtain ⟨hk, rfl⟩ := List.getElem?_eq_some_iff.1 h
  have hlt : k < (s.chars ++ nul :: s.behind).length := by
    rw [List.length_append]
    exact Nat.lt_add_right _ hk
  rw [CharPtr.deref, s.rest_add k, List.drop_eq_getElem_cons hlt, List.getElem_append_left hk]

theorem strlen_ptr : s.ptr.strlen = .ok s.chars.length := by
  rw [CharPtr.strlen, s.rest_ptr, ok_bind, cString_append s.no_nul, cString, if_pos rfl]
  simp only [Except.map, List.append_nil]
  rfl

end StoredString

theorem CharPtr.compareChars_nul {s t : List Char} (hs : nul ∉ s) (ht : nul ∉ t)
    (u v : List Char) :
    ∃ k, compareChars (s ++ nul :: u) (t ++ nul :: v) = .ok k ∧ (k = 0 ↔ s = t) := by
  have hne : ∀ {c d : Char}, c ≠ d → (c.toNat : Int) - d.toNat ≠ 0 := by
    intro c d hcd h
    exact hcd (Char.toNat_inj.1 (by omega))
  induction s generalizing t with
  | nil =>
    cases t with
    | nil => exact ⟨0, rfl, iff_of_true rfl rfl⟩
    | cons d t =>
      have hd : nul ≠ d := fun h => ht (h ▸ List.mem_cons_self)
      refine ⟨nul.toNat - d.toNat, if_pos hd, iff_of_false (hne hd) ?_⟩
      exact (List.cons_ne_nil d t).symm
  | cons c s ih =>
    have hc : c ≠ nul := fun h => hs (h ▸ List.mem_cons_self)
    cases t with
    | nil => exact ⟨c.toNat - nul.toNat, if_pos hc, iff_of_false (hne hc) (List.cons_ne_nil c s)⟩
    | cons d t =>
      by_cases hcd : c = d
      · subst hcd
        obtain ⟨k, hk, hzero⟩ := ih (fun h => hs (List.mem_cons_of_mem c h))
          (fun h => ht (List.mem_cons_of_mem c h))
        refine ⟨k, ?_, ?_⟩
        · rw [List.cons_append, List.cons_append, compareChars, if_neg (not_not.2 rfl), if_neg hc,
            hk]
        · rw [hzero, List.cons.injEq, and_iff_right rfl]
      · refine ⟨c.toNat - d.toNat, if_pos hcd, iff_of_false (hne hcd) ?_⟩
        intro h
        exact hcd (List.cons.inj h).1

theorem StoredString.strcmp_ptr (s t : StoredString) :
    ∃ k, CharPtr.strcmp s.ptr t.ptr = .ok k ∧ (k = 0 ↔ s.chars = t.chars) := by
  rw [CharPtr.strcmp, s.rest_ptr, t.rest_ptr]
  exact CharPtr.compareChars_nul s.no_nul t.no_nul s.behind t.behind

end Apue
