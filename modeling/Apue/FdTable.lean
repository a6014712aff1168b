import Mathlib.Data.Nat.Find
import Mathlib.Logic.Function.Basic

namespace Apue
set_option autoImplicit true

/-- The descriptors of a process: the open file that each of them stands for. From some number on
all are closed. -/
@[ext]
structure FdTable (F : Type u) where
  file : Nat → Option F
  closed : ∃ n, ∀ fd, n ≤ fd → file fd = none

namespace FdTable
variable {F : Type u} {t : FdTable F} {f : F} {fd n m : Nat} {x y : Option F}

theorem exists_closed (t : FdTable F) : ∃ fd, (t.file fd).isNone := by
  obtain ⟨n, hn⟩ := t.closed
  exact ⟨n, by rw [hn n (Nat.le_refl n)]; rfl⟩

/-- The descriptor that open and dup return. -/
def lowest (t : FdTable F) : Nat := Nat.find t.exists_closed

theorem file_lowest (t : FdTable F) : t.file t.lowest = none :=
  Option.isNone_iff_eq_none.mp (Nat.find_spec t.exists_closed)

theorem file_ne_none_of_lt_lowest (h : fd < t.lowest) : t.file fd ≠ none :=
  fun hn => Nat.find_min t.exists_closed h (Option.isNone_iff_eq_none.mpr hn)

theorem lowest_eq (h : t.file n = none) (hlt : ∀ fd < n, t.file fd ≠ none) : t.lowest = n := by
  refine Nat.le_antisymm (Nat.find_min' _ (Option.isNone_iff_eq_none.mpr h)) ?_
  by_contra hc
  exact hlt _ (Nat.lt_of_not_le hc) t.file_lowest

def set (t : FdTable F) (fd : Nat) (x : Option F) : FdTable F where
  file := Function.update t.file fd x
  closed := by
    obtain ⟨n, hn⟩ := t.closed
    refine ⟨n + (fd + 1), fun k hk => ?_⟩
    rw [Function.update_of_ne (by omega)]
    exact hn k (by omega)

@[simp] theorem file_set_self : (t.set fd x).file fd = x := Function.update_self ..

theorem file_set_of_ne (h : n ≠ fd) : (t.set fd x).file n = t.file n := Function.update_of_ne h ..

@[simp] theorem set_set : (t.set fd x).set fd y = t.set fd y :=
  FdTable.ext (Function.update_idem ..)

theorem set_comm (h : n ≠ m) : (t.set n x).set m y = (t.set m y).set n x :=
  FdTable.ext (Function.update_comm h ..)

theorem set_eq_self (h : t.file fd = x) : t.set fd x = t := by
  subst h
  exact FdTable.ext (Function.update_eq_self ..)

/-- close(fd), which fails on a closed descriptor and changes nothing then. -/
def close (t : FdTable F) (fd : Nat) : FdTable F := t.set fd none

def add (t : FdTable F) (f : F) : FdTable F := t.set t.lowest (some f)

/-- dup(fd): the table and the new descriptor, nothing when `fd` is closed. -/
def dup (t : FdTable F) (fd : Nat) : Option (Nat × FdTable F) :=
  (t.file fd).map fun f => (t.lowest, t.add f)

/-- The table after dup2(old, new), which fails when `old` is closed. -/
def dup2 (t : FdTable F) (old new : Nat) : FdTable F :=
  match t.file old with
  | none => t
  | some f => t.set new (some f)

theorem dup2_of_open (h : t.file n = some f) : t.dup2 n m = t.set m (some f) := by
  rw [dup2, h]

theorem close_add (t : FdTable F) (f : F) : (t.add f).close t.lowest = t := by
  rw [add, close, set_set]
  exact set_eq_self t.file_lowest

end FdTable

end Apue
