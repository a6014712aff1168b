import Apue.FdTable

namespace Apue.Redirect
set_option autoImplicit true

open FdTable

variable {F : Type} {t : FdTable F} {log null : F} {fd : Nat}

/-- `fileio/dup.c`: the descriptors when puts is called, after an open that has succeeded. -/
def dup (t : FdTable F) (log : F) : FdTable F := (t.close 1).add log

/-- `fileio/dup1.c`, where the result of dup is ignored. -/
def dup1 (t : FdTable F) (log : F) : FdTable F :=
  let fd := t.lowest
  let t := (t.add log).close 1
  let t := match t.dup fd with
    | some (_, t) => t
    | none => t
  t.close fd

def dup2 (t : FdTable F) (log : F) : FdTable F :=
  let fd := t.lowest
  let t := (t.add log).dup2 fd 1
  if fd ≠ 1 then t.close fd else t

theorem dup_of_open (h : t.file 0 ≠ none) : dup t log = t.set 1 (some log) := by
  have hlow : (t.close 1).lowest = 1 := by
    refine lowest_eq file_set_self fun fd hfd => ?_
    rw [Nat.lt_one_iff.mp hfd, close, file_set_of_ne Nat.zero_ne_one]
    exact h
  rw [dup, add, hlow, close, set_set]

theorem dup_of_closed (h : t.file 0 = none) : dup t log = (t.set 1 none).set 0 (some log) := by
  have hlow : (t.close 1).lowest = 0 := by
    refine lowest_eq ?_ fun fd hfd => absurd hfd (Nat.not_lt_zero fd)
    rw [close, file_set_of_ne Nat.zero_ne_one]
    exact h
  rw [dup, add, hlow]
  rfl

theorem lowest_eq_one_iff : t.lowest = 1 ↔ t.file 0 ≠ none ∧ t.file 1 = none := by
  constructor
  · intro h
    exact ⟨file_ne_none_of_lt_lowest (h ▸ Nat.zero_lt_one), h ▸ t.file_lowest⟩
  · rintro ⟨h0, h1⟩
    refine lowest_eq h1 fun fd hfd => ?_
    rw [Nat.lt_one_iff.mp hfd]
    exact h0

theorem close_moved (h : t.lowest ≠ 1) :
    ((t.add log).set 1 (some log)).close t.lowest = t.set 1 (some log) := by
  rw [close, add, set_comm h, set_set, set_comm h.symm, set_eq_self t.file_lowest]

/-- close(1) closes the log itself, and dup fails. -/
theorem dup1_of_lowest (h : t.lowest = 1) : dup1 t log = t := by
  have hclose : (t.add log).close 1 = t := by
    rw [← h]
    exact t.close_add log
  have h1 : t.file 1 = none := h ▸ t.file_lowest
  simp only [dup1, hclose, h, FdTable.dup, h1, Option.map_none]
  exact set_eq_self h1

theorem dup1_of_ne (h : t.lowest ≠ 1) : dup1 t log = t.set 1 (some log) := by
  have hfd : ((t.add log).close 1).file t.lowest = some log := by
    rw [close, file_set_of_ne h, add, file_set_self]
  have hlow : ((t.add log).close 1).lowest = 1 := by
    refine lowest_eq file_set_self fun fd hlt => ?_
    rw [Nat.lt_one_iff.mp hlt, close, file_set_of_ne Nat.zero_ne_one, add]
    by_cases h0 : t.lowest = 0
    · rw [h0, file_set_self]
      exact Option.some_ne_none log
    · rw [file_set_of_ne (Ne.symm h0)]
      exact file_ne_none_of_lt_lowest (Nat.pos_of_ne_zero h0)
  have hdup : ((t.add log).close 1).dup t.lowest = some (1, (t.add log).set 1 (some log)) := by
    rw [FdTable.dup, hfd, Option.map_some, hlow, add, hlow, close, set_set]
  simp only [dup1, hdup]
  exact close_moved h

theorem dup2_eq (t : FdTable F) (log : F) : dup2 t log = t.set 1 (some log) := by
  have hdup : (t.add log).dup2 t.lowest 1 = (t.add log).set 1 (some log) :=
    dup2_of_open file_set_self
  simp only [dup2, hdup]
  by_cases h : t.lowest = 1
  · rw [if_neg (not_not.mpr h), add, h, set_set]
  · rw [if_pos h]
    exact close_moved h

/-- `dup2.c` always puts the log on descriptor 1, `dup1.c` unless 0 is open and 1 is not, `dup.c`
just when 0 is open. -/
theorem redirects (t : FdTable F) (log : F) :
    dup2 t log = t.set 1 (some log) ∧
      (if t.file 0 ≠ none ∧ t.file 1 = none then dup1 t log = t
        else dup1 t log = t.set 1 (some log)) ∧
      (if t.file 0 = none then (dup t log).file 0 = some log ∧ (dup t log).file 1 = none
        else dup t log = t.set 1 (some log)) := by
  refine ⟨dup2_eq t log, ?_, ?_⟩
  · split
    · next h => exact dup1_of_lowest (lowest_eq_one_iff.mpr h)
    · next h => exact dup1_of_ne (mt lowest_eq_one_iff.mp h)
  · split
    · next h =>
      rw [dup_of_closed h, file_set_self, file_set_of_ne Nat.one_ne_zero, file_set_self]
      exact ⟨rfl, rfl⟩
    · next h => exact dup_of_open h

/-- `ps/daemonize.c`: the descriptors of the child when it enters its loop, with what open has
returned. The dup2 calls on -1 change nothing. -/
def daemonize (t : FdTable F) (null : Option F) : FdTable F :=
  match null with
  | none => t
  | some f =>
    let fd := t.lowest
    (((t.add f).dup2 fd 1).dup2 fd 2).dup2 fd 0

theorem daemonize_eq (t : FdTable F) (null : F) : daemonize t (some null) =
    (((t.add null).set 1 (some null)).set 2 (some null)).set 0 (some null) := by
  have hkeep {u : FdTable F} {n : Nat} (h : u.file t.lowest = some null) :
      (u.set n (some null)).file t.lowest = some null := by
    by_cases he : t.lowest = n
    · rw [he, file_set_self]
    · rw [file_set_of_ne he]
      exact h
  have h0 : (t.add null).file t.lowest = some null := file_set_self
  rw [daemonize, dup2_of_open h0, dup2_of_open (hkeep h0), dup2_of_open (hkeep (hkeep h0))]

/-- The daemon has /dev/null on its three standard descriptors, and on one more unless one of them
was closed. -/
theorem daemonize_file (t : FdTable F) (null : F) :
    (daemonize t none = t) ∧
      (∀ fd ≤ 2, (daemonize t (some null)).file fd = some null) ∧
      (∀ fd > 2, (daemonize t (some null)).file fd =
        if fd = t.lowest then some null else t.file fd) ∧
      (t.lowest ≤ 2 ↔ ∃ fd ≤ 2, t.file fd = none) := by
  refine ⟨rfl, ?_, ?_, ?_⟩
  · intro fd hfd
    rw [daemonize_eq]
    obtain rfl | rfl | rfl : fd = 0 ∨ fd = 1 ∨ fd = 2 := by omega
    · rw [file_set_self]
    · rw [file_set_of_ne (by decide), file_set_of_ne (by decide), file_set_self]
    · rw [file_set_of_ne (by decide), file_set_self]
  · intro fd hfd
    rw [daemonize_eq, file_set_of_ne (by omega), file_set_of_ne (by omega),
      file_set_of_ne (by omega), add]
    split
    · next he => rw [he, file_set_self]
    · next hne => exact file_set_of_ne hne
  · constructor
    · intro h
      exact ⟨t.lowest, h, t.file_lowest⟩
    · rintro ⟨fd, hfd, hnone⟩
      by_contra hlt
      exact file_ne_none_of_lt_lowest (by omega) hnone

end Apue.Redirect
