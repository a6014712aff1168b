import Apue.Decimal
import Apue.SharedText

namespace Apue.SharedCount
set_option autoImplicit true
open SharedText

/-- A program that keeps `snprintf(mem, size, "..%d", count)` in shared memory for a growing
count. -/
structure Counter where
  size : Nat
  template : List Char
  first : Nat
  no_nul : nul ∉ template
  room : template.length + 10 < size

/-- `ipc/shm.c`: count is incremented before it is written. -/
def shm : Counter where
  size := 1024
  template := "hello mq ".toList
  first := 1
  no_nul := by decide
  room := by decide

/-- `adio/mmap_share.c`: count is incremented after it has been passed to snprintf. -/
def mmapShare : Counter where
  size := 4096
  template := "hello world, count = ".toList
  first := 0
  no_nul := by decide
  room := by decide

def Counter.text (P : Counter) (k : Nat) : List Char := P.template ++ decimal (P.first + k : Nat)

/-- As many calls as leave count below INT_MAX. -/
def Counter.calls (P : Counter) : Nat := intMax.toNat - P.first

/-- A place of the template holds its character, one of the ten places behind it a digit, and each
of them a NUL otherwise. -/
def Counter.Allowed (P : Counter) (i : Nat) (c : Char) : Prop :=
  c = nul ∨ P.template[i]? = some c ∨
    P.template.length ≤ i ∧ i < P.template.length + 10 ∧ c.isDigit = true

theorem ne_nul_of_isDigit (h : c.isDigit = true) : c ≠ nul := by
  rintro rfl
  cases h

theorem Counter.text_allowed (P : Counter) (hk : k < P.calls) (h : (P.text k)[i]? = some c) :
    P.Allowed i c ∧ c ≠ nul := by
  have hlen : (decimal (P.first + k : Nat)).length ≤ 10 := by
    refine decimal_length_le ?_
    rw [Counter.calls] at hk
    omega
  rcases Nat.lt_or_ge i P.template.length with hlt | hge
  · rw [Counter.text, List.getElem?_append_left hlt] at h
    refine ⟨.inr (.inl h), ?_⟩
    rintro rfl
    exact P.no_nul (List.mem_of_getElem? h)
  · rw [Counter.text, List.getElem?_append_right hge] at h
    have hd := isDigit_of_mem_decimal (List.mem_of_getElem? h)
    obtain ⟨hi, -⟩ := List.getElem?_eq_some_iff.mp h
    exact ⟨.inr (.inr ⟨hge, by omega, hd⟩), ne_nul_of_isDigit hd⟩

def Counter.layout (P : Counter) : Layout P.text P.calls P.size where
  Allowed := P.Allowed
  nul_allowed _ := .inl rfl
  text_allowed := P.text_allowed
  last := P.template.length + 10
  last_lt := P.room
  last_nul := by
    intro c h
    rcases h with h | h | h
    · exact h
    · rw [List.getElem?_eq_none (by omega)] at h
      cases h
    · omega
  stable := P.template.length + 1
  stable_le := by
    intro k _
    have hpos := decimal_length_pos (P.first + k)
    rw [Counter.text, List.length_append]
    omega

/-- The memory is empty in the beginning, or what an earlier run of the same program has left in
it. -/
def Counter.system (P : Counter) : System State := SharedText.system P.text P.calls P.size P.layout

end Apue.SharedCount
