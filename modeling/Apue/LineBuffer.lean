import Apue.CharStream
import Mathlib.Algebra.Ring.Nat
import Apue.Memory
import Mathlib.Data.List.TakeWhile

namespace Apue
set_option autoImplicit true

open scoped List

/-- The bytes up to a newline, which is one of them, but `n` at most, and those that follow. -/
def takeLine : Nat → List UInt8 → List UInt8 × List UInt8
  | 0, l => ([], l)
  | _ + 1, [] => ([], [])
  | n + 1, b :: l =>
    if b = 10 then ([b], l) else (b :: (takeLine n l).1, (takeLine n l).2)

/-- The string that starts with an array. -/
def cBytes (b : List UInt8) : Except Fault (List UInt8) :=
  if 0 ∈ b then .ok (b.takeWhile (· ≠ 0)) else .error .bounds

structure LineBuffer (n : Nat) where
  bytes : List UInt8
  size : bytes.length = n + 2

theorem takeLine_append (n : Nat) (l : List UInt8) : (takeLine n l).1 ++ (takeLine n l).2 = l := by
  induction n generalizing l with
  | zero => rfl
  | succ n ih =>
    cases l with
    | nil => rfl
    | cons b l =>
      rw [takeLine]
      split
      · rfl
      · rw [List.cons_append, ih]

theorem takeLine_length (n : Nat) (l : List UInt8) : (takeLine n l).1.length ≤ n := by
  induction n generalizing l with
  | zero => exact Nat.le_refl 0
  | succ n ih =>
    cases l with
    | nil => exact Nat.zero_le _
    | cons b l =>
      rw [takeLine]
      split
      · exact Nat.succ_le_succ (Nat.zero_le n)
      · exact Nat.succ_le_succ (ih l)

theorem takeLine_ne_nil (n : Nat) (h : l ≠ []) : (takeLine (n + 1) l).1 ≠ [] := by
  obtain ⟨b, l, rfl⟩ := List.exists_cons_of_ne_nil h
  rw [takeLine]
  split
  · exact List.cons_ne_nil _ _
  · exact List.cons_ne_nil _ _

theorem takeLine_lt (n : Nat) (h : l ≠ []) : (takeLine (n + 1) l).2.length < l.length := by
  have hlen := congrArg List.length (takeLine_append (n + 1) l)
  have hpos := List.length_pos_of_ne_nil (takeLine_ne_nil n h)
  rw [List.length_append] at hlen
  omega

theorem takeLine_nil (n : Nat) : takeLine n [] = ([], []) := by
  cases n with
  | zero => rfl
  | succ n => rfl

theorem linesOf_eq_nil {l : List UInt8} (h : linesOf 10 l = []) : l = [] := by
  rw [← flatten_linesOf 10 l, h]
  rfl

theorem takeLine_eq (n : Nat) {l : List UInt8} (h : linesOf 10 l = x :: xs) :
    takeLine n l = (x.take n, x.drop n ++ xs.flatten) := by
  induction n generalizing l x with
  | zero =>
    rw [List.take_zero, List.drop_zero, ← List.flatten_cons, ← h, flatten_linesOf]
    rfl
  | succ n ih =>
    cases l with
    | nil => cases h
    | cons b l =>
      rw [linesOf] at h
      rw [takeLine]
      by_cases hb : b = 10
      · rw [if_pos hb] at h ⊢
        cases h
        rw [flatten_linesOf, List.take_succ_cons, List.take_nil, List.drop_succ_cons,
          List.drop_nil]
        rfl
      · rw [if_neg hb] at h ⊢
        cases hl : linesOf 10 l with
        | nil =>
          rw [hl] at h
          cases h
          rw [linesOf_eq_nil hl, takeLine_nil, List.take_succ_cons, List.take_nil,
            List.drop_succ_cons, List.drop_nil]
          rfl
        | cons y ys =>
          rw [hl] at h
          cases h
          rw [ih hl, List.take_succ_cons, List.drop_succ_cons]

theorem linesOf_head_ne_nil {l : List UInt8} (h : linesOf 10 l = x :: xs) : x ≠ [] := by
  cases l with
  | nil => cases h
  | cons b l =>
    rw [linesOf] at h
    split at h
    · cases h
      exact List.cons_ne_nil _ _
    · split at h
      · cases h
        exact List.cons_ne_nil _ _
      · cases h
        exact List.cons_ne_nil _ _

theorem linesOf_drop {l : List UInt8} (h : linesOf 10 l = x :: xs) (hk : k ≤ x.length) :
    linesOf 10 (x.drop k ++ xs.flatten) = if k < x.length then x.drop k :: xs else xs := by
  induction k generalizing l x with
  | zero =>
    rw [List.drop_zero, ← List.flatten_cons, ← h, flatten_linesOf, h,
      if_pos (List.length_pos_of_ne_nil (linesOf_head_ne_nil h))]
  | succ k ih =>
    cases l with
    | nil => cases h
    | cons b l =>
      rw [linesOf] at h
      by_cases hb : b = 10
      · rw [if_pos hb] at h
        cases h
        have hk0 : k = 0 := by
          rw [List.length_singleton] at hk
          omega
        rw [hk0, List.drop_succ_cons, List.drop_nil, List.nil_append, flatten_linesOf,
          if_neg (by simp)]
      · rw [if_neg hb] at h
        cases hl : linesOf 10 l with
        | nil =>
          rw [hl] at h
          cases h
          have hk0 : k = 0 := by
            rw [List.length_singleton] at hk
            omega
          rw [hk0, if_neg (by simp)]
          rfl
        | cons y ys =>
          rw [hl] at h
          cases h
          rw [List.length_cons] at hk
          rw [List.drop_succ_cons, ih hl (Nat.le_of_succ_le_succ hk), List.length_cons]
          simp only [Nat.succ_lt_succ_iff]

theorem cBytes_append {s : List UInt8} (rest : List UInt8) :
    cBytes (s ++ 0 :: rest) = .ok (s.takeWhile (· ≠ 0)) := by
  have hmem : 0 ∈ s ++ 0 :: rest := List.mem_append_right s List.mem_cons_self
  rw [cBytes, if_pos hmem, List.takeWhile_append]
  split
  · next hall =>
    rw [List.takeWhile_cons_of_neg (by decide), List.append_nil]
    rw [(List.takeWhile_prefix _).eq_of_length hall]
  · rfl

/-- fgets(buf, sizeof(buf), f) for what is left of the stream. -/
def LineBuffer.fgets (b : LineBuffer n) (rest : List UInt8) :
    Option (LineBuffer n × List UInt8) :=
  if rest = [] then none
  else
    let line := takeLine (n + 1) rest
    some (⟨line.1 ++ 0 :: b.bytes.drop (line.1.length + 1), by
      have hle := takeLine_length (n + 1) rest
      have hsize := b.size
      simp only [line, List.length_append, List.length_cons, List.length_drop]
      omega⟩, line.2)

theorem LineBuffer.fgets_lt {b : LineBuffer n} (h : b.fgets rest = some (b', rest')) :
    rest'.length < rest.length := by
  unfold fgets at h
  split at h
  · cases h
  · next hne =>
    cases h
    exact takeLine_lt n hne

/-- while (fgets(buf, sizeof(buf), f) != NULL): the strings in buf, one for each turn. -/
def LineBuffer.readAll (b : LineBuffer n) (rest : List UInt8) :
    Except Fault (List (List UInt8)) :=
  match _h : b.fgets rest with
  | none => .ok []
  | some (b', rest') => do
    let s ← cBytes b'.bytes
    let more ← b'.readAll rest'
    return s :: more
termination_by rest.length
decreasing_by exact fgets_lt _h

/-- The lines of a text, cut into pieces of at most `n + 1` bytes. -/
def lineChunks (n : Nat) (l : List UInt8) : List (List UInt8) :=
  if h : l = [] then [] else (takeLine (n + 1) l).1 :: lineChunks n (takeLine (n + 1) l).2
termination_by l.length
decreasing_by exact takeLine_lt n h

theorem lineChunks_nil (n : Nat) : lineChunks n [] = [] := by
  rw [lineChunks, dif_pos rfl]

theorem lineChunks_cons (n : Nat) (h : l ≠ []) :
    lineChunks n l = (takeLine (n + 1) l).1 :: lineChunks n (takeLine (n + 1) l).2 := by
  rw [lineChunks, dif_neg h]

theorem flatten_lineChunks (n : Nat) (l : List UInt8) : (lineChunks n l).flatten = l := by
  induction hk : l.length using Nat.strongRecOn generalizing l with
  | _ k ih =>
    by_cases h : l = []
    · rw [h, lineChunks_nil]
      rfl
    · rw [lineChunks_cons n h, List.flatten_cons, ih _ (hk ▸ takeLine_lt n h) _ rfl,
        takeLine_append]

theorem length_le_of_mem_lineChunks {l : List UInt8} (h : p ∈ lineChunks n l) :
    p.length ≤ n + 1 := by
  induction hk : l.length using Nat.strongRecOn generalizing l with
  | _ k ih =>
    by_cases hne : l = []
    · rw [hne, lineChunks_nil] at h
      cases h
    · rw [lineChunks_cons n hne] at h
      rcases List.mem_cons.mp h with rfl | h
      · exact takeLine_length (n + 1) l
      · exact ih _ (hk ▸ takeLine_lt n hne) h rfl

theorem length_lineChunks (n : Nat) (l : List UInt8) :
    (lineChunks n l).length = ((linesOf 10 l).map fun x => (x.length + n) / (n + 1)).sum := by
  induction hlen : l.length using Nat.strongRecOn generalizing l with
  | _ m ih =>
    cases hl : linesOf 10 l with
    | nil =>
      rw [linesOf_eq_nil hl, lineChunks_nil]
      rfl
    | cons x xs =>
      have hne : l ≠ [] := by
        rintro rfl
        cases hl
      have hx := List.length_pos_of_ne_nil (linesOf_head_ne_nil hl)
      rw [lineChunks_cons n hne, List.length_cons, ih _ (hlen ▸ takeLine_lt n hne) _ rfl,
        takeLine_eq (n + 1) hl, List.map_cons, List.sum_cons]
      by_cases hk : n + 1 < x.length
      · -- the rest of the line is shorter by one piece
        have hdiv : (x.length + n) / (n + 1) = (x.length - (n + 1) + n) / (n + 1) + 1 := by
          rw [← Nat.add_div_right _ (Nat.succ_pos n)]
          congr 1
          omega
        rw [linesOf_drop hl hk.le, if_pos hk, List.map_cons, List.sum_cons, List.length_drop, hdiv]
        omega
      · have hone : (x.length + n) / (n + 1) = 1 := by
          rw [Nat.div_eq_iff (Nat.succ_pos n)]
          omega
        have hdrop : x.drop (n + 1) = [] := List.drop_eq_nil_of_le (Nat.le_of_not_lt hk)
        have hrest := linesOf_drop hl (Nat.le_refl x.length)
        rw [List.drop_length, if_neg (Nat.lt_irrefl _)] at hrest
        rw [hdrop, hrest, hone]
        omega

theorem LineBuffer.fgets_nil (b : LineBuffer n) : b.fgets [] = none := if_pos rfl

theorem LineBuffer.fgets_of_ne (b : LineBuffer n) (h : l ≠ []) :
    ∃ b', b.fgets l = some (b', (takeLine (n + 1) l).2) ∧
      cBytes b'.bytes = .ok ((takeLine (n + 1) l).1.takeWhile (· ≠ 0)) := by
  rw [fgets, if_neg h]
  exact ⟨_, rfl, cBytes_append _⟩

/-- What stands in buf after each turn is the next piece, up to its first NUL. -/
theorem LineBuffer.readAll_eq (b : LineBuffer n) (l : List UInt8) :
    b.readAll l = .ok ((lineChunks n l).map fun p => p.takeWhile (· ≠ 0)) := by
  induction hk : l.length using Nat.strongRecOn generalizing b l with
  | _ k ih =>
    by_cases h : l = []
    · rw [h, readAll, lineChunks_nil]
      split
      · rfl
      · next he =>
        rw [fgets_nil] at he
        cases he
    · obtain ⟨b', hb', hs⟩ := b.fgets_of_ne h
      rw [readAll, lineChunks_cons n h, List.map_cons]
      split
      · next he =>
        rw [hb'] at he
        cases he
      · next he =>
        rw [hb'] at he
        cases he
        rw [hs, ok_bind, ih _ (hk ▸ takeLine_lt n h) _ _ rfl]
        rfl

end Apue
