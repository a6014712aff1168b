import Apue.LineBuffer

namespace Apue.TextFiles
set_option autoImplicit true

open scoped List

/-- `stdio/print_file.c` for the content of the file: what it has printed in the end. -/
def printFile (buf : LineBuffer 30) (content : List UInt8) : Except Fault (List UInt8) := do
  let strings ← buf.readAll content
  return strings.flatten

/-- `stdio/fgets.c`: what the loop prints, and n. Without the file, the loop comes after perror all
the same. -/
def fgetsMain (buf : LineBuffer 3) : Option (List UInt8) → Except Fault (List UInt8 × Int)
  | none => .error .null
  | some content => do
    let strings ← buf.readAll content
    -- one more turn for the fgets that returns NULL
    let n ← addInt strings.length 1
    return (strings.flatMap (· ++ [10]), n)

theorem takeWhile_ne_eq_self_iff {l : List UInt8} : l.takeWhile (· ≠ 0) = l ↔ 0 ∉ l := by
  rw [List.takeWhile_eq_self_iff]
  constructor
  · intro h hm
    exact absurd (h 0 hm) (by decide)
  · intro h b hb
    exact decide_eq_true fun he => h (he ▸ hb)

theorem flatten_takeWhile_sublist (ps : List (List UInt8)) :
    (ps.map fun p => p.takeWhile (· ≠ 0)).flatten <+ ps.flatten := by
  induction ps with
  | nil => exact List.Sublist.refl _
  | cons p ps ih => exact (List.takeWhile_sublist _).append ih

theorem map_takeWhile_eq_self {ps : List (List UInt8)} (h : 0 ∉ ps.flatten) :
    ps.map (fun p => p.takeWhile (· ≠ 0)) = ps := by
  have hmap : ps.map (fun p => p.takeWhile (· ≠ 0)) = ps.map id := by
    refine List.map_congr_left fun p hp => takeWhile_ne_eq_self_iff.mpr fun hm => h ?_
    exact List.mem_flatten.mpr ⟨p, hp, hm⟩
  rw [hmap, List.map_id]

theorem flatten_takeWhile_eq_iff (ps : List (List UInt8)) :
    (ps.map fun p => p.takeWhile (· ≠ 0)).flatten = ps.flatten ↔ 0 ∉ ps.flatten := by
  constructor
  · intro h hm
    rw [← h] at hm
    obtain ⟨s, hs, hmem⟩ := List.mem_flatten.mp hm
    obtain ⟨p, -, rfl⟩ := List.mem_map.mp hs
    exact absurd (List.mem_takeWhile_imp hmem) (by decide)
  · intro h
    rw [map_takeWhile_eq_self h]

/-- `print_file.c` prints bytes of the file in their order, and the whole file just when it has no
NUL. -/
theorem print_file_prints (buf : LineBuffer 30) (content : List UInt8) :
    ∃ out, printFile buf content = .ok out ∧ out <+ content ∧ (out = content ↔ 0 ∉ content) := by
  have hcut := flatten_takeWhile_sublist (lineChunks 30 content)
  have hiff := flatten_takeWhile_eq_iff (lineChunks 30 content)
  rw [flatten_lineChunks] at hcut hiff
  refine ⟨_, ?_, hcut, hiff⟩
  rw [printFile, buf.readAll_eq, ok_bind]
  rfl

/-- The number of the turns in which fgets of `fgets.c` gets a string: one for every four bytes of
each line. -/
def turns (content : List UInt8) : Nat := ((linesOf 10 content).map fun x => (x.length + 3) / 4).sum

/-- The n of `fgets.c` counts its turns, with the one that gets nothing, and overflows for larger
files. -/
theorem fgets_counts_turns (buf : LineBuffer 3) (content : List UInt8) :
    (intMax ≤ turns content → fgetsMain buf (some content) = .error .overflow) ∧
    ((turns content : Int) < intMax → ∃ out,
      fgetsMain buf (some content) = .ok (out, turns content + 1) ∧
      (0 ∉ content → ∃ ps : List (List UInt8), ps.flatten = content ∧ ps.length = turns content ∧
        (∀ p ∈ ps, p.length ≤ 4) ∧ out = ps.flatMap (· ++ [10]))) := by
  have hlen : (lineChunks 3 content).length = turns content := length_lineChunks 3 content
  have hmain : fgetsMain buf (some content) = (addInt (turns content) 1).map fun n =>
      (((lineChunks 3 content).map fun p => p.takeWhile (· ≠ 0)).flatMap (· ++ [10]), n) := by
    rw [fgetsMain, buf.readAll_eq, ok_bind, List.length_map, hlen]
    cases addInt (turns content) 1 with
    | error e => rfl
    | ok n => rfl
  rw [hmain]
  refine ⟨fun h => ?_, fun h => ?_⟩
  · have hover : ¬((turns content : Int) + 1 ≤ intMax) := by omega
    rw [addInt, if_neg fun hr => hover hr.2]
    rfl
  · rw [addInt_of_nonneg (by omega) (by omega)]
    refine ⟨_, rfl, fun hnul => ⟨lineChunks 3 content, flatten_lineChunks 3 content, hlen, ?_, ?_⟩⟩
    · intro p hp
      exact length_le_of_mem_lineChunks hp
    · rw [map_takeWhile_eq_self (by rwa [flatten_lineChunks])]

/-- The loop of `stdio/char_count.c`, where c is an int and no byte is EOF. -/
def countLoop : Int → List UInt8 → Except Fault Int
  | count, [] => .ok count
  | count, _ :: l => do
    let count ← addInt count 1
    countLoop count l

def charCount (content : List UInt8) : Except Fault Int := countLoop 0 content

/-- The block that getline has when it finds no byte, and what stands behind a line and its NUL. -/
structure Getline where
  unread : List UInt8
  slack : List UInt8 → List UInt8

/-- The number of each line with the result of strlen. The loop ends after the turn in which getline
returns -1. -/
def lineLoop (g : Getline) : Int → List (List UInt8) → Except Fault (List (Int × Nat))
  | line, [] => do
    let s ← cBytes g.unread
    let _ ← addInt line 1
    return [(line, s.length)]
  | line, l :: ls => do
    let s ← cBytes (l ++ 0 :: g.slack l)
    let next ← addInt line 1
    let rest ← lineLoop g next ls
    return (line, s.length) :: rest

def lineCharCount (g : Getline) (content : List UInt8) : Except Fault (List (Int × Nat)) :=
  lineLoop g 1 (linesOf 10 content)

theorem countLoop_eq {count : Int} (h0 : 0 ≤ count) (h : count + (l : List UInt8).length ≤ intMax) :
    countLoop count l = .ok (count + l.length) := by
  induction l generalizing count with
  | nil => simp [countLoop]
  | cons b l ih =>
    rw [List.length_cons, Int.natCast_succ] at h ⊢
    rw [countLoop, addInt_of_nonneg (by omega) (by omega), ok_bind, ih (by omega) (by omega)]
    congr 1
    omega

/-- Each line in its turn, and then the block that getline has not filled. -/
theorem lineLoop_eq (g : Getline) (line : Nat)
    (h : (line : Int) + (ls : List (List UInt8)).length < intMax) :
    lineLoop g line ls = (cBytes g.unread).map fun s =>
      ((ls.map fun l => (l.takeWhile (· ≠ 0)).length) ++ [s.length]).zipIdx line |>.map
        fun p => ((p.2 : Int), p.1) := by
  induction ls generalizing line with
  | nil =>
    rw [List.length_nil] at h
    rw [lineLoop]
    cases cBytes g.unread with
    | error e => rfl
    | ok s =>
      rw [ok_bind, addInt_of_nonneg (by omega) (by omega)]
      rfl
  | cons l ls ih =>
    rw [List.length_cons, Int.natCast_succ] at h
    have hnext : (line : Int) + 1 = ((line + 1 : Nat) : Int) := rfl
    rw [lineLoop, cBytes_append, ok_bind, addInt_of_nonneg (by omega) (by omega), ok_bind, hnext,
      ih (line + 1) (by omega)]
    cases cBytes g.unread with
    | error e => rfl
    | ok s => rfl

theorem sum_counts (ls : List (List UInt8)) :
    (ls.map fun l => (l.takeWhile (· ≠ 0)).length).sum =
      (ls.map fun l => l.takeWhile (· ≠ 0)).flatten.length := by
  rw [List.length_flatten, List.map_map]
  rfl

/-- Behind the last line `line_char_count.c` counts in a block that nothing has been written to. -/
theorem one_line_too_many (g : Getline) {content : List UInt8}
    (h : ((linesOf 10 content).length : Int) + 1 < intMax) :
    (0 ∉ g.unread → lineCharCount g content = .error .bounds) ∧
    (0 ∈ g.unread → ∃ (counts : List Nat) (k : Nat), counts.length = (linesOf 10 content).length ∧
      lineCharCount g content = .ok
        (((counts ++ [k]).zipIdx 1).map fun p => ((p.2 : Int), p.1)) ∧
      (0 ∉ content → counts = (linesOf 10 content).map List.length) ∧
      ((content.length : Int) ≤ intMax →
        (charCount content = .ok (counts.sum : Int) ↔ 0 ∉ content))) := by
  have hloop : lineCharCount g content = _ := lineLoop_eq g 1 (by omega)
  rw [hloop]
  refine ⟨fun hnul => ?_, fun hnul => ?_⟩
  · rw [cBytes, if_neg hnul]
    rfl
  · rw [cBytes, if_pos hnul]
    refine ⟨_, _, List.length_map _, rfl, fun hc => ?_, fun hlen => ?_⟩
    · refine List.map_congr_left fun l hl => ?_
      have hl0 : 0 ∉ l := fun hm => hc (by
        rw [← flatten_linesOf 10 content]
        exact List.mem_flatten.mpr ⟨l, hl, hm⟩)
      rw [takeWhile_ne_eq_self_iff.mpr hl0]
    · have hcut := flatten_takeWhile_sublist (linesOf 10 content)
      have hiff := flatten_takeWhile_eq_iff (linesOf 10 content)
      rw [flatten_linesOf] at hcut hiff
      rw [charCount, countLoop_eq (Int.le_refl 0) (by omega), Int.zero_add, Except.ok.injEq,
        Int.natCast_inj, sum_counts, ← hiff]
      constructor
      · intro hsum
        exact hcut.eq_of_length hsum.symm
      · intro heq
        rw [heq]

theorem one_line_too_many_block :
    lineCharCount ⟨[7], fun _ => []⟩ [97, 98] = .error .bounds := by
  have h : ((linesOf 10 [(97 : UInt8), 98]).length : Int) + 1 < intMax := by
    simp [linesOf, intMax]
  exact (one_line_too_many ⟨[7], fun _ => []⟩ h).1 (by decide)

end Apue.TextFiles
