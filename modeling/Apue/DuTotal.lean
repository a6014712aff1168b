import Apue.DuGlob
import Apue.Memory
import Mathlib.Algebra.Order.Floor.Semiring
import Mathlib.Data.List.Nodup
import Mathlib.Data.Rat.Floor
import Mathlib.Tactic.Linarith
import Mathlib.Tactic.NormNum

namespace Apue
set_option autoImplicit true

namespace Du

theorem distinct_below (fs : Fs) (ht : fs.root.get? loc = some t) : t.Distinct := by
  intro l b es hd
  have hdir : fs.root.get? (loc ++ l) = some (.dir b es) := by
    rw [Tree.get?_append, ht, Option.bind_some, hd]
  exact fs.distinct _ b es hdir

/-- However directories are listed, `du` returns 512 times the blocks of all files at and below the
path, modulo 2^64. -/
theorem du_total (hp : fs.locate path = some loc) (ht : fs.root.get? loc = some t) :
    ∃ locs : List Location, locs.Nodup ∧ (∀ l, l ∈ locs ↔ ∃ u, t.get? l = some u) ∧
      Returns (fun fuel => du fs fuel path)
        (.ofNat (512 * (locs.map t.blocksAt).sum)) := by
  have hd := distinct_below fs ht
  refine ⟨t.locations, Tree.nodup_locations hd, fun l => Tree.mem_locations hd, ?_⟩
  rw [← Tree.total_eq_sum hd, Nat.mul_comm]
  exact ⟨t.height + 1, fun fuel hf => du_eq hp ht hf⟩

def oneFile (blocks : Nat) : Tree := .dir 8 [(fileName, .file blocks)]

def oneFileFs (blocks : Nat) : Fs :=
  .ofRoot (oneFile blocks) ⟨8, _, rfl⟩ <|
    Tree.distinct_dir (List.nodup_singleton _) fun e he => by
      rw [List.mem_singleton.1 he]
      exact Tree.distinct_file blocks

theorem du_total_oneFile : (oneFileFs 3).locate ['/'] = some [] ∧
    (oneFileFs 3).root.get? [] = some (oneFile 3) ∧
    Returns (fun fuel => du (oneFileFs 3) fuel ['/']) 5632 := by
  have hp := locate_root (oneFileFs 3)
  have ht : (oneFileFs 3).root.get? [] = some (oneFile 3) := rfl
  have hd := distinct_below (oneFileFs 3) ht
  obtain ⟨locs, hn, hm, hr⟩ := du_total hp ht
  have hperm : locs.Perm (oneFile 3).locations :=
    (List.perm_ext_iff_of_nodup hn (Tree.nodup_locations hd)).2 fun l =>
      (hm l).trans (Tree.mem_locations hd).symm
  rw [(hperm.map _).sum_eq] at hr
  exact ⟨hp, ht, hr⟩

def units : List Char := ['b', 'k', 'm', 'g', '\x00']

theorem ceil_div_lt {d : ℚ} (h : 1000 < d) : ⌈d / 1024⌉₊ < ⌈d⌉₊ := by
  have hle := Nat.le_ceil d
  have hlt := Nat.ceil_lt_add_one (by positivity : 0 ≤ d / 1024)
  have hd : d / 1024 + 1 ≤ d := by linarith
  exact_mod_cast hlt.trans_le (hd.trans hle)

/-- while (d > 1000) { d = d / 1024.0; unit++; } -/
def scale (d : ℚ) (unit : Nat) : ℚ × Nat :=
  if 1000 < d then scale (d / 1024) (unit + 1) else (d, unit)
termination_by ⌈d⌉₊
decreasing_by exact ceil_div_lt ‹_›

/-- The unit that `main` shows a total in. -/
def unitOf (total : UInt64) : Nat := (scale total.toNat 0).2

def unitLetter (unit : Nat) : Except Fault Char :=
  match units[unit]? with
  | some c => .ok c
  | none => .error .bounds

theorem scale_next (h : 1000 < d) : scale d unit = scale (d / 1024) (unit + 1) := by
  rw [scale, if_pos h]

theorem scale_stop (h : ¬1000 < d) : scale d unit = (d, unit) := by
  rw [scale, if_neg h]

theorem le_scale (d : ℚ) (unit : Nat) : unit ≤ (scale d unit).2 := by
  fun_induction scale d unit with
  | case1 d unit h ih => exact Nat.le_of_succ_le ih
  | case2 d unit h => exact Nat.le_refl unit

/-- `k` turns are enough up to 1000 * 1024^k. -/
theorem scale_le_iff (d : ℚ) (unit k : Nat) :
    (scale d unit).2 ≤ unit + k ↔ d ≤ 1000 * 1024 ^ k := by
  induction k generalizing d unit with
  | zero =>
    rw [pow_zero, mul_one, Nat.add_zero]
    by_cases h : 1000 < d
    · rw [scale_next h]
      have hle := le_scale (d / 1024) (unit + 1)
      exact iff_of_false (by omega) (not_le.2 h)
    · rw [scale_stop h]
      exact iff_of_true (Nat.le_refl unit) (not_lt.1 h)
  | succ k ih =>
    by_cases h : 1000 < d
    · rw [scale_next h, show unit + (k + 1) = unit + 1 + k by omega, ih,
        div_le_iff₀ (by norm_num), pow_succ, mul_assoc]
    · rw [scale_stop h]
      have hone : (1 : ℚ) ≤ 1024 ^ (k + 1) := one_le_pow₀ (by norm_num)
      exact iff_of_true (Nat.le_add_right unit _) (by linarith [not_lt.1 h])

theorem unitOf_le_iff (total : UInt64) (k : Nat) :
    unitOf total ≤ k ↔ total.toNat ≤ 1000 * 1024 ^ k := by
  have h := scale_le_iff total.toNat 0 k
  rw [Nat.zero_add] at h
  rw [unitOf, h]
  exact_mod_cast Iff.rfl

theorem unitLetter_mem {unit : Nat} (h : unit < 4) :
    ∃ c ∈ "bkmg".toList, unitLetter unit = .ok c := by
  match unit, h with
  | 0, _ => exact ⟨'b', by decide, rfl⟩
  | 1, _ => exact ⟨'k', by decide, rfl⟩
  | 2, _ => exact ⟨'m', by decide, rfl⟩
  | 3, _ => exact ⟨'g', by decide, rfl⟩

/-- `main` shows a total with one of its four letters up to 1000 times 2^30 bytes. -/
theorem unit_lt_four_iff (total : UInt64) :
    (unitOf total < 4 ∧ ∃ c ∈ "bkmg".toList, unitLetter (unitOf total) = .ok c) ↔
      total.toNat ≤ 1073741824000 := by
  rw [and_iff_left_of_imp unitLetter_mem, Nat.lt_succ_iff, unitOf_le_iff]
  norm_num

/-- A directory of 2097152001 blocks in all is shown with the NUL behind the letters. -/
theorem unit_of_large_file :
    ∃ total, Returns (fun fuel => du (oneFileFs 2097151993) fuel ['/']) total ∧
      unitOf total = 4 ∧ unitLetter (unitOf total) = .ok '\x00' := by
  have hr : Returns (fun fuel => du (oneFileFs 2097151993) fuel ['/']) 1073741824512 :=
    ⟨_, fun fuel hf => du_eq (locate_root _) rfl hf⟩
  have hu : unitOf 1073741824512 = 4 := by
    have hle := (unitOf_le_iff 1073741824512 4).2 (by decide)
    have hgt := mt (unitOf_le_iff 1073741824512 3).1 (by decide)
    omega
  exact ⟨_, hr, hu, by rw [hu]; rfl⟩

end Du

end Apue
