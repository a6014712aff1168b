import Apue.Getopt
import Apue.Memory

namespace Apue.Options
set_option autoImplicit true
open Getopt

open scoped List

def rounds (round : Found → Except Fault (List Char)) : List Found → Except Fault (List Char)
  | [] => .ok []
  | f :: fs => do
    let out ← round f
    let rest ← rounds round fs
    return out ++ rest

namespace Opt

/-- The optstring "-a:b", where the dash stands for the ordering. -/
def grammar : Grammar where
  ordering := .returnInOrder
  short := ['a', ':', 'b']
  long := []
  no_dash := by decide

/-- The switch of `ps/opt.c`. -/
def round : Found → Except Fault (List Char)
  | .option (.short 'a') none => .error .null
  | .option (.short 'a') (some v) => .ok ("-a value = ".toList ++ v ++ ['\n'])
  | .option (.short 'b') _ => .ok "-b value = true\n".toList
  | _ => .ok []

def main (args : List Word) : Except Fault (List Char) := rounds round (grammar.scan none args)

end Opt

namespace OptLong

def argumentName : Word := ['a', 'r', 'g', 'u', 'm', 'e', 'n', 't']
def boolName : Word := ['b', 'o', 'o', 'l']

/-- The table long_options up to its terminator. -/
def longOptions : List LongOption := [⟨argumentName, true⟩, ⟨boolName, false⟩]

def grammar : Grammar where
  ordering := .permute
  short := ['a', ':', 'b']
  long := longOptions
  no_dash := by decide

/-- The switch of `ps/opt_long.c`. -/
def round : Found → Except Fault (List Char)
  | .option (.long i) optarg =>
    match longOptions[i]?, optarg with
    | none, _ => .error .bounds
    | some ⟨_, true⟩, none => .error .null
    | some ⟨name, true⟩, some v => .ok ("option ".toList ++ name ++ " = ".toList ++ v ++ ['\n'])
    | some ⟨name, false⟩, _ => .ok ("option ".toList ++ name ++ " set\n".toList)
  | .option (.short 'a') none => .error .null
  | .option (.short 'a') (some v) => .ok ("option a = ".toList ++ v ++ ['\n'])
  | .option (.short 'b') _ => .ok "option b set\n".toList
  | _ => .ok []

def main (args : List Word) : Except Fault (List Char) := rounds round (grammar.scan none args)

end OptLong

/-- What a user of the two programs can ask for. -/
inductive Setting where
  | a (v : Word)
  | b
  | argument (v : Word)
  | bool
  deriving DecidableEq, Repr

def setting? : Found → Option Setting
  | .option (.short 'a') (some v) => some (.a v)
  | .option (.short 'b') none => some .b
  | .option (.long 0) (some v) => some (.argument v)
  | .option (.long 1) none => some .bool
  | _ => none

theorem takesArg_eq_true_iff : takesArg ['a', ':', 'b'] c = some true ↔ c = 'a' := by
  by_cases ha : c = 'a'
  · subst ha
    decide
  · by_cases hb : c = 'b'
    · subst hb
      decide
    · by_cases hcolon : c = ':'
      · subst hcolon
        decide
      · simp [takesArg, ha, Ne.symm ha, Ne.symm hb, Ne.symm hcolon]

theorem takesArg_eq_false_iff : takesArg ['a', ':', 'b'] c = some false ↔ c = 'b' := by
  by_cases ha : c = 'a'
  · subst ha
    decide
  · by_cases hb : c = 'b'
    · subst hb
      decide
    · by_cases hcolon : c = ':'
      · subst hcolon
        decide
      · simp [takesArg, hb, Ne.symm ha, Ne.symm hb, Ne.symm hcolon]

/-- A grammar with the short options of both programs and perhaps the long ones. -/
structure Fits (g : Grammar) (long : Bool) : Prop where
  short : g.short = ['a', ':', 'b']
  long_eq : g.long = if long then OptLong.longOptions else []
  ordering : g.ordering ≠ .requireOrder

variable {g : Grammar} {long : Bool}

theorem Fits.short_cases (hg : Fits g long) (h : g.Sound (.option (.short c) optarg)) :
    (c = 'a' ∧ ∃ v, optarg = some v) ∨ (c = 'b' ∧ optarg = none) := by
  simp only [Grammar.Sound, hg.short] at h
  cases optarg with
  | some v => exact .inl ⟨takesArg_eq_true_iff.mp h, v, rfl⟩
  | none => exact .inr ⟨takesArg_eq_false_iff.mp h, rfl⟩

def Opt.text : Setting → List Char
  | .a v => "-a value = ".toList ++ v ++ ['\n']
  | .b => "-b value = true\n".toList
  | _ => []

def OptLong.text : Setting → List Char
  | .a v => "option a = ".toList ++ v ++ ['\n']
  | .b => "option b set\n".toList
  | .argument v => "option ".toList ++ argumentName ++ " = ".toList ++ v ++ ['\n']
  | .bool => "option ".toList ++ boolName ++ " set\n".toList

theorem Opt.fits : Fits grammar false := ⟨rfl, rfl, by decide⟩

theorem OptLong.fits : Fits grammar true := ⟨rfl, rfl, by decide⟩

theorem Opt.round_eq (h : grammar.Sound f) : round f = .ok ((setting? f).elim [] text) := by
  cases f with
  | invalid => rfl
  | operand w => rfl
  | option n optarg =>
    cases n with
    | long i => exact absurd h.1 (Nat.not_lt_zero i)
    | short c =>
      rcases fits.short_cases h with ⟨rfl, v, rfl⟩ | ⟨rfl, rfl⟩
      · rfl
      · rfl

theorem OptLong.round_eq (h : grammar.Sound f) : round f = .ok ((setting? f).elim [] text) := by
  cases f with
  | invalid => rfl
  | operand w => rfl
  | option n optarg =>
    cases n with
    | short c =>
      rcases fits.short_cases h with ⟨rfl, v, rfl⟩ | ⟨rfl, rfl⟩
      · rfl
      · rfl
    | long i =>
      obtain ⟨hi, harg⟩ := h
      match i, optarg, hi, harg with
      | 0, some v, _, _ => rfl
      | 1, none, _, _ => rfl
      | 0, none, _, harg => cases harg
      | 1, some v, _, harg => cases harg

end Apue.Options
