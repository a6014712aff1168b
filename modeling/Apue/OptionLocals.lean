import Apue.Getopt
import Apue.StrCopy

namespace Apue.OptionLocals
set_option autoImplicit true
open Getopt

/-- load_opt of `socket/http_client.c`, and the same two lines in the other programs. -/
def loadOpt (mem : Leftover Char) : Option Word → Except Fault (List Char)
  | none => .error .null
  | some w => do
    let len ← CharPtr.strlen ⟨w ++ [nul], 0⟩
    strcpy (w ++ [nul]) (mem.block (len + 1)) 0

/-- The cases of a switch over the options: those that copy optarg and those that set a flag. -/
structure Switch where
  copies : List Char
  flags : List Char
  disjoint : ∀ c ∈ copies, c ∉ flags

/-- The variables of main under the letters of their options. -/
structure Locals where
  value : Char → Option (List Char)
  flag : Char → Bool

def Locals.start : Locals := ⟨fun _ => none, fun _ => false⟩

def Switch.round (sw : Switch) (mem : Leftover Char) (l : Locals) : Found → Except Fault Locals
  | .option (.short c) optarg =>
    if c ∈ sw.copies then do
      let block ← loadOpt mem optarg
      return { l with value := Function.update l.value c (some block) }
    else if c ∈ sw.flags then .ok { l with flag := Function.update l.flag c true }
    else .ok l
  | _ => .ok l

def Switch.loop (sw : Switch) (mem : Leftover Char) :
    Locals → List Found → Except Fault Locals
  | l, [] => .ok l
  | l, f :: fs => do
    let l ← sw.round mem l f
    sw.loop mem l fs

theorem loadOpt_eq (mem : Leftover Char) {w : Word} (h : nul ∉ w) :
    loadOpt mem (some w) = .ok (w ++ [nul]) := by
  have hlen : CharPtr.strlen ⟨w ++ [nul], 0⟩ = .ok w.length :=
    StoredString.strlen_ptr ⟨[], w, [], h⟩
  have hcopy := strcpy_eq h [] [] [] (mem.length_block (w.length + 1))
  rw [List.append_nil, List.nil_append] at hcopy
  rw [loadOpt, hlen, ok_bind]
  exact hcopy

variable {sw : Switch}

theorem Switch.round_eq (mem : Leftover Char) (l : Locals) {f : Found}
    (h : ∀ c ∈ sw.copies, ∀ optarg, f = .option (.short c) optarg →
      ∃ v, optarg = some v ∧ nul ∉ v) :
    ∃ l', sw.round mem l f = .ok l' ∧
      (∀ c ∈ sw.copies, l'.value c = ((f.value? c).map (· ++ [nul])).or (l.value c)) ∧
      ∀ c ∈ sw.flags, l'.flag c = (f.names c || l.flag c) := by
  cases f with
  | invalid => exact ⟨l, rfl, fun c _ => rfl, fun c _ => rfl⟩
  | operand w => exact ⟨l, rfl, fun c _ => rfl, fun c _ => rfl⟩
  | option n optarg =>
    cases n with
    | long i => exact ⟨l, rfl, fun c _ => rfl, fun c _ => rfl⟩
    | short d =>
      rw [round]
      by_cases hd : d ∈ sw.copies
      · obtain ⟨v, rfl, hv⟩ := h d hd optarg rfl
        rw [if_pos hd, loadOpt_eq mem hv, ok_bind]
        refine ⟨_, rfl, fun c hc => ?_, fun c hc => ?_⟩
        · by_cases hcd : d = c
          · simp [Found.value?, hcd]
          · simp [Found.value?, hcd, Function.update_of_ne (Ne.symm hcd)]
        · have hcd : d ≠ c := fun hcd => sw.disjoint d hd (hcd ▸ hc)
          simp [Found.names, hcd]
      · have hvalue : ∀ c ∈ sw.copies,
            l.value c = ((Found.value? c (.option (.short d) optarg)).map (· ++ [nul])).or
              (l.value c) := by
          intro c hc
          have hcd : d ≠ c := fun hcd => hd (hcd ▸ hc)
          simp [Found.value?, hcd]
        rw [if_neg hd]
        by_cases hf : d ∈ sw.flags
        · rw [if_pos hf]
          refine ⟨_, rfl, hvalue, fun c hc => ?_⟩
          by_cases hcd : d = c
          · simp [Found.names, hcd]
          · simp [Found.names, hcd, Function.update_of_ne (Ne.symm hcd)]
        · rw [if_neg hf]
          refine ⟨l, rfl, hvalue, fun c hc => ?_⟩
          have hcd : d ≠ c := fun hcd => hf (hcd ▸ hc)
          simp [Found.names, hcd]

theorem Switch.loop_eq (mem : Leftover Char) (l : Locals)
    (h : ∀ c ∈ sw.copies, ∀ optarg, .option (.short c) optarg ∈ fs →
      ∃ v, optarg = some v ∧ nul ∉ v) :
    ∃ l', sw.loop mem l fs = .ok l' ∧
      (∀ c ∈ sw.copies, l'.value c = ((lastValue c fs).map (· ++ [nul])).or (l.value c)) ∧
      ∀ c ∈ sw.flags, l'.flag c = (fs.any (·.names c) || l.flag c) := by
  induction fs generalizing l with
  | nil => exact ⟨l, rfl, fun c _ => rfl, fun c _ => rfl⟩
  | cons f fs ih =>
    obtain ⟨l₁, hround, hvalue₁, hflag₁⟩ := sw.round_eq mem l fun c hc optarg hf =>
      h c hc optarg (hf ▸ List.mem_cons_self)
    obtain ⟨l₂, hloop, hvalue₂, hflag₂⟩ := ih l₁ fun c hc optarg hf =>
      h c hc optarg (List.mem_cons_of_mem f hf)
    refine ⟨l₂, ?_, fun c hc => ?_, fun c hc => ?_⟩
    · rw [loop, hround, ok_bind, hloop]
    · rw [hvalue₂ c hc, hvalue₁ c hc, lastValue_cons]
      cases lastValue c fs with
      | none => rfl
      | some v => rfl
    · rw [hflag₂ c hc, hflag₁ c hc, List.any_cons, ← Bool.or_assoc, Bool.or_comm (f.names c)]

/-- Every command line leaves the arguments that were given last, each with its NUL, and the flags
that were given. -/
theorem Switch.parse_eq (g : Grammar) (mem : Leftover Char)
    (hcopies : ∀ c ∈ sw.copies, takesArg g.short c = some true) (hargs : ∀ w ∈ args, nul ∉ w) :
    ∃ l, sw.loop mem .start (g.scan none args) = .ok l ∧
      (∀ c ∈ sw.copies, l.value c = (lastValue c (g.scan none args)).map (· ++ [nul])) ∧
      ∀ c ∈ sw.flags, l.flag c = (g.scan none args).any (·.names c) := by
  have hloads : ∀ c ∈ sw.copies, ∀ optarg, .option (.short c) optarg ∈ g.scan none args →
      ∃ v, optarg = some v ∧ nul ∉ v := by
    intro c hc optarg hf
    have hsound := Grammar.sound_of_mem_scan hf
    simp only [Grammar.Sound, hcopies c hc, Option.some.injEq] at hsound
    obtain ⟨v, rfl⟩ := Option.isSome_iff_exists.mp hsound.symm
    obtain ⟨w, hw, hsuffix⟩ := Grammar.suffix_of_mem_scan hf
    exact ⟨v, rfl, fun hm => hargs w hw (hsuffix.subset hm)⟩
  obtain ⟨l, hloop, hvalue, hflag⟩ := sw.loop_eq mem .start hloads
  refine ⟨l, hloop, fun c hc => ?_, fun c hc => ?_⟩
  · rw [hvalue c hc]
    exact Option.or_none
  · rw [hflag c hc]
    exact Bool.or_false _

theorem nul_notMem_lastValue {g : Grammar} (hargs : ∀ w ∈ args, nul ∉ w)
    (h : lastValue c (g.scan none args) = some v) : nul ∉ v := by
  obtain ⟨w, hw, hs⟩ := Grammar.suffix_of_mem_scan (mem_of_lastValue h)
  exact fun hm => hargs w hw (hs.subset hm)

def zeroed : Leftover Char := ⟨fun n => List.replicate n nul, fun _ => List.length_replicate⟩

end Apue.OptionLocals
