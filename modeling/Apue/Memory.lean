import Apue.Lists
import Mathlib.Data.List.Basic
import Mathlib.Logic.Function.Basic

namespace Apue
set_option autoImplicit true

/-- What a C program can run into outside the defined part of the language. -/
inductive Fault where
  | overflow
  | uninitialised
  | null
  | bounds
  | dangling
  | doubleFree
  deriving DecidableEq, Repr

theorem bind_ok {x : Except ε α} {f : α → Except ε β} (h : x >>= f = .ok b) :
    ∃ a, x = .ok a ∧ f a = .ok b := by
  cases x with
  | error e => cases h
  | ok a => exact ⟨a, rfl, h⟩

theorem ok_bind (a : α) (f : α → Except ε β) : (Except.ok a >>= f) = f a := rfl

theorem bind_error {x : Except ε α} {f : α → Except ε β} (h : x >>= f = .error e) :
    x = .error e ∨ ∃ a, x = .ok a ∧ f a = .error e := by
  cases x with
  | error e' =>
    cases h
    exact .inl rfl
  | ok a => exact .inr ⟨a, rfl, h⟩

def intMin : Int := -2147483648
def intMax : Int := 2147483647

def addInt (a b : Int) : Except Fault Int :=
  if intMin ≤ a + b ∧ a + b ≤ intMax then .ok (a + b) else .error .overflow

theorem addInt_ok (h : addInt a b = .ok c) :
    c = a + b ∧ intMin ≤ a + b ∧ a + b ≤ intMax := by
  unfold addInt at h
  split at h
  · next hr =>
    cases h
    exact ⟨rfl, hr⟩
  · cases h

theorem addInt_error (h : addInt a b = .error e) : e = .overflow := by
  unfold addInt at h
  split at h
  · cases h
  · cases h
    rfl

theorem addInt_of_range (hl : intMin ≤ a + b) (hu : a + b ≤ intMax) :
    addInt a b = .ok (a + b) := if_pos ⟨hl, hu⟩

theorem addInt_of_nonneg (h : 0 ≤ a + b) (hu : a + b ≤ intMax) : addInt a b = .ok (a + b) :=
  addInt_of_range (Int.le_trans (by decide) h) hu

theorem addInt_error_gt (h0 : 0 ≤ a + b) (h : addInt a b = .error e) : intMax < a + b := by
  rw [← Int.not_le]
  intro hle
  rw [addInt_of_nonneg h0 hle] at h
  cases h

theorem addInt_overflow (h : ¬a + b ≤ intMax) : addInt a b = .error .overflow :=
  if_neg fun hr => h hr.2

/-- What stands in the block that malloc returns for a size, before anything is written to it. -/
structure Leftover (β : Type u) where
  block : Nat → List β
  length_block : ∀ n, (block n).length = n

def modifyAt (b : List β) (k : Nat) (f : β → β) : Except Fault (List β) :=
  if k < b.length then .ok (b.modify k f) else .error .bounds

theorem modifyAt_of_lt {b : List β} (h : k < b.length) : modifyAt b k f = .ok (b.modify k f) :=
  if_pos h

theorem modifyAt_of_le {b : List β} (h : b.length ≤ k) : modifyAt b k f = .error .bounds :=
  if_neg (Nat.not_lt.2 h)

def nul : Char := '\x00'

/-- The string that a pointer to the start of a block stands for. -/
def cString : List Char → Except Fault (List Char)
  | [] => .error .bounds
  | c :: b => if c = nul then .ok [] else (cString b).map (c :: ·)

theorem cString_append {s : List Char} (h : nul ∉ s) (b : List Char) :
    cString (s ++ b) = (cString b).map (s ++ ·) := by
  induction s with
  | nil => cases hb : cString b <;> simp [hb, Except.map]
  | cons c s ih =>
    have hc : c ≠ nul := fun he => h (he ▸ List.mem_cons_self)
    have hs : nul ∉ s := fun hm => h (List.mem_cons_of_mem c hm)
    rw [List.cons_append, cString, if_neg hc, ih hs]
    cases cString b <;> rfl

/-- The blocks in the order of the malloc calls. A freed block stays `none` and is never handed out
again. -/
structure Heap (β : Type u) where
  blocks : List (Option β)

namespace Heap

def empty : Heap β := ⟨[]⟩

def next (h : Heap β) : Nat := h.blocks.length

def malloc (h : Heap β) (v : β) : Heap β := ⟨h.blocks ++ [some v]⟩

def Live (h : Heap β) (p : Nat) (v : β) : Prop := h.blocks[p]? = some (some v)

def put (h : Heap β) (p : Nat) (b : Option β) : Heap β := ⟨h.blocks.set p b⟩

def load (h : Heap β) (p : Nat) : Except Fault β :=
  match h.blocks[p]? with
  | some (some v) => .ok v
  | _ => .error .dangling

def store (h : Heap β) (p : Nat) (v : β) : Except Fault (Heap β) :=
  match h.blocks[p]? with
  | some (some _) => .ok (h.put p (some v))
  | _ => .error .dangling

def free (h : Heap β) (p : Nat) : Except Fault (Heap β) :=
  match h.blocks[p]? with
  | some (some _) => .ok (h.put p none)
  | some none => .error .doubleFree
  | none => .error .dangling

theorem Live.unique {h : Heap β} (hv : h.Live p v) (hw : h.Live p w) : v = w := by
  rw [Live] at hv hw
  rw [hv] at hw
  cases hw
  rfl

theorem Live.lt_next {h : Heap β} (hv : h.Live p v) : p < h.next :=
  (List.getElem?_eq_some_iff.1 hv).1

theorem Live.load {h : Heap β} (hv : h.Live p v) : h.load p = .ok v := by
  rw [Live] at hv
  rw [Heap.load, hv]

theorem Live.store {h : Heap β} (hv : h.Live p v) : h.store p w = .ok (h.put p (some w)) := by
  rw [Live] at hv
  rw [Heap.store, hv]

theorem Live.free {h : Heap β} (hv : h.Live p v) : h.free p = .ok (h.put p none) := by
  rw [Live] at hv
  rw [Heap.free, hv]

theorem load_ok {h : Heap β} (hl : h.load p = .ok v) : h.Live p v := by
  unfold Heap.load at hl
  split at hl
  · next hb =>
    cases hl
    exact hb
  · cases hl

theorem free_ok {h : Heap β} (hf : h.free p = .ok h') :
    (∃ v, h.Live p v) ∧ h' = h.put p none := by
  unfold Heap.free at hf
  split at hf
  · next v hb =>
    cases hf
    exact ⟨⟨v, hb⟩, rfl⟩
  · cases hf
  · cases hf

theorem put_next (h : Heap β) : (h.put p b).next = h.next := List.length_set

theorem live_put_self {h : Heap β} (hp : p < h.next) : (h.put p (some w)).Live p w :=
  List.getElem?_set_self hp

theorem live_put_of_ne {h : Heap β} (hq : q ≠ p) : (h.put p b).Live q v ↔ h.Live q v := by
  rw [Live, put, List.getElem?_set_ne (Ne.symm hq), Live]

theorem live_malloc_self (h : Heap β) : (h.malloc v).Live h.next v := by
  rw [Live, malloc, next, List.getElem?_append_right (Nat.le_refl _), Nat.sub_self]
  rfl

theorem live_malloc_of_lt {h : Heap β} (hp : p < h.next) :
    (h.malloc v).Live p w ↔ h.Live p w := by
  rw [Live, malloc, List.getElem?_append_left hp, Live]

theorem malloc_next (h : Heap β) : (h.malloc v).next = h.next + 1 := by
  rw [next, malloc, List.length_append, List.length_singleton, next]

end Heap

theorem update_none [DecidableEq ι] {f : ι → Option β}
    (h : Function.update f i none j = some p) : j ≠ i ∧ f j = some p := by
  by_cases he : j = i
  · subst he
    rw [Function.update_self] at h
    cases h
  · rw [Function.update_of_ne he] at h
    exact ⟨he, h⟩

theorem update_some [DecidableEq ι] {f : ι → Option β}
    (h : Function.update f i (some q) j = some p) : j = i ∧ p = q ∨ j ≠ i ∧ f j = some p := by
  by_cases he : j = i
  · subst he
    rw [Function.update_self] at h
    cases h
    exact .inl ⟨rfl, rfl⟩
  · rw [Function.update_of_ne he] at h
    exact .inr ⟨he, h⟩

end Apue
