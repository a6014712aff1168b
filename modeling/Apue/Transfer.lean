import Mathlib.Data.List.Infix
import Apue.Reachability

namespace Apue
set_option autoImplicit true

/-- What a system call on a descriptor returns: a count, or -1 with errno EINTR or another one. -/
inductive Ret where
  | count (n : Nat)
  | eintr
  | error
  deriving Repr, DecidableEq

/-- The results of a read of at most `n` elements from a file that has `rest` left. -/
def Ret.OfRead (n : Nat) (rest : List α) : Ret → Prop
  | .count k => k ≤ n ∧ k ≤ rest.length ∧ (k = 0 → rest = [])
  | _ => True

instance [DecidableEq α] (n : Nat) (rest : List α) : DecidablePred (Ret.OfRead n rest)
  | .count k => inferInstanceAs (Decidable (k ≤ n ∧ k ≤ rest.length ∧ (k = 0 → rest = [])))
  | .eintr | .error => inferInstanceAs (Decidable True)

/-- The results of a write of `n` elements. -/
def Ret.OfWrite (n : Nat) : Ret → Prop
  | .count k => k ≤ n
  | _ => True

instance (n : Nat) : DecidablePred (Ret.OfWrite n)
  | .count k => inferInstanceAs (Decidable (k ≤ n))
  | .eintr | .error => inferInstanceAs (Decidable True)

/-- The `n` elements that start at `buf + cur`. -/
def slice (buf : List α) (cur n : Nat) : List α := (buf.drop cur).take n

def store (buf data : List α) : List α := data ++ buf.drop data.length

theorem slice_zero (buf : List α) (cur : Nat) : slice buf cur 0 = [] := List.take_zero

theorem slice_store_take (buf : List α) {rest : List α} (h : k ≤ rest.length) :
    slice (store buf (rest.take k)) 0 k = rest.take k := by
  have hl : (rest.take k).length = k := List.length_take_of_le h
  rw [slice, List.drop_zero, store]
  exact List.take_left' hl

theorem take_slice (buf : List α) (cur : Nat) (h : k ≤ n) :
    (slice buf cur n).take k = slice buf cur k := by
  rw [slice, List.take_take, Nat.min_eq_left h, slice]

theorem drop_slice (buf : List α) (cur k n : Nat) :
    (slice buf cur n).drop k = slice buf (cur + k) (n - k) := by
  rw [slice, List.drop_take, List.drop_drop, slice]

theorem slice_length_le (buf : List α) (cur n : Nat) : (slice buf cur n).length ≤ n :=
  List.length_take_le n _

/-- A file on its way to a sink: what has arrived, what is held in a buffer and what has not been
read. -/
structure Transfer (α : Type u) where
  out : List α
  held : List α
  rest : List α

/-- The buffer is filled when it is empty, and any part of what it holds is passed on in order. -/
inductive Transfer.Step : Transfer α → Transfer α → Prop where
  | fill : t.held = [] → Step t ⟨t.out, t.rest.take k, t.rest.drop k⟩
  | drain : Step t ⟨t.out ++ t.held.take k, t.held.drop k, t.rest⟩

theorem Transfer.Step.read {t : Transfer α} (h : t.held = []) (buf : List α)
    (hk : k ≤ t.rest.length) :
    Transfer.Step t ⟨t.out, slice (store buf (t.rest.take k)) 0 k, t.rest.drop k⟩ := by
  rw [slice_store_take buf hk]
  exact .fill h

theorem Transfer.Step.write {t : Transfer α} {buf : List α} (h : t.held = slice buf cur n)
    (hk : k ≤ n) :
    Transfer.Step t ⟨t.out ++ slice buf cur k, slice buf (cur + k) (n - k), t.rest⟩ := by
  rw [← take_slice buf cur hk, ← drop_slice, ← h]
  exact .drain

def transfer (content : List α) : System (Transfer α) where
  init t := t = ⟨[], [], content⟩
  step := Transfer.Step

theorem Transfer.content_eq {t : Transfer α} (h : (transfer content).Reachable t) :
    t.out ++ (t.held ++ t.rest) = content := by
  induction h with
  | init h0 =>
    subst h0
    rfl
  | step _ hst ih =>
    cases hst with
    | fill hh =>
      rw [← ih, hh]
      simp only [List.nil_append, List.take_append_drop]
    | drain =>
      rw [← ih, List.append_assoc, ← List.append_assoc (List.take _ _), List.take_append_drop]

theorem Transfer.out_prefix {t : Transfer α} (h : (transfer content).Reachable t) :
    t.out <+: content :=
  ⟨_, Transfer.content_eq h⟩

theorem Transfer.out_eq {t : Transfer α} (h : (transfer content).Reachable t)
    (hh : t.held = []) (hr : t.rest = []) : t.out = content := by
  have hc := Transfer.content_eq h
  rwa [hh, hr, List.nil_append, List.append_nil] at hc

end Apue
