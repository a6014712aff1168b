import Apue.CharPtr

namespace Apue
set_option autoImplicit true

/-- strcpy(dst + k, src) for what stands at src and behind it: one character after the other, up to
the NUL. -/
def strcpy : (src dst : List Char) → (k : Nat) → Except Fault (List Char)
  | [], _, _ => .error .bounds
  | c :: src, dst, k => do
    let dst ← modifyAt dst k fun _ => c
    if c = nul then return dst else strcpy src dst (k + 1)

theorem cString_nul {s : List Char} (h : nul ∉ s) (rest : List Char) :
    cString (s ++ nul :: rest) = .ok s := by
  rw [cString_append h, cString, if_pos rfl, Except.map, List.append_nil]

theorem modify_append_cons (front : List α) (x : α) (behind : List α) (f : α → α) :
    (front ++ x :: behind).modify front.length f = front ++ f x :: behind := by
  induction front with
  | nil => rfl
  | cons a front ih => rw [List.cons_append, List.length_cons, List.modify_succ_cons, ih]; rfl

theorem strcpy_eq {s : List Char} (hs : nul ∉ s) (rest front behind : List Char)
    (hold : old.length = s.length + 1) :
    strcpy (s ++ nul :: rest) (front ++ (old ++ behind)) front.length =
      .ok (front ++ (s ++ nul :: behind)) := by
  induction s generalizing front old with
  | nil =>
    obtain ⟨x, rfl⟩ := List.length_eq_one_iff.mp hold
    have hlt : front.length < (front ++ ([x] ++ behind)).length := by simp
    rw [List.nil_append, strcpy, modifyAt_of_lt hlt, ok_bind, if_pos rfl]
    exact congrArg Except.ok (modify_append_cons ..)
  | cons c s ih =>
    obtain ⟨x, old, rfl⟩ := List.exists_cons_of_length_eq_add_one hold
    have hc : c ≠ nul := fun he => hs (he ▸ List.mem_cons_self)
    have hs' : nul ∉ s := fun hm => hs (List.mem_cons_of_mem c hm)
    have hlt : front.length < (front ++ (x :: old ++ behind)).length := by simp
    rw [List.cons_append, strcpy, modifyAt_of_lt hlt, ok_bind, if_neg hc, List.cons_append,
      modify_append_cons]
    have hrest := ih hs' (front ++ [c]) (Nat.succ.inj hold)
    rw [List.length_append, List.length_singleton, List.append_assoc, List.append_assoc] at hrest
    exact hrest

end Apue
