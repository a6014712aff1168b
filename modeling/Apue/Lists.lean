import Mathlib.Algebra.Ring.Nat
import Mathlib.Data.List.Infix

namespace Apue
set_option autoImplicit true

open scoped List

theorem concat_getElem? {b : List α} {k : Nat} :
    (b ++ [y])[k]? = some x ↔ b[k]? = some x ∨ k = b.length ∧ x = y := by
  rw [List.getElem?_append]
  split
  · have hne : k ≠ b.length := by omega
    simp only [hne, false_and, or_false]
  · have hn : b[k]? = none := List.getElem?_eq_none (by omega)
    rw [hn, List.getElem?_singleton]
    simp only [Option.ite_none_right_eq_some, Option.some.injEq, reduceCtorEq, false_or]
    constructor
    · rintro ⟨hz, he⟩
      exact ⟨by omega, he.symm⟩
    · rintro ⟨hz, he⟩
      exact ⟨by omega, he.symm⟩

theorem forall_concat_prefix {P : List α → α → Prop} {l : List α} :
    (∀ pre a, pre ++ [a] <+: l ++ [b] → P pre a) ↔
      (∀ pre a, pre ++ [a] <+: l → P pre a) ∧ P l b := by
  constructor
  · intro h
    constructor
    · intro pre a hp
      exact h pre a (hp.trans (List.prefix_append l [b]))
    · exact h l b (List.prefix_refl _)
  · rintro ⟨h, hlast⟩ pre a hp
    rcases List.prefix_concat_iff.mp hp with he | hp
    · obtain ⟨rfl, ha⟩ := List.append_inj' he rfl
      cases ha
      exact hlast
    · exact h pre a hp

theorem concat_sublist_concat {l r : List α} :
    l ++ [a] <+ r ++ [b] ↔ l ++ [a] <+ r ∨ (a = b ∧ l <+ r) := by
  constructor
  · intro h
    obtain ⟨l₁, l₂, he, h₁, h₂⟩ := List.sublist_append_iff.mp h
    rcases List.sublist_singleton.mp h₂ with rfl | rfl
    · rw [List.append_nil] at he
      exact .inl (he ▸ h₁)
    · obtain ⟨rfl, hab⟩ := List.append_inj' he rfl
      exact .inr ⟨List.singleton_inj.mp hab, h₁⟩
  · rintro (h | ⟨rfl, h⟩)
    · exact h.trans (List.sublist_append_left r [b])
    · exact h.append_right [a]

theorem flatMap_filter {q : α → Bool} {g : α → List β} (h : ∀ a, q a = false → g a = [])
    (l : List α) : (l.filter q).flatMap g = l.flatMap g := by
  induction l with
  | nil => rfl
  | cons a l ih =>
    cases ha : q a with
    | true => rw [List.filter_cons_of_pos ha, List.flatMap_cons, List.flatMap_cons, ih]
    | false =>
      rw [List.filter_cons_of_neg (by simp [ha]), ih, List.flatMap_cons, h a ha, List.nil_append]

theorem flatMap_eq_of_unique {l : List α} {f : α → List β} (hn : l.Nodup) (ha : a ∈ l)
    (h : ∀ e ∈ l, e ≠ a → f e = []) : l.flatMap f = f a := by
  induction l with
  | nil => cases ha
  | cons x l ih =>
    obtain ⟨hx, hn⟩ := List.nodup_cons.1 hn
    rw [List.flatMap_cons]
    rcases List.mem_cons.1 ha with rfl | ha
    · have hnil : l.flatMap f = [] := List.flatMap_eq_nil_iff.2 fun e he =>
        h e (List.mem_cons_of_mem _ he) fun hea => hx (hea ▸ he)
      rw [hnil, List.append_nil]
    · have hxa : x ≠ a := fun hea => hx (hea ▸ ha)
      rw [h x List.mem_cons_self hxa, List.nil_append,
        ih hn ha fun e he => h e (List.mem_cons_of_mem _ he)]

theorem sum_ite_eq_countP (p : α → Prop) [DecidablePred p] (l : List α) :
    (l.map fun a => if p a then (1 : Nat) else 0).sum = l.countP fun a => decide (p a) := by
  induction l with
  | nil => rfl
  | cons a l ih =>
    rw [List.map_cons, List.sum_cons, ih, List.countP_cons, Nat.add_comm]
    simp only [decide_eq_true_eq]

theorem eq_range_of_decreasing {l : List Nat} (hs : l.Pairwise (· > ·))
    (hd : ∀ q ∈ l, ∀ p < q, p ∈ l) : l = (List.range l.length).reverse := by
  induction l with
  | nil => rfl
  | cons q l ih =>
    obtain ⟨hq, hl⟩ := List.pairwise_cons.1 hs
    have hdown : ∀ x ∈ l, ∀ p < x, p ∈ l := by
      intro x hx p hp
      have hlt := hq x hx
      rcases List.mem_cons.1 (hd x (List.mem_cons_of_mem q hx) p hp) with rfl | hm
      · exact absurd hlt (Nat.not_lt.2 (Nat.le_of_lt hp))
      · exact hm
    have hrange := ih hl hdown
    have hmem (p : Nat) : p ∈ l ↔ p < l.length := by
      rw [hrange, List.mem_reverse, List.mem_range, List.length_reverse, List.length_range]
    have hlen : q = l.length := by
      apply Nat.le_antisymm
      · by_contra hlt
        rcases List.mem_cons.1 (hd q List.mem_cons_self l.length (Nat.not_le.1 hlt)) with he | hm
        · omega
        · exact absurd ((hmem _).1 hm) (Nat.lt_irrefl _)
      · by_contra hlt
        exact absurd (hq q ((hmem q).2 (Nat.not_le.1 hlt))) (Nat.lt_irrefl q)
    rw [List.length_cons, List.range_succ, List.reverse_append, ← hrange, ← hlen]
    rfl

theorem prefix_of_getElem? {l m : List α}
    (h : l.map some = (List.range l.length).map fun i => m[i]?) : l <+: m := by
  rw [List.prefix_iff_getElem?]
  intro i hi
  have hget := congrArg (·[i]?) h
  simp only [List.getElem?_map, List.getElem?_eq_getElem hi, List.getElem?_range hi,
    Option.map_some, Option.some.injEq] at hget
  exact hget.symm

end Apue
