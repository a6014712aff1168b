import Mathlib.Data.Finset.Card
import Mathlib.Data.List.Basic
import Mathlib.Logic.Relation

namespace Apue
set_option autoImplicit true

structure System (σ : Type u) where
  init : σ → Prop
  step : σ → σ → Prop

/-- The states at the end of finite runs. -/
inductive System.Reachable (S : System σ) : σ → Prop where
  | init : S.init s → Reachable S s
  | step : Reachable S s → S.step s t → Reachable S t

theorem System.Reachable.invariant {S : System σ} {P : σ → Prop} (h : S.Reachable s)
    (hi : ∀ s, S.init s → P s)
    (hs : ∀ s t, S.Reachable s → P s → S.step s t → P t) : P s := by
  induction h with
  | init h0 => exact hi _ h0
  | step hr hst ih => exact hs _ _ hr ih hst

theorem System.Reachable.trans {S : System σ} (h : S.Reachable s)
    (hst : Relation.ReflTransGen S.step s t) : S.Reachable t := by
  induction hst with
  | refl => exact h
  | tail _ hst ih => exact .step ih hst

theorem System.reachable_of_run {S : System σ} {r : Nat → σ} (h0 : S.init (r 0))
    (hr : ∀ i < k, S.step (r i) (r (i + 1))) (hj : j ≤ k) : S.Reachable (r j) := by
  induction j with
  | zero => exact .init h0
  | succ j ih => exact .step (ih (Nat.le_of_succ_le hj)) (hr j hj)

theorem exists_seq_of_reflTransGen {step : σ → σ → Prop} (h : Relation.ReflTransGen step s t) :
    ∃ k, ∃ r : Nat → σ, r 0 = s ∧ r k = t ∧ ∀ i < k, step (r i) (r (i + 1)) := by
  induction h using Relation.ReflTransGen.head_induction_on with
  | refl => exact ⟨0, fun _ => t, rfl, rfl, fun i hi => absurd hi (Nat.not_lt_zero i)⟩
  | @head a b hst _ ih =>
    obtain ⟨k, r, rfl, hk, hr⟩ := ih
    refine ⟨k + 1, fun i => i.casesOn a r, rfl, hk, ?_⟩
    intro i hi
    cases i with
    | zero => exact hst
    | succ i => exact hr i (Nat.lt_of_succ_lt_succ hi)

/-- Where every state that is not final has a step to a state of smaller rank, a run leads to a
final state. -/
theorem exists_run_of_rank {step : σ → σ → Prop} {Inv Final : σ → Prop} (rank : σ → Nat)
    (hstep : ∀ s, Inv s → ¬Final s → ∃ t, step s t ∧ Inv t ∧ rank t < rank s) (h : Inv s) :
    ∃ t, Relation.ReflTransGen step s t ∧ Inv t ∧ Final t := by
  induction hn : rank s using Nat.strongRecOn generalizing s with
  | _ n ih =>
    by_cases hf : Final s
    · exact ⟨s, .refl, h, hf⟩
    · obtain ⟨t, hst, ht, hlt⟩ := hstep s h hf
      obtain ⟨u, hrun, hu⟩ := ih (rank t) (hn ▸ hlt) ht rfl
      exact ⟨u, .head hst hrun, hu⟩

/-- A rank that falls with every step outside `S` and rises by at most `d` inside bounds the length
of a run. -/
theorem run_length_le {r : Nat → σ} {S : Finset Nat} (rank : σ → Nat)
    (hdrop : ∀ i < k, i ∉ S → rank (r (i + 1)) < rank (r i))
    (hrise : ∀ i < k, rank (r (i + 1)) ≤ rank (r i) + d) :
    rank (r k) + k ≤ rank (r 0) + (d + 1) * S.card := by
  induction k generalizing S with
  | zero => exact Nat.le_add_right _ _
  | succ k ih =>
    have hr := hrise k k.lt_succ_self
    by_cases hk : k ∈ S
    · -- the last step is paid for by its own member of `S`
      have hrun := ih (S := S.erase k)
        (fun i hi hS => hdrop i (by omega) fun h => hS (Finset.mem_erase.2 ⟨by omega, h⟩))
        (fun i hi => hrise i (by omega))
      rw [← Finset.card_erase_add_one hk, Nat.mul_succ]
      omega
    · have hrun := ih (fun i hi => hdrop i (by omega)) (fun i hi => hrise i (by omega))
      have hlt := hdrop k k.lt_succ_self hk
      omega

/-- The same system with only the steps that meet a condition. -/
def System.guard (S : System σ) (ok : σ → σ → Prop) : System σ where
  init := S.init
  step s t := S.step s t ∧ ok s t

theorem System.Reachable.of_guard {S : System σ} {ok : σ → σ → Prop}
    (h : (S.guard ok).Reachable s) : S.Reachable s := by
  induction h with
  | init h0 => exact .init h0
  | step hr hst ih => exact .step ih hst.1

/-- Every reachable state is related to a reachable state of a system that simulates it, where
a step may be matched by no step. -/
theorem System.Reachable.simulation {S : System σ} {T : System τ} {R : σ → τ → Prop}
    (h : S.Reachable s) (hi : ∀ s, S.init s → ∃ t, T.init t ∧ R s t)
    (hs : ∀ s s' t, S.Reachable s → R s t → S.step s s' →
      ∃ t', (t' = t ∨ T.step t t') ∧ R s' t') : ∃ t, T.Reachable t ∧ R s t := by
  induction h with
  | init h0 =>
    obtain ⟨t, ht, hR⟩ := hi _ h0
    exact ⟨t, .init ht, hR⟩
  | step hr hst ih =>
    obtain ⟨t, ht, hR⟩ := ih
    obtain ⟨t', he | hst', hR'⟩ := hs _ _ t hr hR hst
    · subst he
      exact ⟨t', ht, hR'⟩
    · exact ⟨t', .step ht hst', hR'⟩

theorem System.Reachable.project {S : System σ} {T : System τ} {f : σ → τ} (h : S.Reachable s)
    (hi : ∀ s, S.init s → T.init (f s))
    (hs : ∀ s s', S.Reachable s → S.step s s' → f s' = f s ∨ T.step (f s) (f s')) :
    T.Reachable (f s) := by
  induction h with
  | init h0 => exact .init (hi _ h0)
  | step hr hst ih =>
    rcases hs _ _ hr hst with he | hst'
    · rw [he]
      exact ih
    · exact .step ih hst'

/-- A finite run, listed with the latest state first. -/
inductive System.Run (S : System σ) : List σ → Prop where
  | start : S.init s → Run S [s]
  | step : Run S (s :: l) → S.step s t → Run S (t :: s :: l)

theorem System.Run.reachable {S : System σ} (h : S.Run l) : ∀ s ∈ l, S.Reachable s := by
  induction h with
  | start h0 =>
    intro s hs
    rw [List.mem_singleton] at hs
    subst hs
    exact .init h0
  | step hr hst ih =>
    intro s hs
    rcases List.mem_cons.1 hs with he | hm
    · subst he
      exact .step (ih _ List.mem_cons_self) hst
    · exact ih s hm

theorem System.Reachable.exists_run {S : System σ} (h : S.Reachable s) : ∃ l, S.Run (s :: l) := by
  induction h with
  | init h0 => exact ⟨[], .start h0⟩
  | step _ hst ih =>
    obtain ⟨l, hrun⟩ := ih
    exact ⟨_, hrun.step hst⟩

/-- The second list is the first one with some repetitions of a state left out. -/
inductive Destutter : List σ → List σ → Prop where
  | nil : Destutter [] []
  | keep : Destutter l l' → Destutter (s :: l) (s :: l')
  | skip : Destutter (s :: l) l' → Destutter (s :: s :: l) l'

theorem Destutter.head (h : Destutter (s :: l) l') : ∃ k, l' = s :: k := by
  generalize he : s :: l = m at h
  induction h generalizing l with
  | nil => cases he
  | keep =>
    cases he
    exact ⟨_, rfl⟩
  | skip _ ih =>
    cases he
    exact ih rfl

/-- Where every step is projected to a step or to nothing, a run is projected to a run, up to
repetitions. -/
theorem System.Run.project {S : System σ} {T : System τ} {f : σ → τ} (h : S.Run l)
    (hi : ∀ s, S.init s → T.init (f s))
    (hs : ∀ s s', S.Reachable s → S.step s s' → f s' = f s ∨ T.step (f s) (f s')) :
    ∃ l', T.Run l' ∧ Destutter (l.map f) l' := by
  induction h with
  | @start s h0 => exact ⟨[f s], .start (hi _ h0), .keep .nil⟩
  | @step s l t hr hst ih =>
    obtain ⟨l', hrun, hd⟩ := ih
    obtain ⟨k, rfl⟩ := hd.head
    rcases hs s t (hr.reachable s List.mem_cons_self) hst with he | hst'
    · refine ⟨f s :: k, hrun, ?_⟩
      rw [List.map_cons, he]
      exact .skip hd
    · exact ⟨f t :: f s :: k, .step hrun hst', .keep hd⟩

end Apue
