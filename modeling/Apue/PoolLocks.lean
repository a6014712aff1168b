import Apue.Ownership
import Apue.PoolModel

namespace Apue.ThreadPool
set_option autoImplicit true

/-- The statements a worker executes while it holds `mtx`. -/
def Worker.holdsMtx : Worker F A → Prop
  | .findLock | .findScan | .findUnlock _ | .condWait => True
  | .runLock _ | .runPop _ | .runUnlock .. | .unlockMtx .. => True
  | _ => False

def Worker.holdsTaskMtx : Worker F A → Prop
  | .findScan | .findUnlock _ | .runPop _ | .runUnlock .. => True
  | _ => False

def Call.holdsTaskMtx : Call F A → Prop
  | .addScan .. | .addLockWait .. | .addStore .. | .addUnlock .. | .addFull => True
  | _ => False

/-- The slot a worker has found occupied and is about to pop. -/
def Worker.target : Worker F A → Option Slot
  | .findUnlock tid => tid
  | .runLock i | .runPop i => some i
  | _ => none

/-- The slot `tp_add_task` has found free and not yet filled. -/
def Call.choice : Call F A → Option Slot
  | .addLockWait _ _ i | .addStore _ _ i => some i
  | _ => none

/-- `task_mtx` is taken by workers and by calls. -/
def State.holdsTaskMtx (s : State W C F A) : W ⊕ (W ⊕ C) → Prop
  | .inl w => (s.worker w).holdsTaskMtx
  | .inr t => (s.call t).holdsTaskMtx

/-- Who holds `mtx` and `task_mtx`, and what their holders know about the slots. -/
structure Locks (s : State W C F A) : Prop where
  nested : ∀ w, s.call (.inl w) ≠ .idle → ∃ i j, s.worker w = .running i j
  mtx : Owned s.pool.mtx (fun w => (s.worker w).holdsMtx)
  taskMtx : Owned s.pool.taskMtx s.holdsTaskMtx
  found : ∀ w i, (s.worker w).target = some i → s.pool.tasks i ≠ none
  popped : ∀ w i a k, s.worker w ≠ .runUnlock i none a k
  chosen : ∀ t i, (s.call t).choice = some i → s.pool.tasks i = none

theorem tpInit_fresh (h : Fresh p) : tpInit p =
    { p with
      tasks := fun _ => none
      args := fun _ => none
      waits := fun _ => false
      mtx := false
      taskMtx := false
      asleep := fun _ => false
      initialized := true } := by
  simp only [tpInit, h.initialized, Bool.false_eq_true, ↓reduceIte]

theorem Init.locks {s : State W C F A} (h : Init s) : Locks s := by
  obtain ⟨⟨p, hp, he⟩, hw, hc⟩ := h
  rw [tpInit_fresh hp] at he
  constructor
  · intro w hn
    exact absurd (hc _) hn
  · refine ⟨?_, ?_⟩ <;> simp [he, hw, Worker.holdsMtx]
  · have hn (x : W ⊕ (W ⊕ C)) : ¬s.holdsTaskMtx x := by
      cases x with
      | inl w => simp [State.holdsTaskMtx, hw, Worker.holdsTaskMtx]
      | inr t => simp [State.holdsTaskMtx, hc, Call.holdsTaskMtx]
    refine ⟨?_, fun hx => (hn _ hx).elim⟩
    simp [he, hn]
  · intro w i ht
    simp [hw, Worker.target] at ht
  · intro w i a k
    simp [hw]
  · intro t i ht
    simp [he]

section
variable [DecidableEq W]

theorem WorkerStep.mtx {w : W} (h : WorkerStep w p q p' q')
    (hq : ∀ i a k, q ≠ .runUnlock i none a k) :
    Handover p.mtx p'.mtx q.holdsMtx q'.holdsMtx := by
  cases h with
  | runNull => exact absurd rfl (hq _ _ _)
  | _ => simp_all [Handover, Worker.holdsMtx]

theorem CallStep.mtx (h : CallStep p c p' c') : p'.mtx = p.mtx := by
  cases h <;> rfl

theorem WorkerStep.taskMtx {w : W} (h : WorkerStep w p q p' q') :
    Handover p.taskMtx p'.taskMtx q.holdsTaskMtx q'.holdsTaskMtx := by
  cases h <;> simp_all [Handover, Worker.holdsTaskMtx]

theorem CallStep.taskMtx (h : CallStep p c p' c') :
    Handover p.taskMtx p'.taskMtx c.holdsTaskMtx c'.holdsTaskMtx := by
  cases h <;> simp_all [Handover, Call.holdsTaskMtx]

theorem WorkerStep.tasks {w : W} (h : WorkerStep w p q p' q') :
    p'.tasks = p.tasks ∨ ∃ i, q = .runPop i ∧ p'.tasks = Function.update p.tasks i none := by
  cases h with
  | runPop => exact .inr ⟨_, rfl, rfl⟩
  | _ => exact .inl rfl

theorem CallStep.tasks (h : CallStep p c p' c') :
    p'.tasks = p.tasks ∨
      ∃ f a i, c = .addStore f a i ∧ p'.tasks = Function.update p.tasks i (some f) := by
  cases h with
  | store => exact .inr ⟨_, _, _, rfl, rfl⟩
  | _ => exact .inl rfl

/-- A slot found by the scan of `find_task_lock` was occupied, and the worker keeps it. -/
theorem WorkerStep.target {w : W} (h : WorkerStep w p q p' q') (ht : q'.target = some i) :
    p'.tasks = p.tasks ∧ (q.target = some i ∨ p.tasks i ≠ none) := by
  cases h with
  | findScan =>
    simp only [Worker.target] at ht
    exact ⟨rfl, .inr (findTask_some ht)⟩
  | findSome => exact ⟨rfl, .inl ht⟩
  | runLock => exact ⟨rfl, .inl ht⟩
  | _ => cases ht

theorem CallStep.choice (h : CallStep p c p' c') (hc : c'.choice = some i) :
    p'.tasks = p.tasks ∧ (c.choice = some i ∨ p.tasks i = none) := by
  cases h with
  | found hf =>
    cases hc
    exact ⟨rfl, .inr (findFree_some hf)⟩
  | lockWait => exact ⟨rfl, .inl hc⟩
  | _ => cases hc

theorem Worker.target_holdsMtx {q : Worker F A} (h : q.target = some i) : q.holdsMtx := by
  cases q with
  | findUnlock => trivial
  | runLock => trivial
  | runPop => trivial
  | _ => cases h

theorem Call.choice_holdsTaskMtx {c : Call F A} (h : c.choice = some i) : c.holdsTaskMtx := by
  cases c with
  | addLockWait => trivial
  | addStore => trivial
  | _ => cases h

theorem WorkerStep.not_popped_null {w : W} (h : WorkerStep w p q p' q')
    (hf : ∀ i, q.target = some i → p.tasks i ≠ none) : q' ≠ .runUnlock i none a k := by
  intro he
  cases h with
  | runPop =>
    obtain ⟨hi, ht, _⟩ := Worker.runUnlock.inj he
    exact hf _ rfl ht
  | _ => cases he

theorem Locks.worker {s : State W C F A} {w : W} (h : Locks s)
    (hi : s.call (.inl w) = .idle) (hs : WorkerStep w s.pool (s.worker w) p q) :
    Locks { s with pool := p, worker := Function.update s.worker w q } := by
  constructor
  · intro w' hn
    have hne : w' ≠ w := by
      rintro rfl
      exact hn hi
    simpa only [Function.update_of_ne hne] using h.nested w' hn
  · apply h.mtx.handover w
    · simpa only [Function.update_self] using hs.mtx (h.popped w)
    · intro w' hne
      simp only [Function.update_of_ne hne]
  · apply h.taskMtx.handover (.inl w)
    · simpa only [State.holdsTaskMtx, Function.update_self] using hs.taskMtx
    · intro x hne
      cases x with
      | inl w' =>
        have hw : w' ≠ w := fun he => hne (congrArg Sum.inl he)
        simp only [State.holdsTaskMtx, Function.update_of_ne hw]
      | inr t => rfl
  · intro w' i ht
    by_cases hw : w' = w
    · subst hw
      simp only [Function.update_self] at ht
      obtain ⟨he, hf | hf⟩ := hs.target ht
      · simpa only [he] using h.found w' i hf
      · simpa only [he] using hf
    · simp only [Function.update_of_ne hw] at ht
      rcases hs.tasks with he | ⟨j, hq, he⟩
      · simpa only [he] using h.found w' i ht
      · refine absurd (h.mtx.unique (Worker.target_holdsMtx ht) ?_) hw
        rw [hq]
        trivial
  · intro w' i a k
    by_cases hw : w' = w
    · subst hw
      simp only [Function.update_self]
      exact hs.not_popped_null (h.found w')
    · simpa only [Function.update_of_ne hw] using h.popped w' i a k
  · intro t i hc
    rcases hs.tasks with he | ⟨j, hq, he⟩
    · simpa only [he] using h.chosen t i hc
    · simp only [he, Function.update_apply, h.chosen t i hc, ite_self]

variable [DecidableEq C]

theorem Locks.call {s : State W C F A} {t : W ⊕ C} (h : Locks s)
    (hs : CallStep s.pool (s.call t) p c) :
    Locks { s with pool := p, call := Function.update s.call t c } := by
  constructor
  · intro w hn
    apply h.nested w
    intro hi
    by_cases ht : Sum.inl w = t
    · subst ht
      rw [hi] at hs
      cases hs
    · exact hn ((Function.update_of_ne ht _ _).trans hi)
  · simpa only [hs.mtx] using h.mtx
  · apply h.taskMtx.handover (.inr t)
    · simpa only [State.holdsTaskMtx, Function.update_self] using hs.taskMtx
    · intro x hne
      cases x with
      | inl w => rfl
      | inr t' =>
        have ht : t' ≠ t := fun he => hne (congrArg Sum.inr he)
        simp only [State.holdsTaskMtx, Function.update_of_ne ht]
  · intro w i ht
    rcases hs.tasks with he | ⟨f, a, j, hc, he⟩
    · simpa only [he] using h.found w i ht
    · simp only [he, Function.update_apply]
      split
      · exact Option.some_ne_none _
      · exact h.found w i ht
  · exact h.popped
  · intro t' i ht
    by_cases he : t' = t
    · subst he
      simp only [Function.update_self] at ht
      obtain ⟨he, hc | hc⟩ := hs.choice ht
      · simpa only [he] using h.chosen t' i hc
      · simpa only [he] using hc
    · simp only [Function.update_of_ne he] at ht
      rcases hs.tasks with hk | ⟨f, a, j, hc, hk⟩
      · simpa only [hk] using h.chosen t' i ht
      · have hh : s.holdsTaskMtx (.inr t) := by
          simp only [State.holdsTaskMtx, hc]
          trivial
        have hh' : s.holdsTaskMtx (.inr t') := Call.choice_holdsTaskMtx ht
        exact absurd (Sum.inr.inj (h.taskMtx.unique hh' hh)) he

theorem Locks.begin {s : State W C F A} {t : W ⊕ C} (h : Locks s) (hm : s.mayCall t)
    (hi : s.call t = .idle) (hh : ¬c.holdsTaskMtx) :
    Locks { s with call := Function.update s.call t c } := by
  constructor
  · intro w hn
    by_cases ht : Sum.inl w = t
    · subst ht
      exact hm
    · simp only [Function.update_of_ne ht] at hn
      exact h.nested w hn
  · exact h.mtx
  · apply h.taskMtx.congr
    intro x
    cases x with
    | inl w => rfl
    | inr t' =>
      by_cases ht : t' = t
      · subst ht
        simp only [State.holdsTaskMtx, Function.update_self, hi, hh]
        exact Iff.rfl
      · simp only [State.holdsTaskMtx, Function.update_of_ne ht]
  · exact h.found
  · exact h.popped
  · intro t' i hc
    by_cases ht : t' = t
    · subst ht
      simp only [Function.update_self] at hc
      exact absurd (Call.choice_holdsTaskMtx hc) hh
    · simp only [Function.update_of_ne ht] at hc
      exact h.chosen t' i hc

theorem Locks.step {s s' : State W C F A} (h : Locks s) (hs : Step s s') : Locks s' := by
  cases hs with
  | thread ht =>
    cases ht with
    | worker w he hi hw => exact h.worker hi hw
    | call t he hc => exact h.call hc
  | beginAdd t f a he hi hm => exact h.begin hm hi id
  | beginWait t i he hi hm => exact h.begin hm hi id
  | spurious w he => exact ⟨h.nested, h.mtx, h.taskMtx, h.found, h.popped, h.chosen⟩

theorem Reachable.locks {s : State W C F A} (h : Reachable s) : Locks s :=
  h.invariant (fun _ => Init.locks) (fun _ _ _ => Locks.step)

end

end Apue.ThreadPool
