import Apue.Memory
import Apue.PoolLocks

namespace Apue.ThreadPool
set_option autoImplicit true

/-- Where an accepted submission is: stored in a slot, or taken by a worker. -/
inductive Place (W : Type) where
  | slot (i : Slot)
  | worker (w : W)

/-- Every ticket has one place; a submission appends a ticket, and a worker takes one from its
slot. -/
inductive BoardStep : List (Place W) → List (Place W) → Prop where
  | submit : BoardStep b (b ++ [.slot i])
  | take : b[k]? = some (.slot i) → BoardStep b (b.set k (.worker w))

inductive Stage where
  | popped
  | running
  | returned

structure Held (F A : Type) where
  slot : Slot
  job : Job F A
  stage : Stage

/-- What a worker holds from the pop to its last unlock. -/
def Worker.held : Worker F A → Option (Held F A)
  | .runUnlock i (some f) a k => some ⟨i, ⟨f, a, k⟩, .popped⟩
  | .unlockMtx i j | .start i j => some ⟨i, j, .popped⟩
  | .running i j => some ⟨i, j, .running⟩
  | .unlockWait i j => some ⟨i, j, .returned⟩
  | _ => none

/-- Ticket `k` is pending in a slot, or popped, run or finished by a worker. -/
def State.At (s : State W C F A) (k : Nat) : Place W → Prop
  | .slot i => s.pool.tasks i ≠ none ∧ s.pool.ticket i = k
  | .worker w =>
    (∃ x, (s.worker w).held = some x ∧ x.job.ticket = k) ∨ (w, k) ∈ s.pool.finished

/-- The board shows the place of every ticket of the state. -/
def Represents (s : State W C F A) (b : List (Place W)) : Prop :=
  ∀ k x, s.At k x ↔ b[k]? = some x

theorem Represents.frame {s s' : State W C F A} (h : Represents s b)
    (ht : s'.pool.tasks = s.pool.tasks) (hk : s'.pool.ticket = s.pool.ticket)
    (hw : ∀ k w, s'.At k (.worker w) ↔ s.At k (.worker w)) : Represents s' b := by
  intro k x
  rw [← h k x]
  cases x with
  | slot i => simp only [State.At, ht, hk]
  | worker w => exact hw k w

theorem set_getElem? {b : List α} {k n : Nat} (hn : b[n]? = some z) :
    (b.set n y)[k]? = some x ↔ (k = n ∧ x = y) ∨ (k ≠ n ∧ b[k]? = some x) := by
  obtain ⟨hl, -⟩ := List.getElem?_eq_some_iff.1 hn
  rw [List.getElem?_set]
  split
  · rename_i he
    subst he
    simp [hl, eq_comm]
  · rename_i hne
    simp [Ne.symm hne]

theorem Represents.submit {s s' : State W C F A} (h : Represents s b)
    (hi : s.pool.tasks i = none)
    (ht : s'.pool.tasks = Function.update s.pool.tasks i (some f))
    (hk : s'.pool.ticket = Function.update s.pool.ticket i b.length)
    (hw : s'.worker = s.worker) (hf : s'.pool.finished = s.pool.finished) :
    Represents s' (b ++ [.slot i]) := by
  intro k x
  rw [concat_getElem?, ← h k x]
  cases x with
  | worker w => simp [State.At, hw, hf]
  | slot j =>
    by_cases hj : j = i
    · subst hj
      simp only [State.At, ht, hk, hi, Function.update_self]
      simp [eq_comm]
    · simp [State.At, ht, hk, hj]

theorem Represents.take [DecidableEq W] {s s' : State W C F A} {w : W} (h : Represents s b)
    (hi : s.pool.tasks i ≠ none) (hq : (s.worker w).held = none)
    (ht : s'.pool.tasks = Function.update s.pool.tasks i none)
    (hk : s'.pool.ticket = s.pool.ticket)
    (hw : s'.worker = Function.update s.worker w q) (hx : q.held = some x)
    (hj : x.job.ticket = s.pool.ticket i) (hf : s'.pool.finished = s.pool.finished) :
    Represents s' (b.set (s.pool.ticket i) (.worker w)) := by
  have hb : b[s.pool.ticket i]? = some (.slot i) := (h _ (.slot i)).1 ⟨hi, rfl⟩
  intro k y
  rw [set_getElem? hb, ← h k y]
  -- Only the popped ticket moves; any other place of it would be a second entry of the board.
  have hne (hy : y ≠ .slot i) (hk : s.At k y) : k ≠ s.pool.ticket i := by
    rintro rfl
    exact hy (Option.some.inj (((h _ y).1 hk).symm.trans hb))
  cases y with
  | slot j =>
    by_cases hj : j = i
    · subst hj
      simp only [State.At, ht, Function.update_self, hk]
      constructor
      · rintro ⟨hn, -⟩
        exact absurd rfl hn
      · rintro (⟨-, he⟩ | ⟨hn, -, he⟩)
        · cases he
        · exact absurd he.symm hn
    · have hd : Place.slot (W := W) j ≠ .slot i := fun he => hj (Place.slot.inj he)
      have he : s'.At k (.slot j) ↔ s.At k (.slot j) := by
        simp only [State.At, ht, hk, Function.update_of_ne hj]
      simp only [he, reduceCtorEq, and_false, false_or]
      exact ⟨fun hs => ⟨hne hd hs, hs⟩, fun hs => hs.2⟩
  | worker v =>
    have hd : Place.worker v ≠ .slot i := by simp
    by_cases hv : v = w
    · subst hv
      simp only [State.At, hw, Function.update_self, hx, hf, hq]
      by_cases hki : k = s.pool.ticket i
      · simp [hki, hj]
      · simp [hki, hj, Ne.symm hki]
    · have hvw : Place.worker v ≠ .worker w := fun he => hv (Place.worker.inj he)
      have he : s'.At k (.worker v) ↔ s.At k (.worker v) := by
        simp only [State.At, hw, Function.update_of_ne hv, hf]
      simp only [he, hvw, and_false, false_or]
      exact ⟨fun hs => ⟨hne hd hs, hs⟩, fun hs => hs.2⟩

theorem Represents.unique {s : State W C F A} (h : Represents s b) (hx : s.At k x)
    (hy : s.At k y) : x = y :=
  Option.some.inj (((h k x).1 hx).symm.trans ((h k y).1 hy))

theorem Represents.holder {s : State W C F A} (h : Represents s b)
    (hx : (s.worker w).held = some x) (hy : s.At x.job.ticket (.worker v)) : v = w :=
  Place.worker.inj (h.unique hy (.inl ⟨x, hx, rfl⟩))

theorem Represents.pending_undone {s : State W C F A} (h : Represents s b)
    (hi : s.pool.tasks i = some f) : (v, s.pool.ticket i) ∉ s.pool.finished := by
  intro hm
  have hp : s.At (s.pool.ticket i) (.slot i) := ⟨by simp only [hi, ne_eq, reduceCtorEq,
    not_false_eq_true], rfl⟩
  have hw : s.At (s.pool.ticket i) (.worker v) := .inr hm
  cases h.unique hp hw

end Apue.ThreadPool
