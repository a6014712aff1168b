import Apue.PoolProgress

namespace Apue.ThreadPool
set_option autoImplicit true

/-- The task of `w` is blocked in `tp_add_task` on the mutex of its own slot, which only its own
completion unlocks. -/
def State.SelfBlocked (s : State W C F A) (w : W) : Prop :=
  ∃ i j f a, s.worker w = .running i j ∧ s.call (.inl w) = .addLockWait f a i ∧
    s.pool.waits i = true

/-- Worker `w` has popped the task of slot `i`, and the task has not returned. -/
def State.Unfinished (s : State W C F A) (w : W) (i : Slot) : Prop :=
  ∃ j st, (s.worker w).held = some ⟨i, j, st⟩ ∧ st ≠ .returned

/-- If the step gives `task_mtx` to a `tp_add_task` call, some slot is NULL below all tasks that
run. -/
def RoomBelow (s s' : State W C F A) : Prop :=
  ∀ t f a, s.call t = .addLock f a → s'.call t ≠ .addLock f a →
    ∀ w i, s.Unfinished w i → ∃ k < i, s.pool.tasks k = none

/-- A call that has taken `task_mtx` does not wait for a task to return. -/
structure Clear (s : State W C F A) : Prop where
  scan : ∀ t f a i w, s.call t = .addScan f a → findFree s.pool.tasks = some i →
    ¬s.Unfinished w i
  lockWait : ∀ t f a i w, s.call t = .addLockWait f a i → ¬s.Unfinished w i

theorem State.Unfinished.slot {s : State W C F A} (h : s.Unfinished w i) :
    s.holdsWait i (.worker w) := by
  obtain ⟨j, st, hx, -⟩ := h
  simp only [State.holdsWait, Worker.slot, hx, Option.map_some]

theorem State.unfinished_of_running {s : State W C F A} (h : s.worker w = .running i j) :
    s.Unfinished w i := by
  apply Exists.intro j
  apply Exists.intro Stage.running
  rw [h]
  exact ⟨rfl, nofun⟩

theorem Worker.held_returned {q : Worker F A} (h : q.held = some x) (hx : x.stage = .returned) :
    ∃ j, q = .unlockWait x.slot j := by
  cases q with
  | runUnlock i f a k =>
    cases f with
    | none => cases h
    | some f =>
      cases h
      cases hx
  | unlockWait i j =>
    cases h
    exact ⟨j, rfl⟩
  | _ =>
    cases h
    try cases hx

/-- The slot of a task that has not returned looks free and has its mutex locked. -/
theorem Tokens.unfinished {s : State W C F A} (h : Tokens s) (hw : s.Unfinished w i) :
    s.pool.waits i = true ∧ s.pool.tasks i = none := by
  constructor
  · exact (h i).held hw.slot
  · by_contra hn
    have hs : s.holdsWait i .slot := hn
    cases (h i).unique hw.slot hs

theorem Clear.not_selfBlocked {s : State W C F A} (h : Clear s) : ¬s.SelfBlocked w := by
  rintro ⟨i, j, f, a, hw, hc, -⟩
  exact h.lockWait _ f a i w hc (State.unfinished_of_running hw)

theorem CallStep.addLockWait_inv {p p' : Pool W F A} (h : CallStep p c p' c')
    (hc : c' = .addLockWait f a i) : c = .addScan f a ∧ findFree p.tasks = some i := by
  cases h with
  | found hf =>
    cases hc
    exact ⟨rfl, hf⟩
  | _ => cases hc

theorem CallStep.addScan_inv {p p' : Pool W F A} (h : CallStep p c p' c')
    (hc : c' = .addScan f a) : c = .addLock f a ∧ p'.tasks = p.tasks := by
  cases h with
  | lock =>
    cases hc
    exact ⟨rfl, rfl⟩
  | _ => cases hc

theorem CallStep.addLock_inv {p p' : Pool W F A} (h : CallStep p c p' c')
    (hc : c = .addLock f a) : p.taskMtx = false ∧ c' = .addScan f a ∧ p'.tasks = p.tasks := by
  cases h with
  | lock hm =>
    cases hc
    exact ⟨hm, rfl, rfl⟩
  | _ => cases hc

theorem Init.clear {s : State W C F A} (h : Init s) : Clear s where
  scan t f a i w hc := by simp [h.2.2] at hc
  lockWait t f a i w hc := by simp [h.2.2] at hc

section
variable [DecidableEq W] [DecidableEq C]

theorem Step.worker_eq {s s' : State W C F A} (h : Step s s')
    (hc : s.call (.inl w) ≠ .idle) : s'.worker w = s.worker w := by
  cases h with
  | thread ht =>
    cases ht with
    | worker w' he hi hw =>
      have hne : w ≠ w' := by
        rintro rfl
        exact hc hi
      exact Function.update_of_ne hne _ _
    | call t he hc => rfl
  | _ => rfl

theorem WorkerStep.unfinished_inv {p p' : Pool W F A} {w : W} (h : WorkerStep w p q p' q')
    (hx : q'.held = some ⟨i, j, st⟩) (hst : st ≠ .returned) :
    (∃ st', q.held = some ⟨i, j, st'⟩ ∧ st' ≠ .returned) ∨ q.holdsTaskMtx := by
  cases h with
  | runPop => exact .inr trivial
  | runUnlock => exact .inr trivial
  | unlockMtx => exact .inl ⟨_, hx, hst⟩
  | start =>
    cases hx
    exact .inl ⟨.popped, rfl, nofun⟩
  | finish =>
    cases hx
    exact absurd rfl hst
  | _ => cases hx

theorem Step.unfinished_inv {s s' : State W C F A} (h : Step s s') (hl : Locks s)
    (hc : (s.call t).holdsTaskMtx) (hw : s'.Unfinished w i) : s.Unfinished w i := by
  cases h with
  | thread ht =>
    cases ht with
    | worker w' he hi hs =>
      by_cases hne : w = w'
      · subst hne
        obtain ⟨j, st, hx, hst⟩ := hw
        simp only [Function.update_self] at hx
        rcases hs.unfinished_inv hx hst with ⟨st', hx', hst'⟩ | hh
        · exact ⟨j, st', hx', hst'⟩
        · have hw' : s.holdsTaskMtx (.inl w) := hh
          have ht' : s.holdsTaskMtx (.inr t) := hc
          cases hl.taskMtx.unique hw' ht'
      · simpa only [State.Unfinished, Function.update_of_ne hne] using hw
    | call => exact hw
  | _ => exact hw

theorem Step.unfinished {s s' : State W C F A} (h : Step s s') (hl : Locks s)
    (hw : s.Unfinished w i) :
    s'.Unfinished w i ∨
      ∃ j, s.worker w = .running i j ∧ s.call (.inl w) = .idle ∧ s.pool.exited = false := by
  cases h with
  | thread ht =>
    cases ht with
    | worker w' he hi hs =>
      by_cases hne : w = w'
      · subst hne
        obtain ⟨j, st, hx, hst⟩ := hw
        simp only [State.Unfinished, Function.update_self]
        generalize hq : s.worker w = q₀ at hs hx
        cases hs with
        | runNull => exact absurd hq (hl.popped w _ _ _)
        | runUnlock => exact .inl ⟨j, st, hx, hst⟩
        | unlockMtx => exact .inl ⟨j, st, hx, hst⟩
        | start =>
          cases hx
          exact .inl ⟨_, .running, rfl, nofun⟩
        | finish =>
          cases hx
          exact .inr ⟨_, rfl, hi, he⟩
        | unlockWait =>
          cases hx
          exact absurd rfl hst
        | _ => cases hx
      · left
        simpa only [State.Unfinished, Function.update_of_ne hne] using hw
    | call => exact .inl hw
  | _ => exact .inl hw

theorem Step.tasks_eq {s s' : State W C F A} (h : Step s s') (hl : Locks s)
    (hc : (s.call t).holdsTaskMtx) (hn : ∀ f a i, s.call t ≠ .addStore f a i) :
    s'.pool.tasks = s.pool.tasks := by
  have ht' : s.holdsTaskMtx (.inr t) := hc
  cases h with
  | thread ht =>
    cases ht with
    | worker w he hi hs =>
      rcases hs.tasks with he | ⟨i, hq, -⟩
      · exact he
      · have hw : s.holdsTaskMtx (.inl w) := by
          simp only [State.holdsTaskMtx, hq]
          trivial
        cases hl.taskMtx.unique hw ht'
    | call _ he hs =>
      rename_i t' p c
      rcases hs.tasks with he | ⟨f, a, i, hq, -⟩
      · exact he
      · have hh : s.holdsTaskMtx (.inr t') := by
          simp only [State.holdsTaskMtx, hq]
          trivial
        cases hl.taskMtx.unique hh ht'
        exact absurd hq (hn f a i)
  | _ => rfl

theorem Clear.step {s s' : State W C F A} (h : Clear s) (hr : Reachable s) (hs : Step s s')
    (hroom : RoomBelow s s') : Clear s' := by
  have hl := Reachable.locks hr
  constructor
  · intro t f a i w hc hf hw
    rcases hs.call_cases t with he | hst | ⟨-, ⟨f', a', he⟩ | ⟨k, he⟩⟩
    · rw [hc] at he
      have hh : (s.call t).holdsTaskMtx := by rw [← he]; trivial
      rw [hs.tasks_eq hl hh (by rw [← he]; nofun)] at hf
      exact h.scan t f a i w he.symm hf (hs.unfinished_inv hl hh hw)
    · -- the call has just been given the lock: the table and the workers are as they were
      obtain ⟨hlock, -⟩ := hst.addScan_inv hc
      obtain ⟨hfree, -, ht⟩ := hst.addLock_inv hlock
      rw [ht] at hf
      have hw' : s.Unfinished w i := by
        cases hs with
        | thread hth =>
          cases hth with
          | worker => exact absurd (hlock ▸ hc) nofun
          | call => exact hw
        | _ => exact hw
      obtain ⟨k, hk, hn⟩ := hroom t f a hlock (by rw [hc]; nofun) w i hw'
      exact (findFree_eq_some.1 hf).2 k hk hn
    · rw [hc] at he
      cases he
    · rw [hc] at he
      cases he
  · intro t f a i w hc hw
    rcases hs.call_cases t with he | hst | ⟨-, ⟨f', a', he⟩ | ⟨k, he⟩⟩
    · rw [hc] at he
      have hh : (s.call t).holdsTaskMtx := by rw [← he]; trivial
      exact h.lockWait t f a i w he.symm (hs.unfinished_inv hl hh hw)
    · obtain ⟨hscan, hf⟩ := hst.addLockWait_inv hc
      have hh : (s.call t).holdsTaskMtx := by rw [hscan]; trivial
      exact h.scan t f a i w hscan hf (hs.unfinished_inv hl hh hw)
    · rw [hc] at he
      cases he
    · rw [hc] at he
      cases he

theorem clear_of_roomBelow {s : State W C F A}
    (h : ((system W C F A).guard RoomBelow).Reachable s) : Clear s :=
  h.invariant (fun _ => Init.clear) fun _ _ hr hc hs => hc.step hr.of_guard hs.1 hs.2

/-- The pool hangs: `task_mtx` is not given back any more, so that no worker takes a task and no
call a slot. -/
def State.Hangs (s : State W C F A) : Prop :=
  s.pool.exited = false ∧ ∀ s', Relation.ReflTransGen Step s s' → s'.pool.taskMtx = true

def State.Frees (s : State W C F A) : Prop :=
  ∃ s', Relation.ReflTransGen Step s s' ∧ s'.pool.taskMtx = false

theorem State.Frees.head {s s' : State W C F A} (hs : Step s s') (h : s'.Frees) : s.Frees := by
  obtain ⟨u, hrun, hu⟩ := h
  exact ⟨u, .head hs hrun, hu⟩

theorem State.Frees.call {s : State W C F A} (hx : s.pool.exited = false) (hc : s.call t = c)
    (hs : CallStep s.pool c p c')
    (h : State.Frees { s with pool := p, call := Function.update s.call t c' }) : s.Frees := by
  subst hc
  exact h.head (.thread (.call t hx hs))

theorem State.Frees.worker {s : State W C F A} (hx : s.pool.exited = false)
    (hi : s.call (.inl w) = .idle) (hq : s.worker w = q) (hs : WorkerStep w s.pool q p q')
    (h : State.Frees { s with pool := p, worker := Function.update s.worker w q' }) :
    s.Frees := by
  subst hq
  exact h.head (.thread (.worker w hx hi hs))

theorem frees_findUnlock {s : State W C F A} (hx : s.pool.exited = false)
    (hi : s.call (.inl w) = .idle) (hq : s.worker w = .findUnlock tid) : s.Frees := by
  cases tid with
  | none => exact .worker hx hi hq .findNone ⟨_, .refl, rfl⟩
  | some i => exact .worker hx hi hq .findSome ⟨_, .refl, rfl⟩

theorem frees_runUnlock {s : State W C F A} (hx : s.pool.exited = false)
    (hi : s.call (.inl w) = .idle) (hq : s.worker w = .runUnlock i f a k) : s.Frees := by
  cases f with
  | none => exact .worker hx hi hq .runNull ⟨_, .refl, rfl⟩
  | some f => exact .worker hx hi hq .runUnlock ⟨_, .refl, rfl⟩

theorem frees_addFull {s : State W C F A} (hx : s.pool.exited = false)
    (hc : s.call t = .addFull) : s.Frees :=
  .call hx hc .fullUnlock ⟨_, .refl, rfl⟩

theorem frees_addUnlock {s : State W C F A} (hx : s.pool.exited = false)
    (hc : s.call t = .addUnlock i k) : s.Frees :=
  .call hx hc .unlock ⟨_, .refl, rfl⟩

theorem frees_addStore {s : State W C F A} (hx : s.pool.exited = false)
    (hc : s.call t = .addStore f a i) : s.Frees :=
  .call hx hc .store (frees_addUnlock hx (Function.update_self _ _ _))

theorem frees_lockWait {s : State W C F A} (hx : s.pool.exited = false)
    (hc : s.call t = .addLockWait f a i) (hw : s.pool.waits i = false) : s.Frees :=
  .call hx hc (.lockWait hw) (frees_addStore hx (Function.update_self _ _ _))

/-- The mutex of a chosen slot is held by a worker or a waiter that is about to unlock it. -/
theorem frees_addLockWait {s : State W C F A} (hx : s.pool.exited = false) (hl : Locks s)
    (hk : Tokens s) (hcl : Clear s) (hc : s.call t = .addLockWait f a i) : s.Frees := by
  cases hw : s.pool.waits i with
  | false => exact frees_lockWait hx hc hw
  | true =>
    rcases (hk.held_iff i).1 hw with ⟨k, ⟨ht, -⟩ | ⟨w, y, hy, hi, -⟩⟩ | ⟨t', ht⟩
    · exact absurd (hl.chosen t i (by rw [hc]; rfl)) ht
    · -- the task of the slot has returned
      have hst : y.stage = .returned := by
        by_contra hst
        cases hi
        exact hcl.lockWait t f a _ w hc ⟨y.job, y.stage, hy, hst⟩
      obtain ⟨j, hq⟩ := Worker.held_returned hy hst
      have hidle : s.call (.inl w) = .idle := by
        by_contra hn
        obtain ⟨i', j', hr⟩ := hl.nested w hn
        rw [hq] at hr
        cases hr
      subst hi
      apply State.Frees.worker hx hidle hq .unlockWait
      exact frees_lockWait hx hc (Function.update_self _ _ _)
    · rcases Call.token_eq.1 ht with hc' | ⟨f', a', hc'⟩
      · have hne : t ≠ t' := by
          rintro rfl
          rw [hc] at hc'
          cases hc'
        apply State.Frees.call hx hc' .waitUnlock
        exact frees_lockWait hx ((Function.update_of_ne hne _ _).trans hc)
          (Function.update_self _ _ _)
      · exact frees_addStore hx hc'

theorem frees_addScan {s : State W C F A} (hx : s.pool.exited = false) (hr : Reachable s)
    (hcl : Clear s) (hc : s.call t = .addScan f a) : s.Frees := by
  cases hf : findFree s.pool.tasks with
  | none =>
    apply State.Frees.call hx hc (.full hf)
    exact frees_addFull hx (Function.update_self _ _ _)
  | some i =>
    have hst : Step s { s with call := Function.update s.call t (.addLockWait f a i) } :=
      .thread (.call t hx (hc ▸ .found hf))
    have hroom : RoomBelow s { s with call := Function.update s.call t (.addLockWait f a i) } := by
      intro t' f' a' hlock hne
      by_cases ht : t' = t
      · subst ht
        rw [hc] at hlock
        cases hlock
      · exact absurd ((Function.update_of_ne ht _ _).trans hlock) hne
    have hr' := hr.step hst
    apply State.Frees.head hst
    exact frees_addLockWait hx (Reachable.locks hr') (Reachable.tokens hr')
      (hcl.step hr hst hroom) (Function.update_self _ _ _)

theorem Clear.frees {s : State W C F A} (h : Clear s) (hr : Reachable s)
    (hx : s.pool.exited = false) : s.Frees := by
  cases hm : s.pool.taskMtx with
  | false => exact ⟨s, .refl, hm⟩
  | true =>
    have hl := Reachable.locks hr
    obtain ⟨x, hx'⟩ := hl.taskMtx.held_iff.1 hm
    cases x with
    | inl w =>
      have hidle : s.call (.inl w) = .idle := by
        by_contra hn
        obtain ⟨i, j, hq⟩ := hl.nested w hn
        simp only [State.holdsTaskMtx, hq, Worker.holdsTaskMtx] at hx'
      cases hq : s.worker w with
      | findScan =>
        apply State.Frees.worker hx hidle hq .findScan
        exact frees_findUnlock hx hidle (Function.update_self _ _ _)
      | findUnlock tid => exact frees_findUnlock hx hidle hq
      | runPop i =>
        apply State.Frees.worker hx hidle hq .runPop
        exact frees_runUnlock hx hidle (Function.update_self _ _ _)
      | runUnlock i f a k => exact frees_runUnlock hx hidle hq
      | _ => simp only [State.holdsTaskMtx, hq, Worker.holdsTaskMtx] at hx'
    | inr t =>
      cases hc : s.call t with
      | addScan f a => exact frees_addScan hx hr h hc
      | addLockWait f a i => exact frees_addLockWait hx hl (Reachable.tokens hr) h hc
      | addStore f a i => exact frees_addStore hx hc
      | addUnlock i k => exact frees_addUnlock hx hc
      | addFull => exact frees_addFull hx hc
      | _ => simp only [State.holdsTaskMtx, hc, Call.holdsTaskMtx] at hx'

theorem Clear.not_hangs {s : State W C F A} (h : Clear s) (hr : Reachable s) : ¬s.Hangs := by
  rintro ⟨hx, hall⟩
  obtain ⟨u, hrun, hu⟩ := h.frees hr hx
  rw [hall u hrun] at hu
  cases hu

/-- Call `t` holds `task_mtx` and waits for the task that worker `w` has popped from slot `i`. -/
structure Awaits (s : State W C F A) (t : W ⊕ C) (f : F) (a : Option A) (i : Slot) (w : W) :
    Prop where
  call : s.call t = .addLockWait f a i
  task : s.Unfinished w i

theorem Awaits.taskMtx {s : State W C F A} (h : Awaits s t f a i w) (hr : Reachable s) :
    s.pool.taskMtx = true := by
  have hh : s.holdsTaskMtx (.inr t) := by
    simp only [State.holdsTaskMtx, h.call]
    trivial
  exact (Reachable.locks hr).taskMtx.held hh

theorem Awaits.call_eq {s s' : State W C F A} (h : Awaits s t f a i w) (hr : Reachable s)
    (hs : Step s s') : s'.call t = .addLockWait f a i := by
  rcases hs.call_cases t with he | hst | ⟨hi, -⟩
  · exact he.trans h.call
  · rw [h.call] at hst
    generalize s'.pool = p, s'.call t = c at hst
    cases hst with
    | lockWait hf =>
      rw [((Reachable.tokens hr).unfinished h.task).1] at hf
      cases hf
  · rw [h.call] at hi
    cases hi

theorem roomBelow_of_held {s s' : State W C F A} (hs : Step s s') (hm : s.pool.taskMtx = true) :
    RoomBelow s s' := by
  intro t f a hlock hne
  rcases hs.call_cases t with he | hst | ⟨hi, -⟩
  · exact absurd (he.trans hlock) hne
  · rw [(hst.addLock_inv hlock).1] at hm
    cases hm
  · rw [hlock] at hi
    cases hi

/-- The task that call `t` waits for is itself inside `tp_add_task`, in front of `task_mtx`. -/
structure Tied (s : State W C F A) (t : W ⊕ C) (f : F) (a : Option A) (i : Slot) (w : W) :
    Prop extends Awaits s t f a i w where
  nested : (∃ g b, s.call (.inl w) = .addTest g b ∨ s.call (.inl w) = .addLock g b) ∨
    s.call (.inl w) = .addExit

theorem Tied.step {s s' : State W C F A} (h : Tied s t f a i w) (hr : Reachable s)
    (hs : Step s s') : Tied s' t f a i w := by
  have hne : s.call (.inl w) ≠ .idle := by
    rcases h.nested with ⟨g, b, he | he⟩ | he
    · rw [he]; nofun
    · rw [he]; nofun
    · rw [he]; nofun
  constructor
  · constructor
    · exact h.call_eq hr hs
    · simpa only [State.Unfinished, hs.worker_eq hne] using h.task
  · rcases hs.call_cases (.inl w) with he | hst | ⟨hi, -⟩
    · rw [he]
      exact h.nested
    · have hm := h.taskMtx hr
      rcases h.nested with ⟨g, b, he | he⟩ | he
      · rw [he] at hst
        generalize s'.pool = p, s'.call (.inl w) = c at hst
        cases hst with
        | test => exact .inl ⟨g, b, .inr rfl⟩
        | notInitialized => exact .inr rfl
      · rw [(hst.addLock_inv he).1] at hm
        cases hm
      · rw [he] at hst
        generalize s'.pool = p, s'.call (.inl w) = c at hst
        cases hst with
        | exit => exact .inr rfl
    · exact absurd hi hne

theorem Tied.hangs {s : State W C F A} (h : Tied s t f a i w) (hr : Reachable s)
    (hx : s.pool.exited = false) : s.Hangs := by
  apply And.intro hx
  intro s' hrun
  have hinv : Reachable s' ∧ Tied s' t f a i w := by
    induction hrun with
    | refl => exact ⟨hr, h⟩
    | tail _ hst ih => exact ⟨ih.1.step hst, ih.2.step ih.1 hst⟩
  exact hinv.2.taskMtx hinv.1

/-- As long as the awaited task has not returned nothing changes for the call, and instead of
returning the task can submit one more. -/
theorem Awaits.run {s s' : State W C F A} (h : Awaits s t f a i w) (hr : Reachable s)
    (hrun : Relation.ReflTransGen Step s s') :
    (∃ u, Relation.ReflTransGen ((system W C F A).guard RoomBelow).step s u ∧ u.Hangs) ∨
      Relation.ReflTransGen ((system W C F A).guard RoomBelow).step s s' ∧
        Awaits s' t f a i w := by
  induction hrun with
  | refl => exact .inr ⟨.refl, h⟩
  | @tail u v hsu huv ih =>
    rcases ih with hhang | ⟨hg, hu⟩
    · exact .inl hhang
    · have hru : Reachable u := hr.trans hsu
      rcases huv.unfinished (Reachable.locks hru) hu.task with hv | ⟨j, hq, hi, hx⟩
      · right
        have hroom := roomBelow_of_held huv (hu.taskMtx hru)
        exact ⟨hg.tail ⟨huv, hroom⟩, hu.call_eq hru huv, hv⟩
      · left
        have hst : Step u { u with call := Function.update u.call (.inl w) (.addTest f none) } :=
          .beginAdd (.inl w) f none hx hi ⟨i, j, hq⟩
        have hroom := roomBelow_of_held hst (hu.taskMtx hru)
        have htied : Tied { u with call := Function.update u.call (.inl w) (.addTest f none) }
            t f a i w := by
          constructor
          · exact ⟨hu.call_eq hru hst, hu.task⟩
          · exact .inl ⟨f, none, .inl (Function.update_self _ _ _)⟩
        exact ⟨_, hg.tail ⟨hst, hroom⟩, htied.hangs (hru.step hst) hx⟩

theorem Awaits.exists_hangs {s : State W C F A} (h : Awaits s t f a i w) (hr : Reachable s)
    (hx : s.pool.exited = false) :
    ∃ u, Relation.ReflTransGen ((system W C F A).guard RoomBelow).step s u ∧ u.Hangs := by
  by_cases hh : s.Hangs
  · exact ⟨s, .refl, hh⟩
  · simp only [State.Hangs, hx, true_and, not_forall] at hh
    obtain ⟨s', hrun, hm⟩ := hh
    rcases h.run hr hrun with hhang | ⟨-, ha⟩
    · exact hhang
    · exact absurd (ha.taskMtx (hr.trans hrun)) hm

theorem Step.addLock_inv {s s' : State W C F A} (hs : Step s s') (hlock : s.call t = .addLock f a)
    (hne : s'.call t ≠ .addLock f a) : s.pool.exited = false ∧
      s' = { s with
        pool := { s.pool with taskMtx := true }
        call := Function.update s.call t (.addScan f a) } := by
  have hidle (hi : s.call t = .idle) : False := by
    rw [hlock] at hi
    cases hi
  cases hs with
  | thread hth =>
    cases hth with
    | worker => exact absurd hlock hne
    | call _ hx hc =>
      rename_i t' p c
      by_cases ht : t = t'
      · subst ht
        rw [hlock] at hc
        cases hc with
        | lock => exact ⟨hx, rfl⟩
      · exact absurd ((Function.update_of_ne ht _ _).trans hlock) hne
  | beginAdd t' _ _ _ hi =>
    by_cases ht : t = t'
    · exact (hidle (ht ▸ hi)).elim
    · exact absurd ((Function.update_of_ne ht _ _).trans hlock) hne
  | beginWait t' _ _ hi =>
    by_cases ht : t = t'
    · exact (hidle (ht ▸ hi)).elim
    · exact absurd ((Function.update_of_ne ht _ _).trans hlock) hne
  | spurious => exact absurd hlock hne

/-- After a lock of `task_mtx` without room below, the pool can hang. -/
theorem exists_hangs_of_step {s s' : State W C F A} (hr : Reachable s) (hs : Step s s')
    (hn : ¬RoomBelow s s') :
    ∃ u, Relation.ReflTransGen ((system W C F A).guard RoomBelow).step s' u ∧ u.Hangs := by
  have hr' := hr.step hs
  simp only [RoomBelow, not_forall] at hn
  obtain ⟨t, f, a, hlock, hne, w, i, hw, hnone⟩ := hn
  obtain ⟨hx, rfl⟩ := hs.addLock_inv hlock hne
  have hfree : findFree s.pool.tasks = some i := by
    rw [findFree_eq_some]
    constructor
    · exact ((Reachable.tokens hr).unfinished hw).2
    · intro k hk hk'
      exact hnone ⟨k, hk, hk'⟩
  have hscan := Step.callUpdate (s := s) (t := t) (p := { s.pool with taskMtx := true }) hx
    (.found hfree (f := f) (a := a))
  have hawait : Awaits
      { s with
        pool := { s.pool with taskMtx := true }
        call := Function.update s.call t (.addLockWait f a i) } t f a i w := by
    constructor
    · exact Function.update_self _ _ _
    · exact hw
  obtain ⟨u, hrun, hu⟩ := hawait.exists_hangs (hr'.step hscan) hx
  exact ⟨u, .head ⟨hscan, roomBelow_of_held hscan rfl⟩ hrun, hu⟩

/-- Tasks may submit tasks exactly while every call that is given `task_mtx` finds a NULL slot below
all tasks that run. -/
theorem nested_submission_iff {l : List (State W C F A)} (h : (system W C F A).Run l) :
    ((system W C F A).guard RoomBelow).Run l ↔
      (∀ s ∈ l, ∀ w, ¬s.SelfBlocked w) ∧
        ∀ s ∈ l, ∀ s',
          Relation.ReflTransGen ((system W C F A).guard RoomBelow).step s s' → ¬s'.Hangs := by
  constructor
  · intro hg
    constructor
    · intro s hs w
      exact (clear_of_roomBelow (hg.reachable s hs)).not_selfBlocked
    · intro s hs s' hrun
      have hr := (hg.reachable s hs).trans hrun
      exact (clear_of_roomBelow hr).not_hangs hr.of_guard
  · rintro ⟨-, hall⟩
    induction h with
    | start h0 => exact .start h0
    | @step s l t hrun hst ih =>
      have hg := ih fun u hu => hall u (List.mem_cons_of_mem _ hu)
      apply hg.step
      apply And.intro hst
      by_contra hn
      obtain ⟨u, hsu, hu⟩ :=
        exists_hangs_of_step (hrun.reachable s List.mem_cons_self) hst hn
      exact hall t List.mem_cons_self u hsu hu

theorem State.SelfBlocked.step {s s' : State W C F A} (h : s.SelfBlocked w) (hr : Reachable s)
    (hs : Step s s') : s'.SelfBlocked w := by
  obtain ⟨i, j, f, a, hw, hc, -⟩ := h
  have hawait : Awaits s (.inl w) f a i w := ⟨hc, State.unfinished_of_running hw⟩
  have hw' : s'.worker w = .running i j := by
    rw [hs.worker_eq (by rw [hc]; nofun), hw]
  have hheld := (Reachable.tokens (hr.step hs)).unfinished (State.unfinished_of_running hw')
  exact ⟨i, j, f, a, hw', hawait.call_eq hr hs, hheld.1⟩

theorem State.SelfBlocked.forever {s s' : State W C F A} (h : s.SelfBlocked w)
    (hr : Reachable s) (hs : Relation.ReflTransGen Step s s') :
    s'.SelfBlocked w ∧ s'.pool.taskMtx = true := by
  have hinv : Reachable s' ∧ s'.SelfBlocked w := by
    induction hs with
    | refl => exact ⟨hr, h⟩
    | tail _ hst ih => exact ⟨ih.1.step hst, ih.2.step ih.1 hst⟩
  apply And.intro hinv.2
  obtain ⟨hr', i, j, f, a, hw, hc, -⟩ := hinv
  have hawait : Awaits s' (.inl w) f a i w := ⟨hc, State.unfinished_of_running hw⟩
  exact hawait.taskMtx hr'

end

/-- The only worker's task submits another one, and the scan picks the slot whose mutex the task
itself still holds. -/
theorem nested_submission_run : ∃ (s : State (Fin 1) Unit Unit Unit) (l : List _),
    (system (Fin 1) Unit Unit Unit).Run (s :: l) ∧ s.SelfBlocked 0 ∧ s.pool.exited = false := by
  have h1 := (booted_take (0 : Fin 1)).step (.beginAdd (.inl 0) () none rfl rfl ⟨_, _, rfl⟩)
  have h2 := h1.step (.thread (.call (.inl 0) rfl (.test rfl)))
  have h3 := h2.step (.thread (.call (.inl 0) rfl (.lock rfl)))
  have h4 := h3.step (.thread (.call (.inl 0) rfl (.found (findFree_slot0 rfl))))
  obtain ⟨l, hrun⟩ := h4.exists_run
  exact ⟨_, l, hrun, ⟨slot0, _, _, _, rfl, rfl, rfl⟩, rfl⟩

theorem nested_submission_run_rejected : ∃ l, (system (Fin 1) Unit Unit Unit).Run l ∧
    ¬((system (Fin 1) Unit Unit Unit).guard RoomBelow).Run l := by
  obtain ⟨s, l, hrun, hb, -⟩ := nested_submission_run
  apply Exists.intro (s :: l)
  apply And.intro hrun
  intro hg
  exact ((nested_submission_iff hrun).1 hg).1 s List.mem_cons_self 0 hb

theorem nested_submission_hangs : ∃ s : State (Fin 1) Unit Unit Unit, Reachable s ∧ s.Hangs ∧
    ∀ s', Relation.ReflTransGen Step s s' → s'.SelfBlocked 0 := by
  obtain ⟨s, l, hrun, hb, hx⟩ := nested_submission_run
  have hr := hrun.reachable s List.mem_cons_self
  apply Exists.intro s
  apply And.intro hr
  constructor
  · exact ⟨hx, fun s' hs => (hb.forever hr hs).2⟩
  · intro s' hs
    exact (hb.forever hr hs).1

end Apue.ThreadPool
