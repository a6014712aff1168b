import Apue.Reachability
import Mathlib.Data.List.FinRange
import Mathlib.Logic.Function.Basic

namespace Apue.ThreadPool
set_option autoImplicit true

def maxTasks : Nat := 1024

/-- An index into `tasks`, `args` and `waits`. -/
abbrev Slot := Fin maxTasks

/-- A pair accepted by `tp_add_task` and the slot it was stored in. -/
structure Submission (F A : Type) where
  task : F
  arg : Option A
  slot : Slot

/-- A popped pair, with the number of the submission it came from. -/
structure Job (F A : Type) where
  task : F
  arg : Option A
  ticket : Nat

/-- The fields of `thread_pool_st`, the threads blocked on `cond` and the exit flag; the last five
fields are history. -/
structure Pool (W F A : Type) where
  initialized : Bool
  tasks : Slot → Option F
  args : Slot → Option A
  mtx : Bool
  asleep : W → Bool
  taskMtx : Bool
  waits : Slot → Bool
  exited : Bool
  ticket : Slot → Nat
  accepted : List (Submission F A)
  returned : List (Nat × Slot)
  started : List (W × Job F A)
  finished : List (W × Nat)

def tpInit (p : Pool W F A) : Pool W F A :=
  if p.initialized then p
  else
    { p with
      tasks := fun _ => none
      args := fun _ => none
      waits := fun _ => false
      mtx := false
      taskMtx := false
      asleep := fun _ => false
      initialized := true }

/-- A loop over the slots from 0 up that stops at the first one passing the test. -/
def scan (test : Slot → Bool) : Option Slot :=
  (List.finRange maxTasks).find? test

theorem scan_none (h : scan test = none) (i : Slot) : test i = false :=
  Bool.not_eq_true _ ▸ List.find?_eq_none.1 h i (List.mem_finRange i)

theorem scan_some (h : scan test = some i) : test i = true ∧ ∀ j < i, test j = false := by
  obtain ⟨hi, l, r, he, hl⟩ := List.find?_eq_some_iff_append.1 h
  refine ⟨hi, ?_⟩
  intro j hj
  have hm : j ∈ l ++ i :: r := he ▸ List.mem_finRange j
  have hp : (l ++ i :: r).Pairwise (· < ·) := he ▸ List.pairwise_lt_finRange _
  rcases List.mem_append.1 hm with hm | hm
  · simpa using hl j hm
  · rcases List.mem_cons.1 hm with hji | hm
    · exact absurd hji (ne_of_lt hj)
    · have hlt := (List.pairwise_cons.1 (List.pairwise_append.1 hp).2.1).1 j hm
      exact absurd hj (lt_asymm hlt)

theorem scan_eq_some : scan test = some i ↔ test i = true ∧ ∀ j < i, test j = false := by
  refine ⟨scan_some, ?_⟩
  rintro ⟨hi, hl⟩
  cases hs : scan test with
  | none => exact absurd (scan_none hs i) (by simp [hi])
  | some k =>
    obtain ⟨hk, hb⟩ := scan_some hs
    rcases lt_trichotomy k i with hlt | he | hlt
    · rw [hl k hlt] at hk
      cases hk
    · rw [he]
    · rw [hb i hlt] at hi
      cases hi

/-- The scan of `find_task_lock`: the first slot whose task is not NULL. -/
def findTask (tasks : Slot → Option F) : Option Slot := scan (fun i => (tasks i).isSome)

/-- The scan of `tp_add_task`: the first slot whose task is NULL. -/
def findFree (tasks : Slot → Option F) : Option Slot := scan (fun i => (tasks i).isNone)

theorem findTask_some (h : findTask tasks = some i) : tasks i ≠ none :=
  Option.isSome_iff_ne_none.1 (scan_some h).1

theorem findTask_none (h : findTask tasks = none) (i : Slot) : tasks i = none :=
  Option.isSome_eq_false_iff.1 (scan_none h i) |> Option.isNone_iff_eq_none.1

theorem findFree_eq_some {tasks : Slot → Option F} :
    findFree tasks = some i ↔ tasks i = none ∧ ∀ j < i, tasks j ≠ none := by
  rw [findFree, scan_eq_some]
  simp [Option.isSome_iff_ne_none]

theorem findFree_some (h : findFree tasks = some i) : tasks i = none :=
  (findFree_eq_some.1 h).1

/-- Where a thread stands in a call of `tp_add_task` or `tp_wait_task`. Each constructor names
the statement that is executed next. -/
inductive Call (F A : Type) where
  | idle
  | addTest (task : F) (arg : Option A)
  | addLock (task : F) (arg : Option A)
  | addScan (task : F) (arg : Option A)
  | addLockWait (task : F) (arg : Option A) (i : Slot)
  | addStore (task : F) (arg : Option A) (i : Slot)
  | addUnlock (i : Slot) (k : Nat)
  | addBroadcast (i : Slot) (k : Nat)
  | addFull
  | addExit
  | waitLock (i : Slot)
  | waitUnlock (i : Slot)

/-- Where a worker stands in `thread_pool_routine`, `find_task_lock` and `run_task_lock`. -/
inductive Worker (F A : Type) where
  | lockMtx
  | findLock
  | findScan
  | findUnlock (tid : Option Slot)
  | condWait
  | waiting
  | runLock (i : Slot)
  | runPop (i : Slot)
  | runUnlock (i : Slot) (task : Option F) (arg : Option A) (k : Nat)
  | unlockMtx (i : Slot) (j : Job F A)
  | start (i : Slot) (j : Job F A)
  | running (i : Slot) (j : Job F A)
  | unlockWait (i : Slot) (j : Job F A)

inductive CallStep : Pool W F A → Call F A → Pool W F A → Call F A → Prop where
  | test : p.initialized = true → CallStep p (.addTest f a) p (.addLock f a)
  | notInitialized : p.initialized = false →
      CallStep p (.addTest f a) { p with exited := true } .addExit
  | lock : p.taskMtx = false →
      CallStep p (.addLock f a) { p with taskMtx := true } (.addScan f a)
  | found : findFree p.tasks = some i → CallStep p (.addScan f a) p (.addLockWait f a i)
  | full : findFree p.tasks = none → CallStep p (.addScan f a) p .addFull
  | lockWait : p.waits i = false → CallStep p (.addLockWait f a i)
      { p with waits := Function.update p.waits i true } (.addStore f a i)
  | store : CallStep p (.addStore f a i)
      { p with
        tasks := Function.update p.tasks i (some f)
        args := Function.update p.args i a
        ticket := Function.update p.ticket i p.accepted.length
        accepted := p.accepted ++ [⟨f, a, i⟩] }
      (.addUnlock i p.accepted.length)
  | unlock : CallStep p (.addUnlock i k) { p with taskMtx := false } (.addBroadcast i k)
  | broadcast : CallStep p (.addBroadcast i k)
      { p with asleep := fun _ => false, returned := p.returned ++ [(k, i)] } .idle
  | fullUnlock : CallStep p .addFull { p with taskMtx := false } .addExit
  | exit : CallStep p .addExit { p with exited := true } .addExit
  | waitLock : p.waits i = false → CallStep p (.waitLock i)
      { p with waits := Function.update p.waits i true } (.waitUnlock i)
  | waitUnlock : CallStep p (.waitUnlock i)
      { p with waits := Function.update p.waits i false } .idle

/-- One statement of a worker. In the NULL case of `runUnlock` the loop goes on without unlocking
`mtx`. -/
inductive WorkerStep [DecidableEq W] (w : W) :
    Pool W F A → Worker F A → Pool W F A → Worker F A → Prop where
  | lockMtx : p.mtx = false → WorkerStep w p .lockMtx { p with mtx := true } .findLock
  | findLock : p.taskMtx = false →
      WorkerStep w p .findLock { p with taskMtx := true } .findScan
  | findScan : WorkerStep w p .findScan p (.findUnlock (findTask p.tasks))
  | findNone : WorkerStep w p (.findUnlock none) { p with taskMtx := false } .condWait
  | findSome : WorkerStep w p (.findUnlock (some i)) { p with taskMtx := false } (.runLock i)
  | sleep : WorkerStep w p .condWait
      { p with mtx := false, asleep := Function.update p.asleep w true } .waiting
  | wake : p.asleep w = false → p.mtx = false →
      WorkerStep w p .waiting { p with mtx := true } .findLock
  | runLock : p.taskMtx = false →
      WorkerStep w p (.runLock i) { p with taskMtx := true } (.runPop i)
  | runPop : WorkerStep w p (.runPop i)
      { p with
        args := Function.update p.args i none
        tasks := Function.update p.tasks i none }
      (.runUnlock i (p.tasks i) (p.args i) (p.ticket i))
  | runNull : WorkerStep w p (.runUnlock i none a k) { p with taskMtx := false } .lockMtx
  | runUnlock : WorkerStep w p (.runUnlock i (some f) a k)
      { p with taskMtx := false } (.unlockMtx i ⟨f, a, k⟩)
  | unlockMtx : WorkerStep w p (.unlockMtx i j) { p with mtx := false } (.start i j)
  | start : WorkerStep w p (.start i j)
      { p with started := p.started ++ [(w, j)] } (.running i j)
  | finish : WorkerStep w p (.running i j)
      { p with finished := p.finished ++ [(w, j.ticket)] } (.unlockWait i j)
  | unlockWait : WorkerStep w p (.unlockWait i j)
      { p with waits := Function.update p.waits i false } .lockMtx

/-- The threads are the workers `W` and the clients `C`; the call of a worker is one made by
the task it is running. -/
structure State (W C F A : Type) where
  pool : Pool W F A
  worker : W → Worker F A
  call : W ⊕ C → Call F A

/-- Clients may call the pool at any time, a worker only from inside a task. -/
def State.mayCall (s : State W C F A) : W ⊕ C → Prop
  | .inl w => ∃ i j, s.worker w = .running i j
  | .inr _ => True

section
variable [DecidableEq W] [DecidableEq C]

/-- Thread `t` executes its next statement; a worker whose task is inside a call goes on when that
has returned. -/
inductive ThreadStep : W ⊕ C → State W C F A → State W C F A → Prop where
  | worker (w : W) : s.pool.exited = false → s.call (.inl w) = .idle →
      WorkerStep w s.pool (s.worker w) p q →
      ThreadStep (.inl w) s { s with pool := p, worker := Function.update s.worker w q }
  | call (t : W ⊕ C) : s.pool.exited = false → CallStep s.pool (s.call t) p c →
      ThreadStep t s { s with pool := p, call := Function.update s.call t c }

/-- Steps of the process: a thread's statement, the start of a call with any arguments, or a
spurious wake-up from `pthread_cond_wait`. -/
inductive Step : State W C F A → State W C F A → Prop where
  | thread : ThreadStep t s s' → Step s s'
  | beginAdd (t : W ⊕ C) (f : F) (a : Option A) : s.pool.exited = false →
      s.call t = .idle → s.mayCall t →
      Step s { s with call := Function.update s.call t (.addTest f a) }
  | beginWait (t : W ⊕ C) (i : Slot) : s.pool.exited = false →
      s.call t = .idle → s.mayCall t →
      Step s { s with call := Function.update s.call t (.waitLock i) }
  | spurious (w : W) : s.pool.exited = false →
      Step s
        { s with pool := { s.pool with asleep := Function.update s.pool.asleep w false } }

/-- Memory handed to `tp_init` with `initialized` zero: nothing is known of the slots and mutexes,
and no task has been submitted. -/
structure Fresh (p : Pool W F A) : Prop where
  initialized : p.initialized = false
  exited : p.exited = false
  accepted : p.accepted = []
  returned : p.returned = []
  started : p.started = []
  finished : p.finished = []

/-- After `tp_init` every worker is at the top of its loop and no call has begun. -/
def Init (s : State W C F A) : Prop :=
  (∃ p, Fresh p ∧ s.pool = tpInit p) ∧ (∀ w, s.worker w = .lockMtx) ∧ ∀ t, s.call t = .idle

def system (W C F A : Type) [DecidableEq W] [DecidableEq C] : System (State W C F A) where
  init := Init
  step := Step

abbrev Reachable (s : State W C F A) : Prop := (system W C F A).Reachable s

theorem Step.callUpdate {s : State W C F A} {t : W ⊕ C} (hx : p.exited = false)
    (h : CallStep p c p' c') :
    Step { s with pool := p, call := Function.update s.call t c }
      { s with pool := p', call := Function.update s.call t c' } := by
  have hcall : CallStep p (Function.update s.call t c t) p' c' := by
    rw [Function.update_self]
    exact h
  have hst := ThreadStep.call (s := { s with pool := p, call := Function.update s.call t c }) t hx
    hcall
  rw [Function.update_idem] at hst
  exact .thread hst

theorem Step.workerUpdate {s : State W C F A} {w : W} (hx : p.exited = false)
    (hc : s.call (.inl w) = .idle) (h : WorkerStep w p q p' q') :
    Step { s with pool := p, worker := Function.update s.worker w q }
      { s with pool := p', worker := Function.update s.worker w q' } := by
  have hworker : WorkerStep w p (Function.update s.worker w q w) p' q' := by
    rw [Function.update_self]
    exact h
  have hst := ThreadStep.worker
    (s := { s with pool := p, worker := Function.update s.worker w q }) w hx hc hworker
  rw [Function.update_idem] at hst
  exact .thread hst

/-- After a call of `tp_add_task` that has stored its task in slot `i`. -/
def State.submit (s : State W C F A) (f : F) (a : Option A) (i : Slot) : State W C F A :=
  { s with
    pool :=
      { s.pool with
        tasks := Function.update s.pool.tasks i (some f)
        args := Function.update s.pool.args i a
        ticket := Function.update s.pool.ticket i s.pool.accepted.length
        accepted := s.pool.accepted ++ [⟨f, a, i⟩]
        waits := Function.update s.pool.waits i true
        taskMtx := false
        asleep := fun _ => false
        returned := s.pool.returned ++ [(s.pool.accepted.length, i)] } }

theorem State.submit_run {s : State W C F A} {t : W ⊕ C} (f : F) (a : Option A)
    (hx : s.pool.exited = false) (hinit : s.pool.initialized = true) (ht : s.call t = .idle)
    (hmay : s.mayCall t) (hk : s.pool.taskMtx = false) (hf : findFree s.pool.tasks = some i)
    (hw : s.pool.waits i = false) : Relation.ReflTransGen Step s (s.submit f a i) := by
  have hidle : s.submit f a i =
      { s.submit f a i with call := Function.update s.call t .idle } := by
    rw [← ht, Function.update_eq_self]
    rfl
  rw [hidle]
  refine .head (.beginAdd t f a hx ht hmay) ?_
  refine .head (.callUpdate hx (.test hinit)) ?_
  refine .head (.callUpdate hx (.lock hk)) ?_
  refine .head (.callUpdate hx (.found hf)) ?_
  refine .head (.callUpdate hx (.lockWait hw)) ?_
  refine .head (.callUpdate hx .store) ?_
  refine .head (.callUpdate hx .unlock) ?_
  exact .single (.callUpdate hx .broadcast)

/-- After worker `w` has taken the task of slot `i` and started it. -/
def State.take (s : State W C F A) (w : W) (f : F) (i : Slot) : State W C F A :=
  { s with
    pool :=
      { s.pool with
        tasks := Function.update s.pool.tasks i none
        args := Function.update s.pool.args i none
        mtx := false
        taskMtx := false
        started := s.pool.started ++ [(w, ⟨f, s.pool.args i, s.pool.ticket i⟩)] }
    worker := Function.update s.worker w (.running i ⟨f, s.pool.args i, s.pool.ticket i⟩) }

theorem State.take_run {s : State W C F A} {w : W} (hx : s.pool.exited = false)
    (hc : s.call (.inl w) = .idle) (hq : s.worker w = .lockMtx) (hm : s.pool.mtx = false)
    (hk : s.pool.taskMtx = false) (hf : findTask s.pool.tasks = some i)
    (hi : s.pool.tasks i = some f) : Relation.ReflTransGen Step s (s.take w f i) := by
  have hs : s = { s with worker := Function.update s.worker w .lockMtx } := by
    rw [← hq, Function.update_eq_self]
  have hscan : WorkerStep w { s.pool with mtx := true, taskMtx := true } .findScan
      { s.pool with mtx := true, taskMtx := true } (.findUnlock (some i)) := hf ▸ .findScan
  have hpop : WorkerStep w { s.pool with mtx := true, taskMtx := true } (.runPop i)
      { s.pool with
        mtx := true
        taskMtx := true
        args := Function.update s.pool.args i none
        tasks := Function.update s.pool.tasks i none }
      (.runUnlock i (some f) (s.pool.args i) (s.pool.ticket i)) := hi ▸ .runPop
  nth_rewrite 1 [hs]
  refine .head (.workerUpdate hx hc (.lockMtx hm)) ?_
  refine .head (.workerUpdate hx hc (.findLock hk)) ?_
  refine .head (.workerUpdate hx hc hscan) ?_
  refine .head (.workerUpdate hx hc .findSome) ?_
  refine .head (.workerUpdate hx hc (.runLock rfl)) ?_
  refine .head (.workerUpdate hx hc hpop) ?_
  refine .head (.workerUpdate hx hc .runUnlock) ?_
  refine .head (.workerUpdate hx hc .unlockMtx) ?_
  exact .single (.workerUpdate hx hc .start)

end

def zeroed : Pool W F A where
  initialized := false
  tasks _ := none
  args _ := none
  mtx := false
  asleep _ := false
  taskMtx := false
  waits _ := false
  exited := false
  ticket _ := 0
  accepted := []
  returned := []
  started := []
  finished := []

def booted (W C F A : Type) : State W C F A where
  pool := tpInit zeroed
  worker _ := .lockMtx
  call _ := .idle

theorem booted_init : Init (booted W C F A) :=
  ⟨⟨zeroed, ⟨rfl, rfl, rfl, rfl, rfl, rfl⟩, rfl⟩, fun _ => rfl, fun _ => rfl⟩

end Apue.ThreadPool
