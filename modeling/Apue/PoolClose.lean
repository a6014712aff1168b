import Apue.PoolWaiting

namespace Apue.ThreadPool
set_option autoImplicit true

inductive Obj where
  | mtx
  | cond
  | taskMtx
  | wait (i : Slot)
  deriving DecidableEq

/-- The next statement of `tp_close`. The two loops are at their heads. -/
inductive Closer where
  | notCalled
  | cancel (i : Nat)
  | destroyMtx
  | destroyCond
  | destroyWait (i : Nat)

def Closer.target : Closer → Option Obj
  | .destroyMtx => some .mtx
  | .destroyCond => some .cond
  | .destroyWait i => if h : i < maxTasks then some (.wait ⟨i, h⟩) else none
  | _ => none

def Closer.destroyed : Closer → Bool
  | .destroyCond | .destroyWait _ => true
  | _ => false

/-- What the next statement of a worker makes use of. -/
def Worker.uses : Worker F A → List Obj
  | .lockMtx | .unlockMtx .. => [.mtx]
  | .condWait | .waiting => [.cond, .mtx]
  | .findLock | .findUnlock _ | .runLock _ | .runUnlock .. => [.taskMtx]
  | .unlockWait i _ => [.wait i]
  | .findScan | .runPop _ | .start .. | .running .. => []

/-- A pool with `n` workers that is going to be closed. The last three fields are history. -/
structure Shutdown (n : Nat) (C F A : Type) where
  base : State (Fin n) C F A
  closer : Closer
  cancelled : Fin n → Bool
  left : Fin n → Bool
  watch : Fin n ⊕ C → List Nat
  waited : List Nat
  late : List (Fin n × Obj)

namespace Shutdown

def ticketsOf (s : Shutdown n C F A) (i : Slot) : List Nat :=
  (s.base.pool.returned.filter fun x => x.2 = i).map Prod.fst

def waitedAfter (s : Shutdown n C F A) (t : Fin n ⊕ C) : List Nat :=
  match s.base.call t with
  | .waitUnlock _ => s.waited ++ s.watch t
  | _ => s.waited

def lateAfter (s : Shutdown n C F A) (w : Fin n) : List (Fin n × Obj) :=
  if s.closer.destroyed then s.late ++ (s.base.worker w).uses.map (w, ·) else s.late

/-- No thread is inside a call, and every submitted task has been waited for. -/
def AllWaited (s : Shutdown n C F A) : Prop :=
  (∀ t, s.base.call t = .idle) ∧ ∀ k < s.base.pool.accepted.length, k ∈ s.waited

/-- A worker that has left keeps the mutex that it had reacquired. -/
def Holds (s : Shutdown n C F A) (w : Fin n) : Obj → Prop
  | .mtx => (s.base.worker w).holdsMtx
  | .cond => False
  | .taskMtx => (s.base.worker w).holdsTaskMtx
  | .wait i => (s.base.worker w).slot = some i

def Blocked (s : Shutdown n C F A) (w : Fin n) : Obj → Prop
  | .mtx => s.left w = false ∧ s.base.pool.mtx = true ∧
      (s.base.worker w = .lockMtx ∨ s.base.worker w = .waiting ∧ s.base.pool.asleep w = false)
  | .cond => s.left w = false ∧ s.base.worker w = .waiting ∧ s.base.pool.asleep w = true
  | .taskMtx => s.left w = false ∧ s.base.pool.taskMtx = true ∧
      (s.base.worker w = .findLock ∨ ∃ i, s.base.worker w = .runLock i)
  | .wait i => s.base.pool.waits i = true ∧
      (s.base.call (.inl w) = .waitLock i ∨ ∃ f a, s.base.call (.inl w) = .addLockWait f a i)

/-- What `tp_close` destroys next is in no worker's hands, and after the first destruction no
worker has made use of the pool. -/
structure Safe (s : Shutdown n C F A) : Prop where
  target : ∀ o, s.closer.target = some o → ∀ w, ¬s.Holds w o ∧ ¬s.Blocked w o
  late : s.late = []

variable [DecidableEq C]

/-- Steps of the process. The clients make no call after the one of `tp_close`. -/
inductive Step : Shutdown n C F A → Shutdown n C F A → Prop where
  | worker (w : Fin n) : s.base.pool.exited = false → s.base.call (.inl w) = .idle →
      s.left w = false → ¬(s.cancelled w = true ∧ s.base.worker w = .waiting) →
      WorkerStep w s.base.pool (s.base.worker w) p q →
      Step s { s with
        base := { s.base with pool := p, worker := Function.update s.base.worker w q }
        late := s.lateAfter w }
  -- a worker cancelled in pthread_cond_wait reacquires `mtx` as it would to go on, and ends there
  | leave (w : Fin n) : s.base.pool.exited = false → s.base.call (.inl w) = .idle →
      s.left w = false → s.cancelled w = true → s.base.worker w = .waiting →
      WorkerStep w s.base.pool (s.base.worker w) p q →
      Step s { s with
        base := { s.base with pool := p, worker := Function.update s.base.worker w q }
        left := Function.update s.left w true
        late := s.lateAfter w }
  -- a wake-up that is spurious or due to pthread_cancel
  | wakeUp (w : Fin n) : s.base.pool.exited = false →
      Step s { s with
        base := { s.base with
          pool := { s.base.pool with asleep := Function.update s.base.pool.asleep w false } } }
  | call (t : Fin n ⊕ C) : s.closer = .notCalled → s.base.pool.exited = false →
      CallStep s.base.pool (s.base.call t) p c →
      Step s { s with
        base := { s.base with pool := p, call := Function.update s.base.call t c }
        waited := s.waitedAfter t }
  | beginAdd (t : Fin n ⊕ C) (f : F) (a : Option A) : s.closer = .notCalled →
      s.base.pool.exited = false → s.base.call t = .idle → s.base.mayCall t →
      Step s { s with
        base := { s.base with call := Function.update s.base.call t (.addTest f a) } }
  | beginWait (t : Fin n ⊕ C) (i : Slot) : s.closer = .notCalled →
      s.base.pool.exited = false → s.base.call t = .idle → s.base.mayCall t →
      Step s { s with
        base := { s.base with call := Function.update s.base.call t (.waitLock i) }
        watch := Function.update s.watch t (s.ticketsOf i) }
  | close : s.closer = .notCalled → s.base.pool.exited = false → s.AllWaited →
      Step s { s with closer := .cancel 0 }
  | cancel (w : Fin n) : s.closer = .cancel w →
      Step s { s with
        cancelled := Function.update s.cancelled w true
        closer := .cancel (w + 1) }
  -- free(pool->threads)
  | free : s.closer = .cancel n → Step s { s with closer := .destroyMtx }
  | destroyMtx : s.closer = .destroyMtx → Step s { s with closer := .destroyCond }
  | destroyCond : s.closer = .destroyCond → Step s { s with closer := .destroyWait 0 }
  | destroyWait : s.closer = .destroyWait i → i < maxTasks →
      Step s { s with closer := .destroyWait (i + 1) }

structure Init (s : Shutdown n C F A) : Prop where
  base : ThreadPool.Init s.base
  closer : s.closer = .notCalled
  cancelled : ∀ w, s.cancelled w = false
  left : ∀ w, s.left w = false
  waited : s.waited = []
  late : s.late = []

def system (n : Nat) (C F A : Type) [DecidableEq C] : System (Shutdown n C F A) where
  init := Init
  step := Step

abbrev Reachable (s : Shutdown n C F A) : Prop := (system n C F A).Reachable s

theorem Step.base {s s' : Shutdown n C F A} (h : Step s s') :
    s'.base = s.base ∨ ThreadPool.Step s.base s'.base := by
  cases h with
  | worker w he hi _ _ hs => exact .inr (.thread (.worker w he hi hs))
  | leave w he hi _ _ _ hs => exact .inr (.thread (.worker w he hi hs))
  | wakeUp w he => exact .inr (.spurious w he)
  | call t _ he hs => exact .inr (.thread (.call t he hs))
  | beginAdd t f a _ he hi hm => exact .inr (.beginAdd t f a he hi hm)
  | beginWait t i _ he hi hm => exact .inr (.beginWait t i he hi hm)
  | _ => exact .inl rfl

theorem Reachable.base {s : Shutdown n C F A} (h : Reachable s) : ThreadPool.Reachable s.base :=
  System.Reachable.project h (fun _ hi => Init.base hi) fun _ _ _ hs => Step.base hs

theorem exists_base {b : State (Fin n) C F A} (h : ThreadPool.Reachable b) :
    ∃ s : Shutdown n C F A, Reachable s ∧ s.base = b ∧ s.closer = .notCalled ∧
      (∀ w, s.cancelled w = false) ∧ ∀ w, s.left w = false := by
  induction h with
  | @init b h0 =>
    let s : Shutdown n C F A :=
      ⟨b, .notCalled, fun _ => false, fun _ => false, fun _ => [], [], []⟩
    exact ⟨s, .init ⟨h0, rfl, fun _ => rfl, fun _ => rfl, rfl, rfl⟩, rfl, rfl, fun _ => rfl,
      fun _ => rfl⟩
  | step _ hst ih =>
    obtain ⟨s, hs, rfl, hc, hcan, hl⟩ := ih
    cases hst with
    | thread ht =>
      cases ht with
      | worker w he hi hw =>
        have hn : ¬(s.cancelled w = true ∧ s.base.worker w = .waiting) := by
          rw [hcan w]
          nofun
        exact ⟨_, hs.step (.worker w he hi (hl w) hn hw), rfl, hc, hcan, hl⟩
      | call _ he hk => exact ⟨_, hs.step (.call _ hc he hk), rfl, hc, hcan, hl⟩
    | beginAdd t f a he hi hm =>
      exact ⟨_, hs.step (.beginAdd t f a hc he hi hm), rfl, hc, hcan, hl⟩
    | beginWait t i he hi hm =>
      exact ⟨_, hs.step (.beginWait t i hc he hi hm), rfl, hc, hcan, hl⟩
    | spurious w he => exact ⟨_, hs.step (.wakeUp w he), rfl, hc, hcan, hl⟩

theorem exited_of_worker {w : W} [DecidableEq W] (h : WorkerStep w p q p' q') :
    p'.exited = p.exited := by
  cases h <;> rfl

theorem Reachable.quiet {s : Shutdown n C F A} (h : Reachable s) (hc : s.closer ≠ .notCalled) :
    s.base.pool.exited = false ∧ ∀ t, s.base.call t = .idle := by
  induction h with
  | init h0 => exact absurd (Init.closer h0) hc
  | step _ hst ih =>
    cases hst with
    | worker w he hi hl hn hs => exact ⟨(exited_of_worker hs).trans he, (ih hc).2⟩
    | leave w he hi hl hcan hw hs => exact ⟨(exited_of_worker hs).trans he, (ih hc).2⟩
    | wakeUp w he => exact ih hc
    | call t hn => exact absurd hn hc
    | beginAdd t f a hn => exact absurd hn hc
    | beginWait t i hn => exact absurd hn hc
    | close _ he hw => exact ⟨he, hw.1⟩
    | cancel w hk => exact ih (by rw [hk]; nofun)
    | free hk => exact ih (by rw [hk]; nofun)
    | destroyMtx hk => exact ih (by rw [hk]; nofun)
    | destroyCond hk => exact ih (by rw [hk]; nofun)
    | destroyWait hk => exact ih (by rw [hk]; nofun)

/-- The tasks that a call of `tp_wait_task` is for have been stored, and have returned once it has
locked their mutex. -/
def Attends (p : Pool W F A) (ks : List Nat) : Call F A → Prop
  | .waitLock i => ∀ k ∈ ks, (k, i) ∈ p.returned
  | .waitUnlock _ => ∀ k ∈ ks, ∃ w, (w, k) ∈ p.finished
  | _ => True

structure Attended (s : Shutdown n C F A) : Prop where
  threads : ∀ t, Attends s.base.pool (s.watch t) (s.base.call t)
  waited : ∀ k ∈ s.waited, ∃ w, (w, k) ∈ s.base.pool.finished

omit [DecidableEq C] in
theorem Init.attended {s : Shutdown n C F A} (h : Init s) : Attended s where
  threads t := by
    rw [h.base.2.2 t]
    trivial
  waited k hk := by
    rw [h.waited] at hk
    cases hk

theorem Attends.mono {p p' : Pool W F A} (h : Attends p ks c)
    (hf : ∀ x ∈ p.finished, x ∈ p'.finished) (hr : ∀ x ∈ p.returned, x ∈ p'.returned) :
    Attends p' ks c := by
  cases c with
  | waitLock i => exact fun k hk => hr _ (h k hk)
  | waitUnlock i =>
    intro k hk
    obtain ⟨w, hw⟩ := h k hk
    exact ⟨w, hf _ hw⟩
  | _ => trivial

theorem Attended.frame {s s' : Shutdown n C F A} (h : Attended s)
    (hs : s'.base = s.base ∨ ThreadPool.Step s.base s'.base) (hc : s'.base.call = s.base.call)
    (hv : s'.watch = s.watch) (hw : s'.waited = s.waited) : Attended s' := by
  have hlogs : (∀ x ∈ s.base.pool.finished, x ∈ s'.base.pool.finished) ∧
      ∀ x ∈ s.base.pool.returned, x ∈ s'.base.pool.returned := by
    rcases hs with he | hs
    · rw [he]
      exact ⟨fun _ => id, fun _ => id⟩
    · exact hs.logs
  constructor
  · intro t
    rw [hc, hv]
    exact (h.threads t).mono hlogs.1 hlogs.2
  · intro k hk
    rw [hw] at hk
    obtain ⟨w, hf⟩ := h.waited k hk
    exact ⟨w, hlogs.1 _ hf⟩

/-- A call that locks a mutex has found it free, so that no task stored in its slot is open. -/
theorem Attends.call {s : State W C F A} {t : W ⊕ C} [DecidableEq W]
    (h : Attends s.pool ks (s.call t)) (hr : ThreadPool.Reachable s)
    (he : s.pool.exited = false) (hs : CallStep s.pool (s.call t) p c) : Attends p ks c := by
  have hlogs := (ThreadPool.Step.thread (.call t he hs)).logs
  generalize s.call t = d at h hs
  cases hs with
  | waitLock hw =>
    intro k hk
    obtain ⟨w, hf⟩ := hr.finished_of_free (h k hk) hw
    exact ⟨w, hlogs.1 _ hf⟩
  | _ => trivial

theorem Attended.call {s : Shutdown n C F A} (h : Attended s) (hr : ThreadPool.Reachable s.base)
    (he : s.base.pool.exited = false) (hs : CallStep s.base.pool (s.base.call t) p c) :
    Attended { s with
      base := { s.base with pool := p, call := Function.update s.base.call t c }
      waited := s.waitedAfter t } := by
  have hlogs := (ThreadPool.Step.thread (.call t he hs)).logs
  constructor
  · intro t'
    by_cases htt : t' = t
    · subst htt
      simp only [Function.update_self]
      exact (h.threads t').call hr he hs
    · simp only [Function.update_of_ne htt]
      exact (h.threads t').mono hlogs.1 hlogs.2
  · intro k hk
    have hold : ∃ w, (w, k) ∈ s.base.pool.finished := by
      have ht := h.threads t
      simp only [waitedAfter] at hk
      split at hk
      · next hc =>
        rw [hc] at ht
        rcases List.mem_append.1 hk with hk | hk
        · exact h.waited k hk
        · exact ht k hk
      · exact h.waited k hk
    obtain ⟨w, hf⟩ := hold
    exact ⟨w, hlogs.1 _ hf⟩

omit [DecidableEq C] in
theorem attends_ticketsOf (s : Shutdown n C F A) (i : Slot) :
    Attends s.base.pool (s.ticketsOf i) (.waitLock i) := by
  intro k hk
  obtain ⟨⟨k', j⟩, hf, rfl⟩ := List.mem_map.1 hk
  obtain ⟨hm, hj⟩ := List.mem_filter.1 hf
  have hji : j = i := of_decide_eq_true hj
  exact hji ▸ hm

theorem Attended.begin {s : Shutdown n C F A} (h : Attended s) {t : Fin n ⊕ C}
    (hw : ∀ t', t' ≠ t → ks t' = s.watch t') (hc : Attends s.base.pool (ks t) c) :
    Attended { s with
      base := { s.base with call := Function.update s.base.call t c }
      watch := ks } := by
  refine ⟨?_, h.waited⟩
  intro t'
  by_cases htt : t' = t
  · subst htt
    simpa only [Function.update_self] using hc
  · simpa only [Function.update_of_ne htt, hw t' htt] using h.threads t'

theorem Reachable.attended {s : Shutdown n C F A} (h : Reachable s) : Attended s := by
  induction h with
  | init h0 => exact Init.attended h0
  | step hr hst ih =>
    have hbase := Step.base hst
    cases hst with
    | call t hn he hs => exact ih.call (Reachable.base hr) he hs
    | beginAdd t f a => exact ih.begin (fun _ _ => rfl) trivial
    | beginWait t i =>
      refine ih.begin (fun _ ht => Function.update_of_ne ht _ _) ?_
      rw [Function.update_self]
      exact attends_ticketsOf _ i
    | _ => exact ih.frame hbase rfl rfl rfl

theorem Reachable.all_finished {s : Shutdown n C F A} (h : Reachable s)
    (hc : s.closer ≠ .notCalled) (hk : k < s.base.pool.accepted.length) :
    ∃ w, (w, k) ∈ s.base.pool.finished := by
  induction h with
  | init h0 => exact absurd (Init.closer h0) hc
  | step hr hst ih =>
    cases hst with
    | worker w he hi hl hn hs =>
      obtain ⟨v, hf⟩ := ih hc (hs.frame.2.1 ▸ hk)
      exact ⟨v, hs.finished hf⟩
    | leave w he hi hl hcan hw hs =>
      obtain ⟨v, hf⟩ := ih hc (hs.frame.2.1 ▸ hk)
      exact ⟨v, hs.finished hf⟩
    | wakeUp w he => exact ih hc hk
    | call t hn => exact absurd hn hc
    | beginAdd t f a hn => exact absurd hn hc
    | beginWait t i hn => exact absurd hn hc
    | close _ _ hw => exact (Reachable.attended hr).waited k (hw.2 k hk)
    | cancel w hq => exact ih (by rw [hq]; nofun) hk
    | free hq => exact ih (by rw [hq]; nofun) hk
    | destroyMtx hq => exact ih (by rw [hq]; nofun) hk
    | destroyCond hq => exact ih (by rw [hq]; nofun) hk
    | destroyWait hq => exact ih (by rw [hq]; nofun) hk

theorem Reachable.no_task {s : Shutdown n C F A} (h : Reachable s) (hc : s.closer ≠ .notCalled)
    (hx : (s.base.worker w).held = some x) : x.stage = .returned := by
  obtain ⟨b, -, -, -, hr⟩ := h.base.ledger
  obtain ⟨hk, -⟩ := List.getElem?_eq_some_iff.1 (hr.held w x hx)
  obtain ⟨v, hf⟩ := h.all_finished hc hk
  by_contra hs
  exact hr.undone w v x hx hs hf

theorem wake_inv {w : W} [DecidableEq W] (h : WorkerStep w p q p' q') (hq : q = .waiting) :
    q' = .findLock := by
  cases h with
  | wake => rfl
  | _ => cases hq

/-- A worker that has left stands where the mutex is its own. -/
theorem Reachable.left_findLock {s : Shutdown n C F A} (h : Reachable s) (hw : s.left w = true) :
    s.base.worker w = .findLock := by
  induction h with
  | init h0 =>
    rw [Init.left h0] at hw
    cases hw
  | step _ hst ih =>
    cases hst with
    | worker v he hi hl hn hs =>
      have hne : w ≠ v := by
        rintro rfl
        rw [hl] at hw
        cases hw
      exact (Function.update_of_ne hne _ _).trans (ih hw)
    | leave v he hi hl hcan hv hs =>
      by_cases hwv : w = v
      · subst hwv
        exact (Function.update_self _ _ _).trans (wake_inv hs hv)
      · have hw' : _ = true := (Function.update_of_ne hwv _ _).symm.trans hw
        exact (Function.update_of_ne hwv _ _).trans (ih hw')
    | _ => exact ih hw

theorem Reachable.left_holdsMtx {s : Shutdown n C F A} (h : Reachable s) (hw : s.left w = true) :
    (s.base.worker w).holdsMtx := by
  rw [h.left_findLock hw]
  trivial

theorem Safe.mtx_free {s : Shutdown n C F A} (hs : Safe s) (h : Reachable s)
    (hc : s.closer = .destroyMtx) : s.base.pool.mtx = false ∧ ∀ w, s.left w = false := by
  have hfree (w : Fin n) : ¬(s.base.worker w).holdsMtx := (hs.target .mtx (by rw [hc]; rfl) w).1
  constructor
  · by_contra hm
    obtain ⟨w, hw⟩ := h.base.locks.mtx.held_iff.1 (eq_true_of_ne_false hm)
    exact hfree w hw
  · intro w
    by_contra hl
    exact hfree w (h.left_holdsMtx (eq_true_of_ne_false hl))

/-- A worker that is still there after a destruction, outside of any call. -/
structure Loose (s : Shutdown n C F A) (w : Fin n) : Prop where
  destroyed : s.closer.destroyed = true
  exited : s.base.pool.exited = false
  idle : s.base.call (.inl w) = .idle
  left : s.left w = false

/-- A run from here leads to a state that is not safe. -/
def Endangered (s : Shutdown n C F A) : Prop := ∃ t, Relation.ReflTransGen Step s t ∧ ¬Safe t

theorem Endangered.of_step {s s' : Shutdown n C F A} (hs : Step s s') (h : Endangered s') :
    Endangered s := by
  obtain ⟨t, hr, ht⟩ := h
  exact ⟨t, .head hs hr, ht⟩

omit [DecidableEq C] in
theorem Loose.late_ne {s : Shutdown n C F A} (h : Loose s w)
    (hu : (s.base.worker w).uses ≠ []) : s.lateAfter w ≠ [] := by
  rw [lateAfter, if_pos h.destroyed]
  intro he
  exact hu (List.map_eq_nil_iff.1 (List.append_eq_nil_iff.1 he).2)

theorem Loose.endangered_of_uses {s : Shutdown n C F A} (h : Loose s w)
    (hq : s.base.worker w = q) (hs : WorkerStep w s.base.pool q p' q') (hu : q.uses ≠ []) :
    Endangered s := by
  subst hq
  by_cases hc : s.cancelled w = true ∧ s.base.worker w = .waiting
  · exact ⟨_, .single (.leave w h.exited h.idle h.left hc.1 hc.2 hs),
      fun ht => h.late_ne hu ht.late⟩
  · exact ⟨_, .single (.worker w h.exited h.idle h.left hc hs), fun ht => h.late_ne hu ht.late⟩

theorem Loose.unlockWait {s : Shutdown n C F A} (h : Loose s w)
    (hq : s.base.worker w = .unlockWait i j) : Endangered s :=
  h.endangered_of_uses hq .unlockWait nofun

theorem Loose.lockMtx {s : Shutdown n C F A} (h : Loose s w) (hm : s.base.pool.mtx = false)
    (hq : s.base.worker w = .lockMtx) : Endangered s :=
  h.endangered_of_uses hq (.lockMtx hm) nofun

theorem Loose.waiting {s : Shutdown n C F A} (h : Loose s w) (hm : s.base.pool.mtx = false)
    (hq : s.base.worker w = .waiting) : Endangered s := by
  refine .of_step (.wakeUp w h.exited) ?_
  have h' : Loose { s with
      base := { s.base with
        pool := { s.base.pool with asleep := Function.update s.base.pool.asleep w false } } } w :=
    ⟨h.destroyed, h.exited, h.idle, h.left⟩
  exact h'.endangered_of_uses hq (.wake (Function.update_self _ _ _) hm) nofun

theorem Reachable.exists_lockMtx {s : Shutdown n C F A} (hr : Reachable s) (h : Loose s w)
    (hm : s.base.pool.mtx = false) (hq : s.base.worker w = .lockMtx) :
    ∃ t : Shutdown n C F A, Reachable t ∧ t.base.pool.accepted = s.base.pool.accepted ∧
      t.waited = s.waited ∧ t.cancelled = s.cancelled ∧ (w, Obj.mtx) ∈ t.late := by
  have hs : WorkerStep w s.base.pool (s.base.worker w) { s.base.pool with mtx := true }
      .findLock := by
    rw [hq]
    exact .lockMtx hm
  have hn : ¬(s.cancelled w = true ∧ s.base.worker w = .waiting) := by
    rw [hq]
    nofun
  refine ⟨_, hr.step (.worker w h.exited h.idle h.left hn hs), rfl, rfl, rfl, ?_⟩
  change _ ∈ s.lateAfter w
  rw [lateAfter, if_pos h.destroyed, hq]
  exact List.mem_append_right _ (List.mem_singleton.2 rfl)

/-- However `tp_close` gets to destroy `mtx`, a pool that has a worker can come to harm. -/
theorem Reachable.endangered {s : Shutdown n C F A} (h : Reachable s)
    (hc : s.closer = .destroyMtx) (w : Fin n) : Endangered s := by
  by_cases hs : Safe s
  · obtain ⟨hm, hl⟩ := hs.mtx_free h hc
    have hne : s.closer ≠ .notCalled := by
      rw [hc]
      nofun
    obtain ⟨he, hi⟩ := h.quiet hne
    have hfree : ¬(s.base.worker w).holdsMtx := (hs.target .mtx (by rw [hc]; rfl) w).1
    refine .of_step (.destroyMtx hc) ?_
    have hloose : Loose { s with closer := .destroyCond } w := ⟨rfl, he, hi (.inl w), hl w⟩
    cases hq : s.base.worker w with
    | lockMtx => exact hloose.lockMtx hm hq
    | waiting => exact hloose.waiting hm hq
    | start i j => cases h.no_task hne (by rw [hq]; rfl)
    | running i j => cases h.no_task hne (by rw [hq]; rfl)
    | unlockWait i j => exact hloose.unlockWait hq
    | _ =>
      rw [hq] at hfree
      exact absurd trivial hfree
  · exact ⟨s, .refl, hs⟩

theorem Reachable.cancel_all {s : Shutdown n C F A} (h : Reachable s) (hi : i ≤ n)
    (hc : s.closer = .cancel i) :
    ∃ t : Shutdown n C F A, Reachable t ∧ t.closer = .destroyMtx := by
  induction hk : n - i generalizing i s with
  | zero =>
    obtain rfl : i = n := by omega
    exact ⟨_, h.step (.free hc), rfl⟩
  | succ k ih =>
    have hlt : i < n := by omega
    exact ih (h.step (.cancel ⟨i, hlt⟩ hc)) hlt rfl (by omega)

def booted (n : Nat) (C F A : Type) : Shutdown n C F A where
  base := ThreadPool.booted (Fin n) C F A
  closer := .notCalled
  cancelled _ := false
  left _ := false
  watch _ := []
  waited := []
  late := []

theorem booted_reachable : Reachable (booted n C F A) :=
  .init ⟨booted_init, rfl, fun _ => rfl, fun _ => rfl, rfl, rfl⟩

end Shutdown

/-- Closing is safe in all runs only for a pool that has no workers. -/
theorem close_safe_iff (n : Nat) :
    (∀ (C F A : Type) [DecidableEq C] (s : Shutdown n C F A), Shutdown.Reachable s → s.Safe) ↔
      n = 0 := by
  constructor
  · intro h
    by_contra hn
    have hclose := (Shutdown.booted_reachable (n := n) (C := Unit) (F := Unit) (A := Unit)).step
      (.close rfl rfl ⟨fun _ => rfl, nofun⟩)
    obtain ⟨s, hs, hc⟩ := Shutdown.Reachable.cancel_all hclose (Nat.zero_le n) rfl
    obtain ⟨t, hrun, ht⟩ := hs.endangered hc ⟨0, Nat.pos_of_ne_zero hn⟩
    exact ht (h Unit Unit Unit t (hs.trans hrun))
  · rintro rfl C F A _ s _
    refine ⟨fun _ _ w => w.elim0, ?_⟩
    cases hl : s.late with
    | nil => rfl
    | cons x l => exact x.1.elim0

theorem exists_served : ∃ b : State (Fin 1) Unit Unit Unit, Reachable b ∧
    b.pool.exited = false ∧ b.pool.accepted.length = 1 ∧ b.pool.returned = [(0, slot0)] ∧
      b.pool.waits slot0 = false ∧ b.pool.mtx = false ∧ b.worker 0 = .lockMtx ∧
      ∀ t, b.call t = .idle := by
  have h1 := (booted_take (0 : Fin 1)).step (.thread (.worker 0 rfl rfl .finish))
  have h2 := h1.step (.thread (.worker 0 rfl rfl .unlockWait))
  refine ⟨_, h2, rfl, rfl, rfl, rfl, rfl, rfl, ?_⟩
  rintro (w | u)
  · rfl
  · rfl

/-- A worker on its way back to `mtx` is cancelled, and locks it after `tp_close` has destroyed
it. -/
theorem close_before_worker_is_back : ∃ s : Shutdown 1 Unit Unit Unit,
    Shutdown.Reachable s ∧ s.base.pool.accepted.length = 1 ∧ 0 ∈ s.waited ∧
      s.cancelled 0 = true ∧ (0, Obj.mtx) ∈ s.late ∧ ¬s.Safe := by
  obtain ⟨b, hb, he, ha, hr, hw, hm, hq, hi⟩ := exists_served
  obtain ⟨s, hs, rfl, hc, hcan, hl⟩ := Shutdown.exists_base hb
  have h1 := hs.step (.beginWait (.inr ()) slot0 hc he (hi _) trivial)
  have h2 := h1.step (.call (.inr ()) hc he (.waitLock hw))
  have h3 := h2.step (.call (.inr ()) hc he .waitUnlock)
  have hin : 0 ∈ s.waited ++ s.ticketsOf slot0 := by
    rw [Shutdown.ticketsOf, hr]
    exact List.mem_append_right _ (List.mem_singleton.2 rfl)
  have h4 := h3.step (.close hc he ⟨?_, ?_⟩)
  · have h5 := h4.step (.cancel 0 rfl)
    have h6 := h5.step (.free rfl)
    have h7 := h6.step (.destroyMtx rfl)
    obtain ⟨t, ht, hacc, hwaited, hcancelled, hlate⟩ :=
      Shutdown.Reachable.exists_lockMtx h7 ⟨rfl, he, hi (.inl 0), hl 0⟩ hm hq
    have hne : ¬t.Safe := fun hs => List.not_mem_nil (hs.late ▸ hlate)
    exact ⟨t, ht, hacc ▸ ha, hwaited ▸ hin, hcancelled ▸ rfl, hlate, hne⟩
  · rintro (w | u)
    · exact hi _
    · rfl
  · intro k hk
    obtain rfl : k = 0 := Nat.lt_one_iff.1 (ha ▸ hk)
    exact hin

end Apue.ThreadPool
