import Apue.PoolWaiting
import Mathlib.Data.Fin.Basic
import Mathlib.Logic.Nontrivial.Basic
import Mathlib.Order.Fin.Basic

namespace Apue.ThreadPool
set_option autoImplicit true

def State.Pending (s : State W C F A) : Prop := ∃ i, s.pool.tasks i ≠ none

/-- Some call has stored its task and not yet broadcast. -/
def State.Publishing (s : State W C F A) : Prop := ∃ t, (s.call t).announces ≠ none

/-- A pending task whose broadcast is over finds a worker that is not blocked on `cond`. -/
def NoLostWakeup (s : State W C F A) : Prop :=
  s.Pending → ¬s.Publishing → ∃ w, s.pool.asleep w = false

/-- A worker that has seen an empty table and not yet gone to sleep. -/
def Worker.emptyHanded : Worker F A → Prop
  | .findUnlock none | .condWait => True
  | _ => False

/-- While a worker is on its way to sleep it holds `mtx`, so a broadcast that it misses leaves
every other worker awake. -/
structure Wakeful (s : State W C F A) : Prop where
  scanned : ∀ w, (s.worker w).emptyHanded → s.Pending → ¬s.Publishing →
    ∀ v, s.pool.asleep v = false
  awake : NoLostWakeup s

theorem Worker.emptyHanded_holdsMtx {q : Worker F A} (h : q.emptyHanded) : q.holdsMtx := by
  cases q with
  | findUnlock => trivial
  | condWait => trivial
  | _ => cases h

theorem Init.wakeful {s : State W C F A} (h : Init s) : Wakeful s := by
  obtain ⟨⟨p, hp, he⟩, hw, hc⟩ := h
  rw [tpInit_fresh hp] at he
  have hn : ¬s.Pending := by
    rintro ⟨i, hi⟩
    simp [he] at hi
  exact ⟨fun _ _ hp => absurd hp hn, fun hp => absurd hp hn⟩

theorem CallStep.asleep {p p' : Pool W F A} (h : CallStep p c p' c') :
    (∀ w, p'.asleep w = false) ∨ c'.announces ≠ none ∨
      (p'.asleep = p.asleep ∧ p'.tasks = p.tasks ∧ c'.announces = c.announces) := by
  cases h with
  | broadcast => exact .inl (fun _ => rfl)
  | store => exact .inr (.inl nofun)
  | unlock => exact .inr (.inl nofun)
  | _ => exact .inr (.inr ⟨rfl, rfl, rfl⟩)

section
variable [DecidableEq W]

theorem WorkerStep.asleep {p p' : Pool W F A} {w : W} (h : WorkerStep w p q p' q') :
    p'.asleep = p.asleep ∨
      (q = .condWait ∧ q' = .waiting ∧ p'.tasks = p.tasks ∧
        p'.asleep = Function.update p.asleep w true) := by
  cases h with
  | sleep => exact .inr ⟨rfl, rfl, rfl, rfl⟩
  | _ => exact .inl rfl

theorem WorkerStep.emptyHanded {p p' : Pool W F A} {w : W} (h : WorkerStep w p q p' q')
    (hq : q'.emptyHanded) : p'.asleep = p.asleep ∧ (q.emptyHanded ∨ ∀ i, p'.tasks i = none) := by
  cases h with
  | findScan =>
    refine ⟨rfl, .inr (findTask_none ?_)⟩
    generalize findTask p.tasks = r at hq
    cases r with
    | none => rfl
    | some i => cases hq
  | findNone => exact ⟨rfl, .inl trivial⟩
  | _ => cases hq

theorem Wakeful.worker [Nontrivial W] {s : State W C F A} {w : W} (h : Wakeful s)
    (hl : Locks s) (hs : WorkerStep w s.pool (s.worker w) p q) :
    Wakeful { s with pool := p, worker := Function.update s.worker w q } := by
  have old (hp : ∃ i, p.tasks i ≠ none) : s.Pending := by
    obtain ⟨i, hi⟩ := hp
    rcases hs.tasks with he | ⟨j, -, he⟩
    · exact ⟨i, he ▸ hi⟩
    · rw [he, Function.update_apply] at hi
      split at hi
      · exact absurd rfl hi
      · exact ⟨i, hi⟩
  constructor
  · intro v hv hp hn
    by_cases hvw : v = w
    · subst hvw
      simp only [Function.update_self] at hv
      obtain ⟨ha, hv | ht⟩ := hs.emptyHanded hv
      · simpa only [ha] using h.scanned v hv (old hp) hn
      · obtain ⟨i, hi⟩ := hp
        exact absurd (ht i) hi
    · simp only [Function.update_of_ne hvw] at hv
      rcases hs.asleep with ha | ⟨hq, -, -, -⟩
      · simpa only [ha] using h.scanned v hv (old hp) hn
      · -- Two workers on their way to sleep would both hold `mtx`.
        have hm : (s.worker w).holdsMtx := by
          rw [hq]
          trivial
        exact absurd (hl.mtx.unique (Worker.emptyHanded_holdsMtx hv) hm) hvw
  · intro hp hn
    rcases hs.asleep with ha | ⟨hq, -, -, ha⟩
    · simpa only [ha] using h.awake (old hp) hn
    · obtain ⟨v, hv⟩ := exists_ne w
      refine ⟨v, ?_⟩
      simp only [ha, Function.update_of_ne hv]
      refine h.scanned w ?_ (old hp) hn v
      rw [hq]
      trivial

variable [DecidableEq C]

theorem Wakeful.call [Nonempty W] {s : State W C F A} {t : W ⊕ C} (h : Wakeful s)
    (hs : CallStep s.pool (s.call t) p c) :
    Wakeful { s with pool := p, call := Function.update s.call t c } := by
  rcases hs.asleep with ha | hc | ⟨ha, ht, hc⟩
  · exact ⟨fun _ _ _ _ => ha, fun _ _ => ⟨Classical.arbitrary W, ha _⟩⟩
  · have hp : State.Publishing { s with pool := p, call := Function.update s.call t c } :=
      ⟨t, by simpa only [Function.update_self] using hc⟩
    exact ⟨fun _ _ _ hn => absurd hp hn, fun _ hn => absurd hp hn⟩
  · have pub : s.Publishing →
        State.Publishing { s with pool := p, call := Function.update s.call t c } := by
      rintro ⟨t', ht'⟩
      refine ⟨t', ?_⟩
      by_cases he : t' = t
      · subst he
        simpa only [Function.update_self, hc] using ht'
      · simpa only [Function.update_of_ne he] using ht'
    constructor
    · intro w hw hp hn
      simp only [ha]
      exact h.scanned w hw (by simpa only [State.Pending, ht] using hp) (fun h => hn (pub h))
    · intro hp hn
      simp only [ha]
      exact h.awake (by simpa only [State.Pending, ht] using hp) (fun h => hn (pub h))

theorem Wakeful.begin {s : State W C F A} {t : W ⊕ C} (h : Wakeful s)
    (hi : s.call t = .idle) : Wakeful { s with call := Function.update s.call t c } := by
  have pub : s.Publishing →
      State.Publishing { s with call := Function.update s.call t c } := by
    rintro ⟨t', ht'⟩
    have he : t' ≠ t := by
      rintro rfl
      rw [hi] at ht'
      exact ht' rfl
    exact ⟨t', by simpa only [Function.update_of_ne he] using ht'⟩
  exact ⟨fun w hw hp hn => h.scanned w hw hp (fun h => hn (pub h)),
    fun hp hn => h.awake hp (fun h => hn (pub h))⟩

theorem Wakeful.step [Nontrivial W] {s s' : State W C F A} (h : Wakeful s) (hl : Locks s)
    (hs : Step s s') : Wakeful s' := by
  cases hs with
  | thread ht =>
    cases ht with
    | worker w he hi hw => exact h.worker hl hw
    | call t he hc => exact h.call hc
  | beginAdd t f a he hi hm => exact h.begin hi
  | beginWait t i he hi hm => exact h.begin hi
  | spurious w he =>
    constructor
    · intro v hv hp hn u
      simp only [Function.update_apply]
      split
      · rfl
      · exact h.scanned v hv hp hn u
    · intro hp hn
      exact ⟨w, Function.update_self _ _ _⟩

theorem Reachable.wakeful [Nontrivial W] {s : State W C F A} (h : Reachable s) : Wakeful s :=
  h.invariant (fun _ => Init.wakeful) (fun _ _ hr hw => hw.step (Reachable.locks hr))

theorem WorkerStep.findScan_empty {p : Pool W F A} {w : W} (h : ∀ i, p.tasks i = none) :
    WorkerStep w p .findScan p (.findUnlock none) := by
  have hf : findTask p.tasks = none := by
    cases hf : findTask p.tasks with
    | none => rfl
    | some i => exact absurd (h i) (findTask_some hf)
  rw [← hf]
  exact .findScan

end

/-- A single worker can scan the empty table, miss the broadcast of a task stored after the
scan, and then sleep on it. -/
theorem single_worker_sleeps : ∃ s : State (Fin 1) Unit Unit Unit,
    Reachable s ∧ s.Pending ∧ ¬s.Publishing ∧ ∀ w, s.pool.asleep w = true := by
  have h0 : Reachable (booted (Fin 1) Unit Unit Unit) := .init booted_init
  have h1 := h0.step (.thread (.worker 0 rfl rfl (.lockMtx rfl)))
  have h2 := h1.step (.thread (.worker 0 rfl rfl (.findLock rfl)))
  have h3 := h2.step (.thread (.worker 0 rfl rfl (.findScan_empty fun _ => rfl)))
  have h4 := h3.step (.thread (.worker 0 rfl rfl .findNone))
  have h5 := h4.trans (State.submit_run (t := .inr ()) () none rfl rfl rfl trivial rfl
    (findFree_slot0 rfl) rfl)
  have h6 := h5.step (.thread (.worker 0 rfl rfl .sleep))
  refine ⟨_, h6, ⟨slot0, nofun⟩, ?_, ?_⟩
  · rintro ⟨w | u, ht⟩
    · exact ht rfl
    · exact ht rfl
  · intro w
    rw [Fin.fin_one_eq_zero w]
    rfl

/-- The pool never leaves a pending task with all workers asleep exactly when it has at least
two workers. -/
theorem no_lost_wakeup_iff (n : Nat) (hn : 1 ≤ n) :
    (∀ (C F A : Type) [DecidableEq C] (s : State (Fin n) C F A), Reachable s → NoLostWakeup s) ↔
      2 ≤ n := by
  constructor
  · intro h
    by_contra hlt
    obtain rfl : n = 1 := by omega
    obtain ⟨s, hr, hp, hn, ha⟩ := single_worker_sleeps
    obtain ⟨w, hw⟩ := h Unit Unit Unit s hr hp hn
    rw [ha w] at hw
    cases hw
  · intro h2 C F A _ s hr
    have : Nontrivial (Fin n) := Fin.nontrivial_iff_two_le.2 h2
    exact (Reachable.wakeful hr).awake

theorem no_lost_wakeup_main : 1 ≤ 8 ∧ ∀ (C F A : Type) [DecidableEq C]
    (s : State (Fin 8) C F A), Reachable s → NoLostWakeup s :=
  ⟨by decide, (no_lost_wakeup_iff 8 (by decide)).2 (by decide)⟩

theorem lost_wakeup_one_worker :
    ¬∀ n, 1 ≤ n → ∀ s : State (Fin n) Unit Unit Unit, Reachable s → NoLostWakeup s := by
  intro h
  obtain ⟨s, hr, hp, hn, ha⟩ := single_worker_sleeps
  obtain ⟨w, hw⟩ := h 1 le_rfl s hr hp hn
  rw [ha w] at hw
  cases hw

end Apue.ThreadPool
