import Apue.PoolWakeup

namespace Apue.ThreadPool
set_option autoImplicit true

/-- An accepted task has not finished, or a client is inside a call. -/
def State.Busy (s : State W C F A) : Prop :=
  (∃ k < s.pool.accepted.length, ∀ w, (w, k) ∉ s.pool.finished) ∨
    ∃ c, s.call (.inr c) ≠ .idle

/-- No `tp_add_task` call is about to scan a full table. -/
def State.HasRoom (s : State W C F A) : Prop :=
  ∀ t f a, s.call t = .addScan f a → ∃ i, s.pool.tasks i = none

/-- The process is running and no task is inside a call of the pool. -/
structure Plain (s : State W C F A) : Prop where
  exited : s.pool.exited = false
  nested : ∀ w, s.call (.inl w) = .idle

/-- The process runs on as long as no call scans a full table. -/
structure Running (s : State W C F A) : Prop where
  exited : s.pool.exited = false
  initialized : s.pool.initialized = true
  full : ∀ t, s.call t ≠ .addFull
  exit : ∀ t, s.call t ≠ .addExit

theorem Init.running {s : State W C F A} (h : Init s) : Running s := by
  obtain ⟨⟨p, hp, he⟩, hw, hc⟩ := h
  rw [tpInit_fresh hp] at he
  constructor
  · simp only [he, hp.exited]
  · simp only [he]
  · simp [hc]
  · simp [hc]

theorem CallStep.running {p p' : Pool W F A} (h : CallStep p c p' c')
    (hi : p.initialized = true) (hf : c ≠ .addFull) (he : c ≠ .addExit)
    (hr : ∀ f a, c = .addScan f a → ∃ i, p.tasks i = none) :
    p'.exited = p.exited ∧ p'.initialized = true ∧ c' ≠ .addFull ∧ c' ≠ .addExit := by
  cases h with
  | notInitialized hn => simp [hi] at hn
  | full hn =>
    obtain ⟨i, ht⟩ := hr _ _ rfl
    have hs := scan_none hn i
    simp [ht] at hs
  | fullUnlock => exact absurd rfl hf
  | exit => exact absurd rfl he
  | _ => exact ⟨rfl, hi, nofun, nofun⟩

section
variable [DecidableEq W] [DecidableEq C]

def Enabled (s : State W C F A) (t : W ⊕ C) : Prop := ∃ s', ThreadStep t s s'

theorem Plain.call {s : State W C F A} (h : Plain s) (ht : s.call t = c)
    (hc : CallStep s.pool c p c') : ∃ t, Enabled s t := by
  subst ht
  exact ⟨t, _, .call t h.exited hc⟩

theorem Plain.worker {s : State W C F A} (h : Plain s) (hw : s.worker w = q)
    (hs : WorkerStep w s.pool q p q') : ∃ t, Enabled s t := by
  subst hw
  exact ⟨.inl w, _, .worker w h.exited (h.nested w) hs⟩

/-- A worker with a popped task never waits for a lock. -/
theorem Plain.held {s : State W C F A} (h : Plain s) (hx : (s.worker w).held = some x) :
    ∃ t, Enabled s t := by
  cases hw : s.worker w with
  | runUnlock i f a k =>
    cases f with
    | none => rw [hw] at hx; cases hx
    | some f => exact h.worker hw .runUnlock
  | unlockMtx i j => exact h.worker hw .unlockMtx
  | start i j => exact h.worker hw .start
  | running i j => exact h.worker hw .finish
  | unlockWait i j => exact h.worker hw .unlockWait
  | _ => rw [hw] at hx; cases hx

theorem Plain.token {s : State W C F A} (h : Plain s) (ht : (s.call t).token = some i) :
    ∃ t, Enabled s t := by
  rcases Call.token_eq.1 ht with hc | ⟨f, a, hc⟩
  · exact h.call hc .waitUnlock
  · exact h.call hc .store

theorem Plain.free_slot {s : State W C F A} (h : Plain s) (hk : Tokens s)
    (hw : s.pool.waits i = true) (hi : s.pool.tasks i = none) : ∃ t, Enabled s t := by
  rcases (hk.held_iff i).1 hw with ⟨k, ⟨ht, -⟩ | ⟨w, x, hx, -, -⟩⟩ | ⟨t, ht⟩
  · exact absurd hi ht
  · exact h.held hx
  · exact h.token ht

theorem Plain.taskMtx {s : State W C F A} (h : Plain s) (hl : Locks s) (hk : Tokens s)
    (hm : s.pool.taskMtx = true) : ∃ t, Enabled s t := by
  obtain ⟨x, hx⟩ := hl.taskMtx.held_iff.1 hm
  cases x with
  | inl w =>
    cases hw : s.worker w with
    | findScan => exact h.worker hw .findScan
    | findUnlock tid =>
      cases tid with
      | none => exact h.worker hw .findNone
      | some i => exact h.worker hw .findSome
    | runPop i => exact h.worker hw .runPop
    | runUnlock i f a k =>
      cases f with
      | none => exact absurd hw (hl.popped w i a k)
      | some f => exact h.worker hw .runUnlock
    | _ => simp only [State.holdsTaskMtx, hw, Worker.holdsTaskMtx] at hx
  | inr t =>
    cases hc : s.call t with
    | addScan f a =>
      cases hf : findFree s.pool.tasks with
      | none => exact h.call hc (.full hf)
      | some i => exact h.call hc (.found hf)
    | addLockWait f a i =>
      cases hw : s.pool.waits i with
      | false => exact h.call hc (.lockWait hw)
      | true => exact h.free_slot hk hw (hl.chosen t i (by rw [hc]; rfl))
    | addStore f a i => exact h.call hc .store
    | addUnlock i k => exact h.call hc .unlock
    | addFull => exact h.call hc .fullUnlock
    | _ => simp only [State.holdsTaskMtx, hc, Call.holdsTaskMtx] at hx

theorem Plain.mtx {s : State W C F A} (h : Plain s) (hl : Locks s) (hk : Tokens s)
    (hm : s.pool.mtx = true) : ∃ t, Enabled s t := by
  cases ht : s.pool.taskMtx with
  | true => exact h.taskMtx hl hk ht
  | false =>
    obtain ⟨w, hx⟩ := hl.mtx.held_iff.1 hm
    have hn : ¬(s.worker w).holdsTaskMtx := by
      intro hh
      have hx : s.holdsTaskMtx (.inl w) := hh
      rw [hl.taskMtx.held hx] at ht
      cases ht
    cases hw : s.worker w with
    | findLock => exact h.worker hw (.findLock ht)
    | condWait => exact h.worker hw .sleep
    | runLock i => exact h.worker hw (.runLock ht)
    | unlockMtx i j => exact h.worker hw .unlockMtx
    | _ => simp_all [Worker.holdsMtx, Worker.holdsTaskMtx]

/-- A worker that is not blocked on `cond` can go on, or waits for a lock whose holder can. -/
theorem Plain.awake {s : State W C F A} (h : Plain s) (hl : Locks s) (hk : Tokens s)
    (ha : s.pool.asleep w = false) : ∃ t, Enabled s t := by
  cases hm : s.pool.mtx with
  | true => exact h.mtx hl hk hm
  | false =>
    have hn : ¬(s.worker w).holdsMtx := by
      intro hh
      rw [hl.mtx.held hh] at hm
      cases hm
    cases hw : s.worker w with
    | lockMtx => exact h.worker hw (.lockMtx hm)
    | waiting => exact h.worker hw (.wake ha hm)
    | start i j => exact h.worker hw .start
    | running i j => exact h.worker hw .finish
    | unlockWait i j => exact h.worker hw .unlockWait
    | _ => simp [hw, Worker.holdsMtx] at hn

theorem Plain.pending [Nontrivial W] {s : State W C F A} (h : Plain s) (hr : Reachable s)
    (hp : s.Pending) : ∃ t, Enabled s t := by
  by_cases hb : s.Publishing
  · obtain ⟨t, ht⟩ := hb
    cases hc : s.call t with
    | addUnlock i k => exact h.call hc .unlock
    | addBroadcast i k => exact h.call hc .broadcast
    | _ => simp [hc, Call.announces] at ht
  · obtain ⟨w, hw⟩ := (Reachable.wakeful hr).awake hp hb
    exact h.awake (Reachable.locks hr) (Reachable.tokens hr) hw

theorem Plain.waits [Nontrivial W] {s : State W C F A} (h : Plain s) (hr : Reachable s)
    (hw : s.pool.waits i = true) : ∃ t, Enabled s t := by
  by_cases hi : s.pool.tasks i = none
  · exact h.free_slot (Reachable.tokens hr) hw hi
  · exact h.pending hr ⟨i, hi⟩

theorem Plain.inside [Nontrivial W] {s : State W C F A} (h : Plain s) (hr : Reachable s)
    (hc : s.call t ≠ .idle) (hi : s.pool.initialized = true) : ∃ t, Enabled s t := by
  have hl := Reachable.locks hr
  have hk := Reachable.tokens hr
  have hold {t : W ⊕ C} (hh : (s.call t).holdsTaskMtx) : ∃ t, Enabled s t := by
    have hx : s.holdsTaskMtx (.inr t) := hh
    exact h.taskMtx hl hk (hl.taskMtx.held hx)
  cases ht : s.call t with
  | idle => exact absurd ht hc
  | addTest f a => exact h.call ht (.test hi)
  | addLock f a =>
    cases hm : s.pool.taskMtx with
    | false => exact h.call ht (.lock hm)
    | true => exact h.taskMtx hl hk hm
  | addBroadcast i k => exact h.call ht .broadcast
  | addExit => exact h.call ht .exit
  | waitLock i =>
    cases hw : s.pool.waits i with
    | false => exact h.call ht (.waitLock hw)
    | true => exact h.waits hr hw
  | waitUnlock i => exact h.call ht .waitUnlock
  | _ => exact hold (t := t) (by rw [ht]; trivial)

theorem WorkerStep.flags {w : W} (h : WorkerStep w p q p' q') :
    p'.exited = p.exited ∧ p'.initialized = p.initialized := by
  cases h <;> exact ⟨rfl, rfl⟩

theorem Running.begin {s : State W C F A} (h : Running s) (hf : c ≠ .addFull)
    (he : c ≠ .addExit) : Running { s with call := Function.update s.call t c } := by
  refine ⟨h.exited, h.initialized, ?_, ?_⟩
  · intro t'
    simp only [Function.update_apply]
    split
    · exact hf
    · exact h.full t'
  · intro t'
    simp only [Function.update_apply]
    split
    · exact he
    · exact h.exit t'

theorem Running.step {s s' : State W C F A} (h : Running s) (hr : s.HasRoom)
    (hs : Step s s') : Running s' := by
  cases hs with
  | thread ht =>
    cases ht with
    | worker w he hi hw =>
      obtain ⟨hx, hy⟩ := hw.flags
      exact ⟨hx.trans h.exited, hy.trans h.initialized, h.full, h.exit⟩
    | call t he hc =>
      obtain ⟨hx, hy, hf, he⟩ := hc.running h.initialized (h.full _) (h.exit _) (hr _)
      exact ⟨hx.trans h.exited, hy, (h.begin hf he).full, (h.begin hf he).exit⟩
  | beginAdd t f a he hi hm => exact h.begin nofun nofun
  | beginWait t i he hi hm => exact h.begin nofun nofun
  | spurious w he => exact ⟨h.exited, h.initialized, h.full, h.exit⟩

/-- The runs in which there are never more than `MAX_TASKS` pending tasks. -/
def roomy (W C F A : Type) [DecidableEq W] [DecidableEq C] : System (State W C F A) :=
  (system W C F A).guard (fun s _ => s.HasRoom)

theorem running_of_roomy {s : State W C F A} (h : (roomy W C F A).Reachable s) : Running s :=
  h.invariant (fun _ => Init.running) (fun _ _ _ hr hs => hr.step hs.2 hs.1)

/-- With two workers or more, some thread can go on while a task or a client call is unfinished. -/
theorem deadlock_free {n : Nat} (hn : 2 ≤ n) {s : State (Fin n) C F A}
    (h : (roomy (Fin n) C F A).Reachable s) (hc : ∀ w, s.call (.inl w) = .idle)
    (hb : s.Busy) : ∃ t, Enabled s t := by
  have : Nontrivial (Fin n) := Fin.nontrivial_iff_two_le.2 hn
  have hrun := running_of_roomy h
  have hr : Reachable s := h.of_guard
  have hp : Plain s := ⟨hrun.exited, hc⟩
  rcases hb with ⟨k, hk, hf⟩ | ⟨c, hi⟩
  · rcases hr.open_or_finished (List.getElem?_eq_getElem hk) with ho | ⟨w, hw⟩
    · rcases ho with ⟨ht, -⟩ | ⟨w, x, hx, -, -⟩
      · exact hp.pending hr ⟨_, ht⟩
      · exact hp.held hx
    · exact absurd hw (hf w)
  · exact hp.inside hr hi hrun.initialized

end

theorem deadlock_free_submit : ∃ s : State (Fin 8) Unit Unit Unit,
    s.pool.accepted.length = 1 ∧ s.Busy ∧ ∃ t, Enabled s t := by
  have h0 : (roomy (Fin 8) Unit Unit Unit).Reachable (booted (Fin 8) Unit Unit Unit) :=
    .init booted_init
  have h1 := h0.step ⟨.beginAdd (.inr ()) () none rfl rfl trivial, fun _ _ _ _ => ⟨slot0, rfl⟩⟩
  have h2 := h1.step ⟨.thread (.call (.inr ()) rfl (.test rfl)), fun _ _ _ _ => ⟨slot0, rfl⟩⟩
  have h3 := h2.step ⟨.thread (.call (.inr ()) rfl (.lock rfl)), fun _ _ _ _ => ⟨slot0, rfl⟩⟩
  have h4 := h3.step ⟨.thread (.call (.inr ()) rfl (.found (findFree_slot0 rfl))),
    fun _ _ _ _ => ⟨slot0, rfl⟩⟩
  have h5 := h4.step ⟨.thread (.call (.inr ()) rfl (.lockWait rfl)),
    fun _ _ _ _ => ⟨slot0, rfl⟩⟩
  have h6 := h5.step ⟨.thread (.call (.inr ()) rfl .store), fun _ _ _ _ => ⟨slot0, rfl⟩⟩
  refine ⟨_, rfl, ?_, deadlock_free (by decide) h6 (fun _ => rfl) ?_⟩
  · exact .inl ⟨0, Nat.one_pos, fun w hw => by cases hw⟩
  · exact .inl ⟨0, Nat.one_pos, fun w hw => by cases hw⟩

end Apue.ThreadPool
