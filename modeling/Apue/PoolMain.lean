import Apue.Census
import Apue.PoolProgress
import Mathlib.Algebra.Order.BigOperators.Group.Finset
import Mathlib.Data.Fintype.Pigeonhole

namespace Apue.ThreadPool
set_option autoImplicit true

section
variable [DecidableEq W] [DecidableEq C]

/-- The tickets of the stored tasks are distinct, so the table is not full while fewer tasks have
been accepted than it has slots. -/
theorem Reachable.exists_free {s : State W C F A} (h : Reachable s)
    (hlt : s.pool.accepted.length < maxTasks) : ∃ i, s.pool.tasks i = none := by
  obtain ⟨b, -, hb, hn, -⟩ := h.ledger
  by_contra hfull
  rw [not_exists] at hfull
  have hplace (i : Slot) : b[s.pool.ticket i]? = some (.slot i) := (hb _ (.slot i)).1 ⟨hfull i, rfl⟩
  have hticket (i : Slot) : s.pool.ticket i < s.pool.accepted.length := by
    rw [← hn]
    exact (List.getElem?_eq_some_iff.1 (hplace i)).1
  obtain ⟨i, j, hij, he⟩ := Fintype.exists_ne_map_eq_of_card_lt
    (fun i : Slot => (⟨s.pool.ticket i, hticket i⟩ : Fin s.pool.accepted.length))
    (by rw [Fintype.card_fin, Fintype.card_fin]; exact hlt)
  have hk : s.pool.ticket i = s.pool.ticket j := congrArg Fin.val he
  have hi := hplace i
  rw [hk, hplace j] at hi
  exact hij (Place.slot.inj (Option.some.inj hi)).symm

/-- A task that runs has been started by its worker, and so has one that has returned. -/
structure Begun (s : State W C F A) : Prop where
  running : ∀ w i j, s.worker w = .running i j → (w, j) ∈ s.pool.started
  finished : ∀ w k, (w, k) ∈ s.pool.finished → ∃ j, (w, j) ∈ s.pool.started ∧ j.ticket = k

omit [DecidableEq C] in
theorem Begun.worker {s : State W C F A} {w : W} (h : Begun s)
    (hs : WorkerStep w s.pool (s.worker w) p q) :
    Begun { s with pool := p, worker := Function.update s.worker w q } := by
  generalize hq : s.worker w = q₀ at hs
  have hrun {p' : Pool W F A} {q' : Worker F A} (hsub : ∀ e ∈ s.pool.started, e ∈ p'.started)
      (hw : ∀ i j, q' = .running i j → (w, j) ∈ p'.started) (v : W) (i : Slot) (j : Job F A)
      (hv : Function.update s.worker w q' v = .running i j) : (v, j) ∈ p'.started := by
    by_cases he : v = w
    · subst he
      rw [Function.update_self] at hv
      exact hw i j hv
    · rw [Function.update_of_ne he] at hv
      exact hsub _ (h.running v i j hv)
  cases hs with
  | start =>
    refine ⟨hrun (fun e he => List.mem_append_left _ he) ?_, ?_⟩
    · intro i j hj
      cases hj
      exact List.mem_append_right _ (List.mem_singleton.2 rfl)
    · intro v k hk
      obtain ⟨j, hj, ht⟩ := h.finished v k hk
      exact ⟨j, List.mem_append_left _ hj, ht⟩
  | @finish i j =>
    refine ⟨hrun (fun e he => he) nofun, ?_⟩
    intro v k hk
    rcases List.mem_append.1 hk with hk | hk
    · exact h.finished v k hk
    · cases List.mem_singleton.1 hk
      exact ⟨j, h.running w i j hq, rfl⟩
  | _ => exact ⟨hrun (fun e he => he) nofun, h.finished⟩

theorem Reachable.begun {s : State W C F A} (h : Reachable s) : Begun s := by
  refine h.invariant ?_ ?_
  · rintro s ⟨⟨p, hp, he⟩, hw, -⟩
    rw [tpInit_fresh hp] at he
    constructor
    · intro w i j hq
      rw [hw] at hq
      cases hq
    · intro w k hk
      rw [he, hp.finished] at hk
      cases hk
  · intro s t _ ih hst
    cases hst with
    | thread ht =>
      cases ht with
      | worker w he hi hw => exact ih.worker hw
      | call t he hc =>
        obtain ⟨hstart, hfin⟩ := hc.frame
        exact ⟨by rw [hstart]; exact ih.running, by rw [hstart, hfin]; exact ih.finished⟩
    | _ => exact ⟨ih.running, ih.finished⟩

theorem Step.accepted_prefix {s s' : State W C F A} (h : Step s s') :
    s.pool.accepted <+: s'.pool.accepted := by
  cases h with
  | thread ht =>
    cases ht with
    | worker w he hi hw => rw [hw.frame.2.1]
    | call t he hc =>
      rcases hc.records with ⟨-, -, -, ha, -⟩ | ⟨f, a, i, -, -, -, -, -, ha, -⟩ |
        ⟨i, k, -, -, -, -, -, ha, -⟩
      · rw [ha]
      · rw [ha]
        exact List.prefix_append _ _
      · rw [ha]
  | _ => exact List.prefix_refl _

end

namespace Main

/-- In the loop of tp_add_task or in that of tp_wait_task, between two calls or inside one, or at
tp_close. -/
inductive Pc where
  | add (j : Nat)
  | adding (j : Nat)
  | wait (i : Nat)
  | waiting (i : Nat)
  | close
  deriving DecidableEq

/-- main between tp_init and tp_close. All tasks are `routine`, and the argument of task `j` is
`args + j`. -/
structure State (n : Nat) where
  base : ThreadPool.State (Fin n) Unit Unit Nat
  tasks : List Slot
  pc : Pc

/-- A statement of main with `TASKS = N`, of one of the functions that main has called, or of a
worker. -/
inductive Move (N : Nat) : State n → State n → Prop where
  | worker : ThreadStep (.inl w) s.base b → Move N s { s with base := b }
  | beginAdd : s.pc = .add j → j < N → s.base.pool.exited = false →
      s.base.call (.inr ()) = .idle →
      Move N s
        { s with
          base :=
            { s.base with
              call := Function.update s.base.call (.inr ()) (.addTest () (some j)) }
          pc := .adding j }
  | call : ThreadStep (.inr ()) s.base b → b.call (.inr ()) ≠ .idle →
      Move N s { s with base := b }
  | addReturns : s.pc = .adding j → s.base.call (.inr ()) = .addBroadcast i k →
      ThreadStep (.inr ()) s.base b →
      Move N s { base := b, tasks := s.tasks ++ [i], pc := .add (j + 1) }
  | addsDone : s.pc = .add j → N ≤ j → s.base.pool.exited = false →
      Move N s { s with pc := .wait 0 }
  | beginWait : s.pc = .wait i → i < N → s.tasks[i]? = some slot → s.base.pool.exited = false →
      s.base.call (.inr ()) = .idle →
      Move N s
        { s with
          base :=
            { s.base with call := Function.update s.base.call (.inr ()) (.waitLock slot) }
          pc := .waiting i }
  | waitReturns : s.pc = .waiting i → ThreadStep (.inr ()) s.base b →
      b.call (.inr ()) = .idle → Move N s { s with base := b, pc := .wait (i + 1) }
  | waitsDone : s.pc = .wait i → N ≤ i → s.base.pool.exited = false →
      Move N s { s with pc := .close }

/-- Besides, pthread_cond_wait may return without a broadcast. -/
inductive Step (N : Nat) : State n → State n → Prop where
  | move : Move N s t → Step N s t
  | spurious (w : Fin n) : s.base.pool.exited = false →
      Step N s
        { s with
          base :=
            { s.base with
              pool :=
                { s.base.pool with
                  asleep := Function.update s.base.pool.asleep w false } } }

/-- Nothing initialises main's tp: these are the runs in which `initialized` is zero by chance, so
that tp_init does its work. -/
def Init (s : State n) : Prop := ThreadPool.Init s.base ∧ s.tasks = [] ∧ s.pc = .add 0

def system (n N : Nat) : System (State n) where
  init := Init
  step := Step N

abbrev Reachable (N : Nat) (s : State n) : Prop := (system n N).Reachable s

theorem Step.base {s t : State n} (h : Step N s t) :
    t.base = s.base ∨ ThreadPool.Step s.base t.base := by
  cases h with
  | move hm =>
    cases hm with
    | worker ht => exact .inr (.thread ht)
    | beginAdd _ _ hx hi => exact .inr (.beginAdd _ _ _ hx hi trivial)
    | call ht => exact .inr (.thread ht)
    | addReturns _ _ ht => exact .inr (.thread ht)
    | addsDone => exact .inl rfl
    | beginWait _ _ _ hx hi => exact .inr (.beginWait _ _ hx hi trivial)
    | waitReturns _ ht => exact .inr (.thread ht)
    | waitsDone => exact .inl rfl
  | spurious w hx => exact .inr (.spurious w hx)

theorem Reachable.base {s : State n} (h : Reachable N s) : ThreadPool.Reachable s.base :=
  h.project (fun _ h0 => h0.1) fun _ _ _ hst => hst.base

def Finished (s : State n) (k : Nat) : Prop := ∃ w, (w, k) ∈ s.base.pool.finished

/-- What the call of tp_add_task for task `j` has done so far. -/
def Submitting (p : Pool W Unit Nat) (j : Nat) : Call Unit Nat → Prop
  | .addTest _ a | .addLock _ a | .addScan _ a | .addLockWait _ a _ | .addStore _ a _ =>
    a = some j ∧ p.accepted.length = j
  | .addUnlock i k | .addBroadcast i k =>
    k = j ∧ p.accepted.length = j + 1 ∧ p.accepted[j]? = some ⟨(), some j, i⟩
  | _ => False

def Progress (N : Nat) (s : State n) : Prop :=
  match s.pc with
  | .add j =>
    s.base.call (.inr ()) = .idle ∧ j ≤ N ∧ s.base.pool.accepted.length = j ∧ s.tasks.length = j
  | .adding j => j < N ∧ s.tasks.length = j ∧ Submitting s.base.pool j (s.base.call (.inr ()))
  | .wait i =>
    s.base.call (.inr ()) = .idle ∧ i ≤ N ∧ s.base.pool.accepted.length = N ∧
      s.tasks.length = N ∧ ∀ k < i, Finished s k
  | .waiting i =>
    i < N ∧ s.base.pool.accepted.length = N ∧ s.tasks.length = N ∧ (∀ k < i, Finished s k) ∧
      ∃ slot, s.tasks[i]? = some slot ∧ (s.base.call (.inr ()) = .waitLock slot ∨
        s.base.call (.inr ()) = .waitUnlock slot ∧ Finished s i)
  | .close =>
    s.base.call (.inr ()) = .idle ∧ s.base.pool.accepted.length = N ∧ s.tasks.length = N ∧
      ∀ k < N, Finished s k

structure Inv (N : Nat) (s : State n) : Prop where
  nested : ∀ w, s.base.call (.inl w) = .idle
  running : Running s.base
  logged : ∀ k i, s.tasks[k]? = some i →
    s.base.pool.accepted[k]? = some ⟨(), some k, i⟩ ∧ (k, i) ∈ s.base.pool.returned
  progress : Progress N s

theorem Init.inv {s : State n} (h : Init s) : Inv N s := by
  obtain ⟨hbase, htasks, hpc⟩ := h
  have hrun := Init.running hbase
  obtain ⟨⟨p, hp, he⟩, hw, hc⟩ := hbase
  rw [tpInit_fresh hp] at he
  refine ⟨fun w => hc _, hrun, ?_, ?_⟩
  · intro k i hk
    rw [htasks] at hk
    cases hk
  · simp only [Progress, hpc]
    refine ⟨hc _, Nat.zero_le N, ?_, ?_⟩
    · rw [he, hp.accepted]
      rfl
    · rw [htasks]
      rfl

theorem Inv.hasRoom {s : State n} (h : Inv N s) (hr : ThreadPool.Reachable s.base)
    (hN : N ≤ maxTasks) : s.base.HasRoom := by
  intro t f a hc
  have hscan : s.base.pool.accepted.length < maxTasks := by
    cases t with
    | inl w =>
      rw [h.nested w] at hc
      cases hc
    | inr u =>
      have hp := h.progress
      rw [Progress] at hp
      split at hp
      · rw [hc] at hp
        cases hp.1
      · obtain ⟨hj, -, hs⟩ := hp
        rw [hc] at hs
        rw [hs.2]
        exact Nat.lt_of_lt_of_le hj hN
      · rw [hc] at hp
        cases hp.1
      · obtain ⟨-, -, -, -, slot, -, hw | ⟨hw, -⟩⟩ := hp
        · rw [hc] at hw
          cases hw
        · rw [hc] at hw
          cases hw
      · rw [hc] at hp
        cases hp.1
  exact hr.exists_free hscan

theorem threadStep_client {s b : ThreadPool.State (Fin n) Unit Unit Nat}
    (h : ThreadStep (.inr ()) s b) : ∃ p c, CallStep s.pool (s.call (.inr ())) p c ∧
      b = { s with pool := p, call := Function.update s.call (.inr ()) c } := by
  cases h with
  | call _ _ hc => exact ⟨_, _, hc, rfl⟩

theorem threadStep_worker {s b : ThreadPool.State (Fin n) Unit Unit Nat} {w : Fin n}
    (h : ThreadStep (.inl w) s b) (hi : s.call (.inl w) = .idle) :
    ∃ p q, WorkerStep w s.pool (s.worker w) p q ∧
      b = { s with pool := p, worker := Function.update s.worker w q } := by
  cases h with
  | worker _ _ _ hw => exact ⟨_, _, hw, rfl⟩
  | call _ _ hc =>
    rw [hi] at hc
    cases hc

theorem Submitting.step {p p' : Pool W Unit Nat} (h : Submitting p j c) (hs : CallStep p c p' c')
    (hi : p.initialized = true) (hroom : ∀ f a, c = .addScan f a → ∃ i, p.tasks i = none) :
    Submitting p' j c' ∨ c' = .idle ∧ ∃ i, c = .addBroadcast i j ∧
      p.accepted.length = j + 1 ∧ p.accepted[j]? = some ⟨(), some j, i⟩ := by
  cases hs with
  | notInitialized hn =>
    rw [hi] at hn
    cases hn
  | full hf =>
    obtain ⟨i, hi⟩ := hroom _ _ rfl
    have hs := scan_none hf i
    rw [hi] at hs
    cases hs
  | @store p f a i =>
    obtain ⟨rfl, hlen⟩ := h
    refine .inl ⟨hlen, ?_, ?_⟩
    · rw [List.length_append, hlen, List.length_singleton]
    · rw [List.getElem?_append_right (Nat.le_of_eq hlen), hlen, Nat.sub_self]
      rfl
  | broadcast =>
    obtain ⟨rfl, hlen, hget⟩ := h
    exact .inr ⟨rfl, _, rfl, hlen, hget⟩
  | fullUnlock => cases h
  | exit => cases h
  | waitLock => cases h
  | waitUnlock => cases h
  | _ => exact .inl h

theorem Submitting.accepted {p : Pool W Unit Nat} (h : Submitting p j c) :
    p.accepted.length = j ∨
      p.accepted.length = j + 1 ∧ ∃ i, p.accepted[j]? = some ⟨(), some j, i⟩ := by
  cases c with
  | addUnlock i k => exact .inr ⟨h.2.1, i, h.2.2⟩
  | addBroadcast i k => exact .inr ⟨h.2.1, i, h.2.2⟩
  | addTest f a => exact .inl h.2
  | addLock f a => exact .inl h.2
  | addScan f a => exact .inl h.2
  | addLockWait f a i => exact .inl h.2
  | addStore f a i => exact .inl h.2
  | _ => exact h.elim

theorem Progress.frame {s : State n} {b : ThreadPool.State (Fin n) Unit Unit Nat}
    (h : Progress N s) (hc : b.call (.inr ()) = s.base.call (.inr ()))
    (ha : b.pool.accepted = s.base.pool.accepted)
    (hf : ∀ x ∈ s.base.pool.finished, x ∈ b.pool.finished) :
    Progress N { s with base := b } := by
  have hfin {k : Nat} : Finished s k → Finished { s with base := b } k := by
    rintro ⟨w, hw⟩
    exact ⟨w, hf _ hw⟩
  have hsub {j : Nat} {c : Call Unit Nat} (hs : Submitting s.base.pool j c) :
      Submitting b.pool j c := by
    cases c <;> simp only [Submitting, ha] at hs ⊢ <;> exact hs
  unfold Progress at h ⊢
  cases hp : s.pc with
  | add j =>
    simp only [hp, hc, ha] at h ⊢
    exact h
  | adding j =>
    simp only [hp, hc] at h ⊢
    exact ⟨h.1, h.2.1, hsub h.2.2⟩
  | wait i =>
    simp only [hp, hc, ha] at h ⊢
    obtain ⟨hi, hle, hacc, htasks, hdone⟩ := h
    exact ⟨hi, hle, hacc, htasks, fun k hk => hfin (hdone k hk)⟩
  | waiting i =>
    simp only [hp, hc, ha] at h ⊢
    obtain ⟨hlt, hacc, htasks, hdone, slot, hslot, hcall⟩ := h
    refine ⟨hlt, hacc, htasks, fun k hk => hfin (hdone k hk), slot, hslot, ?_⟩
    exact hcall.imp_right fun ⟨hw, hd⟩ => ⟨hw, hfin hd⟩
  | close =>
    simp only [hp, hc, ha] at h ⊢
    obtain ⟨hi, hacc, htasks, hdone⟩ := h
    exact ⟨hi, hacc, htasks, fun k hk => hfin (hdone k hk)⟩

theorem Progress.call {s : State n} {p : Pool (Fin n) Unit Nat} {c : Call Unit Nat}
    (h : Inv N s) (hr : ThreadPool.Reachable s.base) (hN : N ≤ maxTasks)
    (hs : CallStep s.base.pool (s.base.call (.inr ())) p c) :
    (c ≠ .idle → Progress N
      { s with
        base :=
          { s.base with pool := p, call := Function.update s.base.call (.inr ()) c } }) ∧
    (c = .idle → (∃ j i, s.pc = .adding j ∧ s.base.call (.inr ()) = .addBroadcast i j ∧
        s.base.pool.accepted.length = j + 1 ∧
        s.base.pool.accepted[j]? = some ⟨(), some j, i⟩) ∨
      ∃ i slot, s.pc = .waiting i ∧ s.base.call (.inr ()) = .waitUnlock slot ∧
        Finished s i) := by
  have hidle (hi : s.base.call (.inr ()) = .idle) : False := by
    rw [hi] at hs
    cases hs
  have hp := h.progress
  unfold Progress at hp
  cases hpc : s.pc with
  | add j =>
    simp only [hpc] at hp
    exact (hidle hp.1).elim
  | adding j =>
    simp only [hpc] at hp
    obtain ⟨hj, htasks, hsub⟩ := hp
    rcases hsub.step hs h.running.initialized (h.hasRoom hr hN _) with
      hsub' | ⟨rfl, i, hc, hlen, hget⟩
    · refine ⟨fun _ => ?_, ?_⟩
      · simp only [Progress, Function.update_self]
        exact ⟨hj, htasks, hsub'⟩
      · rintro rfl
        cases hsub'
    · exact ⟨fun hn => absurd rfl hn, fun _ => .inl ⟨j, i, rfl, hc, hlen, hget⟩⟩
  | wait i =>
    simp only [hpc] at hp
    exact (hidle hp.1).elim
  | waiting i =>
    simp only [hpc] at hp
    obtain ⟨hi, hacc, htasks, hdone, slot, hslot, hlock | ⟨hunlock, hfin⟩⟩ := hp
    · obtain ⟨hfree, rfl⟩ := hs.waitLock_inv hlock
      obtain ⟨w, hw⟩ := hr.finished_of_free (h.logged i slot hslot).2 hfree
      have hfin : ∀ x, x ∈ p.finished ↔ x ∈ s.base.pool.finished := fun x => by rw [hs.frame.2]
      have haccp : p.accepted = s.base.pool.accepted := by
        rw [hlock] at hs
        cases hs
        rfl
      refine ⟨fun _ => ?_, nofun⟩
      simp only [Progress, Function.update_self, haccp, Finished, hfin]
      exact ⟨hi, hacc, htasks, hdone, slot, hslot, .inr ⟨rfl, w, hw⟩⟩
    · obtain rfl := hs.waitUnlock_inv hunlock
      exact ⟨fun hn => absurd rfl hn, fun _ => .inr ⟨i, slot, rfl, hunlock, hfin⟩⟩
  | close =>
    simp only [hpc] at hp
    exact (hidle hp.1).elim

theorem Inv.logged_of_step {s : State n} (h : Inv N s) (hst : ThreadPool.Step s.base b)
    (k : Nat) (i : Slot) (hk : s.tasks[k]? = some i) :
    b.pool.accepted[k]? = some ⟨(), some k, i⟩ ∧ (k, i) ∈ b.pool.returned := by
  obtain ⟨hacc, hret⟩ := h.logged k i hk
  refine ⟨?_, hst.logs.2 _ hret⟩
  obtain ⟨l, hl⟩ := hst.accepted_prefix
  rw [← hl, List.getElem?_append_left (List.getElem?_eq_some_iff.1 hacc).1]
  exact hacc

theorem Inv.addReturns {s : State n} (h : Inv N s) (hpc : s.pc = .adding j)
    (hcall : s.base.call (.inr ()) = .addBroadcast i k) (ht : ThreadStep (.inr ()) s.base b)
    (hrun : Running b) :
    Inv N { base := b, tasks := s.tasks ++ [i], pc := .add (j + 1) } := by
  have hp := h.progress
  obtain ⟨p, c, hc, rfl⟩ := threadStep_client ht
  simp only [Progress, hpc, hcall] at hp
  obtain ⟨hj, htasks, rfl, hlen, hget⟩ := hp
  have hlogged := h.logged_of_step (.thread ht)
  rw [hcall] at hc
  cases hc
  refine ⟨h.nested, hrun, ?_, ?_⟩
  · intro k i hk
    rcases concat_getElem?.1 hk with hk | ⟨rfl, rfl⟩
    · exact hlogged k i hk
    · rw [htasks]
      exact ⟨hget, List.mem_append_right _ (List.mem_singleton.2 rfl)⟩
  · simp only [Progress, Function.update_self, List.length_append, List.length_singleton]
    exact ⟨trivial, hj, hlen, by rw [htasks]⟩

theorem Inv.waitReturns {s : State n} (h : Inv N s) (hr : ThreadPool.Reachable s.base)
    (hN : N ≤ maxTasks) (hpc : s.pc = .waiting i) (ht : ThreadStep (.inr ()) s.base b)
    (hidle : b.call (.inr ()) = .idle) (hrun : Running b) :
    Inv N { s with base := b, pc := .wait (i + 1) } := by
  have hp := h.progress
  obtain ⟨p, c, hc, rfl⟩ := threadStep_client ht
  simp only [Function.update_self] at hidle
  obtain ⟨j, i', hpc', -⟩ | ⟨i', slot, hpc', hunlock, hfin⟩ := (Progress.call h hr hN hc).2 hidle
  · rw [hpc] at hpc'
    cases hpc'
  · rw [hpc] at hpc'
    cases hpc'
    simp only [Progress, hpc] at hp
    obtain ⟨hlt, hacc, htasks, hdone, -⟩ := hp
    have hlogged := h.logged_of_step (.thread ht)
    rw [hunlock] at hc
    cases hc
    refine ⟨h.nested, hrun, hlogged, ?_⟩
    simp only [Progress, Function.update_self]
    refine ⟨trivial, hlt, hacc, htasks, ?_⟩
    intro k hk
    rcases Nat.lt_succ_iff_lt_or_eq.1 hk with hk | rfl
    · exact hdone k hk
    · exact hfin

theorem Inv.step {s t : State n} (h : Inv N s) (hr : ThreadPool.Reachable s.base)
    (hN : N ≤ maxTasks) (hst : Step N s t) : Inv N t := by
  have hrun : Running t.base := by
    rcases hst.base with he | hst'
    · rw [he]
      exact h.running
    · exact h.running.step (h.hasRoom hr hN) hst'
  have hp := h.progress
  cases hst with
  | move hm =>
    cases hm with
    | worker ht =>
      obtain ⟨p, q, hw, rfl⟩ := threadStep_worker ht (h.nested _)
      refine ⟨h.nested, hrun, h.logged_of_step (.thread ht), ?_⟩
      exact hp.frame rfl hw.frame.2.1 fun x hx => hw.finished hx
    | beginAdd hpc hj hx hi =>
      simp only [Progress, hpc] at hp
      refine ⟨h.nested, hrun, h.logged, ?_⟩
      simp only [Progress, Function.update_self]
      exact ⟨hj, hp.2.2.2, rfl, hp.2.2.1⟩
    | call ht hn =>
      obtain ⟨p, c, hc, rfl⟩ := threadStep_client ht
      simp only [Function.update_self] at hn
      exact ⟨h.nested, hrun, h.logged_of_step (.thread ht),
        (Progress.call h hr hN hc).1 hn⟩
    | addReturns hpc hcall ht => exact h.addReturns hpc hcall ht hrun
    | addsDone hpc hj hx =>
      simp only [Progress, hpc] at hp
      obtain ⟨hi, hle, hacc, htasks⟩ := hp
      obtain rfl := Nat.le_antisymm hle hj
      exact ⟨h.nested, hrun, h.logged, hi, Nat.zero_le _, hacc, htasks,
        fun k hk => absurd hk (Nat.not_lt_zero k)⟩
    | beginWait hpc hi hslot hx hidle =>
      simp only [Progress, hpc] at hp
      obtain ⟨-, -, hacc, htasks, hdone⟩ := hp
      refine ⟨h.nested, hrun, h.logged, ?_⟩
      simp only [Progress, Function.update_self]
      exact ⟨hi, hacc, htasks, hdone, _, hslot, .inl rfl⟩
    | waitReturns hpc ht hidle => exact h.waitReturns hr hN hpc ht hidle hrun
    | waitsDone hpc hi hx =>
      simp only [Progress, hpc] at hp
      obtain ⟨hidle, hle, hacc, htasks, hdone⟩ := hp
      obtain rfl := Nat.le_antisymm hle hi
      exact ⟨h.nested, hrun, h.logged, hidle, hacc, htasks, hdone⟩
  | spurious w hx => exact ⟨h.nested, hrun, h.logged, hp.frame rfl rfl fun x hx => hx⟩

theorem Reachable.inv {s : State n} (h : Reachable N s) (hN : N ≤ maxTasks) : Inv N s :=
  h.invariant (fun _ => Init.inv) fun _ _ hr hi hst => hi.step (Reachable.base hr) hN hst

theorem Inv.accepted_arg {s : State n} (h : Inv N s) (hk : s.base.pool.accepted[k]? = some x) :
    k < N ∧ x.arg = some k := by
  have hlt := (List.getElem?_eq_some_iff.1 hk).1
  have hlogged (hl : k < s.tasks.length) : x.arg = some k := by
    have hlog := (h.logged k _ (List.getElem?_eq_getElem hl)).1
    rw [hk] at hlog
    exact congrArg Submission.arg (Option.some.inj hlog)
  have hp := h.progress
  unfold Progress at hp
  cases hpc : s.pc with
  | add j =>
    simp only [hpc] at hp
    exact ⟨by omega, hlogged (by omega)⟩
  | adding j =>
    simp only [hpc] at hp
    obtain ⟨hj, htasks, hsub⟩ := hp
    rcases hsub.accepted with hlen | ⟨hlen, i, hget⟩
    · exact ⟨by omega, hlogged (by omega)⟩
    · rcases Nat.lt_succ_iff_lt_or_eq.1 (hlen ▸ hlt) with hk' | rfl
      · exact ⟨by omega, hlogged (by omega)⟩
      · rw [hk] at hget
        cases hget
        exact ⟨hj, rfl⟩
  | wait i =>
    simp only [hpc] at hp
    exact ⟨by omega, hlogged (by omega)⟩
  | waiting i =>
    simp only [hpc] at hp
    exact ⟨by omega, hlogged (by omega)⟩
  | close =>
    simp only [hpc] at hp
    exact ⟨by omega, hlogged (by omega)⟩

/-- No task is run twice, and each with its own argument; when main calls tp_close, all of them have
returned. -/
theorem main_completes {s : State n} (hN : N ≤ maxTasks) (h : Reachable N s) :
    s.base.pool.exited = false ∧ s.base.call (.inr ()) ≠ .addFull ∧
      (s.base.pool.started.map fun e => e.2.ticket).Nodup ∧
      (∀ e ∈ s.base.pool.started, e.2.ticket < N ∧ e.2.arg = some e.2.ticket) ∧
      (s.pc = .close →
        (s.base.pool.started.map fun e => (e.2.ticket, e.2.arg)).Perm
          ((List.range N).map fun j => (j, some j)) ∧
        ∀ j < N, ∃ w, (w, j) ∈ s.base.pool.finished) := by
  have hi := h.inv hN
  obtain ⟨b, -, -, -, hrec⟩ := h.base.ledger
  have harg : ∀ e ∈ s.base.pool.started, e.2.ticket < N ∧ e.2.arg = some e.2.ticket := by
    rintro ⟨w, j⟩ he
    obtain ⟨⟨i, hj⟩, -⟩ := hrec.began w j he
    exact hi.accepted_arg hj
  refine ⟨hi.running.exited, hi.running.full _, hrec.once, harg, fun hpc => ?_⟩
  have hp := hi.progress
  simp only [Progress, hpc] at hp
  obtain ⟨-, -, -, hdone⟩ := hp
  refine ⟨?_, hdone⟩
  have hmap : s.base.pool.started.map (fun e => (e.2.ticket, e.2.arg)) =
      (s.base.pool.started.map fun e => e.2.ticket).map fun j => (j, some j) := by
    rw [List.map_map]
    refine List.map_congr_left fun e he => ?_
    rw [(harg e he).2]
    rfl
  rw [hmap]
  apply List.Perm.map
  rw [List.perm_ext_iff_of_nodup hrec.once List.nodup_range]
  intro j
  rw [List.mem_range, List.mem_map]
  constructor
  · rintro ⟨e, he, rfl⟩
    exact (harg e he).1
  · intro hj
    obtain ⟨w, hw⟩ := hdone j hj
    obtain ⟨x, hx, rfl⟩ := h.base.begun.finished w j hw
    exact ⟨_, hx, rfl⟩

/-- How many statements a worker has before it until it sleeps, if it finds no further task. -/
def workerRank : Worker Unit Nat → Bool → Nat
  | .waiting, true => 0
  | .waiting, false | .lockMtx, _ => 8
  | .condWait, _ => 1
  | .findUnlock none, _ => 2
  | .runPop _, _ => 3
  | .runLock _, _ => 4
  | .findUnlock (some _), _ => 5
  | .findScan, _ => 6
  | .findLock, _ => 7
  | .unlockWait .., _ => 9
  | .running .., _ => 10
  | .start .., _ => 11
  | .unlockMtx .., _ => 12
  | .runUnlock .., _ => 13

/-- The store may cost a worker a round, and the broadcast may wake all `n` of them. -/
def callRank (n : Nat) : Call Unit Nat → Nat
  | .addTest .. => 8 * n + 18
  | .addLock .. => 8 * n + 17
  | .addScan .. => 8 * n + 16
  | .addLockWait .. => 8 * n + 15
  | .addStore .. => 8 * n + 14
  | .addUnlock .. => 8 * n + 2
  | .addBroadcast .. => 8 * n + 1
  | .waitLock _ => 2
  | .waitUnlock _ => 1
  | _ => 0

def pcRank (n N : Nat) : Pc → Nat
  | .add j => (N - j) * (8 * n + 20) + 4 * N + 2
  | .adding j => (N - (j + 1)) * (8 * n + 20) + 4 * N + 2
  | .wait i => (N - i) * 4 + 1
  | .waiting i => (N - (i + 1)) * 4 + 1
  | .close => 0

def pending (p : Pool W Unit Nat) : Nat := census (fun t : Option Unit => t.isSome) p.tasks

def workersRank (s : ThreadPool.State (Fin n) Unit Unit Nat) : Nat :=
  ∑ w, workerRank (s.worker w) (s.pool.asleep w)

def rank (N : Nat) (s : State n) : Nat :=
  pcRank n N s.pc + callRank n (s.base.call (.inr ())) + 11 * pending s.base.pool +
    workersRank s.base

theorem workerRank_awake_le (q : Worker Unit Nat) (b : Bool) :
    workerRank q false ≤ workerRank q b + 8 := by
  cases q with
  | waiting => exact Nat.le_add_left _ _
  | findUnlock tid => cases tid <;> exact Nat.le_add_right _ _
  | _ => exact Nat.le_add_right _ _

/-- Only a worker that has popped a task has more before it than it had. -/
theorem WorkerStep.rank {p p' : Pool (Fin n) Unit Nat} {w : Fin n} (h : WorkerStep w p q p' q')
    (ht : ∀ i, q = .runPop i → p.tasks i ≠ none) :
    11 * pending p' + workerRank q' (p'.asleep w) < 11 * pending p + workerRank q (p.asleep w) ∧
      ∀ v ≠ w, p'.asleep v = p.asleep v := by
  cases h with
  | sleep =>
    refine ⟨?_, ?_⟩
    · simp only [Function.update_self, workerRank, pending]
      omega
    · intro v hv
      exact Function.update_of_ne hv _ _
  | wake ha =>
    refine ⟨?_, fun _ _ => rfl⟩
    simp only [workerRank, ha, pending]
    omega
  | findScan =>
    refine ⟨?_, fun _ _ => rfl⟩
    cases findTask p.tasks <;> simp only [workerRank] <;> omega
  | @runPop i =>
    refine ⟨?_, fun _ _ => rfl⟩
    have hc := census_update (fun t : Option Unit => t.isSome) p.tasks i none
    have hi := Option.isSome_iff_ne_none.2 (ht i rfl)
    simp only [hi, Option.isSome_none, Bool.toNat_true, Bool.toNat_false] at hc
    simp only [workerRank, pending]
    omega
  | _ =>
    refine ⟨?_, fun _ _ => rfl⟩
    simp only [workerRank, pending]
    omega

theorem CallStep.rank {p p' : Pool (Fin n) Unit Nat} (h : CallStep p c p' c')
    (hi : p.initialized = true) (hf : c ≠ .addFull) (he : c ≠ .addExit)
    (hroom : ∀ f a, c = .addScan f a → ∃ i, p.tasks i = none) (worker : Fin n → Worker Unit Nat) :
    callRank n c' + 11 * pending p' + ∑ w, workerRank (worker w) (p'.asleep w) <
      callRank n c + 11 * pending p + ∑ w, workerRank (worker w) (p.asleep w) := by
  cases h with
  | notInitialized hn =>
    rw [hi] at hn
    cases hn
  | full hnone =>
    obtain ⟨i, ht⟩ := hroom _ _ rfl
    have hs := scan_none hnone i
    rw [ht] at hs
    cases hs
  | fullUnlock => exact absurd rfl hf
  | exit => exact absurd rfl he
  | store =>
    rename_i f a i
    have hc := census_update (fun t : Option Unit => t.isSome) p.tasks i (some f)
    simp only [Option.isSome_some, Bool.toNat_true] at hc
    simp only [callRank, pending]
    omega
  | broadcast =>
    have hsum : ∑ w, workerRank (worker w) false ≤
        ∑ w, (workerRank (worker w) (p.asleep w) + 8) :=
      Finset.sum_le_sum fun w _ => workerRank_awake_le (worker w) (p.asleep w)
    rw [Finset.sum_add_distrib, Finset.sum_const_nat fun _ _ => rfl, Finset.card_univ,
      Fintype.card_fin] at hsum
    simp only [callRank, pending] at hsum ⊢
    omega
  | _ =>
    simp only [callRank, pending]
    omega

theorem workersRank_update {s : ThreadPool.State (Fin n) Unit Unit Nat} {w : Fin n}
    {p : Pool (Fin n) Unit Nat} (q : Worker Unit Nat)
    (ha : ∀ v ≠ w, p.asleep v = s.pool.asleep v) :
    workersRank { s with pool := p, worker := Function.update s.worker w q } +
        workerRank (s.worker w) (s.pool.asleep w) =
      workersRank s + workerRank q (p.asleep w) := by
  have hfun : (fun v => workerRank (Function.update s.worker w q v) (p.asleep v)) =
      Function.update (fun v => workerRank (s.worker v) (s.pool.asleep v)) w
        (workerRank q (p.asleep w)) := by
    funext v
    by_cases hv : v = w
    · subst hv
      rw [Function.update_self, Function.update_self]
    · rw [Function.update_of_ne hv, Function.update_of_ne hv, ha v hv]
  rw [workersRank, hfun]
  exact sum_update id _ w _

theorem Move.rank_lt {s t : State n} (hm : Move N s t) (h : Inv N s)
    (hr : ThreadPool.Reachable s.base) (hN : N ≤ maxTasks) : rank N t < rank N s := by
  have hcall {p : Pool (Fin n) Unit Nat} {c : Call Unit Nat}
      (hc : CallStep s.base.pool (s.base.call (.inr ())) p c) :=
    CallStep.rank hc h.running.initialized (h.running.full _) (h.running.exit _)
      (h.hasRoom hr hN _) s.base.worker
  cases hm with
  | worker ht =>
    obtain ⟨p, q, hw, rfl⟩ := threadStep_worker ht (h.nested _)
    obtain ⟨hlt, hasleep⟩ := WorkerStep.rank hw fun i hi =>
      (Reachable.locks hr).found _ i (by rw [hi]; rfl)
    have hsum := workersRank_update q hasleep
    simp only [rank]
    omega
  | beginAdd hpc hj hx hi =>
    rename_i j
    have hround : N - j = N - (j + 1) + 1 := by omega
    simp only [rank, hpc, hi, Function.update_self, callRank, pcRank, workersRank, hround,
      Nat.succ_mul]
    omega
  | call ht hn =>
    obtain ⟨p, c, hc, rfl⟩ := threadStep_client ht
    have hlt := hcall hc
    simp only [rank, workersRank, Function.update_self] at hlt ⊢
    omega
  | addReturns hpc hbroadcast ht =>
    obtain ⟨p, c, hc, rfl⟩ := threadStep_client ht
    have hlt := hcall hc
    simp only [rank, workersRank, hpc, pcRank, Function.update_self] at hlt ⊢
    omega
  | addsDone hpc hj hx =>
    simp only [rank, hpc, pcRank]
    omega
  | beginWait hpc hi hslot hx hidle =>
    simp only [rank, hpc, hidle, Function.update_self, callRank, pcRank, workersRank]
    omega
  | waitReturns hpc ht hidle =>
    obtain ⟨p, c, hc, rfl⟩ := threadStep_client ht
    have hlt := hcall hc
    simp only [rank, workersRank, hpc, pcRank, Function.update_self] at hlt ⊢
    omega
  | waitsDone hpc hi hx =>
    simp only [rank, hpc, pcRank]
    omega

theorem Step.rank_le {s t : State n} (hst : Step N s t) (h : Inv N s)
    (hr : ThreadPool.Reachable s.base) (hN : N ≤ maxTasks) : rank N t ≤ rank N s + 8 := by
  cases hst with
  | move hm =>
    have hlt := hm.rank_lt h hr hN
    omega
  | spurious w hx =>
    have hsum := workersRank_update (s := s.base) (w := w)
      (p := { s.base.pool with asleep := Function.update s.base.pool.asleep w false })
      (s.base.worker w) fun v hv => Function.update_of_ne hv _ _
    have hle := workerRank_awake_le (s.base.worker w) (s.base.pool.asleep w)
    simp only [Function.update_eq_self, Function.update_self] at hsum
    simp only [rank, pending] at hsum ⊢
    omega

theorem Init.rank_eq {s : State n} (h : Init s) : rank N s = N * (8 * n + 24) + 8 * n + 2 := by
  obtain ⟨⟨⟨p, hp, he⟩, hw, hc⟩, -, hpc⟩ := h
  rw [tpInit_fresh hp] at he
  have hpend : pending s.base.pool = 0 := census_eq_zero fun i => by rw [he]; rfl
  have hworkers : workersRank s.base = n * 8 := by
    rw [workersRank, Finset.sum_const_nat (m := 8), Finset.card_univ, Fintype.card_fin]
    intro w _
    rw [hw, he]
    rfl
  simp only [rank, hpc, hc, hpend, hworkers, pcRank, callRank]
  rw [Nat.sub_zero, Nat.mul_add N (8 * n) 20, Nat.mul_add N (8 * n) 24]
  omega

/-- Between two calls main goes on by itself, and inside a call some thread of the pool can. -/
theorem Inv.exists_move {s : State n} (h : Inv N s) (hr : ThreadPool.Reachable s.base)
    (hN : N ≤ maxTasks) (hn : 2 ≤ n) (hpc : s.pc ≠ .close) : ∃ t, Move N s t := by
  have : Nontrivial (Fin n) := Fin.nontrivial_iff_two_le.2 hn
  have hx := h.running.exited
  have hp := h.progress
  by_cases hidle : s.base.call (.inr ()) = .idle
  · cases hs : s.pc with
    | add j =>
      by_cases hj : j < N
      · exact ⟨_, .beginAdd hs hj hx hidle⟩
      · exact ⟨_, .addsDone hs (Nat.le_of_not_lt hj) hx⟩
    | adding j =>
      simp only [Progress, hs, hidle, Submitting, and_false] at hp
    | wait i =>
      simp only [Progress, hs] at hp
      by_cases hi : i < N
      · have hget := List.getElem?_eq_getElem (l := s.tasks) (i := i) (by omega)
        exact ⟨_, .beginWait hs hi hget hx hidle⟩
      · exact ⟨_, .waitsDone hs (Nat.le_of_not_lt hi) hx⟩
    | waiting i =>
      simp only [Progress, hs] at hp
      obtain ⟨-, -, -, -, slot, -, hw | ⟨hw, -⟩⟩ := hp
      · rw [hidle] at hw
        cases hw
      · rw [hidle] at hw
        cases hw
    | close => exact absurd hs hpc
  · have hplain : Plain s.base := ⟨hx, h.nested⟩
    obtain ⟨t, b, ht⟩ := hplain.inside hr hidle h.running.initialized
    cases t with
    | inl w => exact ⟨_, .worker ht⟩
    | inr u =>
      by_cases hb : b.call (.inr ()) = .idle
      · -- the call returns
        cases hs : s.pc with
        | adding j =>
          simp only [Progress, hs] at hp
          obtain ⟨p, c, hc, rfl⟩ := threadStep_client ht
          simp only [Function.update_self] at hb
          rcases hp.2.2.step hc h.running.initialized (h.hasRoom hr hN _) with
            hsub | ⟨-, i, hbroadcast, -⟩
          · rw [hb] at hsub
            cases hsub
          · exact ⟨_, .addReturns hs hbroadcast ht⟩
        | waiting i => exact ⟨_, .waitReturns hs ht hb⟩
        | close => exact absurd hs hpc
        | _ =>
          simp only [Progress, hs] at hp
          exact absurd hp.1 hidle
      · exact ⟨_, .call ht hb⟩

/-- A run of main with the spurious wake-ups `S` has a bounded length, and it can go on until
main calls tp_close. -/
theorem main_terminates (hn : 2 ≤ n) (hN : N ≤ maxTasks) {r : Nat → State n} {S : Finset Nat}
    (h0 : Init (r 0)) (hr : ∀ i < k, Step N (r i) (r (i + 1)))
    (hS : ∀ i < k, i ∉ S → Move N (r i) (r (i + 1))) :
    k ≤ N * (8 * n + 24) + 8 * n + 2 + 9 * S.card ∧
      ((r k).pc = .close ∨ ∃ t, Move N (r k) t) := by
  have hreach {i : Nat} (hi : i ≤ k) : Reachable N (r i) := System.reachable_of_run h0 hr hi
  have hinv {i : Nat} (hi : i ≤ k) := (hreach hi).inv hN
  refine ⟨?_, ?_⟩
  · have hlen := run_length_le (rank N)
      (fun i hi hs => (hS i hi hs).rank_lt (hinv hi.le) (Reachable.base (hreach hi.le)) hN)
      (fun i hi => (hr i hi).rank_le (hinv hi.le) (Reachable.base (hreach hi.le)) hN)
    rw [h0.rank_eq] at hlen
    omega
  · by_cases hpc : (r k).pc = .close
    · exact .inl hpc
    · exact .inr ((hinv le_rfl).exists_move (Reachable.base (hreach le_rfl)) hN hn hpc)

def booted (n : Nat) : State n where
  base := ThreadPool.booted (Fin n) Unit Unit Nat
  tasks := []
  pc := .add 0

theorem booted_init : Init (booted n) := ⟨ThreadPool.booted_init, rfl, rfl⟩

theorem exists_close (hn : 2 ≤ n) (hN : N ≤ maxTasks) : ∃ s : State n,
    Relation.ReflTransGen (Move N) (booted n) s ∧ Reachable N s ∧ s.pc = .close := by
  apply exists_run_of_rank (rank N)
  · intro s hs hpc
    have hi := hs.inv hN
    obtain ⟨t, hm⟩ := hi.exists_move (Reachable.base hs) hN hn hpc
    exact ⟨t, hm, .step hs (.move hm), hm.rank_lt hi (Reachable.base hs) hN⟩
  · exact .init booted_init

/-- The program as it is, with eight workers and the numbers from 30000 to 30200. -/
theorem main_completes_201 : ∃ s : State 8, Reachable 201 s ∧ s.pc = .close ∧
    (s.base.pool.started.map fun e => (e.2.ticket, e.2.arg)).Perm
      ((List.range 201).map fun j => (j, some j)) := by
  obtain ⟨s, -, hs, hpc⟩ := exists_close (n := 8) (N := 201) (by decide) (by decide)
  obtain ⟨-, -, -, -, hclose⟩ := main_completes (by decide) hs
  exact ⟨s, hs, hpc, (hclose hpc).1⟩

theorem main_terminates_201 : ∃ k, ∃ r : Nat → State 8, r 0 = booted 8 ∧ (r k).pc = .close ∧
    (∀ i < k, Move 201 (r i) (r (i + 1))) ∧ k ≤ 17754 := by
  obtain ⟨s, hrun, -, hpc⟩ := exists_close (n := 8) (N := 201) (by decide) (by decide)
  obtain ⟨k, r, h0, rfl, hr⟩ := exists_seq_of_reflTransGen hrun
  obtain ⟨hk, -⟩ := main_terminates (N := 201) (S := ∅) (by decide) (by decide)
    (h0 ▸ booted_init) (fun i hi => .move (hr i hi)) fun i hi _ => hr i hi
  exact ⟨k, r, h0, hpc, hr, hk⟩

end Main

end Apue.ThreadPool
