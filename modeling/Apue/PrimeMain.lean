import Apue.ForkJoin
import Apue.Prime

namespace Apue.Prime
set_option autoImplicit true
open ForkJoin

/-- Where the test of one number stands: in the loop, after it, or after an overflow of its
counter. -/
inductive Test where
  | loop (i j : Int)
  | ended
  | fault
  deriving DecidableEq

/-- One round of the loop; after the last one the number is printed. -/
def Test.next (bound : Int → Int) : Test → Option (Test × List Int)
  | .loop i j =>
    if j < bound i then
      if i.tmod j = 0 then some (.ended, [])
      else
        match addInt j 1 with
        | .ok _ => some (.loop i (j + 1), [])
        | .error _ => some (.fault, [])
    else some (.ended, [i])
  | .ended | .fault => none

/-- What the whole loop comes to. -/
def Test.yield (bound : Int → Int) : Test → List Int
  | .loop i j =>
    match noDivisor i (bound i) j with
    | .ok true => [i]
    | _ => []
  | .ended | .fault => []

def Test.cost (bound : Int → Int) : Test → Nat
  | .loop i j => (bound i - j).toNat + 1
  | .ended | .fault => 0

theorem Test.next_cases {bound : Int → Int} {x y : Test} (h : x.next bound = some (y, l)) :
    y.cost bound < x.cost bound ∧ x.yield bound = l ++ y.yield bound := by
  cases x with
  | loop i j =>
    rw [Test.next] at h
    split at h
    · rename_i hlt
      split at h
      · rename_i hd
        cases h
        simp only [cost, yield, noDivisor_found hlt hd]
        exact ⟨Nat.succ_pos _, rfl⟩
      · rename_i hd
        split at h
        · rename_i k hk
          cases h
          refine ⟨?_, ?_⟩
          · simp only [cost]
            omega
          · rw [yield, noDivisor, if_pos hlt, if_neg hd, hk]
            rfl
        · rename_i e he
          cases h
          refine ⟨Nat.succ_pos _, ?_⟩
          rw [yield, noDivisor, if_pos hlt, if_neg hd, he]
          rfl
    · rename_i hlt
      cases h
      simp only [cost, yield, noDivisor_stop hlt]
      exact ⟨Nat.succ_pos _, rfl⟩
  | ended => cases h
  | fault => cases h

def task (bound : Int → Int) : Task Test Int where
  next := Test.next bound
  cost := Test.cost bound
  yield := Test.yield bound
  cost_lt h := (Test.next_cases h).1
  yield_step h := (Test.next_cases h).2
  yield_end := by
    intro x h
    cases x with
    | loop i j =>
      rw [Test.next] at h
      repeat' split at h
      all_goals cases h
    | ended => rfl
    | fault => rfl

def start (left : Nat) (k : Nat) : Test := .loop (left + k : Nat) 2

/-- The error of a failing pthread_create is positive and passes the test of main, which later joins
that thread. -/
def threads (left n : Nat) : System (State n Test Int) :=
  system (task id) (start left) (.inOrder n) ⟨False, True⟩

/-- `ps/prime.c`: one process for each number, and as many calls of wait, each for any child. When
fork fails, the parent exits. -/
def processes (left n : Nat) : System (State n Test Int) :=
  system (task (·.tdiv 2)) (start left) (.any n) ⟨True, False⟩

def primesAt (left : Nat) (l : List Nat) : List Int :=
  (l.map (left + ·)).filter Nat.Prime |>.map Int.ofNat

def primes (left k : Nat) : List Int := primesAt left (List.range k)

theorem outputs_eq {bound : Int → Int} {l : List Nat}
    (h : ∀ i ∈ l, noDivisor (left + i : Nat) (bound (left + i : Nat)) 2 = .ok true ↔
      (left + i).Prime) : outputs (task bound) (start left) l = primesAt left l := by
  induction l with
  | nil => rfl
  | cons i l ih =>
    obtain ⟨hi, hl⟩ := List.forall_mem_cons.1 h
    have hfirst : (task bound).yield (start left i) =
        ([left + i].filter Nat.Prime).map Int.ofNat := by
      by_cases hp : (left + i).Prime
      · rw [List.filter_singleton, decide_eq_true hp]
        simp only [task, start, Test.yield, hi.2 hp]
        rfl
      · rw [List.filter_singleton, decide_eq_false hp]
        simp only [task, start, Test.yield]
        split
        · rename_i hb
          exact absurd (hi.1 hb) hp
        · rfl
    have hrest := ih hl
    rw [outputs] at hrest ⊢
    rw [List.flatMap_cons, hfirst, hrest, primesAt, primesAt, ← List.map_append,
      ← List.filter_append]
    rfl

theorem test_full {n : Nat} (h2 : 2 ≤ n) (hn : (n : Int) ≤ intMax) :
    noDivisor n (id n) 2 = .ok true ↔ n.Prime := by
  obtain ⟨b, hb, hiff⟩ := noDivisor_eq n n hn 2
  rw [prime_iff_no_divisor h2, ← hiff]
  change noDivisor n n (2 : Nat) = _ ↔ _
  rw [hb, Except.ok.injEq]

theorem test_half {n : Nat} (h5 : 5 ≤ n) (hn : (n : Int) ≤ intMax) :
    noDivisor n ((n : Int).tdiv 2) 2 = .ok true ↔ n.Prime := by
  have hhalf : (n : Int).tdiv 2 = (n / 2 : Nat) := rfl
  obtain ⟨b, hb, hiff⟩ := noDivisor_eq n (n / 2) (by omega) 2
  rw [prime_iff_no_divisor_half h5, ← hiff, hhalf]
  change noDivisor n (n / 2 : Nat) (2 : Nat) = _ ↔ _
  rw [hb, Except.ok.injEq]

theorem no_fault {bound : Int → Int} {s : State n Test Int}
    (h : (system (task bound) (start left) D fails).Reachable s)
    (hb : ∀ i < n, bound (left + i : Nat) ≤ intMax) (i : Fin n) : s.task i ≠ .fault := by
  have hloop := task_invariant h
    (P := fun i x => x = .ended ∨ ∃ j, 2 ≤ j ∧ x = .loop (left + i : Nat) j)
    (fun i => .inr ⟨2, by decide, rfl⟩) ?_ i
  · intro hf
    obtain he | ⟨j, -, he⟩ := hloop
    · cases hf.symm.trans he
    · cases hf.symm.trans he
  · rintro i x y l (rfl | ⟨j, hj, rfl⟩) hn
    · cases hn
    · have hbi := hb i i.isLt
      simp only [task, Test.next] at hn
      split at hn
      · rw [addInt_of_nonneg (by omega) (by omega)] at hn
        split at hn
        · cases hn
          exact .inl rfl
        · cases hn
          exact .inr ⟨j + 1, by omega, rfl⟩
      · cases hn
        exact .inl rfl

theorem sum_cost_le {bound : Int → Int} (hb : ∀ i < n, bound (left + i : Nat) ≤ (left + i : Nat)) :
    ∑ i : Fin n, (task bound).cost (start left i) ≤ n * (left + n) := by
  have hle : ∀ i : Fin n, (task bound).cost (start left i) ≤ left + n := by
    intro i
    have hbi := hb i i.isLt
    simp only [task, start, Test.cost]
    omega
  calc ∑ i : Fin n, (task bound).cost (start left i)
      ≤ ∑ _i : Fin n, (left + n) := Finset.sum_le_sum fun i _ => hle i
    _ = n * (left + n) := by simp

/-- Only primes that have been started on are printed, each once, and all of them when main has
waited for all. -/
theorem run_prints {bound : Int → Int} {D : Discipline n} {r : Nat → State n Test Int}
    (hn : ((left + n : Nat) : Int) ≤ intMax)
    (hb : ∀ i < n, bound (left + i : Nat) ≤ (left + i : Nat))
    (hout : ∀ l : List Nat, (∀ i ∈ l, i < n) →
      outputs (task bound) (start left) l = primesAt left l)
    (h0 : (system (task bound) (start left) D fails).init (r 0))
    (hr : ∀ i < k, Step (task bound) D fails (r i) (r (i + 1))) :
    (∀ i, (r k).task i ≠ .fault) ∧ (r k).out.Subperm (primesAt left (r k).started) ∧
      ((r k).main = .done → (r k).out.Perm (primes left n)) ∧
      k ≤ n * (left + n) + 2 * n + 2 := by
  have hreach := System.reachable_of_run h0 hr le_rfl
  have hi := inv_of_reachable hreach
  refine ⟨no_fault hreach fun i hin => (hb i hin).trans (by omega), ?_, fun hd => ?_, ?_⟩
  · rw [← hout _ hi.started_lt]
    exact hi.out_subperm
  · rw [primes, ← hout _ fun i hi => List.mem_range.1 hi]
    exact hi.out_done hd
  · have hlen := run_le h0 hr
    have hsum := sum_cost_le hb
    omega

/-- Main exits only if all threads have been created; otherwise it comes to join a thread that is
not there. -/
theorem threads_print_primes {left : Nat} {r : Nat → State n Test Int} (h2 : 2 ≤ left)
    (hn : ((left + n : Nat) : Int) ≤ intMax) (h0 : (threads left n).init (r 0))
    (hr : ∀ i < k, (threads left n).step (r i) (r (i + 1))) :
    (∀ i, (r k).task i ≠ .fault) ∧ (r k).out.Subperm (primesAt left (r k).started) ∧
      ((r k).main = .done → (r k).missing = ∅ ∧ (r k).out.Perm (primes left n)) ∧
      k ≤ n * (left + n) + 2 * n + 2 ∧
      ((r k).main = .done ∨ (r k).main = .lost ∧ (r k).missing ≠ ∅ ∨
        ∃ t, (threads left n).step (r k) t) := by
  have hout : ∀ l : List Nat, (∀ i ∈ l, i < n) →
      outputs (task id) (start left) l = primesAt left l := fun l hl =>
    outputs_eq fun i hil => test_full (by omega) (by have := hl i hil; omega)
  obtain ⟨hfault, hsub, hperm, hlen⟩ := run_prints hn (fun i _ => le_rfl) hout h0 hr
  have hi := inv_of_reachable (System.reachable_of_run h0 hr le_rfl)
  refine ⟨hfault, hsub, fun hd => ⟨hi.missing_of_done hd, hperm hd⟩, hlen, ?_⟩
  cases hm : (r k).main with
  | fork => exact .inr (.inr (hi.exists_step (.inl hm)))
  | join => exact .inr (.inr (hi.exists_step (.inr hm)))
  | done => exact .inl rfl
  | failed => exact (hi.failed hm).elim
  | lost => exact .inr (.inl ⟨rfl, hi.lost hm⟩)

theorem threads_print_primes_201 : ∃ k, ∃ r : Nat → State 201 Test Int,
    (threads 30000 201).init (r 0) ∧ (∀ i < k, (threads 30000 201).step (r i) (r (i + 1))) ∧
      (r k).main = .done ∧ (r k).out.Perm (primes 30000 201) := by
  obtain ⟨s, hrun, hd⟩ := exists_done (task id) (start 30000) (.inOrder 201)
  obtain ⟨k, r, h0, rfl, hr⟩ := exists_seq_of_reflTransGen hrun
  have hsteps : ∀ i < k, (threads 30000 201).step (r i) (r (i + 1)) := fun i hi =>
    (hr i hi).mono id False.elim
  obtain ⟨-, -, hprint, -⟩ := threads_print_primes (by decide) (by decide) h0 hsteps
  exact ⟨k, r, h0, hsteps, hd, (hprint hd).2⟩

/-- Without a failing fork all primes are printed when main returns, with one those of the processes
that have been started. -/
theorem processes_print_primes {left : Nat} {r : Nat → State n Test Int} (h5 : 5 ≤ left)
    (hn : ((left + n : Nat) : Int) ≤ intMax) (h0 : (processes left n).init (r 0))
    (hr : ∀ i < k, (processes left n).step (r i) (r (i + 1))) :
    (∀ i, (r k).task i ≠ .fault) ∧ (r k).out.Subperm (primes left (r k).forked) ∧
      ((r k).main = .done → (r k).out.Perm (primes left n)) ∧
      k ≤ n * (left + n) + 2 * n + 2 ∧
      ((∀ t, ¬(processes left n).step (r k) t) →
        ((r k).main = .done ∨ (r k).main = .failed) ∧
          (r k).out.Perm (primes left (r k).forked)) := by
  have hhalf : ∀ i < n, ((left + i : Nat) : Int).tdiv 2 ≤ (left + i : Nat) := by
    intro i _
    rw [Int.tdiv_eq_ediv_of_nonneg (by omega)]
    omega
  have hout : ∀ l : List Nat, (∀ i ∈ l, i < n) →
      outputs (task (·.tdiv 2)) (start left) l = primesAt left l := fun l hl =>
    outputs_eq fun i hil => test_half (by omega) (by have := hl i hil; omega)
  obtain ⟨hfault, hsub, hperm, hlen⟩ := run_prints hn hhalf hout h0 hr
  have hi := inv_of_reachable (System.reachable_of_run h0 hr le_rfl)
  have hnone : (r k).missing = ∅ := by
    by_contra hne
    exact hi.missed hne
  have hstarted := State.started_of_none hnone
  rw [hstarted] at hsub
  refine ⟨hfault, hsub, hperm, hlen, fun hstuck => ⟨?_, ?_⟩⟩
  · cases hm : (r k).main with
    | done => exact .inl rfl
    | failed => exact .inr rfl
    | lost => exact absurd hnone (hi.lost hm)
    | fork =>
      obtain ⟨t, ht⟩ := hi.exists_step (.inl hm)
      exact absurd ht (hstuck t)
    | join =>
      obtain ⟨t, ht⟩ := hi.exists_step (.inr hm)
      exact absurd ht (hstuck t)
  · -- no process that has been started has a step left
    rw [primes, ← hstarted, ← hout _ hi.started_lt]
    refine hi.out_perm fun i hs => ?_
    obtain ⟨hlt, hmem⟩ := State.mem_started.1 hs
    cases hx : (task (·.tdiv 2)).next ((r k).task i) with
    | none => rfl
    | some x => exact absurd (.run i hlt hmem hx) (hstuck _)

theorem processes_print_primes_201 : ∃ k, ∃ r : Nat → State 201 Test Int,
    (processes 30000000 201).init (r 0) ∧
      (∀ i < k, (processes 30000000 201).step (r i) (r (i + 1))) ∧
      (r k).main = .done ∧ (r k).out.Perm (primes 30000000 201) := by
  obtain ⟨s, hrun, hd⟩ := exists_done (task (·.tdiv 2)) (start 30000000) (.any 201)
  obtain ⟨k, r, h0, rfl, hr⟩ := exists_seq_of_reflTransGen hrun
  have hsteps : ∀ i < k, (processes 30000000 201).step (r i) (r (i + 1)) := fun i hi =>
    (hr i hi).mono False.elim id
  obtain ⟨-, -, hprint, -⟩ := processes_print_primes (by decide) (by decide) h0 hsteps
  exact ⟨k, r, h0, hsteps, hd, hprint hd⟩

end Apue.Prime
