import Apue.CreateJoin
import Apue.Reachability

namespace Apue.SemArr
set_option autoImplicit true
open CreateJoin

/-- Where a thread stands in add. -/
inductive Pc where
  | absent
  /-- p_v(*id, TRUE) -/
  | p
  /-- count++ -/
  | load
  | store (a : Int)
  /-- p_v(*id, FALSE) -/
  | v
  | done
  deriving DecidableEq, Repr

structure State (N : Nat) where
  thread : Fin N → Pc
  main : Main
  sem : Int
  count : Int
  printed : Option Int
  exit : Option Nat
  fault : Option Fault

def State.Running (s : State N) : Prop := s.exit = none ∧ s.fault = none

/-- op.sem_op, for the threads that are in p_v. -/
def Pc.semOp : Pc → Option Int
  | .p => some (-1)
  | .v => some 1
  | _ => none

def Pc.afterSemop : Pc → Pc
  | .p => .load
  | .v => .done
  | pc => pc

def State.goto (s : State N) (i : Fin N) (pc : Pc) : State N :=
  { s with thread := Function.update s.thread i pc }

def State.afterStore (s : State N) (i : Fin N) (a : Int) : State N :=
  match addInt a 1 with
  | .ok c => { s.goto i .v with count := c }
  | .error e => { s with fault := some e }

/-- semop waits while it would make the value negative. p_v repeats a call that has failed with
EINTR or EAGAIN. -/
inductive State.Step {N : Nat} : State N → State N → Prop where
  | create (i : Fin N) : s.Running → s.main = .create i →
      Step s { s.goto i .p with main := .create (i + 1) }
  | created : s.Running → s.main = .create N → Step s { s with main := .join 0 }
  | join (i : Fin N) : s.Running → s.main = .join i → s.thread i = .done →
      Step s { s with main := .join (i + 1) }
  | print : s.Running → s.main = .join N →
      Step s { s with main := .ended, printed := some s.count, exit := some 0 }
  | mainFail : s.Running → Step s { s with exit := some 1 }
  | semop (i : Fin N) : s.Running → (s.thread i).semOp = some d → 0 ≤ s.sem + d →
      Step s { s.goto i (s.thread i).afterSemop with sem := s.sem + d }
  | semopRetry (i : Fin N) : s.Running → (s.thread i).semOp = some d → Step s s
  | semopFail (i : Fin N) : s.Running → (s.thread i).semOp = some d →
      Step s { s with exit := some 1 }
  | load (i : Fin N) : s.Running → s.thread i = .load → Step s (s.goto i (.store s.count))
  | store (i : Fin N) : s.Running → s.thread i = .store a → Step s (s.afterStore i a)

/-- The semaphore has been set to 1 and no thread has been created. -/
def State.start (N : Nat) : State N := ⟨fun _ => .absent, .create 0, 1, 0, none, none, none⟩

def semArr (N : Nat) : System (State N) where
  init s := s = State.start N
  step := State.Step

/-- The thread is between its P and its V. -/
def Pc.inside : Pc → Bool
  | .load | .store _ | .v => true
  | _ => false

def Pc.counted : Pc → Bool
  | .v | .done => true
  | _ => false

def Pc.held : Pc → Option Int
  | .store a => some a
  | _ => none

theorem Pc.inside_of_held {pc : Pc} (h : pc.held = some a) : pc.inside = true := by
  cases pc with
  | store => rfl
  | _ => cases h

/-- The one permit is with the semaphore or with the thread inside. -/
structure State.Inv (s : State N) : Prop where
  sem_nonneg : 0 ≤ s.sem
  permit : s.sem + census Pc.inside s.thread = 1
  tally : Tally Pc.counted Pc.held s.thread s.count
  fits : s.main.Fits .absent .done s.thread
  printed : s.main = .ended → s.printed = some s.count
  defined : (N : Int) ≤ intMax → s.fault = none

theorem State.Inv.start (N : Nat) : (State.start N).Inv where
  sem_nonneg := Int.one_nonneg
  permit := by
    have hnone : census Pc.inside (State.start N).thread = 0 := census_eq_zero fun _ => rfl
    rw [hnone]
    rfl
  tally := tally_start rfl rfl
  fits := fits_start
  printed hm := by cases hm
  defined _ := rfl

theorem State.Inv.inside_le {s : State N} (h : s.Inv) : census Pc.inside s.thread ≤ 1 := by
  have hp := h.permit
  have h0 := h.sem_nonneg
  omega

/-- One thread moves on: the permit goes where the thread says, and count changes with it. -/
theorem State.Inv.goto {s : State N} (h : s.Inv) (i : Fin N) (pc : Pc) {m c : Int}
    (ha : s.thread i ≠ .absent) (he : s.thread i ≠ .done) (hpc : pc ≠ .absent)
    (hm : 0 ≤ m) (hin : m + pc.inside.toNat = s.sem + (s.thread i).inside.toNat)
    (hc : c + (s.thread i).counted.toNat = s.count + pc.counted.toNat)
    (hi : ∀ a, pc.held = some a → a = c) (ho : c = s.count ∨ (s.thread i).inside = true) :
    State.Inv { s.goto i pc with sem := m, count := c } where
  sem_nonneg := hm
  permit := by
    have hinside := census_update Pc.inside s.thread i pc
    have hp := h.permit
    change m + census Pc.inside (Function.update s.thread i pc) = 1
    omega
  tally := by
    apply h.tally.update hc hi
    apply ho.imp_right
    intro hin j hj
    -- the other thread would be inside as well
    cases hheld : (s.thread j).held with
    | none => rfl
    | some a =>
      exact absurd (eq_of_census_le_one h.inside_le (Pc.inside_of_held hheld) hin) hj
  fits := h.fits.update ha he hpc
  printed hm := absurd hm (h.fits.ne_ended he)
  defined := h.defined

theorem Pc.semOp_cases {pc : Pc} (h : pc.semOp = some d) : pc = .p ∧ d = -1 ∨ pc = .v ∧ d = 1 := by
  cases pc <;> simp [Pc.semOp] at h
  · exact .inl ⟨rfl, h.symm⟩
  · exact .inr ⟨rfl, h.symm⟩

theorem State.Inv.create {s : State N} (h : s.Inv) {i : Fin N} (hm : s.main = .create i) :
    State.Inv { s.goto i .p with main := .create (i + 1) } := by
  have hfits := h.fits
  rw [hm] at hfits
  have hi : s.thread i = .absent := hfits.absent_of_create
  refine ⟨h.sem_nonneg, ?_, ?_, hfits.create (by simp), fun he => (by cases he), h.defined⟩
  · have hinside := census_update Pc.inside s.thread i .p
    rw [hi] at hinside
    change s.sem + census Pc.inside (Function.update s.thread i .p) = 1
    rw [Nat.add_right_cancel hinside]
    exact h.permit
  · apply h.tally.update
    · rw [hi]
      rfl
    · intro a ha
      cases ha
    · exact .inl rfl

theorem State.Inv.step {s t : State N} (h : s.Inv) (hst : s.Step t) : t.Inv := by
  have hfits := h.fits
  cases hst with
  | create i _ hm => exact h.create hm
  | created _ hm =>
    rw [hm] at hfits
    exact ⟨h.sem_nonneg, h.permit, h.tally, hfits.created, fun he => (by cases he), h.defined⟩
  | join i _ hm hi =>
    rw [hm] at hfits
    exact ⟨h.sem_nonneg, h.permit, h.tally, hfits.join hi, fun he => (by cases he), h.defined⟩
  | print _ hm =>
    rw [hm] at hfits
    exact ⟨h.sem_nonneg, h.permit, h.tally, hfits.ended, fun _ => rfl, h.defined⟩
  | mainFail | semopRetry | semopFail =>
    exact ⟨h.sem_nonneg, h.permit, h.tally, hfits, h.printed, h.defined⟩
  | semop i _ hd h0 =>
    rcases Pc.semOp_cases hd with ⟨hi, rfl⟩ | ⟨hi, rfl⟩
    · rw [hi]
      refine h.goto i .load (by simp [hi]) (by simp [hi]) (by simp) h0 ?_ (by rw [hi]; rfl)
        (fun a ha => by cases ha) (.inl rfl)
      rw [hi]
      simp [Pc.inside]
    · rw [hi]
      refine h.goto i .done (by simp [hi]) (by simp [hi]) (by simp) h0 ?_ (by rw [hi]; rfl)
        (fun a ha => by cases ha) (.inl rfl)
      rw [hi]
      simp [Pc.inside]
  | load i _ hi =>
    refine h.goto i (.store s.count) (by simp [hi]) (by simp [hi]) (by simp) h.sem_nonneg
      (by rw [hi]; rfl) (by rw [hi]; rfl) ?_ (.inl rfl)
    intro a ha
    exact (Option.some.inj ha).symm
  | @store _ a i _ hi =>
    have hloaded := h.tally.loaded i a (by rw [hi]; rfl)
    simp only [State.afterStore]
    cases ha : addInt a 1 with
    | error e =>
      refine ⟨h.sem_nonneg, h.permit, h.tally, hfits, h.printed, fun hN => ?_⟩
      have hadd := h.tally.addInt_eq (i := i) (by rw [hi]; rfl) (by rw [hi]; rfl) hN
      cases ha.symm.trans hadd
    | ok c =>
      obtain ⟨rfl, -⟩ := addInt_ok ha
      refine h.goto i .v (by simp [hi]) (by simp [hi]) (by simp) h.sem_nonneg (by rw [hi]; rfl) ?_
        (fun a ha => by cases ha) (.inr (by rw [hi]; rfl))
      rw [hi, hloaded]
      simp [Pc.counted]

theorem State.Inv.of_reachable (h : (semArr N).Reachable s) : s.Inv := by
  refine h.invariant ?_ ?_
  · rintro s rfl
    exact .start N
  · intro s t _ hs hst
    exact hs.step hst

theorem State.Inv.count_eq_of_done {s : State N} (h : s.Inv) (hd : ∀ i, s.thread i = .done) :
    s.count = N :=
  h.tally.eq_of_counted fun i => by rw [hd i]; rfl

def Pc.rank : Pc → Nat
  | .absent => 5
  | .p => 4
  | .load => 3
  | .store _ => 2
  | .v => 1
  | .done => 0

def State.rank (s : State N) : Nat := CreateJoin.rank Pc.rank s.main s.thread

theorem State.Inv.inside_step {s : State N} (h : s.Inv) (hs : s.Running)
    (hN : (N : Int) ≤ intMax) (hi : (s.thread i).inside = true) :
    ∃ t, s.Step t ∧ t.Running ∧ t.rank < s.rank := by
  cases hpc : s.thread i with
  | load =>
    refine ⟨_, .load i hs hpc, hs, ?_⟩
    exact rank_update _ _ (by rw [hpc]; exact Nat.lt_succ_self 2)
  | store a =>
    have hadd := h.tally.addInt_eq (i := i) (by rw [hpc]; rfl) (by rw [hpc]; rfl) hN
    have hst := State.Step.store i hs hpc
    rw [State.afterStore, hadd] at hst
    refine ⟨_, hst, hs, ?_⟩
    exact rank_update _ _ (by rw [hpc]; exact Nat.lt_succ_self 1)
  | v =>
    have h0 := h.sem_nonneg
    have hop : (s.thread i).semOp = some 1 := by rw [hpc]; rfl
    refine ⟨_, .semop i hs hop (by omega), hs, ?_⟩
    exact rank_update _ _ (by rw [hpc]; decide)
  | _ =>
    rw [hpc] at hi
    cases hi

theorem State.Inv.main_step {s : State N} (h : s.Inv) (hs : s.Running) (hm : s.main ≠ .ended)
    (hidle : ∀ i, s.thread i = .absent ∨ s.thread i = .done) :
    ∃ t, s.Step t ∧ (t.main = .ended ∨ t.Running) ∧ t.rank < s.rank := by
  have hfits := h.fits
  rcases hfits.next with ⟨i, hmain⟩ | hmain | ⟨i, hmain, ha⟩ | hmain | hmain
  · refine ⟨_, .create i hs hmain, .inr hs, ?_⟩
    rw [hmain] at hfits
    rw [State.rank, State.rank, hmain]
    apply rank_create
    rw [hfits.absent_of_create]
    decide
  · refine ⟨_, .created hs hmain, .inr hs, ?_⟩
    rw [State.rank, State.rank, hmain]
    exact rank_created _ _
  · refine ⟨_, .join i hs hmain ((hidle i).resolve_left ha), .inr hs, ?_⟩
    rw [State.rank, State.rank, hmain]
    exact rank_join _ i _
  · refine ⟨_, .print hs hmain, .inl rfl, ?_⟩
    rw [State.rank, State.rank, hmain]
    exact rank_ended _ _
  · exact absurd hmain hm

/-- Without a failure there is always something to do until main has printed count. -/
theorem State.Inv.progress {s : State N} (h : s.Inv) (hs : s.Running) (hN : (N : Int) ≤ intMax)
    (hm : s.main ≠ .ended) : ∃ t, s.Step t ∧ (t.main = .ended ∨ t.Running) ∧ t.rank < s.rank := by
  by_cases hin : ∃ i, (s.thread i).inside = true
  · obtain ⟨i, hi⟩ := hin
    obtain ⟨t, hst, ht, hlt⟩ := h.inside_step hs hN hi
    exact ⟨t, hst, .inr ht, hlt⟩
  · have hout : ∀ i, (s.thread i).inside = false := fun i =>
      Bool.eq_false_iff.2 fun hi => hin ⟨i, hi⟩
    have hsem : s.sem = 1 := by
      have hp := h.permit
      rw [census_eq_zero hout] at hp
      simpa using hp
    by_cases hw : ∃ i, s.thread i = .p
    · obtain ⟨i, hi⟩ := hw
      have hop : (s.thread i).semOp = some (-1) := by rw [hi]; rfl
      refine ⟨_, .semop i hs hop (by omega), .inr hs, ?_⟩
      apply rank_update
      rw [hi]
      decide
    · refine h.main_step hs hm fun i => ?_
      have hi := hout i
      cases hpc : s.thread i with
      | absent => exact .inl rfl
      | done => exact .inr rfl
      | p => exact absurd ⟨i, hpc⟩ hw
      | load | store a | v =>
        rw [hpc] at hi
        cases hi

theorem State.Inv.completes {s : State N} (h : s.Inv) (hs : s.Running)
    (hN : (N : Int) ≤ intMax) :
    ∃ t, Relation.ReflTransGen State.Step s t ∧ t.Inv ∧ t.main = .ended := by
  have hstep : ∀ s : State N, s.Inv ∧ (s.main = .ended ∨ s.Running) → ¬s.main = .ended →
      ∃ t, s.Step t ∧ (t.Inv ∧ (t.main = .ended ∨ t.Running)) ∧ t.rank < s.rank := by
    rintro s ⟨hi, hr⟩ hm
    obtain ⟨t, hst, ht, hlt⟩ := hi.progress (hr.resolve_left hm) hN hm
    exact ⟨t, hst, ⟨hi.step hst, ht⟩, hlt⟩
  obtain ⟨t, hrun, ht, he⟩ := exists_run_of_rank State.rank hstep ⟨h, .inr hs⟩
  exact ⟨t, hrun, ht.1, he⟩

/-- The semaphore admits one thread at a time, and all finish with their number printed, where an
int can hold it. -/
theorem sem_arr_counts {s : State N} (h : (semArr N).Reachable s) :
    census Pc.inside s.thread ≤ 1 ∧ s.sem + census Pc.inside s.thread = 1 ∧
      ((∀ i, s.thread i = .done) → s.count = N) ∧
      ((N : Int) ≤ intMax → s.fault = none ∧ (s.exit = none →
        ∃ t, Relation.ReflTransGen State.Step s t ∧ (∀ i, t.thread i = .done) ∧
          t.printed = some (N : Int))) := by
  have hi := State.Inv.of_reachable h
  refine ⟨hi.inside_le, hi.permit, hi.count_eq_of_done, fun hN => ?_⟩
  have hf := hi.defined hN
  refine ⟨hf, fun he => ?_⟩
  obtain ⟨t, hrun, ht, hm⟩ := hi.completes ⟨he, hf⟩ hN
  have hdone := ht.fits
  rw [hm] at hdone
  refine ⟨t, hrun, hdone, ?_⟩
  rw [ht.printed hm, ht.count_eq_of_done hdone]

/-- Two threads; the second one is interrupted while it waits for the first. -/
theorem sem_arr_counts_two :
    ∃ s, (semArr 2).Reachable s ∧ (∀ i, s.thread i = .done) ∧
      census Pc.inside s.thread ≤ 1 ∧ s.sem + census Pc.inside s.thread = 1 ∧ s.count = 2 := by
  have h : (semArr 2).Reachable (State.start 2) := .init rfl
  have h := h.step (.create 0 ⟨rfl, rfl⟩ rfl)
  have h := h.step (.semop 0 ⟨rfl, rfl⟩ rfl (by decide))
  have h := h.step (.create 1 ⟨rfl, rfl⟩ rfl)
  have h := h.step (.created ⟨rfl, rfl⟩ rfl)
  have h := h.step (.load 0 ⟨rfl, rfl⟩ rfl)
  have h := h.step (.semopRetry 1 ⟨rfl, rfl⟩ rfl)
  have h := h.step (.store 0 ⟨rfl, rfl⟩ rfl)
  have h := h.step (.semop 0 ⟨rfl, rfl⟩ rfl (by decide))
  have h := h.step (.semop 1 ⟨rfl, rfl⟩ rfl (by decide))
  have h := h.step (.load 1 ⟨rfl, rfl⟩ rfl)
  have h := h.step (.store 1 ⟨rfl, rfl⟩ rfl)
  have h := h.step (.semop 1 ⟨rfl, rfl⟩ rfl (by decide))
  obtain ⟨hone, hpermit, hcount, -⟩ := sem_arr_counts h
  exact ⟨_, h, by decide, hone, hpermit, hcount (by decide)⟩

end Apue.SemArr
