import Apue.CreateJoin
import Apue.Ownership
import Apue.Reachability

namespace Apue.MutexCount
set_option autoImplicit true
open CreateJoin

/-- Where a thread stands in routine of `thread/mutex.c`. -/
inductive Pc where
  | absent
  /-- pthread_create has failed: its error is positive, and the macro asks for a negative one. -/
  | missing
  | lock
  /-- count++ -/
  | load
  | store (a : Int)
  | unlock
  | exited
  deriving DecidableEq, Repr

structure State (N : Nat) where
  thread : Fin N → Pc
  main : Main
  mtx : Bool
  count : Int
  printed : Option Int
  fault : Option Fault

def State.goto (s : State N) (i : Fin N) (pc : Pc) : State N :=
  { s with thread := Function.update s.thread i pc }

def State.afterStore (s : State N) (i : Fin N) (a : Int) : State N :=
  match addInt a 1 with
  | .ok c => { s.goto i .unlock with count := c }
  | .error e => { s with fault := some e }

inductive State.Step {N : Nat} : State N → State N → Prop where
  | create (i : Fin N) : s.fault = none → s.main = .create i →
      Step s { s.goto i .lock with main := .create (i + 1) }
  | createFails (i : Fin N) : s.fault = none → s.main = .create i →
      Step s { s.goto i .missing with main := .create (i + 1) }
  | created : s.fault = none → s.main = .create N → Step s { s with main := .join 0 }
  | join (i : Fin N) : s.fault = none → s.main = .join i → s.thread i = .exited →
      Step s { s with main := .join (i + 1) }
  /-- threads[i] has never been set. -/
  | joinMissing (i : Fin N) : s.fault = none → s.main = .join i → s.thread i = .missing →
      Step s { s with fault := some .uninitialised }
  | print : s.fault = none → s.main = .join N →
      Step s { s with main := .ended, printed := some s.count }
  | lock (i : Fin N) : s.fault = none → s.thread i = .lock → s.mtx = false →
      Step s { s.goto i .load with mtx := true }
  | load (i : Fin N) : s.fault = none → s.thread i = .load → Step s (s.goto i (.store s.count))
  | store (i : Fin N) : s.fault = none → s.thread i = .store a → Step s (s.afterStore i a)
  | unlock (i : Fin N) : s.fault = none → s.thread i = .unlock →
      Step s { s.goto i .exited with mtx := false }

def mutex (N : Nat) : System (State N) where
  init s := s = ⟨fun _ => .absent, .create 0, false, 0, none, none⟩
  step := State.Step

def Pc.inside : Pc → Bool
  | .load | .store _ | .unlock => true
  | _ => false

def Pc.counted : Pc → Bool
  | .unlock | .exited => true
  | _ => false

def Pc.held : Pc → Option Int
  | .store a => some a
  | _ => none

theorem Pc.inside_of_held {pc : Pc} (h : pc.held = some a) : pc.inside = true := by
  cases pc with
  | store => rfl
  | _ => cases h

structure State.Inv (s : State N) : Prop where
  owned : Owned s.mtx fun i => (s.thread i).inside = true
  tally : Tally Pc.counted Pc.held s.thread s.count
  fits : s.main.Fits .absent .exited s.thread
  printed : s.printed = if s.main = .ended then some s.count else none
  faults : ∀ f, s.fault = some f →
    (f = .uninitialised ∧ ∃ i, s.thread i = .missing) ∨ intMax < (N : Int)

theorem State.Inv.start (N : Nat) :
    State.Inv (⟨fun _ => .absent, .create 0, false, 0, none, none⟩ : State N) where
  owned := by
    refine ⟨⟨fun hb => (by cases hb), ?_⟩, fun hi => (by cases hi)⟩
    rintro ⟨i, hi⟩
    cases hi
  tally := tally_start rfl rfl
  fits := fits_start
  printed := rfl
  faults f hf := by cases hf

/-- One thread moves on: the mutex goes where the thread says, and count changes with it. -/
theorem State.Inv.goto {s : State N} (h : s.Inv) (hrun : s.fault = none) (i : Fin N) (pc : Pc)
    {b : Bool} {c : Int} (ha : s.thread i ≠ .absent) (he : s.thread i ≠ .exited)
    (hpc : pc ≠ .absent) (hb : Handover s.mtx b ((s.thread i).inside = true) (pc.inside = true))
    (hc : c + (s.thread i).counted.toNat = s.count + pc.counted.toNat)
    (hi : ∀ a, pc.held = some a → a = c) (ho : c = s.count ∨ (s.thread i).inside = true) :
    State.Inv { s.goto i pc with mtx := b, count := c } where
  owned := by
    apply h.owned.handover i
    · simpa only [State.goto, Function.update_self] using hb
    · intro j hj
      simp only [State.goto, Function.update_of_ne hj]
  tally := by
    apply h.tally.update hc hi
    apply ho.imp_right
    intro hin j hj
    -- the other thread would be inside as well
    cases hheld : (s.thread j).held with
    | none => rfl
    | some a => exact absurd (h.owned.unique (Pc.inside_of_held hheld) hin) hj
  fits := h.fits.update ha he hpc
  printed := by
    have hm := h.fits.ne_ended he
    have hp := h.printed
    rw [if_neg hm] at hp
    exact hp.trans (if_neg hm).symm
  faults f hf := by cases hrun.symm.trans hf

theorem State.Inv.create {s : State N} (h : s.Inv) (hrun : s.fault = none) {i : Fin N} {pc : Pc}
    (hm : s.main = .create i) (hpc : pc = .lock ∨ pc = .missing) :
    State.Inv { s.goto i pc with main := .create (i + 1) } := by
  have hfits := h.fits
  have hp := h.printed
  rw [hm] at hfits hp
  have hi : s.thread i = .absent := hfits.absent_of_create
  have hne : pc ≠ .absent := by rcases hpc with rfl | rfl <;> simp
  have hin : pc.inside = false := by rcases hpc with rfl | rfl <;> rfl
  have hcounted : pc.counted = false := by rcases hpc with rfl | rfl <;> rfl
  have hheld : pc.held = none := by rcases hpc with rfl | rfl <;> rfl
  refine ⟨?_, ?_, hfits.create hne, hp, fun f hf => by cases hrun.symm.trans hf⟩
  · refine h.owned.congr fun j => ?_
    by_cases hji : j = i
    · subst hji
      simp only [State.goto, Function.update_self, hin, hi]
      rfl
    · simp only [State.goto, Function.update_of_ne hji]
  · apply h.tally.update
    · rw [hcounted, hi]
      rfl
    · intro a ha
      cases hheld.symm.trans ha
    · exact .inl rfl

theorem State.Inv.step {s t : State N} (h : s.Inv) (hst : s.Step t) : t.Inv := by
  have hkeep : ∀ {p q : Prop}, (q ↔ p) → Handover s.mtx s.mtx p q := fun hpq => .inl ⟨rfl, hpq⟩
  have hfits := h.fits
  have hprinted := h.printed
  cases hst with
  | create i hrun hm => exact h.create hrun hm (.inl rfl)
  | createFails i hrun hm => exact h.create hrun hm (.inr rfl)
  | created hrun hm =>
    rw [hm] at hfits hprinted
    exact ⟨h.owned, h.tally, hfits.created, hprinted, h.faults⟩
  | join i hrun hm hi =>
    rw [hm] at hfits hprinted
    exact ⟨h.owned, h.tally, hfits.join hi, hprinted, h.faults⟩
  | joinMissing i hrun hm hi =>
    refine ⟨h.owned, h.tally, hfits, hprinted, fun f hf => ?_⟩
    exact .inl ⟨(Option.some.inj hf).symm, i, hi⟩
  | print hrun hm =>
    rw [hm] at hfits
    exact ⟨h.owned, h.tally, hfits.ended, rfl, h.faults⟩
  | lock i hrun hi hfree =>
    exact h.goto hrun i .load (by simp [hi]) (by simp [hi]) (by simp)
      (.inr (.inl ⟨hfree, rfl, rfl⟩)) (by rw [hi]; rfl) (fun a ha => by cases ha) (.inl rfl)
  | load i hrun hi =>
    refine h.goto hrun i (.store s.count) (by simp [hi]) (by simp [hi]) (by simp)
      (hkeep (by rw [hi]; rfl)) (by rw [hi]; rfl) ?_ (.inl rfl)
    intro a ha
    exact (Option.some.inj ha).symm
  | @store a i hrun hi =>
    have hloaded := h.tally.loaded i a (by rw [hi]; rfl)
    simp only [State.afterStore]
    cases ha : addInt a 1 with
    | error e =>
      refine ⟨h.owned, h.tally, hfits, hprinted, fun f _ => .inr ?_⟩
      rw [← Int.not_le]
      intro hN
      have hadd := h.tally.addInt_eq (i := i) (by rw [hi]; rfl) (by rw [hi]; rfl) hN
      cases ha.symm.trans hadd
    | ok c =>
      obtain ⟨rfl, -⟩ := addInt_ok ha
      refine h.goto hrun i .unlock (by simp [hi]) (by simp [hi]) (by simp)
        (hkeep (by rw [hi]; rfl)) ?_ (fun a ha => by cases ha) (.inr (by rw [hi]; rfl))
      rw [hi, hloaded]
      simp [Pc.counted]
  | unlock i hrun hi =>
    exact h.goto hrun i .exited (by simp [hi]) (by simp [hi]) (by simp)
      (.inr (.inr ⟨by rw [hi]; rfl, rfl, by simp [Pc.inside]⟩)) (by rw [hi]; rfl)
      (fun a ha => by cases ha) (.inl rfl)

theorem State.Inv.of_reachable (h : (mutex N).Reachable s) : s.Inv := by
  refine h.invariant ?_ ?_
  · rintro s rfl
    exact .start N
  · intro s t _ hs hst
    exact hs.step hst

def Pc.rank : Pc → Nat
  | .absent => 5
  | .lock => 4
  | .load => 3
  | .store _ => 2
  | .unlock => 1
  | .missing | .exited => 0

def State.rank (s : State N) : Nat :=
  CreateJoin.rank Pc.rank s.main s.thread + s.fault.isNone.toNat

theorem State.rank_lt_of {s t : State N} (hf : t.fault = s.fault)
    (h : CreateJoin.rank Pc.rank t.main t.thread < CreateJoin.rank Pc.rank s.main s.thread) :
    t.rank < s.rank := by
  rw [State.rank, State.rank, hf]
  exact Nat.add_lt_add_right h _

theorem State.rank_fault {s : State N} (hrun : s.fault = none) (f : Fault) :
    State.rank { s with fault := some f } < s.rank := by
  rw [State.rank, State.rank, hrun]
  exact Nat.lt_succ_self _

theorem State.Inv.rank_lt {s t : State N} (h : s.Inv) (hst : s.Step t) : t.rank < s.rank := by
  have hfits := h.fits
  cases hst with
  | create i hrun hm =>
    refine State.rank_lt_of rfl ?_
    rw [hm] at hfits ⊢
    apply rank_create
    rw [hfits.absent_of_create]
    decide
  | createFails i hrun hm =>
    refine State.rank_lt_of rfl ?_
    rw [hm]
    exact rank_create _ (Nat.zero_le _)
  | created hrun hm =>
    refine State.rank_lt_of rfl ?_
    rw [hm]
    exact rank_created _ _
  | join i hrun hm hi =>
    refine State.rank_lt_of rfl ?_
    rw [hm]
    exact rank_join _ i _
  | joinMissing i hrun hm hi => exact State.rank_fault hrun _
  | print hrun hm =>
    refine State.rank_lt_of rfl ?_
    rw [hm]
    exact rank_ended _ _
  | lock i hrun hi _ => exact State.rank_lt_of rfl (rank_update _ _ (by rw [hi]; decide))
  | load i hrun hi =>
    exact State.rank_lt_of rfl (rank_update _ _ (by rw [hi]; exact Nat.lt_succ_self 2))
  | @store a i hrun hi =>
    simp only [State.afterStore]
    cases ha : addInt a 1 with
    | ok c => exact State.rank_lt_of rfl (rank_update _ _ (by rw [hi]; exact Nat.lt_succ_self 1))
    | error e => exact State.rank_fault hrun e
  | unlock i hrun hi => exact State.rank_lt_of rfl (rank_update _ _ (by rw [hi]; decide))

theorem State.rank_start (h : (mutex N).init s) : s.rank = 7 * N + 3 := by
  rw [h, State.rank, CreateJoin.rank_start]
  simp only [Pc.rank, Option.isNone_none, Bool.toNat_true]
  omega

theorem State.Inv.exists_step {s : State N} (h : s.Inv) (hrun : s.fault = none)
    (hm : s.main ≠ .ended) : ∃ t, s.Step t := by
  by_cases hin : ∃ i, (s.thread i).inside = true
  · obtain ⟨i, hi⟩ := hin
    cases hpc : s.thread i with
    | load => exact ⟨_, .load i hrun hpc⟩
    | store a => exact ⟨_, .store i hrun hpc⟩
    | unlock => exact ⟨_, .unlock i hrun hpc⟩
    | _ =>
      rw [hpc] at hi
      cases hi
  · have hfree : s.mtx = false := by
      rw [Bool.eq_false_iff]
      exact fun hb => hin (h.owned.held_iff.1 hb)
    by_cases hw : ∃ i, s.thread i = .lock
    · obtain ⟨i, hi⟩ := hw
      exact ⟨_, .lock i hrun hi hfree⟩
    · -- the threads have all come to their end, or have not been created
      rcases h.fits.next with ⟨i, hmain⟩ | hmain | ⟨i, hmain, ha⟩ | hmain | hmain
      · exact ⟨_, .create i hrun hmain⟩
      · exact ⟨_, .created hrun hmain⟩
      · cases hpc : s.thread i with
        | exited => exact ⟨_, .join i hrun hmain hpc⟩
        | missing => exact ⟨_, .joinMissing i hrun hmain hpc⟩
        | absent => exact absurd hpc ha
        | lock => exact absurd ⟨_, hpc⟩ hw
        | load | store a | unlock => exact absurd ⟨i, by rw [hpc]; rfl⟩ hin
      · exact ⟨_, .print hrun hmain⟩
      · exact absurd hmain hm

theorem State.Inv.printed_eq {s : State N} (h : s.Inv) (hp : s.printed = some k) :
    k = N ∧ ∀ i, s.thread i = .exited := by
  have hprinted := h.printed
  have hfits := h.fits
  split at hprinted
  · next hm =>
    rw [hm] at hfits
    cases hp.symm.trans hprinted
    exact ⟨h.tally.eq_of_counted fun i => by rw [hfits i]; rfl, hfits⟩
  · cases hp.symm.trans hprinted

/-- However the threads are interleaved, main prints their number, unless it joins one that
pthread_create has not created. -/
theorem mutex_counts (N : Nat) :
    (∀ s, (mutex N).Reachable s →
      (∀ i j, (s.thread i).inside = true → (s.thread j).inside = true → i = j) ∧
      (∀ k, s.printed = some k → k = N ∧ ∀ i, s.thread i = .exited) ∧
      ((¬∃ t, s.Step t) → (N : Int) ≤ intMax → s.printed = some (N : Int) ∨
        (s.fault = some .uninitialised ∧ ∃ i, s.thread i = .missing))) ∧
    ∀ (r : Nat → State N) k, (mutex N).init (r 0) → (∀ i < k, State.Step (r i) (r (i + 1))) →
      k ≤ 7 * N + 3 := by
  refine ⟨fun s h => ?_, fun r k h0 hr => ?_⟩
  · have hi := State.Inv.of_reachable h
    refine ⟨fun i j => hi.owned.unique, fun k => hi.printed_eq, fun hstuck hN => ?_⟩
    cases hf : s.fault with
    | some f =>
      rcases hi.faults f hf with ⟨rfl, hmissing⟩ | hlt
      · exact .inr ⟨rfl, hmissing⟩
      · omega
    | none =>
      have hm : s.main = .ended := by
        by_contra hm
        exact hstuck (hi.exists_step hf hm)
      have hp := hi.printed
      rw [if_pos hm] at hp
      rw [hp, (hi.printed_eq hp).1]
      exact .inl rfl
  · have hinv : ∀ i ≤ k, (r i).Inv := fun i hi =>
      .of_reachable (System.reachable_of_run h0 hr hi)
    have hdrop : ∀ i < k, (r (i + 1)).rank < (r i).rank := fun i hi =>
      (hinv i hi.le).rank_lt (hr i hi)
    have hlen := run_length_le (S := ∅) (d := 0) State.rank (fun i hi _ => hdrop i hi)
      (fun i hi => Nat.le_add_right_of_le (hdrop i hi).le)
    rw [State.rank_start h0, Finset.card_empty] at hlen
    omega

end Apue.MutexCount
