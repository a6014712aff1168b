import Apue.Reachability

namespace Apue.SignalMask
set_option autoImplicit true

/-- What a statement does besides changing the data of the process. -/
inductive Effect where
  | none
  /-- sigprocmask(SIG_BLOCK, ..) -/
  | block
  /-- sigprocmask(SIG_UNBLOCK, ..) -/
  | unblock
  /-- sigprocmask(SIG_SETMASK, ..) -/
  | set (blocked : Bool)
  /-- pause() -/
  | pause
  /-- sigsuspend(..) -/
  | suspend (blocked : Bool)
  deriving DecidableEq

def Effect.mask : Effect → Bool → Bool
  | .none, b | .pause, b => b
  | .block, _ => true
  | .unblock, _ => false
  | .set b, _ | .suspend b, _ => b

def Effect.sleeps : Effect → Bool
  | .pause | .suspend _ => true
  | _ => false

/-- The mask that sigsuspend puts back when it returns. -/
def Effect.saves : Effect → Bool → Option Bool
  | .suspend _, b => some b
  | _, _ => .none

/-- A process with a handler for one signal. A statement may read the mask; the handler runs to its
end. -/
structure Process (σ : Type u) where
  start : σ
  next : σ → Bool → Option (σ × Effect)
  handler : σ → σ

/-- A process with one signal, and the mask that sigsuspend will put back. The last three fields are
history. -/
structure State (σ : Type u) where
  data : σ
  blocked : Bool
  pending : Bool
  asleep : Bool
  saved : Option Bool
  arrivals : Nat
  runs : Nat
  wakes : Nat
  deriving Repr

/-- The handler runs, and a pause is over. -/
def State.deliver (P : Process σ) (s : State σ) : State σ :=
  { s with
    data := P.handler s.data
    blocked := s.saved.getD s.blocked
    pending := false
    asleep := false
    saved := none
    runs := s.runs + 1
    wakes := s.wakes + s.asleep.toNat }

def State.advance (s : State σ) (d : σ) (e : Effect) : State σ :=
  { s with
    data := d
    blocked := e.mask s.blocked
    asleep := e.sleeps
    saved := e.saves s.blocked }

/-- The state after a statement. A pending signal is delivered before sigprocmask returns, or as
soon as sigsuspend has replaced the mask. -/
def State.perform (P : Process σ) (s : State σ) (d : σ) (e : Effect) : State σ :=
  if s.pending = true ∧ e.mask s.blocked = false then (s.advance d e).deliver P
  else s.advance d e

inductive Step (P : Process σ) : State σ → State σ → Prop where
  | main : s.asleep = false → P.next s.data s.blocked = some (d, e) →
      Step P s (s.perform P d e)
  | arrive : s.blocked = false →
      Step P s (State.deliver P { s with arrivals := s.arrivals + 1 })
  | held : s.blocked = true →
      Step P s { s with pending := true, arrivals := s.arrivals + 1 }

/-- The mask is inherited, and a signal may be pending under it. -/
def system (P : Process σ) : System (State σ) where
  init s := ∃ blocked pending, (pending = true → blocked = true) ∧
    s = ⟨P.start, blocked, pending, false, none, pending.toNat, 0, 0⟩
  step := Step P

variable {σ : Type u} {P : Process σ} {s t : State σ}

def Process.Unsuspended (P : Process σ) : Prop :=
  ∀ d b d' e, P.next d b = some (d', e) → ∀ m, e ≠ .suspend m

theorem saved_none (hP : P.Unsuspended) (h : (system P).Reachable s) : s.saved = none := by
  refine h.invariant (P := fun s => s.saved = none) ?_ ?_
  · rintro s ⟨b, p, -, rfl⟩
    rfl
  · intro s t _ hs hst
    cases hst with
    | main _ hn =>
      rename_i d e _
      rw [State.perform]
      split
      · rfl
      · cases e with
        | suspend m => exact absurd rfl (hP _ _ _ _ hn m)
        | none | block | unblock | set | pause => rfl
    | arrive => rfl
    | held => exact hs

/-- What holds of the data and the mask after every statement, and after the handler where the
signal is not blocked, holds always. -/
theorem data_invariant {J : σ → Bool → Prop} (hP : P.Unsuspended) (h : (system P).Reachable s)
    (h0 : ∀ b, J P.start b)
    (hnext : ∀ d b d' e, J d b → P.next d b = some (d', e) → J d' (e.mask b))
    (hhandler : ∀ d, J d false → J (P.handler d) false) : J s.data s.blocked := by
  refine h.invariant (P := fun s => J s.data s.blocked) ?_ ?_
  · rintro s ⟨b, p, -, rfl⟩
    exact h0 b
  · intro s t hr hJ hst
    cases hst with
    | main ha hn =>
      rename_i d e
      have hJ' := hnext _ _ _ _ hJ hn
      rw [State.perform]
      split
      · rename_i hdue
        have hsaved : e.saves s.blocked = none := by
          cases e with
          | suspend m => exact absurd rfl (hP _ _ _ _ hn m)
          | none | block | unblock | set | pause => rfl
        rw [hdue.2] at hJ'
        simp only [State.deliver, State.advance, hsaved, hdue.2]
        exact hhandler _ hJ'
      · exact hJ'
    | arrive hb =>
      rw [hb] at hJ
      simp only [State.deliver, hb, saved_none hP hr]
      exact hhandler _ hJ
    | held hb => exact hJ

theorem count_eq_runs {f : σ → Nat} (h : (system P).Reachable s) (h0 : f P.start = 0)
    (hnext : ∀ d b d' e, P.next d b = some (d', e) → f d' = f d)
    (hhandler : ∀ d, f (P.handler d) = f d + 1) : f s.data = s.runs := by
  refine h.invariant (P := fun s => f s.data = s.runs) ?_ ?_
  · rintro s ⟨b, p, -, rfl⟩
    exact h0
  · intro s t _ hf hst
    cases hst with
    | main ha hn =>
      have hf' := (hnext _ _ _ _ hn).trans hf
      rw [State.perform]
      split
      · simp only [State.deliver, State.advance, hhandler, hf']
      · exact hf'
    | arrive hb => simp only [State.deliver, hhandler, hf]
    | held hb => exact hf

/-- An unblocked signal is not left pending, no pause ends without the handler, and no handler runs
without a signal. -/
structure Settled (s : State σ) : Prop where
  pending : s.pending = true → s.blocked = true
  wakes : s.wakes ≤ s.runs
  runs : s.runs + s.pending.toNat ≤ s.arrivals

theorem Settled.deliver (h : Settled { s with pending := true, blocked := true }) :
    Settled (s.deliver P) := by
  have hw := h.wakes
  have hr := h.runs
  simp only [Bool.toNat_true] at hw hr
  refine ⟨fun hp => (by cases hp), ?_, ?_⟩
  · have hone := Bool.toNat_le s.asleep
    simp only [State.deliver]
    omega
  · simp only [State.deliver, Bool.toNat_false]
    omega

theorem settled_of_reachable (h : (system P).Reachable s) : Settled s := by
  refine h.invariant ?_ ?_
  · rintro s ⟨b, p, hp, rfl⟩
    exact ⟨hp, Nat.le_refl 0, by simp⟩
  · intro s t _ hi hst
    have hp := hi.pending
    have hw := hi.wakes
    have hr := hi.runs
    cases hst with
    | main ha hn =>
      rw [State.perform]
      split
      · rename_i hdue
        rw [hdue.1] at hr
        exact Settled.deliver ⟨fun _ => rfl, hw, hr⟩
      · rename_i hdue
        refine ⟨fun hpend => ?_, hw, hr⟩
        rw [not_and, Bool.not_eq_false] at hdue
        exact hdue hpend
    | arrive hb =>
      have hnone : s.pending = false := Bool.eq_false_iff.mpr fun hpend => by
        cases hb.symm.trans (hp hpend)
      rw [hnone, Bool.toNat_false] at hr
      refine Settled.deliver ⟨fun _ => rfl, hw, ?_⟩
      simp only [Bool.toNat_true]
      omega
    | held hb =>
      refine ⟨fun _ => hb, hw, ?_⟩
      simp only [Bool.toNat_true]
      omega

end Apue.SignalMask
