import Apue.SignalMask
import Mathlib.Data.List.Infix

namespace Apue.IntRows
set_option autoImplicit true
open SignalMask

/-- The next statement of main in `signal/int.c`, from the loop on. -/
inductive Pc where
  /-- i < 1000 -/
  | test
  | block
  /-- j < 5, then write(1, "*", 1) -/
  | star (j : Nat)
  | sleep (j : Nat)
  | unblock
  | newline
  | done
  deriving DecidableEq, Repr

structure Data where
  pc : Pc
  i : Nat
  out : List Char
  deriving DecidableEq, Repr

def Data.next (d : Data) : Option (Data × Effect) :=
  match d.pc with
  | .test => some ({ d with pc := if d.i < 1000 then .block else .done }, .none)
  | .block => some ({ d with pc := .star 0 }, .block)
  | .star j =>
    if j < 5 then some ({ d with pc := .sleep j, out := d.out ++ ['*'] }, .none)
    else some ({ d with pc := .unblock }, .none)
  | .sleep j => some ({ d with pc := .star (j + 1) }, .none)
  | .unblock => some ({ d with pc := .newline }, .unblock)
  | .newline => some ({ d with pc := .test, i := d.i + 1, out := d.out ++ ['\n'] }, .none)
  | .done => none

def process : Process Data where
  start := ⟨.test, 0, []⟩
  next d _ := d.next
  handler d := { d with out := d.out ++ ['!'] }

def Pc.stars : Pc → Nat
  | .star j => j
  | .sleep j => j + 1
  | .unblock | .newline => 5
  | _ => 0

/-- From the SIG_BLOCK to the SIG_UNBLOCK. -/
def Pc.blocked : Pc → Bool
  | .star _ | .sleep _ | .unblock => true
  | _ => false

/-- No mark stands inside a row of five stars. -/
def BetweenRows (out : List Char) : Prop :=
  ∀ front, front ++ ['!'] <+: out → 5 ∣ front.count '*'

theorem BetweenRows.concat (h : BetweenRows out) (hc : c = '!' → 5 ∣ out.count '*') :
    BetweenRows (out ++ [c]) := by
  intro front hf
  rcases List.prefix_concat_iff.mp hf with he | hp
  · obtain ⟨rfl, hc'⟩ := List.append_inj' he rfl
    exact hc (List.singleton_inj.mp hc').symm
  · exact h front hp

structure Inv (d : Data) (b : Bool) : Prop where
  masked : d.pc.blocked = true → b = true
  stars : d.out.count '*' = 5 * d.i + d.pc.stars
  le : d.pc.stars ≤ 5
  between : BetweenRows d.out

theorem Inv.next (h : Inv d b) (hn : d.next = some (d', e)) : Inv d' (e.mask b) := by
  obtain ⟨hmask, hstars, hle, hbetween⟩ := h
  cases hp : d.pc with
  | test =>
    simp only [Data.next, hp, Option.some.injEq, Prod.mk.injEq] at hn
    obtain ⟨rfl, rfl⟩ := hn
    simp only [hp, Pc.stars] at hstars
    split
    · exact ⟨fun hb => (by cases hb), hstars, Nat.zero_le 5, hbetween⟩
    · exact ⟨fun hb => (by cases hb), hstars, Nat.zero_le 5, hbetween⟩
  | block =>
    simp only [Data.next, hp, Option.some.injEq, Prod.mk.injEq] at hn
    obtain ⟨rfl, rfl⟩ := hn
    simp only [hp, Pc.stars] at hstars
    exact ⟨fun _ => rfl, hstars, Nat.zero_le 5, hbetween⟩
  | star j =>
    have hb := hmask (by rw [hp]; rfl)
    simp only [hp, Pc.stars] at hstars hle
    simp only [Data.next, hp] at hn
    split at hn
    · simp only [Option.some.injEq, Prod.mk.injEq] at hn
      obtain ⟨rfl, rfl⟩ := hn
      refine ⟨fun _ => hb, ?_, ?_, hbetween.concat fun hc => absurd hc (by decide)⟩
      · rw [List.count_append, hstars]
        rfl
      · simp only [Pc.stars]
        omega
    · simp only [Option.some.injEq, Prod.mk.injEq] at hn
      obtain ⟨rfl, rfl⟩ := hn
      refine ⟨fun _ => hb, ?_, Nat.le_refl 5, hbetween⟩
      simp only [Pc.stars]
      omega
  | sleep j =>
    simp only [Data.next, hp, Option.some.injEq, Prod.mk.injEq] at hn
    obtain ⟨rfl, rfl⟩ := hn
    rw [hp] at hmask hstars hle
    exact ⟨hmask, hstars, hle, hbetween⟩
  | unblock =>
    simp only [Data.next, hp, Option.some.injEq, Prod.mk.injEq] at hn
    obtain ⟨rfl, rfl⟩ := hn
    rw [hp] at hstars
    exact ⟨fun hb => (by cases hb), hstars, Nat.le_refl 5, hbetween⟩
  | newline =>
    simp only [Data.next, hp, Option.some.injEq, Prod.mk.injEq] at hn
    obtain ⟨rfl, rfl⟩ := hn
    simp only [hp, Pc.stars] at hstars
    refine ⟨fun hb => (by cases hb), ?_, Nat.zero_le 5,
      hbetween.concat fun hc => absurd hc (by decide)⟩
    rw [List.count_append, hstars]
    rfl
  | done =>
    rw [Data.next, hp] at hn
    cases hn

/-- The handler runs where SIGINT is not blocked, and there the rows are complete. -/
theorem Inv.handler (h : Inv d false) : Inv (process.handler d) false := by
  obtain ⟨hmask, hstars, hle, hbetween⟩ := h
  have hrow : 5 ∣ d.out.count '*' := by
    cases hp : d.pc with
    | star j =>
      rw [hp] at hmask
      cases hmask rfl
    | sleep j =>
      rw [hp] at hmask
      cases hmask rfl
    | _ =>
      simp only [hp, Pc.stars] at hstars
      omega
  refine ⟨hmask, ?_, hle, hbetween.concat fun _ => hrow⟩
  simp only [process, List.count_append]
  exact hstars

theorem next_marks {d : Data} (h : d.next = some (d', e)) :
    d'.out.count '!' = d.out.count '!' := by
  unfold Data.next at h
  repeat' split at h
  all_goals cases h
  all_goals simp

theorem unsuspended : process.Unsuspended := by
  intro d b d' e hn m
  change d.next = some (d', e) at hn
  unfold Data.next at hn
  repeat' split at hn
  all_goals cases hn
  all_goals exact nofun

/-- Wherever SIGINT arrives, the handler of `int.c` never puts its mark inside a row of five
stars. -/
theorem marks_between_rows (h : (system process).Reachable s) :
    BetweenRows s.data.out ∧ s.data.out.count '*' = 5 * s.data.i + s.data.pc.stars ∧
      s.data.out.count '!' + s.pending.toNat ≤ s.arrivals := by
  have hi : Inv s.data s.blocked := by
    apply data_invariant unsuspended h
    · intro b
      refine ⟨fun hb => (by cases hb), rfl, Nat.zero_le 5, fun front hf => ?_⟩
      exact absurd (List.prefix_nil.mp hf)
        (List.append_ne_nil_of_right_ne_nil _ (List.cons_ne_nil _ _))
    · intro d b d' e hd hn
      exact hd.next hn
    · intro d hd
      exact hd.handler
  have hmarks : s.data.out.count '!' = s.runs := by
    apply count_eq_runs (f := fun d => d.out.count '!') h rfl
    · intro d b d' e hn
      exact next_marks hn
    · intro d
      exact List.count_append
  refine ⟨hi.between, hi.stars, ?_⟩
  rw [hmarks]
  exact (settled_of_reachable h).runs

theorem marks_between_rows_first : ∃ s, (system process).Reachable s ∧
    s.data.out = ['*', '*', '*', '*', '*', '!'] ∧ BetweenRows s.data.out := by
  have h0 : (system process).Reachable ⟨⟨.test, 0, []⟩, false, false, false, none, 0, 0, 0⟩ :=
    .init ⟨false, false, nofun, rfl⟩
  have h1 := ((h0.step (.main rfl rfl)).step (.main rfl rfl)).step (.held rfl)
  have h2 := ((h1.step (.main rfl rfl)).step (.main rfl rfl)).step (.main rfl rfl)
  have h3 := ((h2.step (.main rfl rfl)).step (.main rfl rfl)).step (.main rfl rfl)
  have h4 := ((h3.step (.main rfl rfl)).step (.main rfl rfl)).step (.main rfl rfl)
  have h5 := ((h4.step (.main rfl rfl)).step (.main rfl rfl)).step (.main rfl rfl)
  exact ⟨_, h5, rfl, (marks_between_rows h5).1⟩

end Apue.IntRows

namespace Apue.PauseRows
set_option autoImplicit true
open SignalMask

/-- The next statement of main in `signal/suspend.c`, from the loop on. -/
inductive Pc where
  /-- i < 1000 -/
  | test
  | block
  /-- j < 5, then write(1, "*", 1) -/
  | star (j : Nat)
  | sleep (j : Nat)
  | newline
  | unblock
  | pause
  /-- pause has returned, or is still going on -/
  | paused
  | done
  deriving DecidableEq, Repr

structure Data where
  pc : Pc
  i : Nat
  /-- the rows begun -/
  rows : Nat
  deriving DecidableEq, Repr

def Data.next (d : Data) : Option (Data × Effect) :=
  match d.pc with
  | .test => some ({ d with pc := if d.i < 1000 then .block else .done }, .none)
  | .block => some ({ d with pc := .star 0, rows := d.rows + 1 }, .block)
  | .star j => some ({ d with pc := if j < 5 then .sleep j else .newline }, .none)
  | .sleep j => some ({ d with pc := .star (j + 1) }, .none)
  | .newline => some ({ d with pc := .unblock }, .none)
  | .unblock => some ({ d with pc := .pause }, .unblock)
  | .pause => some ({ d with pc := .paused }, .pause)
  | .paused => some ({ d with pc := .test, i := d.i + 1 }, .none)
  | .done => none

/-- int_handler is empty. -/
def process : Process Data where
  start := ⟨.test, 0, 0⟩
  next d _ := d.next
  handler := id

def Pc.printing : Pc → Bool
  | .star _ | .sleep _ | .newline => true
  | _ => false

/-- The row of the present turn has been begun. -/
def Pc.inTurn : Pc → Bool
  | .test | .block | .done => false
  | _ => true

/-- A pause is over and its turn is not. -/
def resumed : Pc → Bool → Nat
  | .paused, false => 1
  | _, _ => 0

/-- What the turns of the loop have to do with the pauses that are over. -/
structure Inv (s : State Data) : Prop where
  masked : s.data.pc.printing = true ∨ s.data.pc = .unblock → s.blocked = true
  rows : s.data.rows = s.data.i + s.data.pc.inTurn.toNat
  asleep : s.asleep = true → s.data.pc = .paused
  wakes : s.wakes = s.data.i + resumed s.data.pc s.asleep

theorem unsuspended : process.Unsuspended := by
  intro d b d' e hn m
  change d.next = some (d', e) at hn
  unfold Data.next at hn
  repeat' split at hn
  all_goals cases hn
  all_goals exact nofun

theorem Inv.deliver (h : Inv s) (hs : s.saved = none) : Inv (s.deliver process) := by
  obtain ⟨hmask, hrows, hasleep, hwakes⟩ := h
  refine ⟨?_, hrows, fun ha => (by cases ha), ?_⟩
  · simp only [State.deliver, hs, Option.getD_none]
    exact hmask
  simp only [State.deliver, process, id]
  cases ha : s.asleep with
  | true =>
    rw [ha, hasleep ha] at hwakes
    rw [hasleep ha, hwakes]
    rfl
  | false =>
    rw [ha] at hwakes
    exact hwakes

theorem Inv.move (h : Inv s) (ha : s.asleep = false)
    (hmask : pc.printing = true ∨ pc = .unblock → s.blocked = true)
    (hturn : pc.inTurn = s.data.pc.inTurn)
    (hresumed : resumed pc false = resumed s.data.pc false) :
    Inv (s.advance { s.data with pc := pc } .none) := by
  refine ⟨hmask, ?_, fun hs => (by cases hs), ?_⟩
  · simp only [State.advance, hturn]
    exact h.rows
  · have hwakes := h.wakes
    rw [ha, ← hresumed] at hwakes
    exact hwakes

theorem Inv.next (h : Inv s) (ha : s.asleep = false) (hn : s.data.next = some (d, e)) :
    Inv (s.advance d e) := by
  have hmask := h.masked
  have hrows := h.rows
  have hwakes := h.wakes
  rw [ha] at hwakes
  unfold Data.next at hn
  split at hn
  all_goals
    rename_i hp
    cases hn
  · -- test
    split
    · exact h.move ha (by simp [Pc.printing]) (by rw [hp]; rfl) (by rw [hp]; rfl)
    · exact h.move ha (by simp [Pc.printing]) (by rw [hp]; rfl) (by rw [hp]; rfl)
  · -- block
    rw [hp] at hrows hwakes
    exact ⟨fun _ => rfl, congrArg Nat.succ hrows, fun hs => (by cases hs), hwakes⟩
  · -- star
    have hb := hmask (.inl (by rw [hp]; rfl))
    split
    · exact h.move ha (fun _ => hb) (by rw [hp]; rfl) (by rw [hp]; rfl)
    · exact h.move ha (fun _ => hb) (by rw [hp]; rfl) (by rw [hp]; rfl)
  · -- sleep
    have hb := hmask (.inl (by rw [hp]; rfl))
    exact h.move ha (fun _ => hb) (by rw [hp]; rfl) (by rw [hp]; rfl)
  · -- newline
    have hb := hmask (.inl (by rw [hp]; rfl))
    exact h.move ha (fun _ => hb) (by rw [hp]; rfl) (by rw [hp]; rfl)
  · -- unblock
    rw [hp] at hrows hwakes
    exact ⟨by simp [Pc.printing, State.advance], hrows, fun hs => (by cases hs), hwakes⟩
  · -- pause
    rw [hp] at hrows hwakes
    exact ⟨by simp [Pc.printing, State.advance], hrows, fun _ => rfl, hwakes⟩
  · -- paused
    rw [hp] at hrows hwakes
    exact ⟨by simp [Pc.printing, State.advance], hrows, fun hs => (by cases hs), hwakes⟩

theorem inv_of_reachable (h : (system process).Reachable s) : Inv s := by
  refine h.invariant ?_ ?_
  · rintro s ⟨b, p, -, rfl⟩
    exact ⟨by simp [process, Pc.printing], rfl, by simp, rfl⟩
  · intro s t hr hi hst
    cases hst with
    | main ha hn =>
      rename_i d e
      have hi' := hi.next ha hn
      rw [State.perform]
      split
      · apply hi'.deliver
        cases e with
        | suspend m => exact absurd rfl (unsuspended _ _ _ _ hn m)
        | none | block | unblock | set | pause => rfl
      · exact hi'
    | arrive hb =>
      have hs : s.saved = none := saved_none unsuspended hr
      apply Inv.deliver
      · exact ⟨hi.masked, hi.rows, hi.asleep, hi.wakes⟩
      · exact hs
    | held hb => exact ⟨hi.masked, hi.rows, hi.asleep, hi.wakes⟩

theorem reachable_pause :
    (system process).Reachable ⟨⟨.pause, 0, 1⟩, false, false, false, none, 0, 0, 0⟩ := by
  have h0 : (system process).Reachable ⟨⟨.test, 0, 0⟩, false, false, false, none, 0, 0, 0⟩ :=
    .init ⟨false, false, fun hp => (by cases hp), rfl⟩
  have h1 := ((h0.step (.main rfl rfl)).step (.main rfl rfl)).step (.main rfl rfl)
  have h2 := ((h1.step (.main rfl rfl)).step (.main rfl rfl)).step (.main rfl rfl)
  have h3 := ((h2.step (.main rfl rfl)).step (.main rfl rfl)).step (.main rfl rfl)
  have h4 := ((h3.step (.main rfl rfl)).step (.main rfl rfl)).step (.main rfl rfl)
  have h5 := ((h4.step (.main rfl rfl)).step (.main rfl rfl)).step (.main rfl rfl)
  exact h5

/-- In `suspend.c` no signal interrupts a row, and each row but the first one waits for a signal. -/
theorem rows_wait_for_signals (h : (system process).Reachable s) :
    (s.data.pc.printing = true → s.blocked = true) ∧ s.data.rows ≤ s.wakes + 1 ∧
      s.wakes ≤ s.runs ∧ s.runs + s.pending.toNat ≤ s.arrivals := by
  have hi := inv_of_reachable h
  have hs := settled_of_reachable h
  refine ⟨fun hp => hi.masked (.inl hp), ?_, hs.wakes, hs.runs⟩
  rw [hi.rows, hi.wakes]
  have hle := Bool.toNat_le s.data.pc.inTurn
  omega

theorem rows_wait_for_signals_first : ∃ s, (system process).Reachable s ∧ s.runs = 1 ∧
    s.data.rows = 1 ∧ s.data.rows ≤ s.wakes + 1 := by
  have h := reachable_pause.step (.arrive rfl)
  exact ⟨_, h, rfl, rfl, (rows_wait_for_signals h).2.1⟩

theorem unblocked_at_pause (h : (system process).Reachable s) (hp : s.data.pc = .pause) :
    s.blocked = false := by
  refine data_invariant (J := fun d b => d.pc = .pause → b = false) unsuspended h ?_ ?_ ?_ hp
  · intro b hb
    cases hb
  · intro d b d' e _ hn hd
    change d.next = some (d', e) at hn
    -- only the SIG_UNBLOCK leads to the pause
    unfold Data.next at hn
    repeat' split at hn
    all_goals cases hn
    all_goals first | rfl | cases hd
  · intro d hd
    exact hd

/-- Signals that come while main is awake and has not blocked them are gone when they have been
handled. -/
theorem run_arrivals (hb : s.blocked = false) (hp : s.pending = false) (ha : s.asleep = false)
    (hs : s.saved = none) (n : Nat) : Relation.ReflTransGen (Step process) s
      { s with arrivals := s.arrivals + n, runs := s.runs + n } := by
  obtain ⟨d, b, p, a, o, arrivals, runs, wakes⟩ := s
  cases hb
  cases hp
  cases ha
  cases hs
  induction n with
  | zero => exact .refl
  | succ n ih => exact ih.tail (.arrive rfl)

/-- Any number of signals can be lost between the SIG_UNBLOCK and the pause, where main then sleeps
until another one comes. -/
theorem signals_lost (h : (system process).Reachable s) (hp : s.data.pc = .pause) (n : Nat) :
    ∃ t, Relation.ReflTransGen (Step process) s t ∧ t.arrivals = s.arrivals + n ∧
      t.runs = s.runs + n ∧ t.data.rows = s.data.rows ∧ t.asleep = true ∧
      ∀ u, Step process t u → u.arrivals = t.arrivals + 1 := by
  have hb := unblocked_at_pause h hp
  have hpend : s.pending = false := Bool.eq_false_iff.mpr fun hpend => by
    cases hb.symm.trans ((settled_of_reachable h).pending hpend)
  have hawake : s.asleep = false := Bool.eq_false_iff.mpr fun ha => by
    cases hp.symm.trans ((inv_of_reachable h).asleep ha)
  have hrun := run_arrivals hb hpend hawake (saved_none unsuspended h) n
  have hpause : s.data.next = some ({ s.data with pc := .paused }, .pause) := by
    rw [Data.next, hp]
  have hsleep := Step.main (P := process) (s := { s with
    arrivals := s.arrivals + n, runs := s.runs + n }) hawake hpause
  rw [State.perform, if_neg fun hdue => by cases hpend.symm.trans hdue.1] at hsleep
  refine ⟨_, hrun.tail hsleep, rfl, rfl, rfl, rfl, ?_⟩
  intro u hu
  cases hu with
  | main ha => cases ha
  | arrive => rfl
  | held hheld => cases hb.symm.trans hheld

theorem signals_lost_three : ∃ s t, (system process).Reachable s ∧ s.data.pc = .pause ∧
    Relation.ReflTransGen (Step process) s t ∧ t.runs = 3 ∧ t.data.rows = 1 ∧ t.asleep = true := by
  obtain ⟨t, hrun, -, hruns, hrows, hasleep, -⟩ := signals_lost reachable_pause rfl 3
  exact ⟨_, t, reachable_pause, rfl, hrun, hruns, hrows, hasleep⟩

end Apue.PauseRows
