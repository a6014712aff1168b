import Apue.SignalMask

namespace Apue.Suspend
set_option autoImplicit true
open SignalMask

/-- The statement that main executes next. SIGTSTP and a failure of the first sigprocmask end the
process. -/
inductive Pc where
  | save
  | unblock
  | block
  /-- i < 1000 -/
  | test
  | rowBlock
  /-- j < 5, then write(1, "*", 1) -/
  | star (j : Nat)
  | sleep (j : Nat)
  | newline
  | suspend
  /-- sigsuspend has returned, or is still going on -/
  | suspended
  | restore
  | signal
  deriving DecidableEq, Repr

/-- Of the sets old and oldset only what they say of SIGINT counts. `runs` are the runs of
int_handler since the loop began. -/
structure Data where
  pc : Pc
  i : Nat
  rows : Nat
  runs : Nat
  old : Bool
  oldset : Bool
  deriving DecidableEq, Repr

def Data.next (d : Data) (blocked : Bool) : Option (Data × Effect) :=
  match d.pc with
  | .save => some ({ d with old := blocked, pc := .unblock }, .none)
  | .unblock => some ({ d with pc := .block }, .unblock)
  | .block =>
    some ({ d with oldset := blocked, i := 0, rows := 0, runs := 0, pc := .test }, .block)
  | .test => some ({ d with pc := if d.i < 1000 then .rowBlock else .restore }, .none)
  | .rowBlock => some ({ d with rows := d.rows + 1, pc := .star 0 }, .block)
  | .star j => some ({ d with pc := if j < 5 then .sleep j else .newline }, .none)
  | .sleep j => some ({ d with pc := .star (j + 1) }, .none)
  | .newline => some ({ d with pc := .suspend }, .none)
  | .suspend => some ({ d with pc := .suspended }, .suspend d.oldset)
  | .suspended => some ({ d with i := d.i + 1, pc := .test }, .none)
  | .restore => some ({ d with pc := .signal }, .set d.old)
  | .signal => none

/-- int_handler is empty. -/
def process : Process Data where
  start := ⟨.save, 0, 0, 0, false, false⟩
  next := Data.next
  handler d := { d with runs := d.runs + 1 }

def suspend1 : System (State Data) := system process

/-- From the SIG_BLOCK before the loop to the SIG_SETMASK behind it. -/
def Pc.looping : Pc → Bool
  | .save | .unblock | .block | .signal => false
  | _ => true

def Pc.printing : Pc → Bool
  | .star _ | .sleep _ | .newline => true
  | _ => false

structure Awake (s : State Data) (wakes : Nat) : Prop where
  asleep : s.asleep = false
  saved : s.saved = none
  wakes : s.wakes = wakes

structure Counted (s : State Data) (runs rows : Nat) : Prop where
  oldset : s.data.oldset = false
  blocked : s.blocked = true
  asleep : s.asleep = false
  inside : s.data.runs = s.wakes
  runs : s.data.runs = runs
  rows : s.data.rows = rows

structure Sleeping (s : State Data) : Prop where
  oldset : s.data.oldset = false
  blocked : s.blocked = false
  asleep : s.asleep = true
  saved : s.saved = some true
  inside : s.data.runs = s.wakes
  runs : s.data.runs = s.data.i
  rows : s.data.rows = s.data.i + 1

def InvAt (s : State Data) : Pc → Prop
  | .save | .unblock => Awake s 0
  | .block => Awake s 0 ∧ s.blocked = false
  | .test | .rowBlock | .restore => Counted s s.data.i s.data.i
  | .star _ | .sleep _ | .newline | .suspend => Counted s s.data.i (s.data.i + 1)
  | .suspended => Sleeping s ∨ Counted s (s.data.i + 1) (s.data.i + 1)
  | .signal => Awake s s.wakes ∧ s.blocked = s.data.old

def Inv (s : State Data) : Prop := InvAt s s.data.pc

theorem Awake.deliver (h : Awake s n) : Awake (s.deliver process) n := by
  refine ⟨rfl, rfl, ?_⟩
  simp only [State.deliver, h.asleep, Bool.toNat_false]
  exact h.wakes

theorem Awake.blocked_deliver (h : Awake s n) : (s.deliver process).blocked = s.blocked := by
  simp only [State.deliver, h.saved, Option.getD_none]

theorem Sleeping.deliver (h : Sleeping s) :
    Counted (s.deliver process) (s.data.i + 1) (s.data.i + 1) := by
  refine ⟨h.oldset, ?_, rfl, ?_, congrArg Nat.succ h.runs, h.rows⟩
  · simp only [State.deliver, h.saved, Option.getD_some]
  · simp only [State.deliver, process, h.asleep, Bool.toNat_true, h.inside]

/-- The handler is entered in sigsuspend or outside of the loop. -/
theorem Inv.deliver (h : Inv s) (hb : s.blocked = false) : Inv (s.deliver process) := by
  have hcounted {n m : Nat} (hc : Counted s n m) : False := by
    cases hb.symm.trans hc.blocked
  change InvAt (s.deliver process) s.data.pc
  unfold Inv at h
  cases hp : s.data.pc with
  | save | unblock =>
    rw [hp] at h
    exact Awake.deliver h
  | block =>
    rw [hp] at h
    exact ⟨h.1.deliver, h.1.blocked_deliver.trans h.2⟩
  | test | rowBlock | restore | star | sleep | newline | suspend =>
    rw [hp] at h
    exact (hcounted h).elim
  | suspended =>
    rw [hp] at h
    rcases h with h | h
    · exact .inr h.deliver
    · exact (hcounted h).elim
  | signal =>
    rw [hp] at h
    refine ⟨⟨rfl, rfl, rfl⟩, ?_⟩
    rw [h.1.blocked_deliver, h.2]
    rfl

theorem Counted.go (h : Counted s n m) (pc : Pc) :
    Counted (s.advance { s.data with pc := pc } .none) n m :=
  ⟨h.oldset, h.blocked, rfl, h.inside, h.runs, h.rows⟩

theorem Inv.next (h : Inv s) (ha : s.asleep = false) (hn : s.data.next s.blocked = some (d, e)) :
    Inv (s.advance d e) := by
  unfold Inv at h
  unfold Data.next at hn
  split at hn
  all_goals
    rename_i hp
    rw [hp] at h
    cases hn
  · -- save
    exact ⟨rfl, rfl, h.wakes⟩
  · -- unblock
    exact ⟨⟨rfl, rfl, h.wakes⟩, rfl⟩
  · -- block
    exact ⟨h.2, rfl, rfl, h.1.wakes.symm, rfl, rfl⟩
  · -- test
    split
    · exact Counted.go h .rowBlock
    · exact Counted.go h .restore
  · -- rowBlock
    exact ⟨h.oldset, rfl, rfl, h.inside, h.runs, congrArg Nat.succ h.rows⟩
  · -- star
    split
    · exact Counted.go h (.sleep _)
    · exact Counted.go h .newline
  · -- sleep
    exact Counted.go h (.star _)
  · -- newline
    exact Counted.go h .suspend
  · -- suspend
    exact .inl ⟨h.oldset, h.oldset, rfl, congrArg some h.blocked, h.inside, h.runs, h.rows⟩
  · -- suspended
    rcases h with h | h
    · cases ha.symm.trans h.asleep
    · exact ⟨h.oldset, h.blocked, rfl, h.inside, h.runs, h.rows⟩
  · -- restore
    exact ⟨⟨rfl, rfl, rfl⟩, rfl⟩

theorem Counted.signalled (h : Counted s n m) (p : Bool) (a : Nat) :
    Counted { s with pending := p, arrivals := a } n m :=
  ⟨h.oldset, h.blocked, h.asleep, h.inside, h.runs, h.rows⟩

theorem Awake.signalled (h : Awake s n) (p : Bool) (a : Nat) :
    Awake { s with pending := p, arrivals := a } n := ⟨h.asleep, h.saved, h.wakes⟩

theorem Inv.signalled (h : Inv s) (p : Bool) (a : Nat) :
    Inv { s with pending := p, arrivals := a } := by
  change InvAt { s with pending := p, arrivals := a } s.data.pc
  unfold Inv at h
  cases hp : s.data.pc with
  | save | unblock =>
    rw [hp] at h
    exact Awake.signalled h p a
  | block | signal =>
    rw [hp] at h
    exact ⟨h.1.signalled p a, h.2⟩
  | test | rowBlock | restore | star | sleep | newline | suspend =>
    rw [hp] at h
    exact Counted.signalled h p a
  | suspended =>
    rw [hp] at h
    rcases h with h | h
    · exact .inl ⟨h.oldset, h.blocked, h.asleep, h.saved, h.inside, h.runs, h.rows⟩
    · exact .inr (h.signalled p a)

theorem Inv.of_reachable (h : suspend1.Reachable s) : Inv s := by
  refine h.invariant ?_ ?_
  · rintro s ⟨b, p, -, rfl⟩
    exact ⟨rfl, rfl, rfl⟩
  · intro s t _ hi hst
    cases hst with
    | main ha hn =>
      have hi' := hi.next ha hn
      rw [State.perform]
      split
      · rename_i hdue
        exact hi'.deliver hdue.2
      · exact hi'
    | arrive hb => exact Inv.deliver (hi.signalled s.pending _) hb
    | held => exact hi.signalled true _

theorem Inv.inside (h : Inv s) (hl : s.data.pc.looping = true) : s.data.runs = s.wakes := by
  unfold Inv at h
  cases hp : s.data.pc with
  | save | unblock | block | signal =>
    rw [hp] at hl
    cases hl
  | suspended =>
    rw [hp] at h
    rcases h with h | h
    · exact h.inside
    · exact h.inside
  | test | rowBlock | restore | star | sleep | newline | suspend =>
    rw [hp] at h
    exact Counted.inside h

theorem Inv.unblocked_of_asleep (h : Inv s) (ha : s.asleep = true) : s.blocked = false := by
  unfold Inv at h
  have hcounted {n m : Nat} (hc : Counted s n m) : False := by
    cases ha.symm.trans hc.asleep
  have hawake {n : Nat} (hc : Awake s n) : False := by
    cases ha.symm.trans hc.asleep
  cases hp : s.data.pc with
  | save | unblock =>
    rw [hp] at h
    exact (hawake h).elim
  | block | signal =>
    rw [hp] at h
    exact (hawake h.1).elim
  | test | rowBlock | restore | star | sleep | newline | suspend =>
    rw [hp] at h
    exact (hcounted h).elim
  | suspended =>
    rw [hp] at h
    rcases h with h | h
    · exact h.blocked
    · exact (hcounted h).elim

/-- int_handler has run once more, and not in sigsuspend. -/
def RunsOutside (s t : State Data) : Prop := t.data.runs = s.data.runs + 1 ∧ t.wakes = s.wakes

/-- The SIG_SETMASK behind the loop delivers a pending SIGINT. -/
theorem restored (hp : s.data.pc = .restore) (ho : s.data.old = false)
    (hpend : s.pending = true) (hst : Step process s t) (ht : t.data.pc = .signal) :
    RunsOutside s t := by
  cases hst with
  | main _ hn =>
    change s.data.next s.blocked = _ at hn
    rw [Data.next, hp] at hn
    cases hn
    rw [State.perform, if_pos ⟨hpend, ho⟩]
    exact ⟨rfl, rfl⟩
  | arrive =>
    change s.data.pc = _ at ht
    rw [hp] at ht
    cases ht
  | held =>
    rw [show s.data.pc = _ from ht] at hp
    cases hp

theorem Inv.arrived (h : Inv s) (hp : s.data.pc = .signal) (ho : s.data.old = false)
    (hst : Step process s t) : RunsOutside s t := by
  unfold Inv at h
  rw [hp] at h
  obtain ⟨hawake, hblocked⟩ := h
  cases hst with
  | main _ hn =>
    change s.data.next s.blocked = _ at hn
    rw [Data.next, hp] at hn
    cases hn
  | arrive => exact ⟨rfl, by simp only [State.deliver, hawake.asleep, Bool.toNat_false]; rfl⟩
  | held hb => cases (hblocked.trans ho).symm.trans hb

/-- Up to the SIG_SETMASK behind the loop int_handler runs in sigsuspend only, once in each turn of
the loop. -/
theorem suspend1_rows (h : suspend1.Reachable s) :
    (s.data.pc.looping = true → s.data.runs = s.wakes) ∧
      (s.data.pc = .test → s.data.runs = s.data.i) ∧
      (s.data.pc.printing = true → s.data.rows = s.data.runs + 1) ∧
      (s.asleep = true → s.pending = false) ∧
      (s.data.pc = .restore → s.data.old = false → s.pending = true →
        ∀ t, Step process s t → t.data.pc = .signal → RunsOutside s t) ∧
      (s.data.pc = .signal → s.blocked = s.data.old ∧
        (s.data.old = false → ∀ t, Step process s t → RunsOutside s t)) := by
  have hi := Inv.of_reachable h
  have hat : InvAt s s.data.pc := hi
  refine ⟨hi.inside, fun hp => ?_, fun hl => ?_, fun ha => ?_, ?_, fun hp => ?_⟩
  · rw [hp] at hat
    exact Counted.runs hat
  · cases hp : s.data.pc with
    | star | sleep | newline =>
      rw [hp] at hat
      rw [Counted.rows hat, Counted.runs hat]
    | _ =>
      rw [hp] at hl
      cases hl
  · apply Bool.eq_false_iff.2
    intro hpend
    have hb : s.blocked = true := (settled_of_reachable h).pending hpend
    cases (hi.unblocked_of_asleep ha).symm.trans hb
  · exact fun hp ho hpend t hst ht => restored hp ho hpend hst ht
  · rw [hp] at hat
    exact ⟨hat.2, fun ho t hst => hi.arrived hp ho hst⟩

/-- After `n` turns of the loop, in a process that did not inherit a blocked SIGINT. -/
def turned (pc : Pc) (n rows : Nat) : State Data :=
  ⟨⟨pc, n, rows, n, false, false⟩, true, false, false, none, n, n, n⟩

theorem reachable_star (h : suspend1.Reachable (turned (.star 0) n m)) (hj : j ≤ 5) :
    suspend1.Reachable (turned (.star j) n m) := by
  induction j with
  | zero => exact h
  | succ j ih =>
    have hstar : Data.next (turned (.star j) n m).data true =
        some ((turned (.sleep j) n m).data, .none) := by
      simp only [Data.next, turned, if_pos (Nat.lt_of_succ_le hj)]
    have hsleep := ((ih (Nat.le_of_succ_le hj)).step (.main rfl hstar)).step (.main rfl rfl)
    exact hsleep

theorem reachable_turned (h : n ≤ 1000) : suspend1.Reachable (turned .test n n) := by
  induction n with
  | zero =>
    have h : suspend1.Reachable ⟨process.start, false, false, false, none, 0, 0, 0⟩ :=
      .init ⟨false, false, fun hp => hp, rfl⟩
    have h := ((h.step (.main rfl rfl)).step (.main rfl rfl)).step (.main rfl rfl)
    exact h
  | succ n ih =>
    have hn : n < 1000 := h
    have htest : Data.next (turned .test n n).data true =
        some ((turned .rowBlock n n).data, .none) := by
      simp only [Data.next, turned, hn, if_true]
    have hrow := ((ih (Nat.le_of_succ_le h)).step (.main rfl htest)).step (.main rfl rfl)
    have hstars := reachable_star hrow (Nat.le_refl 5)
    -- a newline, then sigsuspend sleeps until the signal comes
    have hasleep := ((hstars.step (.main rfl rfl)).step (.main rfl rfl)).step (.main rfl rfl)
    have hback := (hasleep.step (.arrive rfl)).step (.main rfl rfl)
    exact hback

theorem suspend1_rows_second :
    ∃ s, suspend1.Reachable s ∧ s.data.pc = .star 0 ∧ s.pending = true ∧ s.data.runs = 1 ∧
      s.data.rows = s.data.runs + 1 := by
  have h := reachable_turned (n := 1) (by decide)
  have h := h.step (.held rfl)
  have h := h.step (.main rfl rfl)
  have h := h.step (.main rfl rfl)
  exact ⟨_, h, rfl, rfl, rfl, (suspend1_rows h).2.2.1 rfl⟩

/-- A SIGINT that arrives when the last sigsuspend has returned waits for the SIG_SETMASK behind
the loop, and its handler runs there. -/
theorem suspend1_outside :
    ∃ s, suspend1.Reachable s ∧ s.data.i = 1000 ∧ s.data.pc = .signal ∧ s.data.runs = 1001 ∧
      s.wakes = 1000 := by
  have h := reachable_turned (Nat.le_refl 1000)
  have h := h.step (.held rfl)
  have h := h.step (.main rfl rfl)
  have h := h.step (.main rfl rfl)
  exact ⟨_, h, rfl, rfl, rfl, rfl⟩

end Apue.Suspend
