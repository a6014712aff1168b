import Mathlib.Logic.Relation
import Apue.AnyTimerLedger

namespace Apue.AnyTimer
set_option autoImplicit true

def Main.busy : Main F A → Bool
  | .addScan .. | .addStore .. => true
  | .cancelLoad _ | .cancelTest .. | .cancelFree .. | .cancelClear .. => true
  | _ => false

/-- A job has run once, at its own tick, or has been cancelled before, or is in the table and its
tick to come. -/
def State.OnTime (s : State F A) (p : Nat) (e : Job F A) : Prop :=
  p ∈ s.cancelled ∧ s.firings p = [] ∨
    p ∉ s.cancelled ∧ s.firings p = [⟨p, e.func, e.arg, e.due⟩] ∧ e.due ≤ s.clock ∨
    p ∉ s.cancelled ∧ s.firings p = [] ∧ s.tasks e.id = some p ∧
      (s.handler = none → s.clock < e.due)

theorem State.Fate.onTime {s : State F A} (h : s.Fate p e) (h1 : 1 ≤ e.sec) : s.OnTime p e := by
  cases h with
  | waiting k hk =>
    refine .inr (.inr ⟨hk.kept, hk.silent, hk.slot, fun hh => ?_⟩)
    have hsec := hk.sec_eq
    have hpos := hk.positive h1
    rw [State.seen, hh] at hsec
    simp only [passed, if_true] at hsec
    rw [Job.due]
    omega
  | fired _ hd hf hc => exact .inr (.inl ⟨hc, hf, hd⟩)
  | cancelled hc hf => exact .inl ⟨hc, hf⟩

/-- The job e with record p has neither run nor been cancelled. -/
structure State.Outstanding (s : State F A) (p : Nat) (e : Job F A) : Prop where
  job : s.jobs[p]? = some e
  kept : p ∉ s.cancelled
  silent : s.firings p = []

theorem State.Sound.slot {s : State F A} (h : s.Sound) (ho : s.Outstanding p e) :
    s.tasks e.id = some p := by
  cases h.fate p e ho.job with
  | waiting k hk => exact hk.slot
  | fired _ _ hf =>
    rw [ho.silent] at hf
    cases hf
  | cancelled hc => exact absurd hc ho.kept

def Handler.rest : Handler → Nat
  | .scan i => 2 * (maxTasks - i)
  | .callback i _ => 2 * (maxTasks - i) - 1

/-- What a tick with callbacks that do not use the library leaves as it is. -/
structure State.Handled (s t : State F A) : Prop where
  clock_eq : t.clock = s.clock
  jobs_eq : t.jobs = s.jobs
  inited_eq : t.inited = s.inited
  free : ∀ i, s.tasks i = none → t.tasks i = none

theorem State.Handled.trans {s t u : State F A} (h : s.Handled t) (h' : t.Handled u) :
    s.Handled u :=
  ⟨h'.clock_eq.trans h.clock_eq, h'.jobs_eq.trans h.jobs_eq, h'.inited_eq.trans h.inited_eq,
    fun i hi => h'.free i (h.free i hi)⟩

theorem update_none_of_none {tasks : Fin maxTasks → Option Nat} (h : tasks i = none)
    (j : Fin maxTasks) : Function.update tasks j none i = none := by
  rcases eq_or_ne i j with rfl | hne
  · exact Function.update_self i none tasks
  · rw [Function.update_of_ne hne, h]

theorem State.Sound.handler_step {s : State F A} (h : s.Sound) (hs : s.Slots)
    (hh : s.handler = some c) :
    ∃ t, (∀ ok, State.Step ok s t) ∧ s.Handled t ∧
      (t.handler = none ∧ t.main = s.main.wake ∨
        ∃ c', t.handler = some c' ∧ t.main = s.main ∧ c'.rest < c.rest) := by
  cases c with
  | scan i =>
    by_cases hi : i < maxTasks
    · have hst (ok) : State.Step ok s _ := .visit h.no_fault hh hi
      rcases s.attempt_cases (s.visit ⟨i, hi⟩) with ⟨t, hv, he⟩ | ⟨e, hv, -⟩
      · rw [he] at hst
        refine ⟨t, hst, ?_⟩
        cases State.visit_ok hv with
        | none | down | fire =>
          exact ⟨⟨rfl, rfl, rfl, fun _ hn => hn⟩, .inr ⟨_, rfl, rfl, by
            simp only [Handler.rest]
            omega⟩⟩
      · exact absurd hv (h.visit_defined hs (by rw [hh]; simp))
    · exact ⟨_, fun _ => .finish h.no_fault hh (Nat.le_of_not_lt hi),
        ⟨rfl, rfl, rfl, fun _ hn => hn⟩, .inl ⟨rfl, rfl⟩⟩
  | callback i p =>
    have hst (ok) : State.Step ok s _ := .callReturn h.no_fault hh
    rcases s.attempt_cases (s.finishCallback i p) with ⟨t, hr, he⟩ | ⟨e, hr, -⟩
    · rw [he] at hst
      refine ⟨t, hst, ?_⟩
      obtain ⟨k, -, rfl⟩ := State.finishCallback_ok hr
      have hi := i.isLt
      exact ⟨⟨rfl, rfl, rfl, fun j hn => update_none_of_none hn i⟩, .inr ⟨_, rfl, rfl, by
        simp only [Handler.rest]
        omega⟩⟩
    · exact absurd hr (h.return_defined hh)

/-- A tick that has begun comes to its end, and wakes at_wait. -/
theorem handler_runs {s : State F A} (h : (anytimer F A ok).Reachable s)
    (hok : ∀ s a, (anytimer F A ok).Reachable s → ok s a → Careful s a)
    (hh : s.handler = some c) :
    ∃ t, (∀ ok', Relation.ReflTransGen (State.Step ok') s t) ∧ s.Handled t ∧
      t.handler = none ∧ t.main = s.main.wake := by
  generalize hn : c.rest = n
  induction n using Nat.strong_induction_on generalizing s c with
  | _ n ih =>
    have hsound := State.Sound.of_reachable h hok
    obtain ⟨u, hst, hu, ⟨hnone, hmain⟩ | ⟨c', hc', hmain, hlt⟩⟩ :=
      hsound.handler_step (State.Slots.of_reachable h) hh
    · exact ⟨u, fun _ => .single (hst _), hu, hnone, hmain⟩
    · obtain ⟨t, hrun, ht, hnone, hwake⟩ := ih c'.rest (hn ▸ hlt) (h.step (hst ok)) hc' rfl
      exact ⟨t, fun _ => .head (hst _) (hrun _), hu.trans ht, hnone, hmain ▸ hwake⟩

theorem tick_completes {s : State F A} (h : (anytimer F A ok).Reachable s)
    (hok : ∀ s a, (anytimer F A ok).Reachable s → ok s a → Careful s a) :
    ∃ t, Relation.ReflTransGen (State.Step ok) s t ∧ t.handler = none ∧ t.clock = s.clock := by
  cases hh : s.handler with
  | none => exact ⟨s, .refl, hh, rfl⟩
  | some c =>
    obtain ⟨t, hrun, ht, hnone, -⟩ := handler_runs h hok hh
    exact ⟨t, hrun ok, hnone, ht.clock_eq⟩

/-- Delays of at least one second, cancellations of pending jobs only, signals between the calls,
and callbacks that do not use the library. -/
def Quiet (s : State F A) : Act F A → Prop
  | .add sec _ _ => 1 ≤ sec
  | .cancel id => ∃ p, s.tasks id = some p
  | .wait _ => True
  | .stmt => True
  | .tick => s.main.busy = false
  | .callAdd .. => False
  | .callCancel _ => False

theorem careful_of_not_busy {s : State F A} (h : s.main.busy = false) : Careful s .tick := by
  refine ⟨fun i p hm => ?_, fun i p k hr => ?_⟩
  · rw [hm] at h
    cases h
  · cases hm : s.main with
    | idle | waitTest | waitEnter | waitPause | addScan | addStore =>
      rw [hm] at hr
      cases hr
    | cancelLoad | cancelTest | cancelFree | cancelClear =>
      rw [hm] at h
      cases h

inductive Main.Waits (i : Fin maxTasks) : Main F A → Prop where
  | testing : Waits i (.waitTest i)
  | entering : Waits i (.waitEnter i)
  | paused : Waits i (.waitPause i)

theorem Main.Waits.wake {m : Main F A} (h : m.Waits i) : m.wake.Waits i := by
  cases h with
  | testing => exact .testing
  | entering => exact .entering
  | paused => exact .testing

theorem inited_of_jobs {s : State F A} (h : (anytimer F A ok).Reachable s) :
    s.jobs ≠ [] → s.inited = true := by
  refine h.invariant (P := fun s => s.jobs ≠ [] → s.inited = true) ?_ ?_
  · rintro s rfl hne
    exact absurd rfl hne
  · intro s t _ hs hst
    cases hst.move with
    | full | request | add | callAdd => exact fun _ => rfl
    | visit _ _ hv => cases hv <;> exact hs
    | _ => exact hs

theorem State.stmt_waitTest {s : State F A} (hm : s.main = .waitTest i) :
    s.stmt = .ok { s with main := if s.tasks i = none then .idle else .waitEnter i } := by
  rw [State.stmt, hm]

theorem State.vacant_of_not_busy {s : State F A} (hm : s.main.busy = false) : s.Vacant := by
  intro j sec job arg hs
  rw [hs] at hm
  cases hm

theorem test_returns {s : State F A} (h : (anytimer F A Careful).Reachable s)
    (hh : s.handler = none) (hm : s.main = .waitTest i) (hn : s.tasks i = none) :
    State.Step Careful s { s with main := .idle } := by
  have hsound := State.Sound.of_reachable h fun _ _ _ hok => hok
  have hst : State.Step Careful s (s.attempt s.stmt) :=
    .stmt hsound.no_fault hh (State.vacant_of_not_busy (by rw [hm]; rfl))
  rwa [State.stmt_waitTest hm, if_pos hn] at hst

theorem pause_returns {s : State F A} (h : (anytimer F A Careful).Reachable s)
    (hh : s.handler = none) (hm : s.main = .waitPause i) (hi : s.inited = true)
    (hn : s.tasks i = none) :
    ∃ t, Relation.ReflTransGen (State.Step Careful) s t ∧ t.handler = none ∧ t.main = .idle ∧
      t.clock = s.clock + 1 := by
  have hsound := State.Sound.of_reachable h fun _ _ _ hok => hok
  have htick : State.Step Careful s _ :=
    .tick hsound.no_fault hh hi (careful_of_not_busy (by rw [hm]; rfl))
  obtain ⟨t, hrun, ht, hnone, hmain⟩ := handler_runs (h.step htick) (fun _ _ _ hok => hok) rfl
  have hrun := Relation.ReflTransGen.head htick (hrun Careful)
  have htest : t.main = .waitTest i := by
    rw [hmain]
    exact congrArg Main.wake hm
  exact ⟨_, hrun.tail (test_returns (h.trans hrun) hnone htest (ht.free i hn)), hnone, rfl,
    ht.clock_eq⟩

theorem wait_returns {s : State F A} {e : Job F A} {J : Nat}
    (h : (anytimer F A Careful).Reachable s) (hh : s.handler = none)
    (hJ : s.jobs[J]? = some e) (hw : s.main.Waits e.id)
    (hfree : ∀ q e', s.Pending q → s.jobs[q]? = some e' → e'.id ≠ e.id) :
    ∃ t, Relation.ReflTransGen (State.Step Careful) s t ∧ t.handler = none ∧ t.main = .idle ∧
      t.clock ≤ s.clock + 1 := by
  have hn := (State.Slots.of_reachable h).free_of_unnamed hfree
  have hi := inited_of_jobs h (List.ne_nil_of_mem (List.mem_of_getElem? hJ))
  have hsound := State.Sound.of_reachable h fun _ _ _ hok => hok
  generalize hm : s.main = m at hw
  cases hw with
  | testing => exact ⟨_, .single (test_returns h hh hm hn), hh, rfl, Nat.le_succ _⟩
  | paused =>
    obtain ⟨t, hrun, hnone, hidle, hclock⟩ := pause_returns h hh hm hi hn
    exact ⟨t, hrun, hnone, hidle, Nat.le_of_eq hclock⟩
  | entering =>
    have hst : State.Step Careful s (s.attempt s.stmt) :=
      .stmt hsound.no_fault hh (State.vacant_of_not_busy (by rw [hm]; rfl))
    rw [State.stmt, hm] at hst
    obtain ⟨t, hrun, hnone, hidle, hclock⟩ := pause_returns (h.step hst) hh rfl hi hn
    exact ⟨t, .head hst hrun, hnone, hidle, Nat.le_of_eq hclock⟩

/-- Where callbacks do not add jobs, no slot is taken between the scan of at_add_job and its
store. -/
theorem vacant_of_no_callAdd {s : State F A} (h : (anytimer F A ok).Reachable s)
    (hno : ∀ s sec job arg, ¬ok s (.callAdd sec job arg)) : s.Vacant := by
  refine h.invariant ?_ ?_
  · rintro s rfl j sec job arg hm
    cases hm
  · intro s t _ hs hst j sec job arg hm
    cases hst.move with
    | full | same | tick | stmtFault | visitFault | cancelFault | returnFault =>
      exact hs _ _ _ _ hm
    | quiet _ _ hl => cases hl <;> cases hm
    | request | scan | add | load | test | free | clear => cases hm
    | found _ _ hj =>
      cases hm
      exact hj
    | callAdd _ _ hok => exact absurd hok (hno _ _ _ _)
    | visit _ _ hv => cases hv <;> exact hs _ _ _ _ hm
    | finish =>
      apply hs j sec job arg
      cases hmain : s.main <;> simp_all [Main.wake]
    | callCancel | callReturn => exact update_none_of_none (hs _ _ _ _ hm) _

theorem Quiet.careful {s : State F A} {a : Act F A} (hr : (anytimer F A Quiet).Reachable s)
    (h : Quiet s a) : Careful s a := by
  cases a with
  | tick => exact careful_of_not_busy h
  | stmt => exact vacant_of_no_callAdd hr fun _ _ _ _ hn => hn
  | add | cancel | wait => trivial
  | callAdd | callCancel => exact h.elim

/-- Where signals and calls are careful, the jobs that callbacks add fire at their own ticks, and no
record is freed twice. -/
theorem callback_jobs_on_time {s : State F A} (h : (anytimer F A Careful).Reachable s) :
    s.fault = none ∧
      (∃ t, Relation.ReflTransGen (State.Step Careful) s t ∧ t.handler = none ∧
        t.clock = s.clock) ∧
      ∀ p e, s.jobs[p]? = some e → 1 ≤ e.sec → s.OnTime p e := by
  have hsound := State.Sound.of_reachable h fun _ _ _ hok => hok
  refine ⟨hsound.no_fault, tick_completes h fun _ _ _ hok => hok, ?_⟩
  intro p e he h1
  exact (hsound.fate p e he).onTime h1

theorem callback_jobs_on_time_below :
    ∃ s : State Unit Unit, s.jobs[2]? = some ⟨⟨0, by decide⟩, 3, (), (), 1⟩ ∧
      s.OnTime 2 ⟨⟨0, by decide⟩, 3, (), (), 1⟩ := by
  have h : (anytimer Unit Unit Careful).Reachable (State.start Unit Unit) := .init rfl
  have h := reachable_store h 2 () () (fun _ hv => hv) rfl rfl rfl trivial
    (getfFreePos_zero rfl)
  have h := reachable_store h 1 () () (fun _ hv => hv) rfl rfl rfl trivial
    (getfFreePos_one (fun hn => by cases hn) rfl)
  have h := h.step (.tick rfl rfl rfl (careful_of_not_busy rfl))
  have h := h.step (.visit rfl rfl (by decide))
  have h := h.step (.visit rfl rfl (by decide))
  have h := h.step (.callCancel ⟨0, by decide⟩ rfl rfl (by
    intro i p hh
    cases hh
    exact ⟨by decide, fun q hq => (by cases hq)⟩))
  have h := h.step (callStore_step 3 () () rfl rfl (by
    intro i p hh _
    cases hh
    exact ⟨⟨0, by decide⟩, by decide, rfl⟩) (getfFreePos_zero rfl))
  exact ⟨_, rfl, (callback_jobs_on_time h).2.2 2 _ rfl (by decide)⟩

/-- Signals between the calls of the main flow, and callbacks that use the library with delays of
at least one second. -/
def Reentrant (s : State F A) : Act F A → Prop
  | .tick => s.main.busy = false
  | .callAdd sec _ _ => 1 ≤ sec
  | _ => True

/-- A job added from slot 0 lands in slot 1 and fires in the same tick; a callback that cancels
itself is freed twice. -/
theorem callback_job_fires_early :
    (∃ s : State Unit Unit, (anytimer Unit Unit Reentrant).Reachable s ∧
      s.jobs[1]? = some ⟨⟨1, by decide⟩, 1, (), (), 1⟩ ∧ s.firings 1 = [⟨1, (), (), 1⟩] ∧
      ¬ s.OnTime 1 ⟨⟨1, by decide⟩, 1, (), (), 1⟩) ∧
    ∃ s : State Unit Unit, (anytimer Unit Unit Reentrant).Reachable s ∧
      s.fault = some .doubleFree := by
  have h : (anytimer Unit Unit Reentrant).Reachable (State.start Unit Unit) := .init rfl
  have h := reachable_store h 1 () () (fun _ _ => trivial) rfl rfl rfl trivial
    (getfFreePos_zero rfl)
  have h := h.step (.tick rfl rfl rfl rfl)
  have h := h.step (.visit rfl rfl (by decide))
  constructor
  · have h := h.step (callStore_step 1 () () rfl rfl (Int.le_refl 1)
      (getfFreePos_one (fun hn => by cases hn) rfl))
    have h := h.step (.callReturn rfl rfl)
    have h := h.step (.visit rfl rfl (by decide))
    refine ⟨_, h, rfl, rfl, ?_⟩
    rintro (⟨hc, -⟩ | ⟨-, hf, -⟩ | ⟨-, hf, -⟩)
    · cases hc
    · cases hf
    · cases hf
  · have h := h.step (.callCancel ⟨0, by decide⟩ rfl rfl trivial)
    have h := h.step (.callReturn rfl rfl)
    exact ⟨_, h, rfl⟩

def Plain (_ : State F A) : Act F A → Prop
  | .callAdd .. => False
  | .callCancel _ => False
  | _ => True

/-- No signal arrives in at_cancel_job with the record freed, nor with it loaded and one second
left. -/
def Apart (s : State F A) : Act F A → Prop
  | .tick => (∀ i p, s.main ≠ .cancelClear i p) ∧
      ∀ i p k, s.main.record = some (i, p) → s.heap.Live p k → k.sec ≠ 1
  | _ => True

theorem Apart.careful {s : State F A} {a : Act F A}
    (hr : (anytimer F A fun s a => Plain s a ∧ Apart s a).Reachable s)
    (h : Plain s a ∧ Apart s a) : Careful s a := by
  cases a with
  | tick => exact h.2
  | stmt => exact vacant_of_no_callAdd hr fun _ _ _ _ hn => hn.1
  | callAdd | callCancel => exact h.1.elim
  | add | cancel | wait => trivial

/-- Where the signals keep apart from at_cancel_job, no record is used after it was freed, and no
callback of a cancelled job is run. -/
theorem cancel_tick_apart {s : State F A}
    (h : (anytimer F A fun s a => Plain s a ∧ Apart s a).Reachable s) :
    s.fault = none ∧ ∀ f ∈ s.fired, f.job ∉ s.cancelled := by
  have hsound := State.Sound.of_reachable h fun _ _ => Apart.careful
  refine ⟨hsound.no_fault, fun f hf hc => ?_⟩
  have hlt := (State.Slots.of_reachable h).firedJob f hf
  cases hsound.fate f.job _ (List.getElem?_eq_getElem hlt) with
  | waiting k hk => exact hk.kept hc
  | fired _ _ _ hn => exact hn hc
  | cancelled _ hs =>
    have hmem : f ∈ s.firings f.job := List.mem_filter.2 ⟨hf, beq_self_eq_true _⟩
    rw [hs] at hmem
    cases hmem

theorem cancel_tick_apart_two_seconds :
    ∃ s : State Unit Unit, s.main = .cancelTest ⟨0, by decide⟩ (some 0) ∧
      s.handler = some (.scan 1) ∧ s.fault = none ∧ ∀ f ∈ s.fired, f.job ∉ s.cancelled := by
  have h : (anytimer Unit Unit fun s a => Plain s a ∧ Apart s a).Reachable
      (State.start Unit Unit) := .init rfl
  have h := reachable_store h 2 () () (fun _ _ => ⟨trivial, trivial⟩) rfl rfl rfl
    ⟨trivial, trivial⟩ (getfFreePos_zero rfl)
  have h := h.step (.cancel ⟨0, by decide⟩ rfl rfl rfl ⟨trivial, trivial⟩)
  have h := h.step (.stmt rfl rfl ⟨trivial, trivial⟩)
  have h := h.step (.tick rfl rfl rfl ⟨trivial, fun i p hm => (by cases hm), by
    intro i p k hr hk
    cases hr
    cases hk
    decide⟩)
  have h := h.step (.visit rfl rfl (by decide))
  exact ⟨_, rfl, rfl, cancel_tick_apart h⟩

/-- A tick right after free(t) counts down the freed record; one right before it has free(t) free
the record again. -/
theorem tick_in_cancel_faults :
    (∃ s : State Unit Unit, (anytimer Unit Unit Plain).Reachable s ∧
      s.fault = some .dangling) ∧
    ∃ s : State Unit Unit, (anytimer Unit Unit Plain).Reachable s ∧
      s.fault = some .doubleFree := by
  have h : (anytimer Unit Unit Plain).Reachable (State.start Unit Unit) := .init rfl
  have h := reachable_store h 1 () () (fun _ _ => trivial) rfl rfl rfl trivial
    (getfFreePos_zero rfl)
  have h := h.step (.cancel ⟨0, by decide⟩ rfl rfl rfl trivial)
  have h := h.step (.stmt rfl rfl trivial)
  have h := h.step (.stmt rfl rfl trivial)
  constructor
  · have h := h.step (.stmt rfl rfl trivial)
    have h := h.step (.tick rfl rfl rfl trivial)
    have h := h.step (.visit rfl rfl (by decide))
    exact ⟨_, h, rfl⟩
  · have h := h.step (.tick rfl rfl rfl trivial)
    have h := h.step (.visit rfl rfl (by decide))
    have h := h.step (.callReturn rfl rfl)
    have h := h.trans (sweep_empty _ rfl rfl fun j _ => taken_and_cleared _ j)
    have h := h.step (.stmt rfl rfl trivial)
    exact ⟨_, h, rfl⟩

end Apue.AnyTimer
