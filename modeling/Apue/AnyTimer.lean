import Mathlib.Data.Fintype.Basic
import Apue.Memory
import Apue.Reachability

namespace Apue.AnyTimer
set_option autoImplicit true

def maxTasks : Nat := 1024

/-- struct task. A delay below 1 is counted down without end. -/
structure Task (F A : Type) where
  sec : Int
  func : F
  arg : A
  pos : Fin maxTasks

/-- What at_add_job was asked for, and when. -/
structure Job (F A : Type) where
  id : Fin maxTasks
  sec : Int
  func : F
  arg : A
  addedAt : Nat

def Job.due (e : Job F A) : Nat := e.addedAt + e.sec.toNat

/-- A call t->func(t->arg) made by the handler. -/
structure Firing (F A : Type) where
  job : Nat
  func : F
  arg : A
  time : Nat

/-- The statement that the main flow executes next. -/
inductive Main (F A : Type) where
  | idle
  /-- if (tasks[i] == NULL) in getf_free_pos, for at_add_job -/
  | addScan (i : Nat) (sec : Int) (job : F) (arg : A)
  /-- tasks[id] = t -/
  | addStore (id : Fin maxTasks) (sec : Int) (job : F) (arg : A)
  /-- struct task *t = tasks[id] -/
  | cancelLoad (id : Fin maxTasks)
  /-- if (t == NULL) -/
  | cancelTest (id : Fin maxTasks) (t : Option Nat)
  | cancelFree (id : Fin maxTasks) (t : Nat)
  /-- tasks[id] = NULL -/
  | cancelClear (id : Fin maxTasks) (t : Nat)
  /-- while (tasks[id] != NULL) -/
  | waitTest (id : Fin maxTasks)
  /-- pause(), not yet entered: a signal that arrives here does not end it -/
  | waitEnter (id : Fin maxTasks)
  | waitPause (id : Fin maxTasks)

/-- Where the handler is: before the turn of its loop for slot i, or in a callback. -/
inductive Handler where
  | scan (i : Nat)
  | callback (i : Fin maxTasks) (t : Nat)
  deriving DecidableEq

/-- The data of anytimer.c and the two flows of control; the last four fields are history. -/
structure State (F A : Type) where
  inited : Bool
  tasks : Fin maxTasks → Option Nat
  heap : Heap (Task F A)
  main : Main F A
  handler : Option Handler
  fault : Option Fault
  clock : Nat
  jobs : List (Job F A)
  cancelled : List Nat
  fired : List (Firing F A)

def State.start (F A : Type) : State F A :=
  ⟨false, fun _ => none, .empty, .idle, none, none, 0, [], [], []⟩

def getfFreePos (tasks : Fin maxTasks → Option Nat) : Option (Fin maxTasks) :=
  (List.finRange maxTasks).find? fun i => (tasks i).isNone

def State.store (s : State F A) (id : Fin maxTasks) (sec : Int) (job : F) (arg : A) :
    State F A :=
  { s with
    inited := true
    heap := s.heap.malloc ⟨sec, job, arg, id⟩
    tasks := Function.update s.tasks id (some s.heap.next)
    jobs := s.jobs ++ [⟨id, sec, job, arg, s.clock⟩] }

/-- at_add_job without interruption: the returned id, none for -1, and the state after it. -/
def State.atAddJob (s : State F A) (sec : Int) (job : F) (arg : A) :
    Option (Fin maxTasks) × State F A :=
  match getfFreePos s.tasks with
  | none => (none, { s with inited := true })
  | some id => (some id, s.store id sec job arg)

/-- free(t) in at_cancel_job -/
def State.release (s : State F A) (t : Nat) : Except Fault (State F A) := do
  let h ← s.heap.free t
  return { s with heap := h, cancelled := t :: s.cancelled }

def State.clear (s : State F A) (id : Fin maxTasks) : State F A :=
  { s with tasks := Function.update s.tasks id none }

/-- at_cancel_job without interruption. -/
def State.atCancelJob (s : State F A) (id : Fin maxTasks) : Except Fault (State F A) :=
  match s.tasks id with
  | none => .ok s
  | some t => do
    let s ← s.release t
    return s.clear id

/-- One statement of the main flow in at_add_job, at_cancel_job or at_wait. -/
def State.stmt (s : State F A) : Except Fault (State F A) :=
  match s.main with
  | .idle => .ok s
  | .addScan i sec job arg =>
    if h : i < maxTasks then
      if s.tasks ⟨i, h⟩ = none then .ok { s with main := .addStore ⟨i, h⟩ sec job arg }
      else .ok { s with main := .addScan (i + 1) sec job arg }
    else .ok { s with main := .idle }
  | .addStore id sec job arg => .ok { s.store id sec job arg with main := .idle }
  | .cancelLoad id => .ok { s with main := .cancelTest id (s.tasks id) }
  | .cancelTest _ none => .ok { s with main := .idle }
  | .cancelTest id (some t) => .ok { s with main := .cancelFree id t }
  | .cancelFree id t => do
    let s ← s.release t
    return { s with main := .cancelClear id t }
  | .cancelClear id _ => .ok { s.clear id with main := .idle }
  | .waitTest id =>
    .ok { s with main := if s.tasks id = none then .idle else .waitEnter id }
  | .waitEnter id => .ok { s with main := .waitPause id }
  | .waitPause id => .ok { s with main := .waitPause id }

/-- The turn of the handler's loop for slot i, up to the callback. -/
def State.visit (s : State F A) (i : Fin maxTasks) : Except Fault (State F A) :=
  match s.tasks i with
  | none => .ok { s with handler := some (.scan (i + 1)) }
  | some t => do
    let k ← s.heap.load t
    let h ← s.heap.store t { k with sec := k.sec - 1 }
    if k.sec - 1 = 0 then
      return { s with
        heap := h
        handler := some (.callback i t)
        fired := ⟨t, k.func, k.arg, s.clock⟩ :: s.fired }
    else return { s with heap := h, handler := some (.scan (i + 1)) }

/-- The rest of that turn, after the callback. -/
def State.finishCallback (s : State F A) (i : Fin maxTasks) (t : Nat) :
    Except Fault (State F A) := do
  let h ← s.heap.free t
  return { s with
    heap := h
    tasks := Function.update s.tasks i none
    handler := some (.scan (i + 1)) }

def Main.wake : Main F A → Main F A
  | .waitPause id => .waitTest id
  | m => m

def State.attempt (s : State F A) : Except Fault (State F A) → State F A
  | .ok t => t
  | .error e => { s with fault := some e }

/-- What a condition on a run may be about: calls, statements of the main flow, and the arrival of a
signal. -/
inductive Act (F A : Type) where
  | add (sec : Int) (job : F) (arg : A)
  | cancel (id : Fin maxTasks)
  | wait (id : Fin maxTasks)
  | stmt
  | tick
  | callAdd (sec : Int) (job : F) (arg : A)
  | callCancel (id : Fin maxTasks)

/-- A signal may arrive between any two statements of the main flow. A callback is any sequence of
calls, and is not interrupted itself. -/
inductive State.Step (ok : State F A → Act F A → Prop) : State F A → State F A → Prop where
  | add : s.fault = none → s.handler = none → s.main = .idle → ok s (.add sec job arg) →
      Step ok s { s with inited := true, main := .addScan 0 sec job arg }
  | cancel (id : Fin maxTasks) : s.fault = none → s.handler = none → s.main = .idle →
      ok s (.cancel id) →
      Step ok s { s with main := .cancelLoad id }
  | wait (id : Fin maxTasks) : s.fault = none → s.handler = none → s.main = .idle →
      ok s (.wait id) →
      Step ok s { s with main := .waitTest id }
  | stmt : s.fault = none → s.handler = none → ok s .stmt → Step ok s (s.attempt s.stmt)
  | tick : s.fault = none → s.handler = none → s.inited = true → ok s .tick →
      Step ok s { s with handler := some (.scan 0), clock := s.clock + 1 }
  | visit : s.fault = none → s.handler = some (.scan i) → (hi : i < maxTasks) →
      Step ok s (s.attempt (s.visit ⟨i, hi⟩))
  | finish : s.fault = none → s.handler = some (.scan i) → maxTasks ≤ i →
      Step ok s { s with handler := none, main := s.main.wake }
  | callAdd : s.fault = none → s.handler = some (.callback i t) → ok s (.callAdd sec job arg) →
      Step ok s (s.atAddJob sec job arg).2
  | callCancel (id : Fin maxTasks) : s.fault = none → s.handler = some (.callback i t) →
      ok s (.callCancel id) →
      Step ok s (s.attempt (s.atCancelJob id))
  | callReturn : s.fault = none → s.handler = some (.callback i t) →
      Step ok s (s.attempt (s.finishCallback i t))

def anytimer (F A : Type) (ok : State F A → Act F A → Prop) : System (State F A) where
  init s := s = State.start F A
  step := State.Step ok

theorem getfFreePos_some (h : getfFreePos tasks = some i) : tasks i = none := by
  have hf := List.find?_some h
  exact Option.isNone_iff_eq_none.1 hf

theorem getfFreePos_none : getfFreePos tasks = none ↔ ∀ i, tasks i ≠ none := by
  rw [getfFreePos, List.find?_eq_none]
  constructor
  · intro h i hi
    exact h i (List.mem_finRange i) (by rw [hi]; rfl)
  · intro h i _ hi
    exact h i (Option.isNone_iff_eq_none.1 hi)

theorem getfFreePos_le (h : getfFreePos tasks = some i) (hj : tasks j = none) : i ≤ j := by
  by_contra hlt
  have hlt : j < i := not_le.1 hlt
  rw [getfFreePos, List.find?_eq_some_iff_append] at h
  obtain ⟨-, l, r, hl, hall⟩ := h
  have hmem : j ∈ l := by
    have hsorted : (List.finRange maxTasks).Pairwise (· < ·) := List.pairwise_lt_finRange maxTasks
    have hm := List.mem_finRange j
    rw [hl] at hm hsorted
    rcases List.mem_append.1 hm with hm | hm
    · exact hm
    · rcases List.mem_cons.1 hm with he | hm
      · exact absurd he (ne_of_lt hlt)
      · have hgt := (List.pairwise_cons.1 (List.pairwise_append.1 hsorted).2.1).1 j hm
        exact absurd hlt (lt_asymm hgt)
  have hne := hall j hmem
  rw [hj] at hne
  cases hne

theorem State.atAddJob_cases (s : State F A) (sec : Int) (job : F) (arg : A) :
    (getfFreePos s.tasks = none ∧ s.atAddJob sec job arg = (none, { s with inited := true })) ∨
      ∃ j, getfFreePos s.tasks = some j ∧
        s.atAddJob sec job arg = (some j, s.store j sec job arg) := by
  unfold State.atAddJob
  split
  · next hn => exact .inl ⟨hn, rfl⟩
  · next j hj => exact .inr ⟨j, hj, rfl⟩

theorem State.atAddJob_store {s : State F A} (hj : getfFreePos s.tasks = some j) (sec : Int)
    (job : F) (arg : A) : (s.atAddJob sec job arg).2 = s.store j sec job arg := by
  rcases s.atAddJob_cases sec job arg with ⟨hn, -⟩ | ⟨i, hi, he⟩
  · rw [hj] at hn
    cases hn
  · rw [hj] at hi
    cases hi
    rw [he]

theorem State.release_ok {s : State F A} (h : s.release p = .ok t) :
    (∃ k, s.heap.Live p k) ∧
      t = { s with heap := s.heap.put p none, cancelled := p :: s.cancelled } := by
  obtain ⟨H, hH, ht⟩ := bind_ok h
  obtain ⟨hl, rfl⟩ := Heap.free_ok hH
  cases ht
  exact ⟨hl, rfl⟩

theorem State.atCancelJob_ok {s : State F A} {id : Fin maxTasks} (h : s.atCancelJob id = .ok t) :
    (s.tasks id = none ∧ t = s) ∨ ∃ p k, s.tasks id = some p ∧ s.heap.Live p k ∧
      t = { s with
        heap := s.heap.put p none
        cancelled := p :: s.cancelled
        tasks := Function.update s.tasks id none } := by
  unfold State.atCancelJob at h
  split at h
  · next hn =>
    cases h
    exact .inl ⟨hn, rfl⟩
  · next p hp =>
    obtain ⟨u, hu, ht⟩ := bind_ok h
    obtain ⟨⟨k, hk⟩, rfl⟩ := State.release_ok hu
    cases ht
    exact .inr ⟨p, k, hp, hk, rfl⟩

theorem State.finishCallback_ok {s : State F A} (h : s.finishCallback i p = .ok t) :
    ∃ k, s.heap.Live p k ∧ t = { s with
      heap := s.heap.put p none
      tasks := Function.update s.tasks i none
      handler := some (.scan (i + 1)) } := by
  obtain ⟨H, hH, ht⟩ := bind_ok h
  obtain ⟨⟨k, hk⟩, rfl⟩ := Heap.free_ok hH
  cases ht
  exact ⟨k, hk, rfl⟩

def Task.older (k : Task F A) : Task F A := { k with sec := k.sec - 1 }

inductive Visited (s : State F A) (i : Fin maxTasks) : State F A → Prop where
  | none (hn : s.tasks i = none) : Visited s i { s with handler := some (.scan (i + 1)) }
  | down (hp : s.tasks i = some p) (hk : s.heap.Live p k) (hne : k.sec - 1 ≠ 0) :
      Visited s i { s with
        heap := s.heap.put p (some k.older)
        handler := some (.scan (i + 1)) }
  | fire (hp : s.tasks i = some p) (hk : s.heap.Live p k) (he : k.sec - 1 = 0) :
      Visited s i { s with
        heap := s.heap.put p (some k.older)
        handler := some (.callback i p)
        fired := ⟨p, k.func, k.arg, s.clock⟩ :: s.fired }

theorem State.visit_ok {s : State F A} (h : s.visit i = .ok t) : Visited s i t := by
  unfold State.visit at h
  split at h
  · next hn =>
    cases h
    exact .none hn
  · next p hp =>
    obtain ⟨k, hk, h⟩ := bind_ok h
    have hk := Heap.load_ok hk
    obtain ⟨H, hH, h⟩ := bind_ok h
    rw [hk.store] at hH
    cases hH
    split at h
    · next he =>
      cases h
      exact .fire hp hk he
    · next hne =>
      cases h
      exact .down hp hk hne

theorem State.attempt_cases (s : State F A) (r : Except Fault (State F A)) :
    (∃ t, r = .ok t ∧ s.attempt r = t) ∨
      ∃ e, r = .error e ∧ s.attempt r = { s with fault := some e } := by
  cases r with
  | ok t => exact .inl ⟨t, rfl, rfl⟩
  | error e => exact .inr ⟨e, rfl, rfl⟩

/-- The job whose record at_cancel_job of the main flow has loaded. -/
def Main.record : Main F A → Option (Fin maxTasks × Nat)
  | .cancelTest id (some p) => some (id, p)
  | .cancelFree id p => some (id, p)
  | .cancelClear id p => some (id, p)
  | _ => none

/-- The main flow is not in at_add_job, and its at_cancel_job has not loaded a record. -/
inductive Main.Light : Main F A → Prop where
  | idle : Light .idle
  | loading : Light (.cancelLoad i)
  | unloaded : Light (.cancelTest i none)
  | testing : Light (.waitTest i)
  | entering : Light (.waitEnter i)
  | paused : Light (.waitPause i)

theorem Main.Light.record_none {m : Main F A} (h : m.Light) : m.record = none := by
  cases h <;> rfl

inductive Move (ok : State F A → Act F A → Prop) (s : State F A) : State F A → Prop where
  | full : Move ok s { s with inited := true }
  | quiet (hh : s.handler = none) (hm : s.main.record = none) (hm' : m.Light) :
      Move ok s { s with main := m }
  | request (hh : s.handler = none) (hm : s.main = .idle) (hok : ok s (.add sec job arg)) :
      Move ok s { s with inited := true, main := .addScan 0 sec job arg }
  | scan (hh : s.handler = none) (hm : s.main = .addScan i sec job arg) :
      Move ok s { s with main := .addScan (i + 1) sec job arg }
  | found (hh : s.handler = none) (hm : s.main = .addScan j.val sec job arg)
      (hj : s.tasks j = none) : Move ok s { s with main := .addStore j sec job arg }
  | add (hh : s.handler = none) (hm : s.main = .addStore j sec job arg) (hok : ok s .stmt) :
      Move ok s { s.store j sec job arg with main := .idle }
  | callAdd (hh : s.handler = some (.callback i p)) (hj : getfFreePos s.tasks = some j)
      (hok : ok s (.callAdd sec job arg)) : Move ok s (s.store j sec job arg)
  | load (hh : s.handler = none) (hm : s.main = .cancelLoad j) (hp : s.tasks j = some p) :
      Move ok s { s with main := .cancelTest j (some p) }
  | test (hh : s.handler = none) (hm : s.main = .cancelTest j (some p)) :
      Move ok s { s with main := .cancelFree j p }
  | free (hh : s.handler = none) (hm : s.main = .cancelFree j p) (hk : s.heap.Live p k) :
      Move ok s { s with
        heap := s.heap.put p none
        cancelled := p :: s.cancelled
        main := .cancelClear j p }
  | clear (hh : s.handler = none) (hm : s.main = .cancelClear j p) :
      Move ok s { s with tasks := Function.update s.tasks j none, main := .idle }
  | tick (hh : s.handler = none) (hok : ok s .tick) :
      Move ok s { s with handler := some (.scan 0), clock := s.clock + 1 }
  | visit (hh : s.handler = some (.scan i)) (hi : i < maxTasks) (hv : Visited s ⟨i, hi⟩ t) :
      Move ok s t
  | finish (hh : s.handler = some (.scan i)) (hi : maxTasks ≤ i) :
      Move ok s { s with handler := none, main := s.main.wake }
  | callCancel (hh : s.handler = some (.callback i p)) (hok : ok s (.callCancel j))
      (hq : s.tasks j = some q) (hk : s.heap.Live q k) :
      Move ok s { s with
        heap := s.heap.put q none
        cancelled := q :: s.cancelled
        tasks := Function.update s.tasks j none }
  | callReturn (hh : s.handler = some (.callback i p)) (hk : s.heap.Live p k) :
      Move ok s { s with
        heap := s.heap.put p none
        tasks := Function.update s.tasks i none
        handler := some (.scan (i + 1)) }
  | same : Move ok s s
  | stmtFault (hh : s.handler = none) (he : s.stmt = .error e) :
      Move ok s { s with fault := some e }
  | visitFault (hh : s.handler = some (.scan i)) (hi : i < maxTasks)
      (he : s.visit ⟨i, hi⟩ = .error e) : Move ok s { s with fault := some e }
  | cancelFault (hh : s.handler = some (.callback i p)) (hok : ok s (.callCancel j))
      (he : s.atCancelJob j = .error e) : Move ok s { s with fault := some e }
  | returnFault (hh : s.handler = some (.callback i p)) (he : s.finishCallback i p = .error e) :
      Move ok s { s with fault := some e }

theorem State.stmt_move {s : State F A} (hh : s.handler = none) (hok : ok s .stmt)
    (h : s.stmt = .ok t) : Move ok s t := by
  unfold State.stmt at h
  split at h
  · cases h
    exact .same
  · next i sec job arg hm =>
    split at h
    · next hi =>
      split at h
      · next hj =>
        cases h
        exact .found hh hm hj
      · cases h
        exact .scan hh hm
    · cases h
      exact .quiet hh (by rw [hm]; rfl) .idle
  · next hm =>
    cases h
    exact .add hh hm hok
  · next j hm =>
    cases h
    cases hp : s.tasks j with
    | none => exact .quiet hh (by rw [hm]; rfl) .unloaded
    | some p => exact .load hh hm hp
  · next hm =>
    cases h
    exact .quiet hh (by rw [hm]; rfl) .idle
  · next hm =>
    cases h
    exact .test hh hm
  · next hm =>
    obtain ⟨u, hu, h⟩ := bind_ok h
    obtain ⟨⟨k, hk⟩, rfl⟩ := State.release_ok hu
    cases h
    exact .free hh hm hk
  · next hm =>
    cases h
    exact .clear hh hm
  · next hm =>
    cases h
    apply Move.quiet hh (by rw [hm]; rfl)
    split
    · exact .idle
    · exact .entering
  · next hm =>
    cases h
    exact .quiet hh (by rw [hm]; rfl) .paused
  · next hm =>
    cases h
    exact .quiet hh (by rw [hm]; rfl) .paused

theorem State.Step.move {s t : State F A} (h : State.Step ok s t) : Move ok s t := by
  cases h with
  | add _ hh hm hok => exact .request hh hm hok
  | cancel _ _ hh hm => exact .quiet hh (by rw [hm]; rfl) .loading
  | wait _ _ hh hm => exact .quiet hh (by rw [hm]; rfl) .testing
  | stmt _ hh hok =>
    rcases s.attempt_cases s.stmt with ⟨t, ht, he⟩ | ⟨e, ht, he⟩
    · rw [he]
      exact State.stmt_move hh hok ht
    · rw [he]
      exact .stmtFault hh ht
  | tick _ hh _ hok => exact .tick hh hok
  | visit _ hh hi =>
    rcases s.attempt_cases (s.visit ⟨_, hi⟩) with ⟨t, ht, he⟩ | ⟨e, ht, he⟩
    · rw [he]
      exact .visit hh hi (State.visit_ok ht)
    · rw [he]
      exact .visitFault hh hi ht
  | finish _ hh hi => exact .finish hh hi
  | @callAdd _ sec job arg i p _ hh hok =>
    rcases s.atAddJob_cases sec job arg with ⟨-, he⟩ | ⟨j, hj, he⟩
    · rw [he]
      exact .full
    · rw [he]
      exact .callAdd hh hj hok
  | callCancel id _ hh hok =>
    rcases s.attempt_cases (s.atCancelJob id) with ⟨t, ht, he⟩ | ⟨e, ht, he⟩
    · rw [he]
      rcases State.atCancelJob_ok ht with ⟨-, rfl⟩ | ⟨q, k, hq, hk, rfl⟩
      · exact .same
      · exact .callCancel hh hok hq hk
    · rw [he]
      exact .cancelFault hh hok ht
  | @callReturn _ i p _ hh =>
    rcases s.attempt_cases (s.finishCallback i p) with ⟨t, ht, he⟩ | ⟨e, ht, he⟩
    · rw [he]
      obtain ⟨k, hk, rfl⟩ := State.finishCallback_ok ht
      exact .callReturn hh hk
    · rw [he]
      exact .returnFault hh ht

end Apue.AnyTimer
