import Apue.Memory
import Apue.Pipe

namespace Apue.Adio.Poll
set_option autoImplicit true

def POLLIN : UInt16 := 1

def POLLOUT : UInt16 := 4

structure PollFd where
  fd : Nat
  events : UInt16
  revents : UInt16
  deriving Repr, DecidableEq

/-- if (p[i].state == state) polls[k].events = events; -/
def setEvents (p : Pipe) (state : PipeState) (k : Nat) (events : UInt16) (polls : List PollFd) :
    Except Fault (List PollFd) :=
  if p.state = state then modifyAt polls k fun e => { e with events := events } else .ok polls

/-- One turn of the loop of `pipe_push` that fills the array. -/
def registerPipe (polls : List PollFd) (i : Nat) (p : Pipe) : Except Fault (List PollFd) := do
  let polls ← modifyAt polls (i * 2) fun e => { e with fd := p.src }
  let polls ← modifyAt polls (i * 2 + 1) fun e => { e with fd := p.dst }
  let polls ← setEvents p .read (i * 2) POLLIN polls
  setEvents p .write (i * 2 + 1) POLLOUT polls

def register : List Pipe → Nat → List PollFd → Except Fault (List PollFd)
  | [], _, polls => .ok polls
  | p :: ps, i, polls => do
    let polls ← registerPipe polls i p
    register ps (i + 1) polls

/-- `pipe_push` up to the call of poll(polls, n * 2, -1). The array is allocated for `n`
elements. -/
def registration (mem : Leftover PollFd) (pipes : List Pipe) : Except Fault (List PollFd) := do
  let n := pipes.length
  let polls ← register pipes 0 (mem.block n)
  if n * 2 ≤ polls.length then .ok (polls.take (n * 2)) else .error .bounds

/-- The entries ask for POLLIN at a source that is read, for POLLOUT at a destination that is
written, for nothing else. -/
def Interested (pipes : List Pipe) (polls : List PollFd) : Prop :=
  ∀ i p, pipes[i]? = some p →
    (∃ e, polls[i * 2]? = some e ∧ e.fd = p.src ∧
      e.events = if p.state = .read then POLLIN else 0) ∧
    ∃ e, polls[i * 2 + 1]? = some e ∧ e.fd = p.dst ∧
      e.events = if p.state = .write then POLLOUT else 0

def srcEntry (p : Pipe) (e : PollFd) : PollFd :=
  { e with fd := p.src, events := if p.state = .read then POLLIN else e.events }

def dstEntry (p : Pipe) (e : PollFd) : PollFd :=
  { e with fd := p.dst, events := if p.state = .write then POLLOUT else e.events }

theorem setEvents_ok (p : Pipe) (state : PipeState) (events : UInt16) {polls : List PollFd}
    (h : k < polls.length) :
    setEvents p state k events polls =
      .ok (polls.modify k fun e =>
        { e with events := if p.state = state then events else e.events }) := by
  by_cases hs : p.state = state
  · simp only [setEvents, if_pos hs, modifyAt_of_lt h]
  · simp only [setEvents, if_neg hs]
    exact congrArg Except.ok (List.modify_id k polls).symm

theorem registerPipe_ok {polls : List PollFd} (p : Pipe) (h : i * 2 + 1 < polls.length) :
    registerPipe polls i p =
      .ok ((polls.modify (i * 2) (srcEntry p)).modify (i * 2 + 1) (dstEntry p)) := by
  have h' : i * 2 < polls.length := Nat.lt_of_succ_lt h
  have hne : i * 2 ≠ i * 2 + 1 := Nat.ne_of_lt (Nat.lt_succ_self _)
  rw [registerPipe, modifyAt_of_lt h', ok_bind, modifyAt_of_lt (by simpa using h), ok_bind,
    setEvents_ok p .read POLLIN (by simpa using h'), ok_bind,
    setEvents_ok p .write POLLOUT (by simpa using h)]
  rw [List.modify_modify_ne _ _ _ hne.symm, List.modify_modify_eq, List.modify_modify_eq]
  rfl

theorem registerPipe_error {polls : List PollFd} (p : Pipe) (h : polls.length ≤ i * 2 + 1) :
    registerPipe polls i p = .error .bounds := by
  rw [registerPipe]
  by_cases h' : i * 2 < polls.length
  · rw [modifyAt_of_lt h', ok_bind, modifyAt_of_le (by simpa using h)]
    rfl
  · rw [modifyAt_of_le (Nat.not_lt.1 h')]
    rfl

theorem register_error {ps : List Pipe} {polls : List PollFd} (hne : ps ≠ [])
    (h : polls.length < (i + ps.length) * 2) : register ps i polls = .error .bounds := by
  induction ps generalizing i polls with
  | nil => exact absurd rfl hne
  | cons p ps ih =>
    rw [register]
    by_cases hroom : i * 2 + 1 < polls.length
    · rw [List.length_cons] at h
      have hps : ps ≠ [] := by
        rintro rfl
        rw [List.length_nil] at h
        omega
      rw [registerPipe_ok p hroom, ok_bind]
      apply ih hps
      rw [List.length_modify, List.length_modify]
      omega
    · rw [registerPipe_error p (Nat.not_lt.1 hroom)]
      rfl

/-- An entry of a pipe after the loop, for an array with room for all entries. -/
structure Registered (ps : List Pipe) (i : Nat) (old new : List PollFd) : Prop where
  length : new.length = old.length
  before : ∀ k < i * 2, new[k]? = old[k]?
  src : ∀ j p, ps[j]? = some p → new[(i + j) * 2]? = old[(i + j) * 2]?.map (srcEntry p)
  dst : ∀ j p, ps[j]? = some p → new[(i + j) * 2 + 1]? = old[(i + j) * 2 + 1]?.map (dstEntry p)

theorem register_ok {ps : List Pipe} {polls : List PollFd}
    (h : (i + ps.length) * 2 ≤ polls.length) :
    ∃ new, register ps i polls = .ok new ∧ Registered ps i polls new := by
  induction ps generalizing i polls with
  | nil => exact ⟨polls, rfl, rfl, fun _ _ => rfl, nofun, nofun⟩
  | cons p ps ih =>
    rw [List.length_cons] at h
    have hroom : i * 2 + 1 < polls.length := by omega
    obtain ⟨new, hnew, hr⟩ := @ih (i + 1)
      ((polls.modify (i * 2) (srcEntry p)).modify (i * 2 + 1) (dstEntry p))
      (by rw [List.length_modify, List.length_modify]; omega)
    refine ⟨new, ?_, ?_⟩
    · rw [register, registerPipe_ok p hroom, ok_bind, hnew]
    · constructor
      · rw [hr.length, List.length_modify, List.length_modify]
      · intro k hk
        rw [hr.before k (by omega), List.getElem?_modify_ne _ _ (by omega),
          List.getElem?_modify_ne _ _ (by omega)]
      · intro j q hj
        cases j with
        | zero =>
          obtain rfl : p = q := Option.some.inj hj
          have hat : (i + 0) * 2 = i * 2 := rfl
          rw [hat, hr.before _ (by omega), List.getElem?_modify_ne _ _ (by omega),
            List.getElem?_modify_eq]
          rfl
        | succ j =>
          have hat : (i + (j + 1)) * 2 = (i + 1 + j) * 2 := by omega
          rw [hat, hr.src j q hj, List.getElem?_modify_ne _ _ (by omega),
            List.getElem?_modify_ne _ _ (by omega)]
      · intro j q hj
        cases j with
        | zero =>
          obtain rfl : p = q := Option.some.inj hj
          have hat : (i + 0) * 2 + 1 = i * 2 + 1 := rfl
          rw [hat, hr.before _ (by omega), List.getElem?_modify_eq,
            List.getElem?_modify_ne _ _ (by omega)]
          rfl
        | succ j =>
          have hat : (i + (j + 1)) * 2 + 1 = (i + 1 + j) * 2 + 1 := by omega
          rw [hat, hr.dst j q hj, List.getElem?_modify_ne _ _ (by omega),
            List.getElem?_modify_ne _ _ (by omega)]

/-- The interest is the one meant just where the events that the loop does not write are empty
already. -/
theorem interested_iff {pipes : List Pipe} {old new : List PollFd}
    (hroom : pipes.length * 2 ≤ old.length) (h : register pipes 0 old = .ok new) :
    Interested pipes new ↔ ∀ i p, pipes[i]? = some p →
      (p.state ≠ .read → ∀ e, old[i * 2]? = some e → e.events = 0) ∧
        (p.state ≠ .write → ∀ e, old[i * 2 + 1]? = some e → e.events = 0) := by
  obtain ⟨new', hnew, hr⟩ := @register_ok 0 pipes old (by omega)
  obtain rfl : new' = new := Except.ok.inj (hnew.symm.trans h)
  apply forall_congr'
  intro i
  apply forall_congr'
  intro p
  apply imp_congr_right
  intro hp
  have hi : i < pipes.length := (List.getElem?_eq_some_iff.1 hp).1
  have hsrc := hr.src i p hp
  have hdst := hr.dst i p hp
  rw [Nat.zero_add, List.getElem?_eq_getElem (by omega : i * 2 < old.length)] at hsrc
  rw [Nat.zero_add, List.getElem?_eq_getElem (by omega : i * 2 + 1 < old.length)] at hdst
  rw [hsrc, hdst, List.getElem?_eq_getElem (by omega : i * 2 < old.length),
    List.getElem?_eq_getElem (by omega : i * 2 + 1 < old.length)]
  simp only [Option.map_some, Option.some.injEq, exists_eq_left', forall_eq', srcEntry, dstEntry,
    true_and]
  apply and_congr
  · split <;> simp [*]
  · split <;> simp [*]

theorem registration_error (mem : Leftover PollFd) {pipes : List Pipe} (h : pipes ≠ []) :
    registration mem pipes = .error .bounds := by
  have hpos : 0 < pipes.length := List.length_pos_iff.2 h
  have hlt : (mem.block pipes.length).length < (0 + pipes.length) * 2 := by
    rw [mem.length_block]
    omega
  rw [registration, register_error h hlt]
  rfl

/-- The array is allocated for one entry for each pipe, and its filling leaves it for every number
of pipes. -/
theorem registration_never_fits (mem : Leftover PollFd) (pipes : List Pipe)
    (h : 1 ≤ pipes.length) :
    registration mem pipes = .error .bounds ∧
      ¬∃ polls, registration mem pipes = .ok polls ∧ Interested pipes polls := by
  have herr := registration_error mem (List.length_pos_iff.1 h)
  refine ⟨herr, ?_⟩
  rintro ⟨polls, hok, -⟩
  rw [herr] at hok
  cases hok

def zeroedPolls : Leftover PollFd :=
  ⟨fun n => List.replicate n ⟨0, 0, 0⟩, fun _ => List.length_replicate⟩

theorem registration_never_fits_two :
    1 ≤ (List.ofFn (opened Unit 2).pipes).length ∧
      registration zeroedPolls (List.ofFn (opened Unit 2).pipes) = .error .bounds := by
  have hn : 1 ≤ (List.ofFn (opened Unit 2).pipes).length := by rw [List.length_ofFn]; decide
  exact ⟨hn, (registration_never_fits zeroedPolls _ hn).1⟩

/-- With one pipe, `polls[1]` lies behind the one element of the array. -/
theorem second_entry_outside :
    (zeroedPolls.block 1).length = 1 ∧
      registration zeroedPolls [(opened Unit 1).pipes 0] = .error .bounds :=
  ⟨rfl, registration_error zeroedPolls (List.cons_ne_nil _ _)⟩

end Apue.Adio.Poll
