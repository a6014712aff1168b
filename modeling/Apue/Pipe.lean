import Apue.Lists
import Apue.Reachability
import Apue.Rounds
import Mathlib.Data.List.Infix

namespace Apue.Adio
set_option autoImplicit true

def bufSize : Nat := 4096

inductive PipeState where
  | read
  | write
  | err
  | eof
  deriving Repr, DecidableEq

structure Buf where
  bytes : List UInt8
  size : bytes.length = bufSize

/-- What a `read` that succeeds puts into the buffer, nothing at the end of the file. -/
structure Chunk where
  bytes : List UInt8
  le : bytes.length ≤ bufSize

def Buf.store (b : Buf) (c : Chunk) : Buf where
  bytes := c.bytes ++ b.bytes.drop c.bytes.length
  size := by
    rw [List.length_append, List.length_drop, b.size]
    exact Nat.add_sub_cancel' c.le

structure Pipe where
  src : Nat
  dst : Nat
  state : PipeState
  buf : Buf
  off : Int
  len : Int
  err : Int

def pipeInit (p : Pipe) (src dst : Nat) : Pipe :=
  { p with src := src, dst := dst, off := 0, len := 0, err := 0, state := .read }

def Pipe.Finished (p : Pipe) : Prop := p.state = .eof ∨ p.state = .err
  deriving Decidable

/-- A system call with what it moved, `none` when it returned -1. A `write` starts at the start of
the buffer. -/
inductive IoCall where
  | read (fd : Nat) (ret : Option (List UInt8))
  | write (fd : Nat) (len : Int) (ret : Option (List UInt8))
  deriving Repr, DecidableEq

def IoCall.fd : IoCall → Nat
  | .read fd _ | .write fd _ _ => fd

def IoCall.got (fd : Nat) : IoCall → List UInt8
  | .read fd' (some bs) => if fd' = fd then bs else []
  | _ => []

def IoCall.put (fd : Nat) : IoCall → List UInt8
  | .write fd' _ (some bs) => if fd' = fd then bs else []
  | _ => []

def consumed (fd : Nat) (calls : List IoCall) : List UInt8 := calls.flatMap (IoCall.got fd)

def written (fd : Nat) (calls : List IoCall) : List UInt8 := calls.flatMap (IoCall.put fd)

/-- The `ssize_t` that a call returns. -/
def ssize : Option (List UInt8) → Int
  | none => -1
  | some bs => bs.length

/-- The conversion of `p->len` to the `size_t` that `write` takes. -/
def sizeT (len : Int) : Nat := (len % UInt64.size).toNat

/-- What the kernel would answer to the calls of one pipe in one `pipe_push`, and the memory behind
its buffer. -/
structure Io where
  rd : Option Chunk
  wr : Option Nat
  past : Nat → UInt8

/-- `read(p->src, p->buf, BUF_SIZE)`: the buffer afterwards. -/
def Io.fill (io : Io) (b : Buf) : Buf :=
  match io.rd with
  | none => b
  | some c => b.store c

def Io.readRet (io : Io) : Option (List UInt8) := io.rd.map Chunk.bytes

/-- `write(p->dst, p->buf, p->len)`: the bytes that go out, from the start of the buffer. -/
def Io.writeRet (io : Io) (b : Buf) : Option (List UInt8) :=
  io.wr.map fun n => b.bytes.take n ++ (List.range (n - bufSize)).map io.past

def Pipe.afterRead (io : Io) (p : Pipe) : Pipe :=
  let sz := ssize io.readRet
  let p := { p with buf := io.fill p.buf }
  if sz = 0 then { p with state := .eof }
  else { p with state := .write, off := 0, len := sz }

def Pipe.afterWrite (io : Io) (p : Pipe) : Pipe :=
  let sz := ssize (io.writeRet p.buf)
  let p := { p with off := p.off + sz }
  if p.off = p.len then { p with state := .read } else p

/-- What the readiness tests say about the two descriptors of a pipe. -/
structure Tests where
  srcExcept : Bool
  srcReady : Bool
  dstExcept : Bool
  dstReady : Bool

/-- The `switch` over one pipe, as `select.c` and `poll.c` have it. -/
def Tests.serve (t : Tests) (io : Io) : Service Pipe IoCall := fun p =>
  match p.state with
  | .read =>
    if t.srcExcept then ({ p with state := .err }, none)
    else if !t.srcReady then (p, none)
    else (p.afterRead io, some (.read p.src io.readRet))
  | .write =>
    if t.dstExcept then ({ p with state := .err }, none)
    else if !t.dstReady then (p, none)
    else (p.afterWrite io, some (.write p.dst p.len (io.writeRet p.buf)))
  | _ => (p, none)

/-- All that the `switch` can do to a pipe. -/
inductive Serves (io : Io) (p : Pipe) : Pipe × Option IoCall → Prop where
  | idle : Serves io p (p, none)
  | except : Serves io p ({ p with state := .err }, none)
  | read : p.state = .read → Serves io p (p.afterRead io, some (.read p.src io.readRet))
  | write : p.state = .write →
      Serves io p (p.afterWrite io, some (.write p.dst p.len (io.writeRet p.buf)))

theorem Tests.serves (t : Tests) (io : Io) (p : Pipe) : Serves io p (t.serve io p) := by
  unfold serve
  split
  · split
    · exact .except
    · split
      · exact .idle
      · exact .read ‹_›
  · split
    · exact .except
    · split
      · exact .idle
      · exact .write ‹_›
  · exact .idle

/-- A service keeps the descriptors of its pipe, calls the kernel on these only, and leaves a
finished pipe alone. -/
structure Proper (f : Service Pipe IoCall) : Prop where
  src : ∀ p, (f p).1.src = p.src
  dst : ∀ p, (f p).1.dst = p.dst
  fd : ∀ p, ∀ c ∈ (f p).2, c.fd = p.src ∨ c.fd = p.dst
  finished : ∀ p, p.Finished → f p = (p, none)

/-- One of the three copiers: the bound on the turns of `main`, what a wait may report, and the loop
of `pipe_push`. -/
structure Program (R : Type) (n : Nat) where
  limit : Option Nat
  waits : (Fin n → Pipe) → R → Prop
  visits : R → (Fin n → Io) → List (Fin n × Service Pipe IoCall)
  nodup : ∀ {pipes r io}, waits pipes r → ((visits r io).map Prod.fst).Nodup
  proper : ∀ {r io i}, Proper (serviceOf (visits r io) i)

/-- A copier at the head of `main`'s loop, with its calls and reports so far and its exit status. -/
@[ext]
structure Machine (R : Type) (n : Nat) where
  pipes : Fin n → Pipe
  calls : List IoCall
  reports : List R
  exit : Option Nat

/-- A `pipe_push` that returns 0, and `main`'s check for the end after it. -/
def Machine.push (P : Program R n) (r : R) (io : Fin n → Io) (m : Machine R n) : Machine R n :=
  let served := round (P.visits r io) m.pipes
  let turns := m.reports.length + 1
  { pipes := served.1
    calls := m.calls ++ served.2
    reports := m.reports ++ [r]
    exit := if (∀ i, (served.1 i).Finished) ∨ P.limit = some turns then some 0 else none }

def usageOk (argc : Nat) : Prop := ¬(argc < 3 ∨ (argc - 1) % 2 ≠ 0)
  deriving Decidable

structure Distinct (pipes : Fin n → Pipe) : Prop where
  src : ∀ i j, (pipes i).src = (pipes j).src → i = j
  dst : ∀ i j, (pipes i).dst = (pipes j).dst → i = j
  src_ne_dst : ∀ i j, (pipes i).src ≠ (pipes j).dst

/-- `main` has opened the files. -/
structure Started (m : Machine R n) : Prop where
  argc : ∃ argc, usageOk argc ∧ n = (argc - 1) / 2
  pipes : ∀ i, ∃ p src dst, m.pipes i = pipeInit p src dst
  distinct : Distinct m.pipes
  calls : m.calls = []
  reports : m.reports = []
  exit : m.exit = none

/-- One turn of `main`'s loop, where the kernel answers as `ok` allows. -/
inductive Program.Step (P : Program R n) (ok : List IoCall → IoCall → Prop) :
    Machine R n → Machine R n → Prop where
  -- `EINTR`: the wait is entered again with the same interest
  | intr : m.exit = none → Step P ok m m
  -- any other error: `pipe_push` returns it and `main` exits
  | fail : m.exit = none → Step P ok m { m with exit := some 1 }
  | push : m.exit = none → P.waits m.pipes r →
      (∀ c ∈ (round (P.visits r io) m.pipes).2, ok m.calls c) → Step P ok m (m.push P r io)

def Program.main (P : Program R n) (ok : List IoCall → IoCall → Prop) :
    System (Machine R n) where
  init := Started
  step := P.Step ok

/-- The results that the kernel may give when `content fd` is what can be read from `fd`. -/
def Admissible (content : Nat → List UInt8) (calls : List IoCall) : IoCall → Prop
  | .read fd (some bs) =>
    consumed fd calls ++ bs <+: content fd ∧ (bs = [] → consumed fd calls = content fd)
  | .write _ len (some bs) => 1 ≤ bs.length ∧ bs.length ≤ sizeT len
  | .read _ none | .write _ _ none => True

instance (content : Nat → List UInt8) (calls : List IoCall) :
    (c : IoCall) → Decidable (Admissible content calls c)
  | .read fd (some bs) => inferInstanceAs (Decidable
      (consumed fd calls ++ bs <+: content fd ∧ (bs = [] → consumed fd calls = content fd)))
  | .write _ len (some bs) => inferInstanceAs (Decidable
      (1 ≤ bs.length ∧ bs.length ≤ sizeT len))
  | .read _ none => .isTrue trivial
  | .write _ _ none => .isTrue trivial

def Pipe.owns (p : Pipe) (c : IoCall) : Bool := c.fd = p.src ∨ c.fd = p.dst

def Machine.callsOf (m : Machine R n) (i : Fin n) : List IoCall := m.calls.filter (m.pipes i).owns

@[simp] theorem Pipe.afterRead_src (io : Io) (p : Pipe) : (p.afterRead io).src = p.src := by
  simp only [afterRead]
  split <;> rfl

@[simp] theorem Pipe.afterRead_dst (io : Io) (p : Pipe) : (p.afterRead io).dst = p.dst := by
  simp only [afterRead]
  split <;> rfl

@[simp] theorem Pipe.afterWrite_src (io : Io) (p : Pipe) : (p.afterWrite io).src = p.src := by
  simp only [afterWrite]
  split <;> rfl

@[simp] theorem Pipe.afterWrite_dst (io : Io) (p : Pipe) : (p.afterWrite io).dst = p.dst := by
  simp only [afterWrite]
  split <;> rfl

theorem Pipe.afterRead_fail {io : Io} (h : io.rd = none) (p : Pipe) :
    p.afterRead io = { p with state := .write, off := 0, len := -1 } := by
  simp [afterRead, Io.readRet, Io.fill, h, ssize]

theorem Pipe.afterRead_eof {io : Io} (h : io.rd = some c) (hc : c.bytes = []) (p : Pipe) :
    p.afterRead io = { p with buf := p.buf.store c, state := .eof } := by
  simp [afterRead, Io.readRet, Io.fill, h, ssize, hc]

theorem Pipe.afterRead_data {io : Io} (h : io.rd = some c) (hc : c.bytes ≠ []) (p : Pipe) :
    p.afterRead io =
      { p with buf := p.buf.store c, state := .write, off := 0, len := c.bytes.length } := by
  simp [afterRead, Io.readRet, Io.fill, h, ssize, hc]

theorem Pipe.afterWrite_done {io : Io} {p : Pipe}
    (h : p.off + ssize (io.writeRet p.buf) = p.len) :
    p.afterWrite io = { p with off := p.len, state := .read } := by
  simp [afterWrite, h]

theorem Serves.src (h : Serves io p out) : out.1.src = p.src := by
  cases h <;> simp

theorem Serves.dst (h : Serves io p out) : out.1.dst = p.dst := by
  cases h <;> simp

theorem Serves.fd (h : Serves io p out) : ∀ c ∈ out.2, c.fd = p.src ∨ c.fd = p.dst := by
  intro c hc
  cases h with
  | idle => cases hc
  | except => cases hc
  | read =>
    cases hc
    exact .inl rfl
  | write =>
    cases hc
    exact .inr rfl

theorem Tests.serve_proper (t : Tests) (io : Io) : Proper (t.serve io) where
  src p := (t.serves io p).src
  dst p := (t.serves io p).dst
  fd p := (t.serves io p).fd
  finished p h := by
    rcases h with h | h <;> simp only [Tests.serve, h]

theorem Proper.owns {f : Service Pipe IoCall} (h : Proper f) (p : Pipe) (c : IoCall)
    (hc : c ∈ (f p).2) : p.owns c = true := by
  simpa [Pipe.owns] using h.fd p c hc

theorem Distinct.not_owns {pipes : Fin n → Pipe} (h : Distinct pipes) (hij : j ≠ i)
    (hc : (pipes j).owns c = true) : (pipes i).owns c = false := by
  simp only [Pipe.owns, decide_eq_true_eq, decide_eq_false_iff_not] at hc ⊢
  have hs := h.src i j
  have hd := h.dst i j
  have hsd := h.src_ne_dst
  grind

theorem owns_congr {p q : Pipe} (hs : p.src = q.src) (hd : p.dst = q.dst) : p.owns = q.owns := by
  funext c
  rw [Pipe.owns, Pipe.owns, hs, hd]

section
variable {P : Program R n} {m : Machine R n} {r : R} {io : Fin n → Io}

theorem Machine.push_pipe (hw : P.waits m.pipes r) (i : Fin n) :
    (m.push P r io).pipes i = (serviceOf (P.visits r io) i (m.pipes i)).1 :=
  round_fst (P.nodup hw) m.pipes i

theorem Machine.push_src (hw : P.waits m.pipes r) (i : Fin n) :
    ((m.push P r io).pipes i).src = (m.pipes i).src := by
  rw [push_pipe hw, P.proper.src]

theorem Machine.push_dst (hw : P.waits m.pipes r) (i : Fin n) :
    ((m.push P r io).pipes i).dst = (m.pipes i).dst := by
  rw [push_pipe hw, P.proper.dst]

theorem Machine.push_distinct (hd : Distinct m.pipes) (hw : P.waits m.pipes r) :
    Distinct (m.push P r io).pipes where
  src i j := by
    rw [push_src hw, push_src hw]
    exact hd.src i j
  dst i j := by
    rw [push_dst hw, push_dst hw]
    exact hd.dst i j
  src_ne_dst i j := by
    rw [push_src hw, push_dst hw]
    exact hd.src_ne_dst i j

theorem Machine.round_own (hd : Distinct m.pipes) (hw : P.waits m.pipes r) (i : Fin n) :
    (round (P.visits r io) m.pipes).2.filter (m.pipes i).owns =
      (serviceOf (P.visits r io) i (m.pipes i)).2.toList := by
  rw [round_snd (P.nodup hw) m.pipes i]
  · rw [List.filter_eq_self]
    intro c hc
    exact P.proper.owns _ c (Option.mem_toList.mp hc)
  · intro j hj c hc
    exact hd.not_owns hj (P.proper.owns _ c hc)

theorem Machine.push_callsOf (hd : Distinct m.pipes) (hw : P.waits m.pipes r) (i : Fin n) :
    (m.push P r io).callsOf i =
      m.callsOf i ++ (serviceOf (P.visits r io) i (m.pipes i)).2.toList := by
  rw [callsOf, owns_congr (push_src hw i) (push_dst hw i), push, List.filter_append,
    round_own hd hw]
  rfl

theorem Machine.push_exit : (m.push P r io).exit =
    if (∀ i, ((m.push P r io).pipes i).Finished) ∨ P.limit = some (m.reports.length + 1)
    then some 0 else none :=
  rfl

theorem Machine.push_exit_zero (h : ∀ i, ((m.push P r io).pipes i).Finished) :
    (m.push P r io).exit = some 0 :=
  if_pos (.inl h)

theorem Started.callsOf (h : Started m) (i : Fin n) : m.callsOf i = [] := by
  rw [Machine.callsOf, h.calls, List.filter_nil]

theorem Program.distinct (h : (P.main ok).Reachable m) : Distinct m.pipes := by
  induction h with
  | init h0 => exact h0.distinct
  | step _ hst ih =>
    cases hst with
    | intr => exact ih
    | fail => exact ih
    | push _ hw _ => exact Machine.push_distinct ih hw

theorem Program.Step.finished (h : P.Step ok m m') (hd : Distinct m.pipes)
    (hf : (m.pipes i).Finished) :
    m'.pipes i = m.pipes i ∧ m'.callsOf i = m.callsOf i := by
  cases h with
  | intr => exact ⟨rfl, rfl⟩
  | fail => exact ⟨rfl, rfl⟩
  | push _ hw _ =>
    rw [Machine.push_pipe hw, Machine.push_callsOf hd hw, P.proper.finished _ hf]
    exact ⟨rfl, List.append_nil _⟩

theorem Program.turns_le (hL : P.limit = some L) (hpos : 0 < L)
    (h : (P.main ok).Reachable m) :
    m.reports.length ≤ L ∧ (m.exit = none → m.reports.length < L) := by
  induction h with
  | init h0 =>
    rw [h0.reports]
    exact ⟨Nat.zero_le L, fun _ => hpos⟩
  | step _ hst ih =>
    cases hst with
    | intr => exact ih
    | fail he => exact ⟨(ih.2 he).le, nofun⟩
    | push he =>
      have hlt := ih.2 he
      simp only [Machine.push, hL, List.length_append, List.length_singleton,
        ite_eq_right_iff, reduceCtorEq, imp_false, not_or, Option.some.injEq]
      omega

theorem Program.exit_zero (h : (P.main ok).Reachable m) (he : m.exit = some 0) :
    (∀ i, (m.pipes i).Finished) ∨ P.limit = some m.reports.length := by
  induction h with
  | init h0 =>
    rw [h0.exit] at he
    cases he
  | step _ hst ih =>
    cases hst with
    | intr => exact ih he
    | fail => cases he
    | push =>
      simp only [Machine.push, ite_eq_left_iff, reduceCtorEq, imp_false, not_not] at he
      simpa [Machine.push] using he

theorem Program.unfinished (h : (P.main ok).Reachable m) (he : m.exit = none) :
    ∃ i, ¬(m.pipes i).Finished := by
  induction h with
  | init h0 =>
    obtain ⟨argc, hu, hn⟩ := h0.argc
    have hpos : 0 < n := by
      rw [usageOk] at hu
      omega
    obtain ⟨p, src, dst, hp⟩ := h0.pipes ⟨0, hpos⟩
    refine ⟨⟨0, hpos⟩, ?_⟩
    rw [hp]
    simp [Pipe.Finished, pipeInit]
  | step _ hst ih =>
    cases hst with
    | intr => exact ih he
    | fail => cases he
    | push =>
      simp only [Machine.push, ite_eq_right_iff, reduceCtorEq, imp_false, not_or,
        not_forall] at he
      exact he.1

end

/-- The kernel's answer to a call depends on the earlier calls on the same pipe only. -/
def Separate (ok : List IoCall → IoCall → Prop) : Prop :=
  ∀ (p : Pipe) calls c, p.owns c = true → ok calls c → ok (calls.filter p.owns) c

theorem Separate.own {P : Program R n} {m : Machine R n} (hok : Separate ok) (hd : Distinct m.pipes)
    (hw : P.waits m.pipes r) (hcalls : ∀ c ∈ (round (P.visits r io) m.pipes).2, ok m.calls c)
    (i : Fin n) : ∀ c ∈ (serviceOf (P.visits r io) i (m.pipes i)).2, ok (m.callsOf i) c := by
  intro c hc
  have hmem := Option.mem_toList.mpr hc
  rw [← Machine.round_own hd hw i] at hmem
  exact hok _ _ c (P.proper.owns _ c hc) (hcalls c (List.mem_of_mem_filter hmem))

/-- What one pipe keeps through its own services holds of it in every run of the whole copier. -/
theorem Program.pipe_invariant {P : Program R n} {I : Pipe → List IoCall → List R → Prop}
    (h : (P.main ok).Reachable m) (hok : Separate ok) (i : Fin n)
    (hi : ∀ p src dst, I (pipeInit p src dst) [] [])
    (hs : ∀ p calls rs r io, I p calls rs →
      (∀ c ∈ (serviceOf (P.visits r io) i p).2, ok calls c) →
      I (serviceOf (P.visits r io) i p).1
        (calls ++ (serviceOf (P.visits r io) i p).2.toList) (rs ++ [r])) :
    I (m.pipes i) (m.callsOf i) m.reports := by
  induction h with
  | init h0 =>
    obtain ⟨p, src, dst, hp⟩ := h0.pipes i
    rw [h0.callsOf, h0.reports, hp]
    exact hi p src dst
  | step hr hst ih =>
    cases hst with
    | intr => exact ih
    | fail => exact ih
    | push _ hw hcalls =>
      have hd := P.distinct hr
      rw [Machine.push_pipe hw, Machine.push_callsOf hd hw]
      exact hs _ _ _ _ _ ih (hok.own hd hw hcalls i)

theorem IoCall.got_of_ne {c : IoCall} {fd : Nat} (h : c.fd ≠ fd) : c.got fd = [] := by
  unfold got
  split
  · exact if_neg h
  · rfl

theorem IoCall.put_of_ne {c : IoCall} {fd : Nat} (h : c.fd ≠ fd) : c.put fd = [] := by
  unfold put
  split
  · exact if_neg h
  · rfl

theorem Pipe.fd_ne_of_not_owns {p : Pipe} (h : fd = p.src ∨ fd = p.dst)
    (hc : p.owns c = false) : c.fd ≠ fd := by
  rintro rfl
  simp [Pipe.owns, h] at hc

theorem consumed_filter {p : Pipe} (h : fd = p.src ∨ fd = p.dst) (calls : List IoCall) :
    consumed fd (calls.filter p.owns) = consumed fd calls :=
  flatMap_filter (fun _ hc => IoCall.got_of_ne (p.fd_ne_of_not_owns h hc)) calls

theorem written_filter {p : Pipe} (h : fd = p.src ∨ fd = p.dst) (calls : List IoCall) :
    written fd (calls.filter p.owns) = written fd calls :=
  flatMap_filter (fun _ hc => IoCall.put_of_ne (p.fd_ne_of_not_owns h hc)) calls

theorem Machine.written_callsOf (m : Machine R n) (i : Fin n) :
    written (m.pipes i).dst (m.callsOf i) = written (m.pipes i).dst m.calls :=
  written_filter (.inr rfl) m.calls

theorem Admissible.separate (content : Nat → List UInt8) : Separate (Admissible content) := by
  intro p calls c hc h
  cases c with
  | read fd ret =>
    cases ret with
    | none => trivial
    | some bs =>
      have hfd : fd = p.src ∨ fd = p.dst := of_decide_eq_true hc
      simpa only [Admissible, consumed_filter hfd] using h
  | write fd len ret => cases ret <;> exact h

/-- The copier as `main` leaves it to the loop when `open` hands out descriptors from 3 on. -/
def opened (R : Type) (n : Nat) : Machine R n where
  pipes i :=
    pipeInit
      { src := 0, dst := 0, state := .read, buf := ⟨List.replicate bufSize 0, by simp⟩
        off := 0, len := 0, err := 0 } (3 + 2 * i) (4 + 2 * i)
  calls := []
  reports := []
  exit := none

theorem opened_started (hn : 0 < n) : Started (opened R n) where
  argc := ⟨2 * n + 1, by rw [usageOk]; omega, by omega⟩
  pipes i := ⟨_, _, _, rfl⟩
  distinct := by
    constructor <;> simp only [opened, pipeInit] <;> omega
  calls := rfl
  reports := rfl
  exit := rfl

end Apue.Adio
