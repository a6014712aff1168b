import Apue.Select

namespace Apue.Adio.Select
set_option autoImplicit true

/-- A pipe with the bytes that its last `read` put into the buffer. -/
structure Tracked where
  pipe : Pipe
  last : List UInt8

/-- What `select` reports to one `pipe_push`, and what the calls of the pipe return. -/
structure Turn where
  report : FdSets
  io : Io

def lastRead (last : List UInt8) : Option IoCall → List UInt8
  | some (.read _ (some bs)) => bs
  | _ => last

def Tracked.start (p : Pipe) (src dst : Nat) : Tracked := ⟨pipeInit p src dst, []⟩

def Tracked.call (t : Tracked) (x : Turn) : Option IoCall := (serve x.report x.io t.pipe).2

def Tracked.turn (t : Tracked) (x : Turn) : Tracked :=
  ⟨(serve x.report x.io t.pipe).1, lastRead t.last (t.call x)⟩

structure InBuffer (p : Pipe) : Prop where
  off : 0 ≤ p.off
  le : p.off ≤ p.len
  len : p.len ≤ bufSize

/-- A `write` asks for between one and `len` bytes, all of them from the last `read`. -/
def Tracked.Asks (t : Tracked) : IoCall → Prop
  | .read .. => True
  | .write _ len _ =>
    1 ≤ sizeT len ∧ (sizeT len : Int) ≤ t.pipe.len ∧
      t.pipe.buf.bytes.take (sizeT len) <+: t.last

/-- Every state of a run has its range in the buffer, and every `write` asks for what was read. -/
def Disciplined : Tracked → List Turn → Prop
  | t, [] => InBuffer t.pipe
  | t, x :: xs => InBuffer t.pipe ∧ (∀ c ∈ t.call x, t.Asks c) ∧ Disciplined (t.turn x) xs

def Tracked.calls : Tracked → List Turn → List IoCall
  | _, [] => []
  | t, x :: xs => (t.call x).toList ++ (t.turn x).calls xs

/-- What the last `read` has returned, and the sum of what the `write`s have returned since. -/
structure Tally where
  got : Int
  sent : Int

def Tally.after (y : Tally) : IoCall → Tally
  | .read _ ret => ⟨ssize ret, 0⟩
  | .write _ _ ret => ⟨y.got, y.sent + ssize ret⟩

/-- A `read` does not fail, and with this `write` the sum stays between 0 and what was read. -/
def Tally.Moves (y : Tally) : IoCall → Prop
  | .read _ ret => ret ≠ none
  | .write _ _ ret => 0 ≤ y.sent + ssize ret ∧ y.sent + ssize ret ≤ y.got

def Paced : Tally → List IoCall → Prop
  | _, [] => True
  | y, c :: cs => y.Moves c ∧ Paced (y.after c) cs

/-- A pipe that is to write holds the bytes of the last `read`. -/
structure Loaded (t : Tracked) : Prop where
  range : InBuffer t.pipe
  pos : t.pipe.state = .write → 1 ≤ t.pipe.len
  len : t.pipe.state = .write → t.pipe.len = t.last.length
  last : t.pipe.state = .write → t.last <+: t.pipe.buf.bytes

theorem Loaded.of_not_writing {t : Tracked} (h : InBuffer t.pipe) (hs : t.pipe.state ≠ .write) :
    Loaded t :=
  ⟨h, fun hp => absurd hp hs, fun hp => absurd hp hs, fun hp => absurd hp hs⟩

theorem Loaded.start (p : Pipe) (src dst : Nat) : Loaded (.start p src dst) := by
  refine .of_not_writing ⟨Int.le_refl 0, Int.le_refl 0, Int.natCast_nonneg bufSize⟩ ?_
  exact PipeState.noConfusion

theorem sizeT_natCast {n : Nat} (h : n ≤ bufSize) : sizeT n = n := by
  have hlt : n < UInt64.size := Nat.lt_of_le_of_lt h (by decide)
  rw [sizeT, ← Int.natCast_emod, Nat.mod_eq_of_lt hlt, Int.toNat_natCast]

theorem Loaded.asks (h : Loaded t) (hp : t.pipe.state = .write) (ret : Option (List UInt8)) :
    t.Asks (.write t.pipe.dst t.pipe.len ret) := by
  have hlen := h.len hp
  have hle : t.last.length ≤ bufSize := by
    have := h.range.len
    omega
  have hsize : sizeT t.pipe.len = t.last.length := by rw [hlen, sizeT_natCast hle]
  have hpos := h.pos hp
  refine ⟨by omega, by omega, ?_⟩
  rw [hsize]
  exact (List.prefix_iff_eq_take.1 (h.last hp)) ▸ List.prefix_refl _

theorem Loaded.read (h : Loaded t) (io : Io) :
    (InBuffer (t.pipe.afterRead io) ↔ io.readRet ≠ none) ∧
      (io.readRet ≠ none →
        Loaded ⟨t.pipe.afterRead io, lastRead t.last (some (.read t.pipe.src io.readRet))⟩) := by
  cases hrd : io.rd with
  | none =>
    have hret : io.readRet = none := by rw [Io.readRet, hrd, Option.map_none]
    rw [hret, Pipe.afterRead_fail hrd]
    refine ⟨iff_of_false ?_ (absurd rfl), fun hn => absurd rfl hn⟩
    intro hb
    have hle : (0 : Int) ≤ -1 := hb.le
    exact absurd hle (by decide)
  | some c =>
    have hret : io.readRet = some c.bytes := by rw [Io.readRet, hrd, Option.map_some]
    rw [hret]
    by_cases hc : c.bytes = []
    · rw [Pipe.afterRead_eof hrd hc]
      have hrange : InBuffer { t.pipe with buf := t.pipe.buf.store c, state := .eof } :=
        ⟨h.range.off, h.range.le, h.range.len⟩
      exact ⟨iff_of_true hrange (Option.some_ne_none _),
        fun _ => .of_not_writing hrange PipeState.noConfusion⟩
    · rw [Pipe.afterRead_data hrd hc]
      have hpos : 0 < c.bytes.length := List.length_pos_iff.2 hc
      have hrange : InBuffer { t.pipe with
          buf := t.pipe.buf.store c, state := .write, off := 0, len := c.bytes.length } :=
        ⟨Int.le_refl 0, Int.natCast_nonneg _, Int.ofNat_le.2 c.le⟩
      refine ⟨iff_of_true hrange (Option.some_ne_none _),
        fun _ => ⟨hrange, fun _ => ?_, fun _ => rfl, fun _ => ?_⟩⟩
      · exact Int.ofNat_le.2 hpos
      · exact List.prefix_append _ _

/-- A `write` keeps the range in the buffer just when the offset stays between 0 and `len`. -/
theorem Loaded.write (h : Loaded t) (io : Io) :
    (InBuffer (t.pipe.afterWrite io) ↔
      0 ≤ t.pipe.off + ssize (io.writeRet t.pipe.buf) ∧
        t.pipe.off + ssize (io.writeRet t.pipe.buf) ≤ t.pipe.len) ∧
      (InBuffer (t.pipe.afterWrite io) → t.pipe.state = .write →
        Loaded ⟨t.pipe.afterWrite io, t.last⟩) := by
  have hoff : (t.pipe.afterWrite io).off = t.pipe.off + ssize (io.writeRet t.pipe.buf) ∧
      (t.pipe.afterWrite io).len = t.pipe.len ∧ (t.pipe.afterWrite io).buf = t.pipe.buf := by
    rw [Pipe.afterWrite]
    split <;> exact ⟨rfl, rfl, rfl⟩
  obtain ⟨hoff, hlen, hbuf⟩ := hoff
  constructor
  · rw [← hoff, ← hlen]
    constructor
    · intro hb
      exact ⟨hb.off, hb.le⟩
    · rintro ⟨h0, hle⟩
      exact ⟨h0, hle, hlen ▸ h.range.len⟩
  · intro hrange hp
    exact ⟨hrange, fun _ => hlen ▸ h.pos hp, fun _ => hlen.trans (h.len hp),
      fun _ => hbuf ▸ h.last hp⟩

/-- The fields of a pipe that is to write are what its calls have returned. -/
def Counts (p : Pipe) (y : Tally) : Prop := p.state = .write → p.len = y.got ∧ p.off = y.sent

theorem counts_afterRead (p : Pipe) (io : Io) : Counts (p.afterRead io) ⟨ssize io.readRet, 0⟩ := by
  intro hw
  simp only [Pipe.afterRead] at hw ⊢
  split at hw
  · cases hw
  · rename_i hz
    rw [if_neg hz]
    exact ⟨rfl, rfl⟩

theorem Counts.afterWrite (h : Counts p y) (hp : p.state = .write) (io : Io) :
    Counts (p.afterWrite io) ⟨y.got, y.sent + ssize (io.writeRet p.buf)⟩ := by
  obtain ⟨hlen, hoff⟩ := h hp
  intro hw
  simp only [Pipe.afterWrite] at hw ⊢
  split at hw
  · cases hw
  · rename_i hne
    rw [if_neg hne]
    exact ⟨hlen, congrArg (· + _) hoff⟩

def Tally.turn (y : Tally) : Option IoCall → Tally
  | none => y
  | some c => y.after c

theorem Loaded.serves (h : Loaded t) (hy : Counts t.pipe y) (hs : Serves io t.pipe out) :
    (∀ c ∈ out.2, t.Asks c) ∧ (InBuffer out.1 ↔ ∀ c ∈ out.2, y.Moves c) ∧
      (InBuffer out.1 → Loaded ⟨out.1, lastRead t.last out.2⟩ ∧ Counts out.1 (y.turn out.2)) := by
  cases hs with
  | idle => exact ⟨nofun, iff_of_true h.range nofun, fun _ => ⟨h, hy⟩⟩
  | except =>
    have hrange : InBuffer { t.pipe with state := .err } :=
      ⟨h.range.off, h.range.le, h.range.len⟩
    exact ⟨nofun, iff_of_true hrange nofun,
      fun _ => ⟨.of_not_writing hrange PipeState.noConfusion, nofun⟩⟩
  | read hp =>
    obtain ⟨hiff, hkeep⟩ := h.read io
    simp only [Option.mem_def, Option.some.injEq, forall_eq']
    exact ⟨trivial, hiff, fun hr => ⟨hkeep (hiff.1 hr), counts_afterRead _ _⟩⟩
  | write hp =>
    obtain ⟨hiff, hkeep⟩ := h.write io
    obtain ⟨hlen, hoff⟩ := hy hp
    rw [hlen, hoff] at hiff
    simp only [Option.mem_def, Option.some.injEq, forall_eq']
    exact ⟨h.asks hp _, hiff, fun hr => ⟨hkeep hr hp, hy.afterWrite hp io⟩⟩

theorem paced_append (y : Tally) (c : Option IoCall) (cs : List IoCall) :
    Paced y (c.toList ++ cs) ↔ (∀ d ∈ c, y.Moves d) ∧ Paced (y.turn c) cs := by
  cases c with
  | none => exact (and_iff_right nofun).symm
  | some c =>
    simp only [Option.mem_def, Option.some.injEq, forall_eq']
    exact Iff.rfl

theorem Disciplined.inBuffer (h : Disciplined t xs) : InBuffer t.pipe := by
  cases xs with
  | nil => exact h
  | cons y ys => exact h.1

theorem Loaded.disciplined_iff (h : Loaded t) (hy : Counts t.pipe y) (xs : List Turn) :
    Disciplined t xs ↔ Paced y (t.calls xs) := by
  induction xs generalizing t y with
  | nil => exact iff_of_true h.range trivial
  | cons x xs ih =>
    have hs : Serves x.io t.pipe (serve x.report x.io t.pipe) := Tests.serves _ _ _
    obtain ⟨hasks, hiff, hkeep⟩ := h.serves hy hs
    rw [Tracked.calls, paced_append]
    constructor
    · rintro ⟨-, -, hrest⟩
      obtain ⟨hloaded, hcounts⟩ := hkeep hrest.inBuffer
      exact ⟨hiff.1 hrest.inBuffer, (ih hloaded hcounts).1 hrest⟩
    · rintro ⟨hmoves, hrest⟩
      obtain ⟨hloaded, hcounts⟩ := hkeep (hiff.2 hmoves)
      exact ⟨h.range, hasks, (ih hloaded hcounts).2 hrest⟩

/-- A pipe keeps its range in the buffer just when no `read` fails and the `write`s keep within what
was read. -/
theorem buffer_disciplined_iff (p : Pipe) (src dst : Nat) (xs : List Turn) :
    Disciplined (.start p src dst) xs ↔ Paced ⟨0, 0⟩ ((Tracked.start p src dst).calls xs) :=
  (Loaded.start p src dst).disciplined_iff nofun xs

def failedRead (src : Nat) : Turn := ⟨readable src, ⟨none, none, fun _ => 0⟩⟩

/-- After a failed `read` the pipe asks `write` for all bytes there are. -/
theorem failed_read_undisciplined :
    let t := Tracked.start ((opened FdSets 1).pipes 0) 3 4
    ¬Disciplined t [failedRead 3] ∧ (t.turn (failedRead 3)).pipe.len = -1 ∧
      (t.turn (failedRead 3)).call ⟨writable 4, takes 4096⟩ ≠ none ∧
      sizeT (-1) = 18446744073709551615 := by
  refine ⟨?_, rfl, nofun, rfl⟩
  rintro ⟨-, -, hb⟩
  have hle : (0 : Int) ≤ -1 := hb.le
  exact absurd hle (by decide)

def Tracked.run (t : Tracked) (xs : List Turn) : Tracked := xs.foldl Tracked.turn t

theorem Tracked.run_concat (t : Tracked) (xs : List Turn) (x : Turn) :
    t.run (xs ++ [x]) = (t.run xs).turn x :=
  List.foldl_concat _ _ _ _

theorem Tracked.calls_concat (t : Tracked) (xs : List Turn) (x : Turn) :
    t.calls (xs ++ [x]) = t.calls xs ++ ((t.run xs).call x).toList := by
  induction xs generalizing t with
  | nil => exact List.append_nil _
  | cons y ys ih =>
    rw [List.cons_append, calls, ih, calls, List.append_assoc]
    rfl

theorem exists_run {m : Machine FdSets n} (h : ((program n).main ok).Reachable m) (i : Fin n) :
    ∃ p src dst xs, m.pipes i = ((Tracked.start p src dst).run xs).pipe ∧
      m.callsOf i = (Tracked.start p src dst).calls xs := by
  induction h with
  | init h0 =>
    obtain ⟨p, src, dst, hp⟩ := h0.pipes i
    exact ⟨p, src, dst, [], hp, h0.callsOf i⟩
  | step hr hst ih =>
    cases hst with
    | intr => exact ih
    | fail => exact ih
    | @push r io _ _ hw _ =>
      obtain ⟨p, src, dst, xs, hp, hc⟩ := ih
      refine ⟨p, src, dst, xs ++ [⟨r, io i⟩], ?_, ?_⟩
      · rw [Machine.push_pipe hw, visits_service, hp, Tracked.run_concat]
        rfl
      · rw [Machine.push_callsOf ((program n).distinct hr) hw, visits_service, hp, hc,
          Tracked.calls_concat]
        rfl

end Apue.Adio.Select
