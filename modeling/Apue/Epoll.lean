import Apue.Poll

namespace Apue.Adio.Epoll
set_option autoImplicit true

open Poll (Events Revents)

/-- The `switch` of `pipe_push`, in which a `write` waits for `EPOLLIN` too and a call that fails
changes nothing. -/
def serve (e : Events) (io : Io) : Service Pipe IoCall := fun p =>
  match p.state with
  | .read =>
    if e.pollErr || e.pollHup then ({ p with state := .err }, none)
    else if !e.pollIn then (p, none)
    else
      let call := IoCall.read p.src io.readRet
      if ssize io.readRet < 0 then (p, some call) else (p.afterRead io, some call)
  | .write =>
    if e.pollErr || e.pollHup then ({ p with state := .err }, none)
    else if !e.pollIn then (p, none)
    else
      let call := IoCall.write p.dst p.len (io.writeRet p.buf)
      if ssize (io.writeRet p.buf) < 0 then (p, some call) else (p.afterWrite io, some call)
  | _ => (p, none)

def maxEvents : Nat := 1024

/-- The event that `epoll_wait` reports for a pipe, if there is one. -/
def eventFor (evs : List (Fin n × Events)) (i : Fin n) : Events :=
  match evs.find? fun v => v.1 = i with
  | some v => v.2
  | none => .quiet

/-- Beside what the other two do, a call may fail and change nothing. -/
theorem serve_cases (e : Events) (io : Io) (p : Pipe) : Serves io p (serve e io p) ∨
    ∃ c, serve e io p = (p, some c) ∧ (c.fd = p.src ∨ c.fd = p.dst) := by
  unfold serve
  split
  · split
    · exact .inl .except
    · split
      · exact .inl .idle
      · dsimp only
        split
        · exact .inr ⟨_, rfl, .inl rfl⟩
        · exact .inl (.read ‹_›)
  · split
    · exact .inl .except
    · split
      · exact .inl .idle
      · dsimp only
        split
        · exact .inr ⟨_, rfl, .inr rfl⟩
        · exact .inl (.write ‹_›)
  · exact .inl .idle

theorem serve_proper (e : Events) (io : Io) : Proper (serve e io) where
  src p := by
    rcases serve_cases e io p with h | ⟨c, he, -⟩
    · exact h.src
    · rw [he]
  dst p := by
    rcases serve_cases e io p with h | ⟨c, he, -⟩
    · exact h.dst
    · rw [he]
  fd p := by
    rcases serve_cases e io p with h | ⟨c, he, hfd⟩
    · exact h.fd
    · rw [he]
      intro c' hc
      cases hc
      exact hfd
  finished p h := by
    rcases h with h | h <;> simp only [serve, h]

theorem serve_quiet (io : Io) (p : Pipe) : serve .quiet io p = (p, none) := by
  cases hp : p.state <;> simp [serve, hp, Events.quiet]

theorem visits_service (evs : List (Fin n × Events)) (io : Fin n → Io) (i : Fin n) :
    serviceOf (evs.map fun v => (v.1, serve v.2 (io v.1))) i = serve (eventFor evs i) (io i) := by
  induction evs with
  | nil =>
    funext p
    exact (serve_quiet (io i) p).symm
  | cons v evs ih =>
    by_cases h : i = v.1
    · subst h
      simp [serviceOf, eventFor]
    · rw [List.map_cons, serviceOf_cons_ne h, ih]
      simp [eventFor, Ne.symm h]

/-- `epoll.c`: the pipes with an event are served in the order of the events. -/
def program (n : Nat) : Program (List (Fin n × Events)) n where
  limit := some 20
  waits pipes evs := (evs.map Prod.fst).Nodup ∧ evs ≠ [] ∧ evs.length ≤ maxEvents ∧
    ∀ v ∈ evs, ¬(pipes v.1).Finished ∧ v.2 ≠ .quiet
  visits evs io := evs.map fun v => (v.1, serve v.2 (io v.1))
  nodup h := by
    rw [List.map_map]
    exact h.1
  proper := by
    intro evs io i
    rw [visits_service]
    exact serve_proper _ (io i)

def awaited (p : Pipe) (r : Revents) : Events := if p.state = .write then r.dst else r.src

/-- An error flag, or no hang-up, a call that does not fail and, to write, `IN` just when there is
`OUT`. -/
def Agrees (p : Pipe) (e : Events) (io : Io) : Prop :=
  match p.state with
  | .read => e.pollErr = true ∨ e.pollHup = false ∧ (e.pollIn = true → io.rd ≠ none)
  | .write =>
    e.pollErr = true ∨
      e.pollHup = false ∧ e.pollIn = e.pollOut ∧ (e.pollIn = true → io.wr ≠ none)
  | _ => True

theorem ssize_readRet_neg (io : Io) : ssize io.readRet < 0 ↔ io.rd = none := by
  cases h : io.rd <;> simp [Io.readRet, h, ssize]

theorem ssize_writeRet_neg (io : Io) (b : Buf) : ssize (io.writeRet b) < 0 ↔ io.wr = none := by
  cases h : io.wr with
  | none => simp [Io.writeRet, h, ssize]
  | some k => simp [io.ssize_writeRet b h]

theorem afterRead_ne {io : Io} {p : Pipe} (h : io.rd = none) (hp : p.state = .read) :
    p.afterRead io ≠ p := by
  intro he
  have hs := congrArg Pipe.state he
  rw [Pipe.afterRead_fail h, hp] at hs
  cases hs

theorem afterWrite_ne {io : Io} {p : Pipe} (h : io.wr = none) : p.afterWrite io ≠ p := by
  intro he
  have hs := congrArg Pipe.off he
  have hret : io.writeRet p.buf = none := by rw [Io.writeRet, h, Option.map_none]
  simp only [Pipe.afterWrite, hret, ssize] at hs
  split at hs
  · exact absurd hs (by simp only; omega)
  · exact absurd hs (by simp only; omega)

theorem except_ne {p : Pipe} (h : ¬p.Finished) : { p with state := .err } ≠ p := by
  intro he
  exact h (.inr (congrArg Pipe.state he).symm)

theorem serve_eq_iff (p : Pipe) (r : Revents) (io : Io) :
    Poll.serve r io p = serve (awaited p r) io p ↔ Agrees p (awaited p r) io := by
  cases hp : p.state with
  | read =>
    have hx : { p with state := .err } ≠ p := except_ne (by simp [Pipe.Finished, hp])
    have hne : io.rd = none → p.afterRead io ≠ p := fun h => afterRead_ne h hp
    have hneg := ssize_readRet_neg io
    simp only [Poll.serve, Tests.serve, serve, Agrees, awaited, hp]
    grind
  | write =>
    have hx : { p with state := .err } ≠ p := except_ne (by simp [Pipe.Finished, hp])
    have hne : io.wr = none → p.afterWrite io ≠ p := afterWrite_ne
    have hneg := ssize_writeRet_neg io p.buf
    simp only [Poll.serve, Tests.serve, serve, Agrees, awaited, hp]
    grind
  | err => simp only [Poll.serve, Tests.serve, serve, Agrees, hp]
  | eof => simp only [Poll.serve, Tests.serve, serve, Agrees, hp]

/-- `poll.c` and `epoll.c` on the same pipes, with the same reports and results, on all of which the
two agree. -/
inductive Lockstep : Machine (Fin n → Revents) n → Machine (List (Fin n × Events)) n → Prop where
  | start : Started m → Started m' → m.pipes = m'.pipes → Lockstep m m'
  | turn {m : Machine (Fin n → Revents) n} {m' : Machine (List (Fin n × Events)) n} :
      Lockstep m m' → m.exit = none → (Poll.program n).waits m.pipes r →
      (program n).waits m'.pipes evs →
      (∀ i, ¬(m.pipes i).Finished → awaited (m.pipes i) (r i) = eventFor evs i) →
      (∀ i, Agrees (m.pipes i) (awaited (m.pipes i) (r i)) (io i)) →
      Lockstep (m.push (Poll.program n) r io) (m'.push (program n) evs io)

structure Same (m : Machine (Fin n → Revents) n) (m' : Machine (List (Fin n × Events)) n) :
    Prop where
  pipes : m.pipes = m'.pipes
  distinct : Distinct m.pipes
  calls : ∀ i, m.callsOf i = m'.callsOf i
  turns : m.reports.length = m'.reports.length
  exit : m.exit = m'.exit

theorem service_eq {p : Pipe} (he : ¬p.Finished → awaited p r = e)
    (ha : Agrees p (awaited p r) io) : Poll.serve r io p = serve e io p := by
  by_cases hf : p.Finished
  · rw [(Poll.serve_proper r io).finished p hf, (serve_proper e io).finished p hf]
  · rw [← he hf]
    exact (serve_eq_iff p r io).mpr ha

theorem Same.turn {m : Machine (Fin n → Revents) n} {m' : Machine (List (Fin n × Events)) n}
    (h : Same m m') (hw : (Poll.program n).waits m.pipes r)
    (hw' : (program n).waits m'.pipes evs)
    (he : ∀ i, ¬(m.pipes i).Finished → awaited (m.pipes i) (r i) = eventFor evs i)
    (ha : ∀ i, Agrees (m.pipes i) (awaited (m.pipes i) (r i)) (io i)) :
    Same (m.push (Poll.program n) r io) (m'.push (program n) evs io) := by
  have hserve : ∀ i, serviceOf ((Poll.program n).visits r io) i (m.pipes i) =
      serviceOf ((program n).visits evs io) i (m'.pipes i) := by
    intro i
    rw [Poll.visits_service, ← h.pipes]
    exact (service_eq (he i) (ha i)).trans (congrFun (visits_service evs io i).symm _)
  have hpipes : (m.push (Poll.program n) r io).pipes = (m'.push (program n) evs io).pipes := by
    funext i
    rw [Machine.push_pipe hw, Machine.push_pipe hw', hserve]
  refine ⟨hpipes, Machine.push_distinct h.distinct hw, ?_, ?_, ?_⟩
  · intro i
    rw [Machine.push_callsOf h.distinct hw, Machine.push_callsOf (h.pipes ▸ h.distinct) hw',
      h.calls, hserve]
  · simp only [Machine.push, List.length_append, h.turns, List.length_singleton]
  · rw [Machine.push_exit, Machine.push_exit, hpipes, h.turns]
    rfl

theorem Lockstep.same {m : Machine (Fin n → Revents) n}
    {m' : Machine (List (Fin n × Events)) n} (h : Lockstep m m') : Same m m' := by
  induction h with
  | start hs hs' hp =>
    exact ⟨hp, hs.distinct, fun i => by rw [hs.callsOf, hs'.callsOf],
      by rw [hs.reports, hs'.reports]; rfl, by rw [hs.exit, hs'.exit]⟩
  | turn _ _ hw hw' he ha ih => exact ih.turn hw hw' he ha

/-- The two `switch`es do the same just on the reports and results of `Agrees`. -/
theorem poll_epoll_agree (p : Pipe) (r : Revents) (io : Io) :
    (Poll.serve r io p = serve (awaited p r) io p ↔ Agrees p (awaited p r) io) ∧
    ∀ n (m : Machine (Fin n → Revents) n) (m' : Machine (List (Fin n × Events)) n),
      Lockstep m m' → m.pipes = m'.pipes ∧ m.exit = m'.exit ∧
        ∀ i, m.callsOf i = m'.callsOf i ∧
          written (m.pipes i).dst m.calls = written (m.pipes i).dst m'.calls := by
  refine ⟨serve_eq_iff p r io, fun n m m' h => ?_⟩
  have hs := h.same
  refine ⟨hs.pipes, hs.exit, fun i => ⟨hs.calls i, ?_⟩⟩
  rw [← m.written_callsOf, hs.calls, hs.pipes, m'.written_callsOf]

theorem poll_epoll_agree_read :
    let io : Io := { rd := some ⟨[7], by decide⟩, wr := none, past := fun _ => 0 }
    let p := (opened Unit 1).pipes 0
    Poll.serve Poll.ready io p = serve (awaited p Poll.ready) io p ∧
      ((opened _ 1).push (Poll.program 1) (fun _ => Poll.ready) fun _ => io).pipes =
        ((opened _ 1).push (program 1) [(0, Poll.ready.src)] fun _ => io).pipes := by
  intro io p
  have h := poll_epoll_agree p Poll.ready io
  have h0 : Lockstep (opened (Fin 1 → Revents) 1) (opened (List (Fin 1 × Events)) 1) :=
    .start (opened_started (by decide)) (opened_started (by decide)) rfl
  refine ⟨h.1.mpr (.inr ⟨rfl, nofun⟩),
    (h.2 1 _ _ (h0.turn rfl ⟨0, .inl (by decide)⟩ ?_ ?_ ?_)).1⟩
  · exact ⟨by decide, by decide, by decide, by decide⟩
  · intro i _
    cases Subsingleton.elim i 0
    rfl
  · intro i
    exact .inr ⟨rfl, nofun⟩

/-- `epoll.c` does not write when its destination is ready for that. -/
theorem epoll_misses_out :
    ∃ (p : Pipe) (r : Revents) (io : Io),
      p.state = .write ∧ (Poll.serve r io p).2 ≠ (serve (awaited p r) io p).2 := by
  refine ⟨{ (opened Unit 1).pipes 0 with state := .write, len := 1 }, Poll.ready,
    { rd := none, wr := some 1, past := fun _ => 0 }, rfl, ?_⟩
  decide

end Apue.Adio.Epoll
