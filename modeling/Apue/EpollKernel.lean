import Apue.Epoll

namespace Apue.Adio.Epoll
set_option autoImplicit true

open Poll (Events)

/-- One `epoll_ctl(ep, EPOLL_CTL_ADD, fd, &e)`: the pipe that `e.data.ptr` points to, the
descriptor and the flags of `e.events`. -/
structure Entry (n : Nat) where
  pipe : Fin n
  fd : Nat
  interest : Events
  deriving Repr, DecidableEq

def entry (p : Pipe) (i : Fin n) : Option (Entry n) :=
  match p.state with
  | .read => some ⟨i, p.src, { Events.quiet with pollIn := true, pollErr := true }⟩
  | .write => some ⟨i, p.dst, { Events.quiet with pollOut := true, pollErr := true }⟩
  | _ => none

def register (pipes : Fin n → Pipe) : List (Entry n) :=
  (List.finRange n).filterMap fun i => entry (pipes i) i

/-- The flags that `epoll_wait` may report: those asked for, `EPOLLERR` and `EPOLLHUP`. -/
def Events.Within (e interest : Events) : Prop :=
  (e.pollIn = true → interest.pollIn = true) ∧ (e.pollOut = true → interest.pollOut = true)
  deriving Decidable

/-- What `epoll_wait` may report on the descriptors that have been added. -/
structure Answers (pipes : Fin n → Pipe) (evs : List (Fin n × Events)) : Prop where
  nodup : (evs.map Prod.fst).Nodup
  ready : evs ≠ []
  room : evs.length ≤ maxEvents
  reported : ∀ v ∈ evs, v.2 ≠ .quiet ∧
    ∃ x ∈ register pipes, x.pipe = v.1 ∧ Events.Within v.2 x.interest

/-- `epoll.c` on a kernel that reports what has been asked for. -/
def asked (n : Nat) : Program (List (Fin n × Events)) n where
  limit := (program n).limit
  waits := Answers
  visits := (program n).visits
  nodup h := by
    rw [program, List.map_map]
    exact h.nodup
  proper := (program n).proper

theorem entry_eq_some {p : Pipe} {i : Fin n} (h : entry p i = some x) :
    x.pipe = i ∧ (p.state = .read ∧ x.fd = p.src ∧ x.interest.pollOut = false ∨
      p.state = .write ∧ x.fd = p.dst ∧ x.interest.pollIn = false) := by
  unfold entry at h
  split at h
  · cases h
    exact ⟨rfl, .inl ⟨‹_›, rfl, rfl⟩⟩
  · cases h
    exact ⟨rfl, .inr ⟨‹_›, rfl, rfl⟩⟩
  · cases h

theorem mem_register {pipes : Fin n → Pipe} (h : x ∈ register pipes) :
    entry (pipes x.pipe) x.pipe = some x := by
  obtain ⟨i, -, hi⟩ := List.mem_filterMap.mp h
  rwa [(entry_eq_some hi).1]

/-- No descriptor is added twice, so that no `epoll_ctl` fails with `EEXIST`. -/
theorem register_nodup {pipes : Fin n → Pipe} (h : Distinct pipes) :
    ((register pipes).map Entry.fd).Nodup := by
  have hpipe : (register pipes).Pairwise fun x y => x.pipe ≠ y.pipe := by
    refine List.pairwise_filterMap.mpr ((List.nodup_finRange n).imp ?_)
    intro i j hij x hx y hy
    rwa [(entry_eq_some hx).1, (entry_eq_some hy).1]
  refine List.pairwise_map.mpr (hpipe.imp_of_mem ?_)
  intro x y hx hy hne hfd
  have hs := h.src x.pipe y.pipe
  have hd := h.dst x.pipe y.pipe
  obtain ⟨-, ⟨-, hxf, -⟩ | ⟨-, hxf, -⟩⟩ := entry_eq_some (mem_register hx)
  · obtain ⟨-, ⟨-, hyf, -⟩ | ⟨-, hyf, -⟩⟩ := entry_eq_some (mem_register hy)
    · exact hne (hs (by rw [← hxf, ← hyf, hfd]))
    · exact h.src_ne_dst x.pipe y.pipe (by rw [← hxf, ← hyf, hfd])
  · obtain ⟨-, ⟨-, hyf, -⟩ | ⟨-, hyf, -⟩⟩ := entry_eq_some (mem_register hy)
    · exact h.src_ne_dst y.pipe x.pipe (by rw [← hxf, ← hyf, hfd])
    · exact hne (hd (by rw [← hxf, ← hyf, hfd]))

/-- A pipe that waits to write has not asked for `EPOLLIN`, the flag that the `switch` tests. -/
theorem Answers.no_in {pipes : Fin n → Pipe} (h : Answers pipes evs)
    (hs : (pipes i).state = .write) : (eventFor evs i).pollIn = false := by
  unfold eventFor
  split
  · rename_i v hv
    have hi : v.1 = i := by simpa using List.find?_some hv
    obtain ⟨-, x, hx, hp, hin, -⟩ := h.reported v (List.mem_of_find?_eq_some hv)
    have hx := mem_register hx
    rw [hp, hi] at hx
    obtain ⟨-, ⟨hr, -⟩ | ⟨-, -, hno⟩⟩ := entry_eq_some hx
    · cases hs.symm.trans hr
    · exact Bool.eq_false_iff.mpr fun ht => by
        rw [hno] at hin
        cases hin ht
  · rfl

/-- A pipe that has written nothing: what it has read is one buffer at most, and nothing before its
first `read`. -/
structure Unwritten (content : Nat → List UInt8) (p : Pipe) (calls : List IoCall) : Prop where
  silent : written p.dst calls = []
  consumed_le : (consumed p.src calls).length ≤ bufSize
  read : p.state = .read → consumed p.src calls = []
  eof : p.state = .eof → content p.src = []

theorem Unwritten.init (content : Nat → List UInt8) (p : Pipe) (src dst : Nat) :
    Unwritten content (pipeInit p src dst) [] :=
  ⟨rfl, Nat.zero_le _, fun _ => rfl, fun h => by cases h⟩

theorem Unwritten.except (h : Unwritten content p calls) :
    Unwritten content { p with state := .err } calls :=
  ⟨h.silent, h.consumed_le, fun hs => (by cases hs), fun hs => (by cases hs)⟩

theorem Unwritten.afterRead (h : Unwritten content p calls) (hs : p.state = .read)
    (hret : io.rd = some c)
    (hc : Admissible content calls (.read p.src io.readRet)) :
    Unwritten content (p.afterRead io) (calls ++ [.read p.src io.readRet]) := by
  have hbytes : io.readRet = some c.bytes := by rw [Io.readRet, hret, Option.map_some]
  rw [hbytes] at hc ⊢
  have hput : written p.dst (calls ++ [.read p.src (some c.bytes)]) = [] := by
    rw [written_concat, h.silent]
    rfl
  have hgot : consumed p.src (calls ++ [.read p.src (some c.bytes)]) = c.bytes := by
    rw [consumed_concat, h.read hs, IoCall.got, if_pos rfl, List.nil_append]
  have hle := c.le
  by_cases hb : c.bytes = []
  · rw [Pipe.afterRead_eof hret hb]
    refine ⟨hput, by rw [hgot]; exact hle, fun hr => (by cases hr), fun _ => ?_⟩
    rw [← h.read hs]
    exact (hc.2 hb).symm
  · rw [Pipe.afterRead_data hret hb]
    exact ⟨hput, by rw [hgot]; exact hle, fun hr => (by cases hr), fun hr => (by cases hr)⟩

theorem Unwritten.failed (h : Unwritten content p calls) :
    Unwritten content p (calls ++ [.read p.src none]) := by
  have hgot : consumed p.src (calls ++ [.read p.src none]) = consumed p.src calls := by
    rw [consumed_concat]
    exact List.append_nil _
  refine ⟨?_, by rw [hgot]; exact h.consumed_le, fun hs => by rw [hgot]; exact h.read hs, h.eof⟩
  rw [written_concat, h.silent]
  rfl

theorem Unwritten.serve (h : Unwritten content p calls)
    (hin : p.state = .write → e.pollIn = false)
    (hc : ∀ c ∈ (serve e io p).2, Admissible content calls c) :
    Unwritten content (serve e io p).1 (calls ++ (serve e io p).2.toList) := by
  unfold Epoll.serve at hc ⊢
  split
  · rename_i hs
    simp only [hs] at hc
    split
    · rw [Option.toList_none, List.append_nil]
      exact h.except
    · rename_i hok
      rw [if_neg hok] at hc
      split
      · rw [Option.toList_none, List.append_nil]
        exact h
      · rename_i hready
        rw [if_neg hready] at hc
        cases hrd : io.rd with
        | none =>
          have hneg := (ssize_readRet_neg io).mpr hrd
          have hret : io.readRet = none := by rw [Io.readRet, hrd, Option.map_none]
          rw [if_pos hneg, hret, Option.toList_some]
          exact h.failed
        | some c =>
          have hneg : ¬ssize io.readRet < 0 := by simp [ssize_readRet_neg, hrd]
          simp only [if_neg hneg, Option.toList_some] at hc ⊢
          exact h.afterRead hs hrd (hc _ rfl)
  · rename_i hs
    split
    · rw [Option.toList_none, List.append_nil]
      exact h.except
    · rw [hin hs, if_pos (by rfl), Option.toList_none, List.append_nil]
      exact h
  · rw [Option.toList_none, List.append_nil]
    exact h

theorem unwritten {m : Machine (List (Fin n × Events)) n}
    (h : ((asked n).main (Admissible content)).Reachable m) (i : Fin n) :
    Unwritten content (m.pipes i) (m.callsOf i) := by
  induction h with
  | init h0 =>
    obtain ⟨p, src, dst, hp⟩ := h0.pipes i
    rw [h0.callsOf, hp]
    exact .init content p src dst
  | step hr hst ih =>
    cases hst with
    | intr => exact ih
    | fail => exact ih
    | push _ hw hcalls =>
      have hd := (asked n).distinct hr
      have hown := (Admissible.separate content).own hd hw hcalls i
      rw [Machine.push_pipe hw, Machine.push_callsOf hd hw]
      simp only [asked, program, visits_service] at hown ⊢
      exact ih.serve hw.no_in hown

/-- On a kernel that reports only what it has been asked for, `epoll.c` copies nothing, whatever the
calls return. -/
theorem epoll_copies_nothing {m : Machine (List (Fin n × Events)) n}
    (h : ((asked n).main (Admissible content)).Reachable m) :
    ((register m.pipes).map Entry.fd).Nodup ∧
      (∀ i, written (m.pipes i).dst m.calls = [] ∧
        (consumed (m.pipes i).src m.calls).length ≤ bufSize ∧
        ((m.pipes i).state = .eof → content (m.pipes i).src = [])) ∧
      ((∀ i, content (m.pipes i).src ≠ []) → m.exit = some 0 →
        m.reports.length = 20 ∨ ∀ i, (m.pipes i).state = .err) := by
  refine ⟨register_nodup ((asked n).distinct h), fun i => ?_, fun hne he => ?_⟩
  · have hi := unwritten h i
    refine ⟨?_, ?_, hi.eof⟩
    · rw [← m.written_callsOf]
      exact hi.silent
    · rw [← consumed_filter (.inl rfl) m.calls]
      exact hi.consumed_le
  · rcases Program.exit_zero h he with hall | hlimit
    · exact .inr fun i => (hall i).resolve_left fun heof => hne i ((unwritten h i).eof heof)
    · exact .inl (Option.some.inj hlimit).symm

theorem epoll_copies_nothing_byte : ∃ m : Machine (List (Fin 1 × Events)) 1,
    ((asked 1).main (Admissible fun _ => [7])).Reachable m ∧ (m.pipes 0).state = .write ∧
      m.calls = [.read 3 (some [7])] ∧ written 4 m.calls = [] := by
  have h0 : ((asked 1).main (Admissible fun _ => [7])).Reachable (opened _ 1) :=
    .init (opened_started (by decide))
  have hw : Answers (opened (List (Fin 1 × Events)) 1).pipes [(0, Poll.ready.src)] :=
    ⟨by decide, by decide, by decide, by decide⟩
  let io : Fin 1 → Io := fun _ => { rd := some ⟨[7], by decide⟩, wr := none, past := fun _ => 0 }
  have h : ((asked 1).main (Admissible fun _ => [7])).Reachable
      ((opened _ 1).push (asked 1) [(0, Poll.ready.src)] io) :=
    h0.step (.push rfl hw (by decide))
  exact ⟨_, h, rfl, rfl, ((epoll_copies_nothing h).2.1 0).1⟩

end Apue.Adio.Epoll
