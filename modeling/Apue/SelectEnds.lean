import Apue.Select
import Mathlib.Algebra.Order.BigOperators.Group.Finset
import Mathlib.Data.Fintype.BigOperators

namespace Apue.Adio
set_option autoImplicit true

def IoCall.Reads : IoCall → Prop
  | .read _ ret => ret ≠ none
  | .write _ _ _ => True

/-- The results of a copy in which no call fails and no `write` is short. -/
def Smooth (content : Nat → List UInt8) (calls : List IoCall) (c : IoCall) : Prop :=
  Admissible content calls c ∧ c.Full ∧ c.Reads

theorem Smooth.separate (content : Nat → List UInt8) : Separate (Smooth content) :=
  (Admissible.separate content).and fun c => c.Full ∧ c.Reads

/-- The turns that a pipe still needs, at most: two for each byte that is left in its source. -/
def Pipe.turns (content : Nat → List UInt8) (calls : List IoCall) (p : Pipe) : Nat :=
  match p.state with
  | .read => 2 * ((content p.src).length - (consumed p.src calls).length) + 1
  | .write => 2 * ((content p.src).length - (consumed p.src calls).length) + 2
  | _ => 0

theorem Pipe.turns_afterRead {content : Nat → List UInt8} {p : Pipe} (hp : p.state = .read)
    (hc : Admissible content calls (.read p.src io.readRet))
    (hr : IoCall.Reads (.read p.src io.readRet)) :
    (p.afterRead io).turns content (calls ++ [.read p.src io.readRet]) < p.turns content calls := by
  cases hrd : io.rd with
  | none =>
    rw [Io.readRet, hrd] at hr
    exact absurd rfl hr
  | some c =>
    have hret : io.readRet = some c.bytes := by rw [Io.readRet, hrd, Option.map_some]
    rw [hret] at hc ⊢
    by_cases hb : c.bytes = []
    · rw [Pipe.afterRead_eof hrd hb]
      simp only [Pipe.turns, hp]
      omega
    · have hlen := hc.1.length_le
      have hpos := List.length_pos_of_ne_nil hb
      rw [List.length_append] at hlen
      rw [Pipe.afterRead_data hrd hb]
      simp only [Pipe.turns, hp, consumed_concat, IoCall.got, if_true, List.length_append]
      omega

theorem Pipe.turns_afterWrite {content : Nat → List UInt8} {p : Pipe} (hp : p.state = .write)
    (hoff : p.off = 0) (hfull : IoCall.Full (.write p.dst p.len (io.writeRet p.buf))) :
    (p.afterWrite io).turns content (calls ++ [.write p.dst p.len (io.writeRet p.buf)]) <
      p.turns content calls := by
  have hdone : p.off + ssize (io.writeRet p.buf) = p.len := by
    rw [hoff, Int.zero_add]
    exact hfull
  rw [Pipe.afterWrite_done hdone]
  simp only [Pipe.turns, hp, consumed_concat, IoCall.got, List.append_nil]
  omega

theorem Serves.turns_le (h : Serves io p out) (hp : Copying content p calls)
    (hc : ∀ c ∈ out.2, Smooth content calls c) :
    out.1.turns content (calls ++ out.2.toList) ≤ p.turns content calls := by
  cases h with
  | idle =>
    rw [Option.toList_none, List.append_nil]
  | except => exact Nat.zero_le _
  | read hs =>
    obtain ⟨ha, -, hr⟩ := hc _ rfl
    exact (Pipe.turns_afterRead hs ha hr).le
  | write hs => exact (Pipe.turns_afterWrite hs (hp.write hs).1 (hc _ rfl).2.1).le

namespace Select

theorem copying {m : Machine FdSets n} (h : ((program n).main (Smooth content)).Reachable m)
    (i : Fin n) : Copying content (m.pipes i) (m.callsOf i) := by
  apply Program.pipe_invariant (I := fun p calls _ => Copying content p calls) h
    (Smooth.separate content) i
  · exact Copying.init content
  · intro p calls _ r io hI hc
    rw [visits_service] at hc ⊢
    exact hI.serve (Tests.serves _ _ p) fun c hm => ⟨(hc c hm).1, (hc c hm).2.1⟩

/-- `select` has reported on the descriptor that the pipe waits for. -/
def Wakes (r : FdSets) (p : Pipe) : Prop :=
  match p.state with
  | .read => r.reads p.src = true ∨ r.excepts p.src = true
  | .write => r.writes p.dst = true ∨ r.excepts p.dst = true
  | _ => False

/-- Every report of `select` is on a descriptor that some pipe waits for. -/
theorem Interest.Answers.exists_wakes {pipes : Fin n → Pipe} (hw : register pipes = some w)
    (h : w.Answers r) : ∃ i, Wakes r (pipes i) := by
  obtain ⟨fd, hr | hr | hr⟩ := h.ready
  · obtain ⟨i, hs, rfl⟩ := (register_reads hw).mp (h.reads fd hr).1
    refine ⟨i, ?_⟩
    simp only [Wakes, hs]
    exact .inl hr
  · obtain ⟨i, hs, rfl⟩ := (register_writes hw).mp (h.writes fd hr).1
    refine ⟨i, ?_⟩
    simp only [Wakes, hs]
    exact .inl hr
  · obtain ⟨i, ⟨hs, rfl⟩ | ⟨hs, rfl⟩⟩ := (register_excepts hw).mp (h.excepts fd hr).1
    · refine ⟨i, ?_⟩
      simp only [Wakes, hs]
      exact .inr hr
    · refine ⟨i, ?_⟩
      simp only [Wakes, hs]
      exact .inr hr

theorem turns_lt {p : Pipe} (hw : Wakes r p) (hp : Copying content p calls)
    (hc : ∀ c ∈ (serve r io p).2, Smooth content calls c) :
    (serve r io p).1.turns content (calls ++ (serve r io p).2.toList) < p.turns content calls := by
  cases hs : p.state with
  | read =>
    simp only [Wakes, hs] at hw
    cases he : r.excepts p.src with
    | true =>
      simp only [serve, Tests.serve, hs, he, if_true, Pipe.turns]
      omega
    | false =>
      have hr := hw.resolve_right (by rw [he]; exact Bool.false_ne_true)
      simp only [serve, Tests.serve, hs, he, hr, Bool.not_true, Bool.false_eq_true, if_false]
        at hc ⊢
      obtain ⟨ha, -, hread⟩ := hc _ rfl
      exact Pipe.turns_afterRead hs ha hread
  | write =>
    simp only [Wakes, hs] at hw
    cases he : r.excepts p.dst with
    | true =>
      simp only [serve, Tests.serve, hs, he, if_true, Pipe.turns]
      omega
    | false =>
      have hr := hw.resolve_right (by rw [he]; exact Bool.false_ne_true)
      simp only [serve, Tests.serve, hs, he, hr, Bool.not_true, Bool.false_eq_true, if_false]
        at hc ⊢
      exact Pipe.turns_afterWrite hs (hp.write hs).1 (hc _ rfl).2.1
  | _ => simp only [Wakes, hs] at hw

def turnsLeft (content : Nat → List UInt8) (m : Machine FdSets n) : Nat :=
  ∑ i, (m.pipes i).turns content (m.callsOf i)

theorem turnsLeft_push {m : Machine FdSets n}
    (h : ((program n).main (Smooth content)).Reachable m) (hfit : ∀ i, Fits (m.pipes i))
    (hw : (program n).waits m.pipes r)
    (hcalls : ∀ c ∈ (round ((program n).visits r io) m.pipes).2, Smooth content m.calls c) :
    turnsLeft content (m.push (program n) r io) < turnsLeft content m := by
  have hd := (program n).distinct h
  have hown := (Smooth.separate content).own hd hw hcalls
  have hpush (i : Fin n) : ((m.push (program n) r io).pipes i).turns content
      ((m.push (program n) r io).callsOf i) =
      (serve r (io i) (m.pipes i)).1.turns content
        (m.callsOf i ++ (serve r (io i) (m.pipes i)).2.toList) := by
    rw [Machine.push_pipe hw, Machine.push_callsOf hd hw, visits_service]
  obtain ⟨w, hreg⟩ := exists_register hfit
  obtain ⟨k, hk⟩ := Interest.Answers.exists_wakes hreg (hw w hreg)
  refine Finset.sum_lt_sum (fun i _ => ?_) ⟨k, Finset.mem_univ k, ?_⟩
  · rw [hpush]
    have hc := hown i
    rw [visits_service] at hc
    exact Serves.turns_le (Tests.serves _ _ _) (copying h i) hc
  · rw [hpush]
    have hc := hown k
    rw [visits_service] at hc
    exact turns_lt hk (copying h k) hc

theorem turns_add_le {m : Machine FdSets n}
    (h : ((program n).main (Smooth content)).Reachable m) (hfit : ∀ i, Fits (m.pipes i)) :
    m.reports.length + turnsLeft content m ≤
      ∑ i, (2 * (content (m.pipes i).src).length + 1) := by
  induction h with
  | init h0 =>
    rw [h0.reports, List.length_nil, Nat.zero_add]
    refine Finset.sum_le_sum fun i _ => ?_
    obtain ⟨p, src, dst, hp⟩ := h0.pipes i
    rw [h0.callsOf, hp]
    simp only [Pipe.turns, pipeInit]
    omega
  | @step m m' hr hst ih =>
    have hold (i : Fin n) : Fits (m.pipes i) := (fits_of_step hst i).mp (hfit i)
    have ih := ih hold
    cases hst with
    | intr => exact ih
    | fail => exact ih
    | @push r io _ he hw hcalls =>
      have hlt := turnsLeft_push hr hold hw hcalls
      have hsrc : ∑ i, (2 * (content ((m.push (program n) r io).pipes i).src).length + 1) =
          ∑ i, (2 * (content (m.pipes i).src).length + 1) :=
        Finset.sum_congr rfl fun i _ => by rw [Machine.push_src hw]
      have hlen : (m.push (program n) r io).reports.length = m.reports.length + 1 := by
        simp [Machine.push]
      rw [hsrc, hlen]
      omega

/-- When no call fails, no `write` is short and all descriptors fit into the sets, `main` ends with
all sources copied. -/
theorem select_ends {m : Machine FdSets n}
    (h : ((program n).main (Smooth content)).Reachable m) (hfit : ∀ i, Fits (m.pipes i)) :
    m.reports.length ≤ ∑ i, (2 * (content (m.pipes i).src).length + 1) ∧
      (m.exit = none → ∃ w, register m.pipes = some w ∧
        ∃ fd < w.nfds + 1, w.sets.reads fd = true ∨ w.sets.writes fd = true) ∧
      (m.exit = some 0 → ∀ i, (m.pipes i).state ≠ .err →
        written (m.pipes i).dst m.calls = content (m.pipes i).src) := by
  constructor
  · exact Nat.le_trans (Nat.le_add_right _ _) (turns_add_le h hfit)
  constructor
  · intro he
    exact register_nonempty h he hfit
  · intro he i hne
    rcases Program.exit_zero h he with hall | hlimit
    · have heof := (hall i).resolve_right hne
      rw [← m.written_callsOf]
      exact (copying h i).eof heof
    · cases hlimit

theorem select_ends_byte : ∃ m : Machine FdSets 1,
    ((program 1).main (Smooth fun _ => [7])).Reachable m ∧ m.reports.length = 3 ∧
      m.exit = some 0 ∧ m.reports.length ≤ 2 * 1 + 1 ∧ written 4 m.calls = [7] := by
  have h : ((program 1).main (Smooth fun _ => [7])).Reachable (opened FdSets 1) :=
    .init (opened_started (by decide))
  have h := push_readable h rfl rfl ⟨[7], by decide⟩ ⟨by decide, trivial, Option.some_ne_none _⟩
  have h := push_writable h rfl rfl 1 ⟨by decide, rfl, trivial⟩
  have h := push_readable h rfl rfl ⟨[], by decide⟩ ⟨by decide, trivial, Option.some_ne_none _⟩
  have hend := select_ends h (Fin.forall_fin_one.mpr ⟨by decide, by decide⟩)
  exact ⟨_, h, rfl, rfl, hend.1, hend.2.2 rfl 0 nofun⟩

end Select

end Apue.Adio
