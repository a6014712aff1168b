import Apue.Memory
import Apue.Transfer

namespace Apue.SlowCat
set_option autoImplicit true

def bufSize : Nat := 1024

inductive Pc where
  | fetch
  | read (fetched : Nat)
  | giveBack (fetched : Nat)
  | write
  | ended
  deriving DecidableEq, Repr

/-- main of signal/slow_cat.c, with what the file has left and what stdout has got. -/
structure State where
  pc : Pc
  exit : Option Nat
  fault : Option Fault
  rest : List UInt8
  out : List UInt8
  buf : List UInt8
  sz : Nat
  cur : Nat
  deriving DecidableEq, Repr

def State.Running (s : State) : Prop := s.exit = none ∧ s.fault = none
  deriving Decidable

/-- The results that the next call can have. A write that succeeds moves at least one byte. -/
def State.Allows (s : State) (r : Ret) : Prop :=
  match s.pc with
  | .fetch => ∃ n ≤ bufSize, r = .count n
  | .read fetched => r.OfRead fetched s.rest
  | .giveBack _ => r = .count 0
  | .write => r ≠ .count 0 ∧ r.OfWrite s.sz
  | .ended => False

def State.afterFetch (s : State) : Ret → State
  | .count n => if n = 0 then s else { s with pc := .read n }
  | _ => s

def State.afterRead (s : State) (fetched : Nat) : Ret → State
  | .count k =>
    if k = 0 then { s with pc := .ended, exit := some 0 }
    else { s with
      rest := s.rest.drop k
      buf := store s.buf (s.rest.take k)
      sz := k
      pc := .giveBack fetched }
  | .eintr => { s with pc := .fetch }
  | .error => { s with exit := some 1 }

/-- write(1, buf + cur, sz) and the test cur != sz. -/
def State.afterWrite (s : State) (r : Ret) : State :=
  if bufSize < s.cur + s.sz then { s with fault := some .bounds }
  else
    match r with
    | .count k =>
      { s with
        out := s.out ++ slice s.buf s.cur k
        cur := s.cur + k
        pc := if s.cur + k ≠ s.sz then .write else .fetch }
    | .eintr => s
    | .error => { s with exit := some 1 }

/-- From one call to the next. mytbf_returntoken(p, fetched - sz) changes no variable of main. -/
def State.step (s : State) (r : Ret) : State :=
  match s.pc with
  | .fetch => s.afterFetch r
  | .read fetched => s.afterRead fetched r
  | .giveBack _ => { s with cur := 0, pc := .write }
  | .write => s.afterWrite r
  | .ended => s

def start (content buf : List UInt8) : State := ⟨.fetch, none, none, content, [], buf, 0, 0⟩

/-- The runs of slow_cat: the states in which a call was made, with its result, and the last
state. -/
inductive Run (content buf : List UInt8) : List (State × Ret) → State → Prop where
  | start : Run content buf [] (start content buf)
  | step : Run content buf l s → s.Running → s.Allows r → Run content buf ((s, r) :: l) (s.step r)

/-- Stdout is a prefix of the file, a write stays within the bytes just read, and the end leaves
nothing out. -/
structure State.Good (content : List UInt8) (s : State) : Prop where
  out : s.out <+: content
  range : s.pc = .write → s.cur + s.sz ≤ s.sz
  ended : s.pc = .ended → s.out = content

/-- A write that does not fail transfers all it was asked for. -/
def Full (s : State) : Ret → Prop
  | .count k => s.pc = .write → k = s.sz
  | _ => True

instance (s : State) : DecidablePred (Full s)
  | .count k => inferInstanceAs (Decidable (s.pc = .write → k = s.sz))
  | .eintr | .error => inferInstanceAs (Decidable True)

def fullRuns (content buf : List UInt8) : System State where
  init s := s = start content buf
  step s t := ∃ r, s.Running ∧ s.Allows r ∧ Full s r ∧ t = s.step r

def State.held (s : State) : List UInt8 :=
  match s.pc with
  | .giveBack _ => slice s.buf 0 s.sz
  | .write => slice s.buf s.cur s.sz
  | _ => []

def State.transfer (s : State) : Transfer UInt8 := ⟨s.out, s.held, s.rest⟩

def State.Bounded (s : State) : Prop :=
  match s.pc with
  | .fetch => True
  | .read fetched => fetched ≤ bufSize
  | .giveBack _ => s.sz ≤ bufSize
  | .write => s.cur = 0 ∧ s.sz ≤ bufSize
  | .ended => s.rest = []

def State.Follows (s t : State) : Prop :=
  t.Bounded ∧ (t.transfer = s.transfer ∨ Transfer.Step s.transfer t.transfer)

theorem State.follows_afterFetch {s : State} (hp : s.pc = .fetch) (hn : n ≤ bufSize) :
    s.Follows (s.afterFetch (.count n)) := by
  simp only [State.afterFetch]
  by_cases h0 : n = 0
  · rw [if_pos h0]
    refine ⟨?_, .inl rfl⟩
    simp only [State.Bounded, hp]
  · rw [if_neg h0]
    refine ⟨hn, .inl ?_⟩
    simp only [State.transfer, State.held, hp]

theorem State.follows_afterRead {s : State} (hp : s.pc = .read fetched) (h : s.Bounded)
    (hr : r.OfRead fetched s.rest) : s.Follows (s.afterRead fetched r) := by
  have hheld : s.transfer.held = [] := by simp only [State.transfer, State.held, hp]
  have hle := h
  simp only [State.Bounded, hp] at hle
  cases r with
  | count k =>
    obtain ⟨hk, hl, hend⟩ := hr
    simp only [State.afterRead]
    by_cases h0 : k = 0
    · rw [if_pos h0]
      refine ⟨hend h0, .inl ?_⟩
      simp only [State.transfer, State.held, hp]
    · rw [if_neg h0]
      exact ⟨Nat.le_trans hk hle, .inr (Transfer.Step.read hheld s.buf hl)⟩
  | eintr =>
    refine ⟨trivial, .inl ?_⟩
    simp only [State.transfer, State.held, State.afterRead, hp]
  | error => exact ⟨h, .inl rfl⟩

theorem State.afterWrite_eq {s : State} (hb : s.cur + s.sz ≤ bufSize) :
    s.afterWrite (.count k) = { s with
      out := s.out ++ slice s.buf s.cur k, cur := s.cur + k,
      pc := if s.cur + k ≠ s.sz then .write else .fetch } := by
  rw [State.afterWrite, if_neg (Nat.not_lt.2 hb)]

theorem State.follows_afterWrite {s : State} (hp : s.pc = .write) (h : s.Bounded)
    (hf : Full s r) : s.Follows (s.afterWrite r) := by
  have hin := h
  simp only [State.Bounded, hp] at hin
  have hb : s.cur + s.sz ≤ bufSize := by omega
  cases r with
  | count k =>
    obtain rfl := hf hp
    have hc : ¬s.cur + s.sz ≠ s.sz := by omega
    rw [State.afterWrite_eq hb, if_neg hc]
    refine ⟨trivial, .inr ?_⟩
    have hheld : s.transfer.held = slice s.buf s.cur s.sz := by
      simp only [State.transfer, State.held, hp]
    have hst := Transfer.Step.write hheld (Nat.le_refl s.sz)
    rw [Nat.sub_self, slice_zero] at hst
    exact hst
  | eintr =>
    rw [State.afterWrite, if_neg (Nat.not_lt.2 hb)]
    exact ⟨h, .inl rfl⟩
  | error =>
    rw [State.afterWrite, if_neg (Nat.not_lt.2 hb)]
    exact ⟨h, .inl rfl⟩

theorem State.follows_step {s : State} (h : s.Bounded) (hr : s.Allows r) (hf : Full s r) :
    s.Follows (s.step r) := by
  cases hp : s.pc with
  | fetch =>
    simp only [State.Allows, hp] at hr
    obtain ⟨n, hn, rfl⟩ := hr
    simp only [State.step, hp]
    exact State.follows_afterFetch hp hn
  | read fetched =>
    simp only [State.Allows, hp] at hr
    simp only [State.step, hp]
    exact State.follows_afterRead hp h hr
  | giveBack fetched =>
    simp only [State.Bounded, hp] at h
    simp only [State.step, hp]
    refine ⟨⟨rfl, h⟩, .inl ?_⟩
    simp only [State.transfer, State.held, hp]
  | write =>
    simp only [State.step, hp]
    exact State.follows_afterWrite hp h hf
  | ended => simp only [State.Allows, hp] at hr

theorem bounded_of_reachable (h : (fullRuns content buf).Reachable s) : s.Bounded := by
  refine h.invariant ?_ ?_
  · rintro s rfl
    trivial
  · rintro s t - ih ⟨r, -, hr, hf, rfl⟩
    exact (State.follows_step ih hr hf).1

theorem transfer_reachable (h : (fullRuns content buf).Reachable s) :
    (transfer content).Reachable s.transfer := by
  refine h.project ?_ ?_
  · rintro s rfl
    rfl
  · rintro s t hs ⟨r, -, hr, hf, rfl⟩
    exact (State.follows_step (bounded_of_reachable hs) hr hf).2

theorem good_of_reachable (h : (fullRuns content buf).Reachable s) : s.Good content := by
  have hb := bounded_of_reachable h
  have ht := transfer_reachable h
  refine ⟨Transfer.out_prefix ht, fun hp => ?_, fun hp => ?_⟩
  · simp only [State.Bounded, hp] at hb
    omega
  · simp only [State.Bounded, hp] at hb
    refine Transfer.out_eq ht ?_ hb
    simp only [State.transfer, State.held, hp]

theorem Run.reachable (h : Run content buf l s) (hf : ∀ p ∈ l, Full p.1 p.2) :
    (fullRuns content buf).Reachable s := by
  induction h with
  | start => exact .init rfl
  | @step l s r hl hs hr ih =>
    have hl' := ih fun p hp => hf p (List.mem_cons_of_mem _ hp)
    exact .step hl' ⟨r, hs, hr, hf (s, r) List.mem_cons_self, rfl⟩

/-- After a short write the next one asks for bytes behind those just read. -/
theorem full_of_good {s : State} (hr : s.Allows r) (hb : s.Bounded)
    (hg : (s.step r).Good content) : Full s r := by
  cases r with
  | count k =>
    intro hp
    simp only [State.Allows, hp] at hr
    simp only [State.Bounded, hp] at hb
    have hle : s.cur + s.sz ≤ bufSize := by omega
    have hrange := hg.range
    simp only [State.step, hp, State.afterWrite_eq hle] at hrange
    by_cases hc : s.cur + k = s.sz
    · omega
    · have h0 := hrange (if_pos hc)
      have hk : k = 0 := by omega
      exact absurd (congrArg Ret.count hk) hr.1
  | eintr | error => trivial

/-- A run meets the specification in every state just if all of its writes are full. -/
theorem slow_cat_iff (h : Run content buf l s) :
    (s.Good content ∧ ∀ p ∈ l, p.1.Good content) ↔ ∀ p ∈ l, Full p.1 p.2 := by
  constructor
  · rintro ⟨hg, hl⟩
    induction h with
    | start => exact fun p hp => absurd hp List.not_mem_nil
    | @step l s r hrun hs hr ih =>
      have hfull := ih (hl (s, r) List.mem_cons_self) fun p hp => hl p (List.mem_cons_of_mem _ hp)
      intro p hp
      rcases List.mem_cons.1 hp with he | hm
      · subst he
        exact full_of_good hr (bounded_of_reachable (hrun.reachable hfull)) hg
      · exact hfull p hm
  · intro hf
    refine ⟨good_of_reachable (h.reachable hf), ?_⟩
    induction h with
    | start => exact fun p hp => absurd hp List.not_mem_nil
    | @step l s r hrun hs hr ih =>
      have hf' : ∀ p ∈ l, Full p.1 p.2 := fun p hp => hf p (List.mem_cons_of_mem _ hp)
      intro p hp
      rcases List.mem_cons.1 hp with he | hm
      · subst he
        exact good_of_reachable (hrun.reachable hf')
      · exact ih hf' p hm

theorem slow_cat_iff_ab :
    ∃ l s, Run [97, 98] (List.replicate bufSize 0) l s ∧ s.pc = .ended ∧
      (∀ p ∈ l, Full p.1 p.2) ∧ s.Good [97, 98] ∧ ∀ p ∈ l, p.1.Good [97, 98] := by
  have h : Run [97, 98] (List.replicate bufSize 0) [] (start _ _) := .start
  have h := h.step (r := .count 5) ⟨rfl, rfl⟩ ⟨5, by decide, rfl⟩
  have h := h.step (r := .count 2) ⟨rfl, rfl⟩ ⟨by decide, by decide, by decide⟩
  have h := h.step (r := .count 0) ⟨rfl, rfl⟩ rfl
  have h := h.step (r := .eintr) ⟨rfl, rfl⟩ ⟨by decide, trivial⟩
  have h := h.step (r := .count 2) ⟨rfl, rfl⟩ ⟨by decide, Nat.le_refl 2⟩
  have h := h.step (r := .count 10) ⟨rfl, rfl⟩ ⟨10, by decide, rfl⟩
  have h := h.step (r := .count 0) ⟨rfl, rfl⟩ ⟨by decide, by decide, fun _ => rfl⟩
  refine ⟨_, _, h, rfl, ?_, (slow_cat_iff h).2 ?_⟩
  · decide
  · decide

/-- After a short write the range from 1 to 3 is written, with a byte that is not in the file. -/
theorem slow_cat_overruns :
    ∃ l s, Run [97, 98] (List.replicate bufSize 0) l s ∧ s.out = [97, 98, 0] ∧
      (∃ p ∈ l, p.1.pc = .write ∧ p.1.cur = 1 ∧ p.1.sz = 2) ∧ ¬s.Good [97, 98] := by
  have h : Run [97, 98] (List.replicate bufSize 0) [] (start _ _) := .start
  have h := h.step (r := .count 5) ⟨rfl, rfl⟩ ⟨5, by decide, rfl⟩
  have h := h.step (r := .count 2) ⟨rfl, rfl⟩ ⟨by decide, by decide, by decide⟩
  have h := h.step (r := .count 0) ⟨rfl, rfl⟩ rfl
  have h := h.step (r := .count 1) ⟨rfl, rfl⟩ ⟨by decide, by decide⟩
  have h := h.step (r := .count 2) ⟨rfl, rfl⟩ ⟨by decide, Nat.le_refl 2⟩
  refine ⟨_, _, h, rfl, ⟨_, List.mem_cons_self, rfl, rfl, rfl⟩, fun hg => ?_⟩
  exact absurd hg.out (by decide)

end Apue.SlowCat
