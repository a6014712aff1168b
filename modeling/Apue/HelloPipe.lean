import Apue.Reachability
import Mathlib.Data.List.Basic

namespace Apue.HelloPipe
set_option autoImplicit true

open scoped List

def message : List UInt8 := [104, 101, 108, 108, 111, 32, 112, 105, 112, 101, 10]

def bufSize : Nat := 1024

/-- The parent before it has closed pd[0], in its loop, and after a signal has ended it. It holds
pd[1] until then. -/
inductive Parent where
  | fresh
  | looping
  | gone
  deriving DecidableEq

/-- It holds pd[0] in its loop and before it. `killed` has the bytes that it has not written. -/
inductive Child where
  | fresh
  | reading
  | writing (b : List UInt8)
  | ended
  | killed (b : List UInt8)
  deriving DecidableEq

def Child.pending : Child → List UInt8
  | fresh => []
  | reading => []
  | writing b => b
  | ended => []
  | killed b => b

def Child.alive : Child → Bool
  | fresh => true
  | reading => true
  | writing _ => true
  | ended => false
  | killed _ => false

/-- The two processes and the pipe; then the messages written, the bytes read, and whether all
writes to stdout were complete. -/
structure State where
  parent : Parent
  child : Child
  pipe : List UInt8
  out : List UInt8
  sent : Nat
  got : List UInt8
  whole : Bool

/-- A message is shorter than PIPE_BUF, so that write puts in all of it or waits. -/
inductive State.Step (capacity : Nat) : State → State → Prop where
  | closeRead : s.parent = .fresh → Step capacity s { s with parent := .looping }
  | send : s.parent = .looping → s.child.alive = true →
      s.pipe.length + message.length ≤ capacity →
      Step capacity s { s with pipe := s.pipe ++ message, sent := s.sent + 1 }
  -- SIGPIPE, when nobody holds pd[0]
  | sigpipe : s.parent = .looping → s.child.alive = false →
      Step capacity s { s with parent := .gone }
  | killParent : Step capacity s { s with parent := .gone }
  | closeWrite : s.child = .fresh → Step capacity s { s with child := .reading }
  | read (n : Nat) : s.child = .reading → 0 < n → n ≤ bufSize → n ≤ s.pipe.length →
      Step capacity s
        { s with child := .writing (s.pipe.take n), pipe := s.pipe.drop n,
                 got := s.got ++ s.pipe.take n }
  -- read returns 0, when nobody holds pd[1]
  | endOfFile : s.child = .reading → s.pipe = [] → s.parent = .gone →
      Step capacity s { s with child := .writing [] }
  | readFails : s.child = .reading → Step capacity s { s with child := .ended }
  -- write writes the first n bytes, and its result is not looked at
  | write (n : Nat) : s.child = .writing b → n ≤ b.length →
      Step capacity s { s with child := .reading, out := s.out ++ b.take n,
                               whole := s.whole && n == b.length }
  | killChild : s.child.alive = true →
      Step capacity s { s with child := .killed s.child.pending }

def helloPipe (capacity : Nat) : System State where
  init s := s = ⟨.fresh, .fresh, [], [], 0, [], true⟩
  step := State.Step capacity

def stream (k : Nat) : List UInt8 := (List.replicate k message).flatten

theorem stream_succ (k : Nat) : stream (k + 1) = stream k ++ message := by
  rw [stream, List.replicate_succ', List.flatten_append, List.flatten_singleton, stream]

/-- What has been read and what is in the pipe are the messages in their order. -/
structure State.Inv (capacity : Nat) (s : State) : Prop where
  carried : s.got ++ s.pipe = stream s.sent
  bounded : s.pipe.length ≤ capacity
  copied : s.out ++ s.child.pending <+ s.got
  complete : s.whole = true → s.out ++ s.child.pending = s.got

theorem State.Inv.step {capacity : Nat} {s t : State} (h : s.Inv capacity)
    (hst : State.Step capacity s t) : t.Inv capacity := by
  obtain ⟨hcarried, hbounded, hcopied, hcomplete⟩ := h
  cases hst with
  | closeRead => exact ⟨hcarried, hbounded, hcopied, hcomplete⟩
  | sigpipe => exact ⟨hcarried, hbounded, hcopied, hcomplete⟩
  | killParent => exact ⟨hcarried, hbounded, hcopied, hcomplete⟩
  | killChild => exact ⟨hcarried, hbounded, hcopied, hcomplete⟩
  | send _ _ hroom =>
    refine ⟨?_, ?_, hcopied, hcomplete⟩
    · rw [stream_succ, ← hcarried, List.append_assoc]
    · rwa [List.length_append]
  | closeWrite hc =>
    rw [hc] at hcopied hcomplete
    exact ⟨hcarried, hbounded, hcopied, hcomplete⟩
  | endOfFile hc =>
    rw [hc] at hcopied hcomplete
    exact ⟨hcarried, hbounded, hcopied, hcomplete⟩
  | readFails hc =>
    rw [hc] at hcopied hcomplete
    exact ⟨hcarried, hbounded, hcopied, hcomplete⟩
  | read n hc =>
    rw [hc, Child.pending, List.append_nil] at hcopied hcomplete
    refine ⟨?_, ?_, ?_, ?_⟩
    · rw [List.append_assoc, List.take_append_drop]
      exact hcarried
    · exact (s.pipe.drop_sublist n).length_le.trans hbounded
    · exact hcopied.append_right _
    · intro hw
      rw [Child.pending, hcomplete hw]
  | @write b n hc hn =>
    rw [hc, Child.pending] at hcopied hcomplete
    refine ⟨hcarried, hbounded, ?_, ?_⟩
    · rw [Child.pending, List.append_nil]
      exact ((List.Sublist.refl s.out).append (b.take_sublist n)).trans hcopied
    · intro hw
      obtain ⟨hw, hlen⟩ := Bool.and_eq_true_iff.mp hw
      rw [Child.pending, List.append_nil, List.take_of_length_le (beq_iff_eq.mp hlen).ge]
      exact hcomplete hw

theorem State.Inv.of_reachable (h : (helloPipe capacity).Reachable s) : s.Inv capacity := by
  refine h.invariant ?_ (fun _ _ _ hi hst => hi.step hst)
  rintro s rfl
  exact ⟨rfl, Nat.zero_le _, List.Sublist.refl _, fun _ => rfl⟩

def State.rank (s : State) : Nat :=
  2 * s.pipe.length + if s.child = .reading then 0 else 1

theorem State.exists_step (capacity : Nat) {s : State} (ha : s.child.alive = true)
    (hw : s.whole = true) (hne : ¬(s.child = .reading ∧ s.pipe = [])) :
    ∃ t, State.Step capacity s t ∧ t.child.alive = true ∧ t.whole = true ∧
      t.parent = s.parent ∧ t.sent = s.sent ∧ t.rank < s.rank := by
  cases hc : s.child with
  | fresh =>
    refine ⟨_, .closeWrite hc, rfl, hw, rfl, rfl, ?_⟩
    simp [rank, hc]
  | reading =>
    have hpos : 0 < s.pipe.length := List.length_pos_of_ne_nil fun hp => hne ⟨hc, hp⟩
    have hmin : 0 < min bufSize s.pipe.length := Nat.lt_min.mpr ⟨by decide, hpos⟩
    refine ⟨_, .read _ hc hmin (Nat.min_le_left _ _) (Nat.min_le_right _ _), rfl, hw, rfl, rfl, ?_⟩
    simp only [rank, hc, List.length_drop, reduceCtorEq, if_false, if_true]
    omega
  | writing b =>
    refine ⟨_, .write b.length hc (Nat.le_refl _), rfl, ?_, rfl, rfl, ?_⟩
    · simp [hw]
    · simp [rank, hc]
  | ended =>
    rw [hc] at ha
    cases ha
  | killed b =>
    rw [hc] at ha
    cases ha

/-- A state on the way to the empty pipe, without a loss and without the parent. -/
structure State.Draining (capacity : Nat) (s t : State) : Prop where
  inv : t.Inv capacity
  alive : t.child.alive = true
  whole : t.whole = true
  parent : t.parent = s.parent
  sent : t.sent = s.sent

theorem State.Draining.exists_step {s t : State} (h : s.Draining capacity t)
    (hne : ¬(t.child = .reading ∧ t.pipe = [])) :
    ∃ u, State.Step capacity t u ∧ s.Draining capacity u ∧ u.rank < t.rank := by
  obtain ⟨u, hst, ha, hw, hp, hs, hlt⟩ := State.exists_step capacity h.alive h.whole hne
  exact ⟨u, hst, ⟨h.inv.step hst, ha, hw, hp.trans h.parent, hs.trans h.sent⟩, hlt⟩

theorem State.Inv.drain {s : State} (hi : s.Inv capacity) (ha : s.child.alive = true)
    (hw : s.whole = true) : ∃ t, Relation.ReflTransGen (State.Step capacity) s t ∧
      t.child = .reading ∧ t.pipe = [] ∧ t.parent = s.parent ∧ t.sent = s.sent ∧
      t.out = stream s.sent := by
  have hrun : ∃ t, Relation.ReflTransGen (State.Step capacity) s t ∧ s.Draining capacity t ∧
      (t.child = .reading ∧ t.pipe = []) :=
    exists_run_of_rank State.rank (fun t ht hne => ht.exists_step hne) ⟨hi, ha, hw, rfl, rfl⟩
  obtain ⟨t, hrun, ⟨hinv, -, hwhole, hparent, hsent⟩, hchild, hpipe⟩ := hrun
  refine ⟨t, hrun, hchild, hpipe, hparent, hsent, ?_⟩
  have hout := hinv.complete hwhole
  have hcarried := hinv.carried
  rw [hchild, Child.pending, List.append_nil] at hout
  rw [hpipe, List.append_nil, ← hout, hsent] at hcarried
  exact hcarried

/-- The messages get through in their order. When the parent is gone, the child takes the end of the
file for an empty message. -/
theorem pipe_delivers (h : (helloPipe capacity).Reachable s) :
    s.got <+: stream s.sent ∧ s.out <+ s.got ∧ s.pipe.length ≤ capacity ∧
    (s.whole = true → s.out ++ s.child.pending ++ s.pipe = stream s.sent) ∧
    (s.child.alive = true → s.whole = true →
      ∃ t, Relation.ReflTransGen (State.Step capacity) s t ∧ t.out = stream s.sent ∧
        t.parent = s.parent ∧ t.sent = s.sent ∧
        (s.parent = .gone → ∃ u, State.Step capacity t u ∧ State.Step capacity u t)) := by
  have hi := State.Inv.of_reachable h
  refine ⟨⟨s.pipe, hi.carried⟩, (List.sublist_append_left _ _).trans hi.copied, hi.bounded, ?_, ?_⟩
  · intro hw
    rw [hi.complete hw, hi.carried]
  · intro ha hw
    obtain ⟨t, hrun, hchild, hpipe, hparent, hsent, hout⟩ := hi.drain ha hw
    refine ⟨t, hrun, hout, hparent, hsent, fun hgone => ?_⟩
    refine ⟨_, .endOfFile hchild hpipe (hparent.trans hgone), ?_⟩
    have hback : State.Step capacity { t with child := .writing [] } _ :=
      .write 0 rfl (Nat.le_refl 0)
    simpa [← hchild] using hback

theorem pipe_delivers_first : ∃ s, (helloPipe 65536).Reachable s ∧ s.parent = .gone ∧
    ∃ t, Relation.ReflTransGen (State.Step 65536) s t ∧ t.out = message ∧
      ∃ u, State.Step 65536 t u ∧ State.Step 65536 u t := by
  have h0 : (helloPipe 65536).Reachable ⟨.fresh, .fresh, [], [], 0, [], true⟩ := .init rfl
  have h := ((h0.step (.closeRead rfl)).step (.send rfl rfl (by decide))).step .killParent
  obtain ⟨-, -, -, -, hdrain⟩ := pipe_delivers h
  obtain ⟨t, hrun, hout, -, -, hloop⟩ := hdrain rfl rfl
  exact ⟨_, h, rfl, t, hrun, hout, hloop rfl⟩

end Apue.HelloPipe
