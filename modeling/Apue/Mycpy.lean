import Apue.CharStream
import Apue.Transfer

namespace Apue.Mycpy
set_option autoImplicit true

def bufSize : Nat := 2048

inductive Status where
  | running
  /-- The loop has ended and main returns. -/
  | ended
  /-- exit(0) behind perror. -/
  | failed
  deriving DecidableEq, Repr

inductive Pc where
  | read
  | write
  deriving DecidableEq, Repr

/-- main of fileio/mycpy.c, with what the source has left and what the destination holds. -/
structure State where
  status : Status
  pc : Pc
  rest : List UInt8
  dst : List UInt8
  buf : List UInt8
  sz : Nat
  remain : Nat
  deriving DecidableEq, Repr

def State.Allows (s : State) : Ret → Prop :=
  match s.pc with
  | .read => Ret.OfRead bufSize s.rest
  | .write => Ret.OfWrite s.remain

instance (s : State) : DecidablePred s.Allows := fun r =>
  match hp : s.pc with
  | .read => decidable_of_iff (r.OfRead bufSize s.rest) (by rw [State.Allows, hp])
  | .write => decidable_of_iff (r.OfWrite s.remain) (by rw [State.Allows, hp])

/-- From the result of one call to the next call. -/
def State.step (s : State) (r : Ret) : State :=
  match s.pc, r with
  | .read, .count k =>
    if k = 0 then { s with sz := 0, status := .ended }
    else { s with
      rest := s.rest.drop k
      buf := store s.buf (s.rest.take k)
      sz := k
      remain := k
      pc := .write }
  | .write, .count k =>
    { s with
      dst := s.dst ++ slice s.buf (s.sz - s.remain) k
      remain := s.remain - k
      pc := if s.remain - k = 0 then .read else .write }
  | _, _ => { s with status := .failed }

def start (content buf : List UInt8) : State := ⟨.running, .read, content, [], buf, 0, 0⟩

/-- fileio/mycpy.c on a source with the given content, `buf` being what its buffer holds before
the first read. -/
def mycpy (content buf : List UInt8) : System State where
  init s := s = start content buf
  step s t := s.status = .running ∧ ∃ r, s.Allows r ∧ t = s.step r

def State.transfer (s : State) : Transfer UInt8 where
  out := s.dst
  held := slice s.buf (s.sz - s.remain) s.remain
  rest := s.rest

structure State.Copying (s : State) : Prop where
  le : s.remain ≤ s.sz
  read : s.pc = .read → s.remain = 0
  ended : s.status = .ended → s.remain = 0 ∧ s.rest = []

theorem State.step_end {s : State} (hp : s.pc = .read) :
    s.step (.count 0) = { s with sz := 0, status := .ended } := by
  simp only [State.step, hp, if_pos]

theorem State.step_fill {s : State} (hp : s.pc = .read) (hk : k ≠ 0) :
    s.step (.count k) = { s with
      rest := s.rest.drop k, buf := store s.buf (s.rest.take k), sz := k, remain := k,
      pc := .write } := by
  simp only [State.step, hp, if_neg hk]

theorem State.step_drain {s : State} (hp : s.pc = .write) :
    s.step (.count k) = { s with
      dst := s.dst ++ slice s.buf (s.sz - s.remain) k, remain := s.remain - k,
      pc := if s.remain - k = 0 then .read else .write } := by
  simp only [State.step, hp]

/-- What a call can do: fail, find the end of the source, fill the buffer or pass on a part of
it. -/
theorem State.step_cases {s : State} (hr : s.Allows r) :
    s.step r = { s with status := .failed } ∨
      s.pc = .read ∧ s.rest = [] ∧ s.step r = { s with sz := 0, status := .ended } ∨
      (∃ k, s.pc = .read ∧ k ≤ s.rest.length ∧ s.step r = { s with
        rest := s.rest.drop k, buf := store s.buf (s.rest.take k), sz := k, remain := k,
        pc := .write }) ∨
      ∃ k, s.pc = .write ∧ k ≤ s.remain ∧ s.step r = { s with
        dst := s.dst ++ slice s.buf (s.sz - s.remain) k, remain := s.remain - k,
        pc := if s.remain - k = 0 then .read else .write } := by
  cases r with
  | count k =>
    obtain hp | hp : s.pc = .read ∨ s.pc = .write := by cases s.pc <;> simp
    · simp only [State.Allows, hp, Ret.OfRead] at hr
      obtain ⟨-, hl, h0⟩ := hr
      by_cases hk : k = 0
      · subst hk
        exact .inr (.inl ⟨hp, h0 rfl, State.step_end hp⟩)
      · exact .inr (.inr (.inl ⟨k, hp, hl, State.step_fill hp hk⟩))
    · simp only [State.Allows, hp, Ret.OfWrite] at hr
      exact .inr (.inr (.inr ⟨k, hp, hr, State.step_drain hp⟩))
  | eintr =>
    left
    cases hp : s.pc <;> simp only [State.step, hp]
  | error =>
    left
    cases hp : s.pc <;> simp only [State.step, hp]

theorem State.Copying.step {s : State} (h : s.Copying) (hs : s.status = .running)
    (hr : s.Allows r) : (s.step r).Copying := by
  rcases State.step_cases hr with he | ⟨hp, hn, he⟩ | ⟨k, hp, hk, he⟩ | ⟨k, hp, hk, he⟩
  · rw [he]
    exact ⟨h.le, h.read, fun hf => by cases hf⟩
  · rw [he]
    have h0 := h.read hp
    exact ⟨Nat.le_of_eq h0, fun _ => h0, fun _ => ⟨h0, hn⟩⟩
  · rw [he]
    exact ⟨Nat.le_refl k, fun hf => (by cases hf), fun hf => absurd (hs.symm.trans hf) nofun⟩
  · rw [he]
    refine ⟨Nat.le_trans (Nat.sub_le _ _) h.le, fun hf => ?_, fun hf =>
      absurd (hs.symm.trans hf) nofun⟩
    by_cases h0 : s.remain - k = 0
    · exact h0
    · exact absurd hf (by simp [h0])

theorem copying_of_reachable (h : (mycpy content buf).Reachable s) : s.Copying := by
  refine h.invariant ?_ ?_
  · rintro s rfl
    exact ⟨Nat.le_refl 0, fun _ => rfl, fun hf => by cases hf⟩
  · rintro s t - ih ⟨hs, r, hr, rfl⟩
    exact ih.step hs hr

/-- Every call is a step of the abstract copy, or leaves it as it is. -/
theorem State.transfer_step {s : State} (h : s.Copying) (hr : s.Allows r) :
    (s.step r).transfer = s.transfer ∨ Transfer.Step s.transfer (s.step r).transfer := by
  rcases State.step_cases hr with he | ⟨hp, -, he⟩ | ⟨k, hp, hk, he⟩ | ⟨k, hp, hk, he⟩
  · left
    rw [he]
    rfl
  · left
    rw [he]
    simp only [State.transfer, h.read hp, slice_zero]
  · right
    have hheld : s.transfer.held = [] := by
      simp only [State.transfer, h.read hp, slice_zero]
    have hst := Transfer.Step.read hheld s.buf hk
    rw [he]
    simp only [State.transfer, Nat.sub_self] at hst ⊢
    exact hst
  · right
    have hst := Transfer.Step.write (t := s.transfer) rfl hk
    have hcur : s.sz - (s.remain - k) = s.sz - s.remain + k := by
      have hle := h.le
      omega
    rw [he]
    simp only [State.transfer, hcur] at hst ⊢
    exact hst

theorem transfer_reachable (h : (mycpy content buf).Reachable s) :
    (transfer content).Reachable s.transfer := by
  refine h.project ?_ ?_
  · rintro s rfl
    rfl
  · rintro s t hs ⟨-, r, hr, rfl⟩
    exact State.transfer_step (copying_of_reachable hs) hr

theorem dst_eq_of_ended (h : (mycpy content buf).Reachable s) (he : s.status = .ended) :
    s.dst = content := by
  obtain ⟨h0, hr⟩ := (copying_of_reachable h).ended he
  refine Transfer.out_eq (transfer_reachable h) ?_ hr
  simp only [State.transfer, h0, slice_zero]

/-- However the calls cut up the file, the destination is a prefix of the source, and all of it when
main returns. -/
theorem mycpy_copies (h : (mycpy content buf).Reachable s) :
    s.dst <+: content ∧ (s.pc = .write → s.sz - s.remain + s.remain ≤ s.sz) ∧
      (s.status = .ended → s.dst = content) := by
  have hle := (copying_of_reachable h).le
  exact ⟨Transfer.out_prefix (transfer_reachable h), fun _ => by omega, dst_eq_of_ended h⟩

theorem mycpy_copies_abc :
    ∃ s, (mycpy [97, 98, 99] (List.replicate bufSize 0)).Reachable s ∧ s.status = .ended ∧
      s.dst <+: [97, 98, 99] ∧ (s.pc = .write → s.sz - s.remain + s.remain ≤ s.sz) ∧
      (s.status = .ended → s.dst = [97, 98, 99]) := by
  have h : (mycpy [97, 98, 99] (List.replicate bufSize 0)).Reachable (start _ _) := .init rfl
  have h := h.step ⟨rfl, .count 2, by decide, rfl⟩
  have h := h.step ⟨rfl, .count 1, by decide, rfl⟩
  have h := h.step ⟨rfl, .count 0, by decide, rfl⟩
  have h := h.step ⟨rfl, .count 1, by decide, rfl⟩
  have h := h.step ⟨rfl, .count 1, by decide, rfl⟩
  have h := h.step ⟨rfl, .count 1, by decide, rfl⟩
  have h := h.step ⟨rfl, .count 0, by decide, rfl⟩
  exact ⟨_, h, rfl, mycpy_copies h⟩

theorem copy_byte {s : State} (content buf : List UInt8) (hs : s.status = .running)
    (hp : s.pc = .read) (h0 : s.rest ≠ []) :
    ∃ t, Relation.ReflTransGen (mycpy content buf).step s t ∧
      (t.status = .running ∧ t.pc = .read) ∧ t.rest.length < s.rest.length := by
  have hpos : 0 < s.rest.length := List.length_pos_iff.2 h0
  have hr : s.Allows (.count 1) := by
    simp only [State.Allows, hp, Ret.OfRead]
    exact ⟨by decide, hpos, fun hf => absurd hf Nat.one_ne_zero⟩
  have ht := State.step_fill hp Nat.one_ne_zero
  have hs' : (s.step (.count 1)).status = .running := by
    rw [ht]
    exact hs
  have hw : (s.step (.count 1)).Allows (.count 1) := by
    rw [ht]
    exact Nat.le_refl 1
  refine ⟨_, .head ⟨hs, .count 1, hr, rfl⟩ (.single ⟨hs', .count 1, hw, rfl⟩), ?_⟩
  rw [ht, State.step_drain rfl]
  refine ⟨⟨hs, rfl⟩, ?_⟩
  simp only [List.length_drop]
  omega

theorem ends_from_read {s : State} (content buf : List UInt8) (hs : s.status = .running)
    (hp : s.pc = .read) :
    ∃ t, Relation.ReflTransGen (mycpy content buf).step s t ∧ t.status = .ended := by
  have hstep : ∀ s : State, (s.status = .running ∧ s.pc = .read) → ¬s.rest = [] →
      ∃ t, Relation.ReflTransGen (mycpy content buf).step s t ∧
        (t.status = .running ∧ t.pc = .read) ∧ t.rest.length < s.rest.length :=
    fun s h h0 => copy_byte content buf h.1 h.2 h0
  obtain ⟨t, hrun, ⟨ht, hpt⟩, h0⟩ := exists_run_of_rank _ hstep ⟨hs, hp⟩
  rw [Relation.reflTransGen_eq_self] at hrun
  have hr : t.Allows (.count 0) := by
    simp only [State.Allows, hpt, Ret.OfRead]
    exact ⟨Nat.zero_le _, Nat.zero_le _, fun _ => h0⟩
  refine ⟨t.step (.count 0), hrun.tail ⟨ht, .count 0, hr, rfl⟩, ?_⟩
  rw [State.step_end hpt]

def stdioMycpy (src : List UInt8) : List UInt8 := copyChars src []

def bufSize1 : Nat := 32

/-- fread(buf, 1, count, fd) on a stream with no error: the result, the buffer and what the
stream has left. -/
def safeFread (fd buf : List UInt8) (count : Nat) : Nat × List UInt8 × List UInt8 :=
  (min count fd.length, store buf (fd.take count), fd.drop count)

def safeFwrite (fd buf : List UInt8) (count : Nat) : List UInt8 := fd ++ slice buf 0 count

/-- The loop of stdio/mycpy1.c -/
def mycpy1 (buf src dst : List UInt8) : List UInt8 :=
  let rd := safeFread src buf bufSize1
  if rd.1 ≤ 0 then dst else mycpy1 rd.2.1 rd.2.2 (safeFwrite dst rd.2.1 rd.1)
termination_by src.length
decreasing_by
  rename_i h
  simp only [rd, safeFread, bufSize1, List.length_drop] at h ⊢
  omega

theorem safeFwrite_safeFread (buf src dst : List UInt8) :
    safeFwrite dst (safeFread src buf bufSize1).2.1 (safeFread src buf bufSize1).1 =
      dst ++ src.take bufSize1 := by
  have hk : src.take bufSize1 = src.take (min bufSize1 src.length) := by
    rw [List.take_eq_take_min]
  simp only [safeFwrite, safeFread]
  rw [hk, slice_store_take buf (Nat.min_le_right _ _)]

theorem mycpy1_eq (buf src dst : List UInt8) : mycpy1 buf src dst = dst ++ src := by
  induction buf, src, dst using mycpy1.induct with
  | case1 buf src dst rd hrd =>
    have h0 : src.length = 0 := by
      simp only [rd, safeFread, bufSize1] at hrd
      omega
    rw [mycpy1, if_pos hrd, List.eq_nil_of_length_eq_zero h0, List.append_nil]
  | case2 buf src dst rd hrd ih =>
    rw [mycpy1, if_neg hrd, ih, safeFwrite_safeFread, List.append_assoc]
    simp only [rd, safeFread, List.take_append_drop]

/-- stdio/mycpy.c agrees with the two other programs just where the source has no byte 0xff. -/
theorem copies_agree_iff (content buf buf1 : List UInt8) :
    (stdioMycpy content = content ∧ mycpy1 buf1 content [] = content ∧
      (∃ s, (mycpy content buf).Reachable s ∧ s.status = .ended) ∧
      ∀ s, (mycpy content buf).Reachable s → s.status = .ended → s.dst = content) ↔
    255 ∉ content := by
  constructor
  · rintro ⟨h, -⟩
    exact copyChars_eq_self_iff.1 h
  · intro h
    refine ⟨copyChars_eq_self_iff.2 h, mycpy1_eq buf1 content [], ?_, ?_⟩
    · obtain ⟨t, hst, he⟩ := ends_from_read content buf (s := start content buf) rfl rfl
      exact ⟨t, (System.Reachable.init rfl).trans hst, he⟩
    · intro s hs he
      exact dst_eq_of_ended hs he

theorem copies_differ :
    stdioMycpy [97, 255, 98] = [97] ∧ mycpy1 [] [97, 255, 98] [] = [97, 255, 98] := by
  refine ⟨?_, mycpy1_eq _ _ _⟩
  rw [stdioMycpy, copyChars_eq]
  rfl

end Apue.Mycpy
