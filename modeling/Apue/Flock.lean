import Apue.Census
import Apue.Decimal
import Apue.Reachability

namespace Apue.Flock
set_option autoImplicit true

def bufSize : Nat := 4096

inductive Pc where
  | openFile
  | lock
  | read
  /-- atoi, i++ and snprintf -/
  | convert
  | lseek
  | write
  | unlock
  /-- close and exit(0) -/
  | close
  | exit0
  | exit1
  deriving DecidableEq

/-- The offset of its fd, its variables, the bytes on which it holds a lock, and whether it has made
its write. -/
structure Child where
  pc : Pc
  offset : Nat
  buf : List Char
  sz : Nat
  held : Nat → Bool
  wrote : Bool

def Child.start (buf : List Char) : Child := ⟨.openFile, 0, buf, 0, fun _ => false, false⟩

/-- The end of a process closes its fd and so releases its locks. -/
def Child.exit (c : Child) (pc : Pc) : Child := { c with pc := pc, held := fun _ => false }

/-- The next call of a child, when it succeeds: the file and the child after it. -/
def Child.call (file : List Char) (c : Child) : Except Fault (List Char × Child) :=
  match c.pc with
  | .openFile => .ok (file, { c with pc := .lock, offset := 0 })
  -- lockf with length 0 is about all bytes from the offset on
  | .lock => .ok (file, { c with pc := .read, held := fun b => c.held b || c.offset ≤ b })
  | .read =>
    let data := (file.drop c.offset).take bufSize
    .ok (file, { c with
      pc := .convert
      buf := overwrite c.buf 0 data
      offset := c.offset + data.length })
  | .convert => do
    let i ← atoi c.buf
    let i ← addInt i 1
    let r := snprintf c.buf i
    return (file, { c with pc := .lseek, buf := r.1, sz := r.2 })
  | .lseek => .ok (file, { c with pc := .write, offset := 0 })
  | .write =>
    let data := c.buf.take c.sz
    .ok (overwrite file c.offset data, { c with
      pc := .unlock
      offset := c.offset + data.length
      wrote := true })
  -- the bytes before the offset stay locked
  | .unlock => .ok (file, { c with
      pc := .close
      held := fun b => c.held b && decide (b < c.offset) })
  | .close => .ok (file, c.exit .exit0)
  | .exit0 => .ok (file, c)
  | .exit1 => .ok (file, c)

/-- The calls whose failure ends the child with exit(1). -/
def Pc.fallible : Pc → Bool
  | .openFile | .lock | .read | .unlock => true
  | _ => false

structure State (K : Nat) where
  file : List Char
  child : Fin K → Child
  fault : Option Fault

def State.set (s : State K) (i : Fin K) (file : List Char) (c : Child) : State K :=
  { s with file := file, child := Function.update s.child i c }

def State.attempt (s : State K) (i : Fin K) : State K :=
  match (s.child i).call s.file with
  | .ok r => s.set i r.1 r.2
  | .error e => { s with fault := some e }

/-- lockf waits while another process holds a lock on one of the bytes. -/
def State.Blocked (s : State K) (i : Fin K) : Prop :=
  (s.child i).pc = .lock ∧ ∃ j, j ≠ i ∧ ∃ b, (s.child i).offset ≤ b ∧ (s.child j).held b = true

inductive State.Step : State K → State K → Prop where
  | call (i : Fin K) : s.fault = none → ¬ s.Blocked i → Step s (s.attempt i)
  | fail (i : Fin K) : s.fault = none → (s.child i).pc.fallible = true →
      Step s (s.set i s.file ((s.child i).exit .exit1))

def State.start (file : List Char) (buf : Fin K → List Char) : State K :=
  ⟨file, fun i => .start (buf i), none⟩

/-- K children on one file, each with what its buffer holds at first. -/
def flock (file : List Char) (buf : Fin K → List Char) : System (State K) where
  init s := s = State.start file buf
  step := State.Step

/-- The child is between lockf(fd, F_LOCK, 0) and the end of close. -/
def Pc.locked : Pc → Bool
  | .read | .convert | .lseek | .write | .unlock | .close => true
  | _ => false

/-- The content stands for the number w. -/
def Text (file : List Char) (w : Nat) : Prop := file = [] ∧ w = 0 ∨ file = decimal w

def nuls : List Char := List.replicate bufSize '\x00'

/-- What is known of a child's variables while the file stands for w. -/
def Child.Knows (c : Child) (file : List Char) (w : Nat) : Prop :=
  match c.pc with
  | .openFile => c.buf = nuls ∧ c.wrote = false
  | .lock | .read => c.offset = 0 ∧ c.buf = nuls ∧ c.wrote = false
  | .convert => c.buf = overwrite nuls 0 file ∧ c.wrote = false
  | .lseek => c.buf.take c.sz = decimal (w + 1 : Nat) ∧ c.wrote = false
  | .write => c.offset = 0 ∧ c.buf.take c.sz = decimal (w + 1 : Nat) ∧ c.wrote = false
  | .unlock => 0 < c.offset ∧ c.wrote = true
  | .close | .exit0 => c.wrote = true
  | .exit1 => True

structure Child.Ok (c : Child) (file : List Char) (w : Nat) : Prop where
  knows : c.Knows file w
  holds : c.pc.locked = true → c.held 0 = true
  frees : c.pc.locked = false → ∀ b, c.held b = false

theorem Child.Ok.frame {c : Child} (h : c.Ok file w) (hl : c.pc.locked = false)
    (file' : List Char) (w' : Nat) : c.Ok file' w' := by
  refine ⟨?_, h.holds, h.frees⟩
  have hk := h.knows
  unfold Child.Knows at hk ⊢
  cases hp : c.pc with
  | openFile | lock | exit0 | exit1 =>
    rw [hp] at hk
    exact hk
  | read | convert | lseek | write | unlock | close =>
    rw [hp] at hl
    cases hl

theorem Text.length_le (h : Text file w) (hw : (w : Int) ≤ intMax) : file.length ≤ 10 := by
  rcases h with ⟨rfl, -⟩ | rfl
  · exact Nat.zero_le _
  · exact decimal_length_le hw

theorem Text.atoi_eq (h : Text file w) (hw : (w : Int) ≤ intMax) :
    atoi (overwrite nuls 0 file) = .ok w := by
  have hlen := h.length_le hw
  obtain ⟨l, hl⟩ : ∃ l, nuls.drop file.length = '\x00' :: l := by
    refine ⟨List.replicate (bufSize - file.length - 1) '\x00', ?_⟩
    have hsub : bufSize - file.length = bufSize - file.length - 1 + 1 := by
      have hb : bufSize = 4096 := rfl
      omega
    rw [nuls, List.drop_replicate, hsub, List.replicate_succ]
    rfl
  rw [overwrite_zero, hl]
  rcases h with ⟨rfl, rfl⟩ | rfl
  · exact atoi_nul l
  · exact atoi_decimal hw l

/-- The file is written over in place, which leaves nothing of the shorter old text. -/
theorem Text.overwrite_eq (h : Text file w) :
    overwrite file 0 (decimal (w + 1 : Nat)) = decimal (w + 1 : Nat) := by
  have hlen : file.length ≤ (decimal (w + 1 : Nat)).length := by
    rcases h with ⟨rfl, -⟩ | rfl
    · exact Nat.zero_le _
    · exact decimal_length_mono (Nat.le_succ w)
  rw [overwrite_zero, List.drop_eq_nil_of_le hlen, List.append_nil]

theorem Text.convert_eq (h : Text file w) (hw : (w + 1 : Int) ≤ intMax) :
    (snprintf (overwrite nuls 0 file) (w + 1 : Nat)).1.take
      (snprintf (overwrite nuls 0 file) (w + 1 : Nat)).2 = decimal (w + 1 : Nat) := by
  have hlen := h.length_le (by omega)
  have hdec := decimal_length_le (n := w + 1) hw
  have hnuls : nuls.length = 4096 := List.length_replicate
  refine snprintf_take ?_
  rw [overwrite_zero, List.length_append, List.length_drop]
  omega

/-- A call of a child that has the lock leaves the file, or is the write and counts one more. -/
inductive Child.Called (c : Child) (file : List Char) (w : Nat) : List Char → Child → Prop where
  | quiet (hc : c'.Ok file w) (hw : c'.wrote = c.wrote)
      (hl : c'.pc.locked = true → c.pc.locked = true ∨ c.pc = .lock ∧ c.offset = 0) :
      Called c file w file c'
  | write (hl : c.pc.locked = true) (hn : c.wrote = false)
      (hc : c'.Ok (decimal (w + 1 : Nat)) (w + 1)) (hw : c'.wrote = true) :
      Called c file w (decimal (w + 1 : Nat)) c'

theorem Child.Ok.call {c : Child} (h : c.Ok file w) (ht : Text file w)
    (hmax : c.wrote = false → (w + 1 : Int) ≤ intMax) :
    ∃ r, c.call file = .ok r ∧ c.Called file w r.1 r.2 := by
  obtain ⟨hk, hh, hf⟩ := h
  unfold Child.Knows at hk
  cases hp : c.pc with
  | openFile =>
    rw [hp] at hk hf
    refine ⟨_, by rw [Child.call, hp], ?_⟩
    refine .quiet ?_ rfl fun hl => (by cases hl)
    exact ⟨⟨rfl, hk⟩, fun hl => (by cases hl), fun _ => hf rfl⟩
  | lock =>
    rw [hp] at hk
    refine ⟨_, by rw [Child.call, hp], ?_⟩
    refine .quiet ?_ rfl fun _ => .inr ⟨hp, hk.1⟩
    exact ⟨hk, fun _ => by simp [hk.1], fun hl => (by cases hl)⟩
  | read =>
    rw [hp] at hk hh
    obtain ⟨h0, hb, hn⟩ := hk
    have hw := hmax hn
    have hlen := ht.length_le (by omega)
    have hdata : (file.drop c.offset).take bufSize = file := by
      rw [h0, List.drop_zero, List.take_of_length_le (Nat.le_trans hlen (by decide))]
    refine ⟨_, by rw [Child.call, hp], ?_⟩
    refine .quiet ?_ rfl fun _ => .inl (by rw [hp]; rfl)
    exact ⟨⟨by rw [hdata, hb], hn⟩, fun _ => hh rfl, fun hl => (by cases hl)⟩
  | convert =>
    rw [hp] at hk hh
    obtain ⟨hb, hn⟩ := hk
    have hw := hmax hn
    have hatoi : atoi c.buf = .ok w := by rw [hb, ht.atoi_eq (by omega)]
    have hadd : addInt w 1 = .ok ((w + 1 : Nat) : Int) :=
      addInt_of_nonneg (by omega) hw
    have hcall : c.call file = .ok (file, { c with
        pc := .lseek
        buf := (snprintf c.buf (w + 1 : Nat)).1
        sz := (snprintf c.buf (w + 1 : Nat)).2 }) := by
      simp only [Child.call, hp]
      rw [hatoi, ok_bind, hadd, ok_bind]
      rfl
    refine ⟨_, hcall, .quiet ?_ rfl fun _ => .inl (by rw [hp]; rfl)⟩
    exact ⟨⟨by rw [hb]; exact ht.convert_eq hw, hn⟩, fun _ => hh rfl, fun hl => (by cases hl)⟩
  | lseek =>
    rw [hp] at hk hh
    refine ⟨_, by rw [Child.call, hp], ?_⟩
    refine .quiet ?_ rfl fun _ => .inl (by rw [hp]; rfl)
    exact ⟨⟨rfl, hk⟩, fun _ => hh rfl, fun hl => (by cases hl)⟩
  | write =>
    rw [hp] at hk hh
    obtain ⟨h0, hb, hn⟩ := hk
    refine ⟨_, by rw [Child.call, hp], ?_⟩
    simp only [h0, hb, ht.overwrite_eq]
    refine .write (by rw [hp]; rfl) hn ⟨⟨?_, rfl⟩, fun _ => hh rfl, fun hl => (by cases hl)⟩ rfl
    rw [Nat.zero_add]
    exact decimal_length_pos (w + 1)
  | unlock =>
    rw [hp] at hk hh
    refine ⟨_, by rw [Child.call, hp], ?_⟩
    refine .quiet ?_ rfl fun _ => .inl (by rw [hp]; rfl)
    -- the first byte stays locked, since the offset is behind what has been written
    exact ⟨hk.2, fun _ => by simp [hh rfl, hk.1], fun hl => (by cases hl)⟩
  | close =>
    rw [hp] at hk
    refine ⟨_, by rw [Child.call, hp], ?_⟩
    refine .quiet ?_ rfl fun hl => (by cases hl)
    exact ⟨hk, fun hl => (by cases hl), fun _ _ => rfl⟩
  | exit0 | exit1 =>
    refine ⟨_, by rw [Child.call, hp], ?_⟩
    refine .quiet ⟨?_, hh, hf⟩ rfl fun hl => .inl hl
    rw [Child.Knows, hp]
    rw [hp] at hk
    exact hk

def State.count (s : State K) : Nat := (Finset.univ.filter fun i => (s.child i).wrote).card

def content (f : List Char) (v n : Nat) : List Char :=
  if n = 0 then f else decimal (v + n : Nat)

/-- The children take turns: one at a time is between lockf and close, and the file counts the
writes made so far. -/
structure State.Inv (f : List Char) (v : Nat) (s : State K) : Prop where
  no_fault : s.fault = none
  file_eq : s.file = content f v s.count
  ok : ∀ i, (s.child i).Ok s.file (v + s.count)
  alone : ∀ i j, (s.child i).pc.locked = true → (s.child j).pc.locked = true → i = j

theorem text_content (h : Text f v) (n : Nat) : Text (content f v n) (v + n) := by
  unfold content
  split
  · next h0 =>
    rw [h0]
    exact h
  · exact .inr rfl

theorem State.set_child {s : State K} {P : Fin K → Child → Prop} (hi : P i c)
    (ho : ∀ j, j ≠ i → P j (s.child j)) (file : List Char) (j : Fin K) :
    P j ((s.set i file c).child j) := by
  by_cases hj : j = i
  · subst hj
    simp only [State.set, Function.update_self]
    exact hi
  · simp only [State.set, Function.update_of_ne hj]
    exact ho j hj

theorem State.count_set (s : State K) (h : c.wrote = (s.child i).wrote) (file : List Char) :
    (s.set i file c).count = s.count := by
  have hc := census_update Child.wrote s.child i c
  rw [h] at hc
  exact Nat.add_right_cancel hc

theorem State.count_set_wrote (s : State K) (hn : (s.child i).wrote = false)
    (h : c.wrote = true) (file : List Char) : (s.set i file c).count = s.count + 1 := by
  have hc := census_update Child.wrote s.child i c
  rw [h, hn] at hc
  exact hc

theorem State.count_lt (s : State K) (hn : (s.child i).wrote = false) : s.count < K := by
  have hlt : census Child.wrote s.child < Fintype.card (Fin K) := census_lt_card hn
  rwa [Fintype.card_fin] at hlt

theorem State.Inv.alone_set {s : State K} (h : s.Inv f v) (i : Fin K)
    (hl : c.pc.locked = true → ∀ j, j ≠ i → (s.child j).pc.locked = false) (file : List Char) :
    ∀ j k, ((s.set i file c).child j).pc.locked = true →
      ((s.set i file c).child k).pc.locked = true → j = k := by
  intro j k hj hk
  by_cases hji : j = i
  · by_cases hki : k = i
    · rw [hji, hki]
    · subst hji
      simp only [State.set, Function.update_self, Function.update_of_ne hki] at hj hk
      rw [hl hj k hki] at hk
      cases hk
  · by_cases hki : k = i
    · subst hki
      simp only [State.set, Function.update_self, Function.update_of_ne hji] at hj hk
      rw [hl hk j hji] at hj
      cases hj
    · simp only [State.set, Function.update_of_ne hji, Function.update_of_ne hki] at hj hk
      exact h.alone j k hj hk

theorem State.Inv.others {s : State K} (h : s.Inv f v) (hb : ¬ s.Blocked i)
    (hl : (s.child i).pc.locked = true ∨ (s.child i).pc = .lock ∧ (s.child i).offset = 0)
    (j : Fin K) (hj : j ≠ i) : (s.child j).pc.locked = false := by
  rw [← Bool.not_eq_true]
  intro hlj
  rcases hl with hl | ⟨hp, h0⟩
  · exact hj (h.alone j i hlj hl)
  · exact hb ⟨hp, j, hj, 0, Nat.le_of_eq h0, (h.ok j).holds hlj⟩

theorem State.Inv.call {s : State K} (h : s.Inv f v) (ht : Text f v)
    (hmax : (v + K : Int) ≤ intMax) (hb : ¬ s.Blocked i) : (s.attempt i).Inv f v := by
  have htext : Text s.file (v + s.count) := by
    rw [h.file_eq]
    exact text_content ht _
  obtain ⟨r, hr, hc⟩ := (h.ok i).call htext fun hn => by
    have hlt := s.count_lt hn
    omega
  rw [State.attempt, hr]
  obtain ⟨f', c⟩ := r
  cases hc with
  | quiet hc hw hl =>
    refine ⟨h.no_fault, ?_, ?_, h.alone_set i (fun hlc => h.others hb (hl hlc)) _⟩
    · rw [State.count_set s hw]
      exact h.file_eq
    · rw [State.count_set s hw]
      exact State.set_child (P := fun _ c => c.Ok _ _) hc (fun j _ => h.ok j) _
  | write hl hn hc hw =>
    have hothers := h.others hb (.inl hl)
    refine ⟨h.no_fault, ?_, ?_, h.alone_set i (fun _ => hothers) _⟩
    · rw [State.count_set_wrote s hn hw, content, if_neg (Nat.succ_ne_zero _)]
      rfl
    · rw [State.count_set_wrote s hn hw]
      exact State.set_child (P := fun _ c => c.Ok _ _) hc
        (fun j hj => (h.ok j).frame (hothers j hj) _ _) _

theorem State.Inv.fail {s : State K} (h : s.Inv f v) (i : Fin K) :
    (s.set i s.file ((s.child i).exit .exit1)).Inv f v := by
  have hcount := s.count_set (c := (s.child i).exit .exit1) (i := i) rfl s.file
  refine ⟨h.no_fault, ?_, ?_, h.alone_set i (fun hl => (by cases hl)) _⟩
  · rw [hcount]
    exact h.file_eq
  · rw [hcount]
    refine State.set_child (P := fun _ c => c.Ok _ _) ?_ (fun j _ => h.ok j) _
    exact ⟨trivial, fun hl => (by cases hl), fun _ _ => rfl⟩

theorem State.Inv.of_reachable {s : State K} (ht : Text f v) (hmax : (v + K : Int) ≤ intMax)
    (h : (flock f fun _ : Fin K => nuls).Reachable s) : s.Inv f v := by
  refine h.invariant ?_ ?_
  · rintro s rfl
    have hcount : (State.start f fun _ : Fin K => nuls).count = 0 := by
      simp [State.count, State.start, Child.start]
    refine ⟨rfl, ?_, fun i => ?_, fun i j hi => (by cases hi)⟩
    · rw [hcount]
      rfl
    · exact ⟨⟨rfl, rfl⟩, fun hl => (by cases hl), fun _ _ => rfl⟩
  · intro s t _ hs hst
    cases hst with
    | call i _ hb => exact hs.call ht hmax hb
    | fail i => exact hs.fail i

def Pc.next : Pc → Pc
  | .openFile => .lock
  | .lock => .read
  | .read => .convert
  | .convert => .lseek
  | .lseek => .write
  | .write => .unlock
  | .unlock => .close
  | .close => .exit0
  | .exit0 => .exit0
  | .exit1 => .exit1

def Pc.rank : Pc → Nat
  | .openFile => 8
  | .lock => 7
  | .read => 6
  | .convert => 5
  | .lseek => 4
  | .write => 3
  | .unlock => 2
  | .close => 1
  | .exit0 => 0
  | .exit1 => 0

theorem Pc.rank_next {p : Pc} (h : p.rank ≠ 0) : p.next.rank < p.rank ∧ p.next ≠ .exit1 := by
  revert h
  cases p <;> decide

theorem Child.call_pc {c : Child} (h : c.call file = .ok r) : r.2.pc = c.pc.next := by
  cases hp : c.pc with
  | convert =>
    rw [Child.call, hp] at h
    obtain ⟨i, -, h⟩ := bind_ok h
    obtain ⟨j, -, h⟩ := bind_ok h
    cases h
    rfl
  | exit0 | exit1 =>
    rw [Child.call, hp] at h
    cases h
    exact hp
  | _ =>
    rw [Child.call, hp] at h
    cases h
    rfl

/-- While a child is left, one of them can go on: the one that has the lock, or else any. -/
theorem State.Inv.enabled {s : State K} (h : s.Inv f v) (hi : (s.child i).pc.rank ≠ 0) :
    ∃ j, (s.child j).pc.rank ≠ 0 ∧ ¬ s.Blocked j := by
  by_cases hex : ∃ j, (s.child j).pc.locked = true
  · obtain ⟨j, hj⟩ := hex
    refine ⟨j, fun h0 => ?_, fun hb => ?_⟩
    · cases hp : (s.child j).pc <;> rw [hp] at hj h0 <;> cases hj <;> cases h0
    · rw [hb.1] at hj
      cases hj
  · refine ⟨i, hi, ?_⟩
    rintro ⟨-, j, -, b, -, hb⟩
    have hj : (s.child j).pc.locked = false := by
      rw [← Bool.not_eq_true]
      exact fun hl => hex ⟨j, hl⟩
    rw [(h.ok j).frees hj b] at hb
    cases hb

theorem sum_rank_set_lt (s : State K) (file : List Char) (h : c.pc.rank < (s.child i).pc.rank) :
    ∑ j, ((s.set i file c).child j).pc.rank < ∑ j, (s.child j).pc.rank := by
  have hsum := sum_update (fun c => c.pc.rank) s.child i c
  simp only [State.set]
  omega

theorem Pc.exit0_of_rank (h : Pc.rank p = 0) (h1 : p ≠ .exit1) : p = .exit0 := by
  cases p with
  | exit0 => rfl
  | exit1 => exact absurd rfl h1
  | _ => cases h

theorem State.Inv.progress {s : State K} (h : s.Inv f v) (ht : Text f v)
    (hmax : (v + K : Int) ≤ intMax) (h1 : ∀ i, (s.child i).pc ≠ .exit1)
    (hi : (s.child i).pc.rank ≠ 0) :
    ∃ t, State.Step s t ∧ (t.Inv f v ∧ ∀ i, (t.child i).pc ≠ .exit1) ∧
      ∑ j, (t.child j).pc.rank < ∑ j, (s.child j).pc.rank := by
  obtain ⟨j, hj, hb⟩ := h.enabled hi
  have hinv := h.call ht hmax hb
  have hst : State.Step s (s.attempt j) := .call j h.no_fault hb
  cases hr : (s.child j).call s.file with
  | error e =>
    have hfault := hinv.no_fault
    rw [State.attempt, hr] at hfault
    cases hfault
  | ok r =>
    obtain ⟨hlt, hne⟩ := Pc.rank_next hj
    rw [← Child.call_pc hr] at hlt hne
    rw [State.attempt, hr] at hinv hst
    have h1' : ∀ k, ((s.set j r.1 r.2).child k).pc ≠ .exit1 :=
      State.set_child (P := fun _ c => c.pc ≠ .exit1) hne (fun k _ => h1 k) r.1
    exact ⟨_, hst, ⟨hinv, h1'⟩, sum_rank_set_lt s r.1 hlt⟩

theorem State.Inv.completes {s : State K} (h : s.Inv f v) (ht : Text f v)
    (hmax : (v + K : Int) ≤ intMax) (h1 : ∀ i, (s.child i).pc ≠ .exit1) :
    ∃ t, Relation.ReflTransGen State.Step s t ∧ ∀ i, (t.child i).pc = .exit0 := by
  have hstep : ∀ s : State K, (s.Inv f v ∧ ∀ i, (s.child i).pc ≠ .exit1) →
      (¬∀ i, (s.child i).pc.rank = 0) → ∃ t, State.Step s t ∧
        (t.Inv f v ∧ ∀ i, (t.child i).pc ≠ .exit1) ∧
        ∑ j, (t.child j).pc.rank < ∑ j, (s.child j).pc.rank := by
    rintro s ⟨h, h1⟩ hleft
    obtain ⟨i, hi⟩ := not_forall.1 hleft
    exact h.progress ht hmax h1 hi
  obtain ⟨t, hrun, ⟨-, ht1⟩, hall⟩ := exists_run_of_rank _ hstep ⟨h, h1⟩
  exact ⟨t, hrun, fun i => Pc.exit0_of_rank (hall i) (ht1 i)⟩

theorem State.Inv.count_eq {s : State K} (h : s.Inv f v) (hall : ∀ i, (s.child i).pc = .exit0) :
    s.count = K := by
  have hwrote : ∀ i, (s.child i).wrote = true := by
    intro i
    have hk := (h.ok i).knows
    rw [Child.Knows, hall i] at hk
    exact hk
  have hc : census Child.wrote s.child = Fintype.card (Fin K) := census_eq_card hwrote
  rwa [Fintype.card_fin] at hc

/-- Once all children have exited the file counts every one of them, and they do exit. -/
theorem no_lost_increment {s : State K} (ht : Text f v) (hmax : (v + K : Int) ≤ intMax)
    (hK : K ≠ 0 ∨ f ≠ []) (h : (flock f fun _ : Fin K => nuls).Reachable s) :
    ((∀ i, (s.child i).pc = .exit0) → s.file = decimal (v + K : Nat)) ∧
      ((∀ i, (s.child i).pc ≠ .exit1) →
        ∃ t, Relation.ReflTransGen State.Step s t ∧ ∀ i, (t.child i).pc = .exit0) := by
  have hinv := State.Inv.of_reachable ht hmax h
  refine ⟨fun hall => ?_, hinv.completes ht hmax⟩
  rw [hinv.file_eq, hinv.count_eq hall, content]
  split
  · next h0 =>
    subst h0
    rcases ht with ⟨rfl, -⟩ | rfl
    · exact absurd rfl (hK.resolve_left (by simp))
    · rfl
  · rfl

theorem no_lost_increment_two :
    ∃ s : State 2, (∀ i, (s.child i).pc = .exit0) ∧ s.file = ['2'] := by
  have h (s : State 2) := no_lost_increment (s := s) (f := []) (v := 0) (.inl ⟨rfl, rfl⟩)
    (by decide) (.inl (by decide))
  have hstart : (flock [] fun _ : Fin 2 => nuls).Reachable (State.start [] fun _ => nuls) :=
    .init rfl
  obtain ⟨s, hrun, hall⟩ := (h _ hstart).2 fun i => (by simp [State.start, Child.start])
  exact ⟨s, hall, (h s (hstart.trans hrun)).1 hall⟩

theorem no_child_empty_file :
    ∃ s : State 0, (flock [] fun _ : Fin 0 => nuls).Reachable s ∧
      (∀ i, (s.child i).pc = .exit0) ∧ s.file ≠ decimal (0 + 0 : Nat) :=
  ⟨State.start [] fun _ => nuls, .init rfl, fun i => i.elim0, by decide⟩

end Apue.Flock
