import Apue.Transfer

namespace Apue.TokenCat
set_option autoImplicit true

def tokenMax : Nat := 1024

def cps : Nat := 10

inductive Pc where
  /-- while (token <= 0) -/
  | test
  | pause
  | asleep
  | read
  /-- token-- -/
  | load
  | store (v : Nat)
  | write
  | ended
  deriving DecidableEq, Repr

/-- main of signal/token.c. The last two fields count the runs of the handler and the decrements of
token. -/
structure State where
  pc : Pc
  exit : Option Nat
  token : Nat
  rest : List UInt8
  out : List UInt8
  buf : List UInt8
  sz : Nat
  cur : Nat
  ticks : Nat
  spent : Nat
  deriving DecidableEq, Repr

/-- on_alarm. A pause returns behind it. -/
def State.onAlarm (s : State) : State :=
  { s with
    token := if s.token ≥ tokenMax then s.token else (s.token + 1) % 4294967296
    ticks := s.ticks + 1
    pc := if s.pc = .asleep then .test else s.pc }

def State.afterRead (s : State) : Ret → State
  | .count k =>
    { s with
      rest := s.rest.drop k
      buf := store s.buf (s.rest.take k)
      sz := k
      pc := .load }
  | .eintr => { s with pc := .test }
  | .error => { s with exit := some 1 }

/-- The store of token--, an unsigned int, and the test for the end of the file. -/
def State.afterStore (s : State) (v : Nat) : State :=
  let s' := { s with token := (v + 4294967295) % 4294967296, spent := s.spent + 1 }
  if s.sz = 0 then { s' with exit := some 0, pc := .ended } else { s' with cur := 0, pc := .write }

def State.afterWrite (s : State) : Ret → State
  | .count k =>
    { s with
      out := s.out ++ slice s.buf s.cur k
      cur := s.cur + k
      sz := s.sz - k
      pc := if s.sz - k > 0 then .write else .test }
  | .eintr => s
  | .error => { s with exit := some 1 }

inductive State.Step : State → State → Prop where
  | alarm : s.exit = none → Step s s.onAlarm
  | test : s.exit = none → s.pc = .test →
      Step s { s with pc := if s.token ≤ 0 then .pause else .read }
  | pause : s.exit = none → s.pc = .pause → Step s { s with pc := .asleep }
  | read : s.exit = none → s.pc = .read → r.OfRead cps s.rest → Step s (s.afterRead r)
  | load : s.exit = none → s.pc = .load → Step s { s with pc := .store s.token }
  | store : s.exit = none → s.pc = .store v → Step s (s.afterStore v)
  | write : s.exit = none → s.pc = .write → r.OfWrite s.sz → Step s (s.afterWrite r)

def start (content buf : List UInt8) : State := ⟨.test, none, 0, content, [], buf, 0, 0, 0, 0⟩

def tokenCat (content buf : List UInt8) : System State where
  init s := s = start content buf
  step := State.Step

/-- The bytes that have been read and not yet written. -/
def State.held (s : State) : List UInt8 :=
  match s.pc with
  | .load | .store _ => slice s.buf 0 s.sz
  | .write => slice s.buf s.cur s.sz
  | _ => []

def State.transfer (s : State) : Transfer UInt8 := ⟨s.out, s.held, s.rest⟩

/-- What has been written is paid for by the tokens spent, and what has been read by the token
about to be. -/
def State.Paid (s : State) : Prop :=
  match s.pc with
  | .test | .pause | .asleep => s.out.length ≤ cps * s.spent
  | .read => 0 < s.token ∧ s.out.length ≤ cps * s.spent
  | .load => 0 < s.token ∧ s.sz ≤ cps ∧ s.out.length ≤ cps * s.spent ∧ (s.sz = 0 → s.rest = [])
  | .store v => 0 < v ∧ v ≤ tokenMax ∧ v + s.spent ≤ s.ticks ∧ s.sz ≤ cps ∧
      s.out.length ≤ cps * s.spent ∧ (s.sz = 0 → s.rest = [])
  | .write => s.out.length + s.sz ≤ cps * s.spent
  | .ended => s.rest = [] ∧ s.out.length ≤ cps * s.spent

structure State.Metered (s : State) : Prop where
  token_le : s.token ≤ tokenMax
  covered : s.token + s.spent ≤ s.ticks
  paid : s.Paid
  ended : s.exit = some 0 → s.pc = .ended

theorem State.Paid.length_le {s : State} (h : s.Paid) : s.out.length ≤ cps * s.spent := by
  cases hp : s.pc <;> simp only [State.Paid, hp] at h <;> omega

theorem State.onAlarm_token {s : State} (h : s.token ≤ tokenMax) :
    s.token ≤ s.onAlarm.token ∧ s.onAlarm.token ≤ s.token + 1 ∧ s.onAlarm.token ≤ tokenMax := by
  by_cases hm : s.token ≥ tokenMax
  · have ht : s.onAlarm.token = s.token := if_pos hm
    omega
  · have ht : s.onAlarm.token = (s.token + 1) % 4294967296 := if_neg hm
    simp only [tokenMax] at h hm ⊢
    omega

theorem State.Metered.alarm {s : State} (h : s.Metered) (he : s.exit = none) :
    s.onAlarm.Metered := by
  obtain ⟨hge, hle, hmax⟩ := State.onAlarm_token h.token_le
  have hcov := h.covered
  refine ⟨hmax, ?_, ?_, fun hx => absurd (he.symm.trans hx) nofun⟩
  · change s.onAlarm.token + s.spent ≤ s.ticks + 1
    omega
  · have hp := h.paid
    have hpc : s.onAlarm.pc = if s.pc = .asleep then .test else s.pc := rfl
    cases hc : s.pc with
    | store v =>
      simp only [State.Paid, hc] at hp
      rw [hc] at hpc
      simp only [State.Paid, hpc]
      obtain ⟨h0, h1, h2, hrest⟩ := hp
      exact ⟨h0, h1, Nat.le_succ_of_le h2, hrest⟩
    | read | load =>
      simp only [State.Paid, hc] at hp
      rw [hc] at hpc
      simp only [State.Paid, hpc]
      exact ⟨Nat.lt_of_lt_of_le hp.1 hge, hp.2⟩
    | _ =>
      simp only [State.Paid, hc] at hp
      rw [hc] at hpc
      simp only [State.Paid, hpc]
      exact hp

theorem State.Metered.afterRead {s : State} (h : s.Metered) (he : s.exit = none)
    (hp : s.pc = .read) (hr : r.OfRead cps s.rest) : (s.afterRead r).Metered := by
  have hpaid := h.paid
  simp only [State.Paid, hp] at hpaid
  obtain ⟨h0, hout⟩ := hpaid
  cases r with
  | count k =>
    obtain ⟨hk, -, hend⟩ := hr
    refine ⟨h.token_le, h.covered, ⟨h0, hk, hout, fun hz => ?_⟩, fun hx => ?_⟩
    · simp only [State.afterRead, hend hz, List.drop_nil]
    · exact absurd (he.symm.trans hx) nofun
  | eintr => exact ⟨h.token_le, h.covered, hout, fun hx => absurd (he.symm.trans hx) nofun⟩
  | error => exact ⟨h.token_le, h.covered, h.paid, fun hx => absurd hx (by simp [State.afterRead])⟩

theorem State.Metered.afterStore {s : State} (h : s.Metered) (he : s.exit = none)
    (hp : s.pc = .store v) : (s.afterStore v).Metered := by
  have hpaid := h.paid
  simp only [State.Paid, hp] at hpaid
  obtain ⟨h0, hmax, hcov, hsz, hout, hend⟩ := hpaid
  -- the token is there, so the unsigned subtraction does not wrap
  have htok : (v + 4294967295) % 4294967296 = v - 1 := by
    simp only [tokenMax] at hmax
    omega
  have hle : v - 1 ≤ tokenMax := Nat.le_trans (Nat.sub_le v 1) hmax
  have hcov' : v - 1 + (s.spent + 1) ≤ s.ticks := by omega
  have hmul : cps * (s.spent + 1) = cps * s.spent + cps := Nat.mul_succ cps s.spent
  simp only [State.afterStore, htok]
  by_cases hz : s.sz = 0
  · rw [if_pos hz]
    refine ⟨hle, hcov', ⟨hend hz, ?_⟩, fun _ => rfl⟩
    change s.out.length ≤ cps * (s.spent + 1)
    omega
  · rw [if_neg hz]
    refine ⟨hle, hcov', ?_, fun hx => absurd (he.symm.trans hx) nofun⟩
    change s.out.length + s.sz ≤ cps * (s.spent + 1)
    omega

theorem State.Metered.afterWrite {s : State} (h : s.Metered) (he : s.exit = none)
    (hp : s.pc = .write) (hr : r.OfWrite s.sz) : (s.afterWrite r).Metered := by
  have hpaid := h.paid
  simp only [State.Paid, hp] at hpaid
  cases r with
  | count k =>
    have hk : k ≤ s.sz := hr
    have hlen : (s.out ++ slice s.buf s.cur k).length ≤ s.out.length + k := by
      rw [List.length_append]
      exact Nat.add_le_add_left (slice_length_le _ _ _) _
    refine ⟨h.token_le, h.covered, ?_, fun hx => absurd (he.symm.trans hx) nofun⟩
    simp only [State.Paid, State.afterWrite]
    by_cases hz : s.sz - k > 0
    · rw [if_pos hz]
      change (s.out ++ slice s.buf s.cur k).length + (s.sz - k) ≤ cps * s.spent
      omega
    · rw [if_neg hz]
      change (s.out ++ slice s.buf s.cur k).length ≤ cps * s.spent
      omega
  | eintr => exact h
  | error => exact ⟨h.token_le, h.covered, h.paid, fun hx => absurd hx (by simp [State.afterWrite])⟩

theorem State.Metered.step {s t : State} (h : s.Metered) (hst : s.Step t) : t.Metered := by
  have hpaid := h.paid
  cases hst with
  | alarm he => exact h.alarm he
  | test he hp =>
    simp only [State.Paid, hp] at hpaid
    refine ⟨h.token_le, h.covered, ?_, fun hx => absurd (he.symm.trans hx) nofun⟩
    simp only [State.Paid]
    by_cases ht : s.token ≤ 0
    · rw [if_pos ht]
      exact hpaid
    · rw [if_neg ht]
      exact ⟨Nat.lt_of_not_le ht, hpaid⟩
  | pause he hp =>
    simp only [State.Paid, hp] at hpaid
    exact ⟨h.token_le, h.covered, hpaid, fun hx => absurd (he.symm.trans hx) nofun⟩
  | read he hp hr => exact h.afterRead he hp hr
  | load he hp =>
    simp only [State.Paid, hp] at hpaid
    obtain ⟨h0, hrest⟩ := hpaid
    refine ⟨h.token_le, h.covered, ?_, fun hx => absurd (he.symm.trans hx) nofun⟩
    exact ⟨h0, h.token_le, h.covered, hrest.1, hrest.2.1, hrest.2.2⟩
  | store he hp => exact h.afterStore he hp
  | write he hp hr => exact h.afterWrite he hp hr

theorem metered_of_reachable (h : (tokenCat content buf).Reachable s) : s.Metered := by
  refine h.invariant ?_ ?_
  · rintro s rfl
    exact ⟨Nat.zero_le _, Nat.le_refl 0, Nat.zero_le _, fun hx => by cases hx⟩
  · intro s t _ ih hst
    exact ih.step hst

theorem State.held_onAlarm (s : State) : s.onAlarm.held = s.held := by
  have hpc : s.onAlarm.pc = if s.pc = .asleep then .test else s.pc := rfl
  cases hc : s.pc <;>
    · rw [hc] at hpc
      simp only [State.held, hpc, hc]
      rfl

theorem State.transfer_afterRead {s : State} (hp : s.pc = .read) (hr : r.OfRead cps s.rest) :
    (s.afterRead r).transfer = s.transfer ∨
      Transfer.Step s.transfer (s.afterRead r).transfer := by
  have hheld : s.transfer.held = [] := by simp only [State.transfer, State.held, hp]
  cases r with
  | count k => exact .inr (Transfer.Step.read hheld s.buf hr.2.1)
  | eintr =>
    left
    simp only [State.transfer, State.held, State.afterRead, hp]
  | error => exact .inl rfl

theorem State.transfer_afterStore {s : State} (hp : s.pc = .store v) :
    (s.afterStore v).transfer = s.transfer := by
  by_cases hz : s.sz = 0
  · rw [State.afterStore, if_pos hz]
    simp only [State.transfer, State.held, hp, hz, slice_zero]
  · rw [State.afterStore, if_neg hz]
    simp only [State.transfer, State.held, hp]

theorem State.transfer_afterWrite {s : State} (hp : s.pc = .write) (hr : r.OfWrite s.sz) :
    (s.afterWrite r).transfer = s.transfer ∨
      Transfer.Step s.transfer (s.afterWrite r).transfer := by
  cases r with
  | count k =>
    right
    have hheld : s.held = slice s.buf s.cur s.sz := by simp only [State.held, hp]
    have hheld' : (s.afterWrite (.count k)).held = slice s.buf (s.cur + k) (s.sz - k) := by
      by_cases hz : s.sz - k > 0
      · simp only [State.held, State.afterWrite, if_pos hz]
      · simp only [State.held, State.afterWrite, if_neg hz]
        rw [Nat.eq_zero_of_not_pos hz, slice_zero]
    have hst := Transfer.Step.write (t := s.transfer) hheld hr
    rw [← hheld'] at hst
    exact hst
  | eintr => exact .inl rfl
  | error => exact .inl rfl

theorem State.transfer_step {s t : State} (hst : s.Step t) :
    t.transfer = s.transfer ∨ Transfer.Step s.transfer t.transfer := by
  cases hst with
  | alarm =>
    left
    simp only [State.transfer, State.held_onAlarm]
    rfl
  | test _ hp =>
    left
    by_cases ht : s.token ≤ 0 <;> simp only [State.transfer, State.held, hp, ht, if_true, if_false]
  | pause _ hp =>
    left
    simp only [State.transfer, State.held, hp]
  | read _ hp hr => exact State.transfer_afterRead hp hr
  | load _ hp =>
    left
    simp only [State.transfer, State.held, hp]
  | store _ hp => exact .inl (State.transfer_afterStore hp)
  | write _ hp hr => exact State.transfer_afterWrite hp hr

theorem transfer_reachable (h : (tokenCat content buf).Reachable s) :
    (transfer content).Reachable s.transfer := by
  refine h.project ?_ ?_
  · rintro s rfl
    rfl
  · intro s t _ hst
    exact State.transfer_step hst

/-- Stdout is a prefix of the file, no longer than the ticks allow, and the whole file at
exit(0). -/
theorem token_cat_copies (h : (tokenCat content buf).Reachable s) :
    s.out <+: content ∧ s.out.length ≤ cps * s.ticks ∧ s.token ≤ tokenMax ∧
      (s.exit = some 0 → s.out = content) := by
  have hm := metered_of_reachable h
  have ht := transfer_reachable h
  refine ⟨Transfer.out_prefix ht, ?_, hm.token_le, fun he => ?_⟩
  · have hspent : s.spent ≤ s.ticks := by
      have hc := hm.covered
      omega
    exact Nat.le_trans hm.paid.length_le (Nat.mul_le_mul_left cps hspent)
  · have hp := hm.ended he
    have hpaid := hm.paid
    simp only [State.Paid, hp] at hpaid
    refine Transfer.out_eq ht ?_ hpaid.1
    simp only [State.transfer, State.held, hp]

/-- A file of two bytes, written in two pieces; the second tick falls into token-- and is lost. -/
theorem token_cat_copies_ab :
    ∃ s, (tokenCat [97, 98] (List.replicate cps 0)).Reachable s ∧ s.exit = some 0 ∧ s.ticks = 3 ∧
      s.out <+: [97, 98] ∧ s.out.length ≤ cps * s.ticks ∧ s.token ≤ tokenMax ∧
      (s.exit = some 0 → s.out = [97, 98]) := by
  have h : (tokenCat [97, 98] (List.replicate cps 0)).Reachable (start _ _) := .init rfl
  have h := h.step (.test rfl rfl)
  have h := h.step (.pause rfl rfl)
  have h := h.step (.alarm rfl)
  have h := h.step (.test rfl rfl)
  have h := h.step (.read (r := .count 2) rfl rfl (by decide))
  have h := h.step (.load rfl rfl)
  have h := h.step (.alarm rfl)
  have h := h.step (.store rfl rfl)
  have h := h.step (.write (r := .count 1) rfl rfl (by decide))
  have h := h.step (.write (r := .eintr) rfl rfl (by decide))
  have h := h.step (.write (r := .count 1) rfl rfl (by decide))
  have h := h.step (.alarm rfl)
  have h := h.step (.test rfl rfl)
  have h := h.step (.read (r := .count 0) rfl rfl (by decide))
  have h := h.step (.load rfl rfl)
  have h := h.step (.store rfl rfl)
  exact ⟨_, h, rfl, rfl, token_cat_copies h⟩

end Apue.TokenCat
