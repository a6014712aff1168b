import Mathlib.Tactic.Ring
import Apue.TokenBucket

namespace Apue.Tbf
set_option autoImplicit true

/-- A bucket in use: the call of mytbf_fetchtoken or mytbf_returntoken in progress, and what has
been fetched, returned and ticked since mytbf_init. -/
structure Meter where
  bucket : Bucket
  access : Option Access
  fetched : Int
  returned : Int
  ticks : Nat
  fault : Option Fault

def Meter.ticked (m : Meter) (b : Bucket) : Meter :=
  { m with bucket := b, access := m.access.map Access.wake, ticks := m.ticks + 1 }

def Meter.after (m : Meter) : Outcome → Meter
  | .on b a => { m with bucket := b, access := some a }
  | .fetched b r => { m with bucket := b, access := none, fetched := m.fetched + r }
  | .returned b x => { m with bucket := b, access := none, returned := m.returned + x }

/-- The handler runs to completion between any two accesses to p->token. -/
inductive Meter.Step (amount : Int → Prop) : Meter → Meter → Prop where
  | tick : m.fault = none → m.bucket.tick = .ok b → Step amount m (m.ticked b)
  | tickFault : m.fault = none → m.bucket.tick = .error e →
      Step amount m { m with fault := some e }
  | fetch : m.fault = none → m.access = none → amount x →
      Step amount m { m with access := some (.fetchTest x) }
  | giveBack : m.fault = none → m.access = none → amount x →
      Step amount m { m with access := some (.returnLoad x) }
  | access : m.fault = none → m.access = some a → a.step m.bucket = .ok o →
      Step amount m (m.after o)
  | accessFault : m.fault = none → m.access = some a → a.step m.bucket = .error e →
      Step amount m { m with fault := some e }

def Meter.start (b : Bucket) : Meter := ⟨b, none, 0, 0, 0, none⟩

def meter (cps burst pos : Int) (amount : Int → Prop) : System Meter where
  init m := m = Meter.start (created cps burst pos)
  step := Meter.Step amount

/-- What is in the bucket, and what the call has read from it, is covered by `limit`, the tokens not
yet fetched. -/
def Access.Covered (token limit : Int) : Access → Prop
  | .fetchTest x | .fetchPause x | .fetchLess x => 0 ≤ x ∧ token ≤ limit
  | .fetchMin _ => token ≤ limit
  | .fetchLoad r => r ≤ token ∧ token ≤ limit
  | .fetchStore r a => r ≤ a ∧ a ≤ limit
  | .returnLoad x => 0 ≤ x ∧ token ≤ limit
  | .returnStore x a => 0 ≤ x ∧ 0 ≤ a ∧ a ≤ limit
  | .returnLess x | .returnMin x => token ≤ limit + x
  | .returnCap x v => 0 ≤ v ∧ v ≤ limit + x

def Outcome.bucket : Outcome → Bucket
  | .on b _ | .fetched b _ | .returned b _ => b

def Outcome.Covered (limit : Int) : Outcome → Prop
  | .on b a => 0 ≤ b.token ∧ a.Covered b.token limit
  | .fetched b r => 0 ≤ b.token ∧ b.token ≤ limit - r
  | .returned b x => 0 ≤ b.token ∧ b.token ≤ limit + x

theorem Access.Covered.tick {a : Access} (h : a.Covered token limit) (hc : 0 ≤ c) :
    a.wake.Covered (token + c) (limit + c) := by
  cases a <;> simp only [Access.wake, Access.Covered] at h ⊢ <;> omega

/-- Ticks that arrive between two accesses can be lost, but no access creates tokens. -/
theorem Access.Covered.step {a : Access} {b : Bucket} (h : a.Covered b.token limit)
    (h0 : 0 ≤ b.token) (hb : 0 ≤ b.burst) (hs : a.step b = .ok o) : o.Covered limit := by
  cases a with
  | fetchTest x =>
    cases hs
    refine ⟨h0, ?_⟩
    split <;> exact h
  | fetchPause x =>
    cases hs
    exact ⟨h0, h⟩
  | fetchLess x =>
    cases hs
    refine ⟨h0, ?_⟩
    obtain ⟨-, hl⟩ := h
    split
    · exact hl
    · next hx => exact ⟨Int.not_lt.1 hx, hl⟩
  | fetchMin x =>
    cases hs
    exact ⟨h0, Int.le_refl _, h⟩
  | fetchLoad r =>
    cases hs
    exact ⟨h0, h⟩
  | fetchStore r a =>
    simp only [Access.step] at hs
    cases ht : addInt a (-r) with
    | error e =>
      rw [ht] at hs
      cases hs
    | ok t =>
      rw [ht] at hs
      cases hs
      obtain ⟨rfl, -⟩ := addInt_ok ht
      obtain ⟨hr, hl⟩ := h
      exact ⟨show 0 ≤ a + -r by omega, show a + -r ≤ limit - r by omega⟩
  | returnLoad x =>
    cases hs
    exact ⟨h0, h.1, h0, h.2⟩
  | returnStore x a =>
    simp only [Access.step] at hs
    cases ht : addInt a x with
    | error e =>
      rw [ht] at hs
      cases hs
    | ok t =>
      rw [ht] at hs
      cases hs
      obtain ⟨rfl, -⟩ := addInt_ok ht
      obtain ⟨hx, ha, hl⟩ := h
      exact ⟨show 0 ≤ a + x by omega, show a + x ≤ limit + x by omega⟩
  | returnLess x =>
    cases hs
    have hl : b.token ≤ limit + x := h
    refine ⟨h0, ?_⟩
    split
    · exact hl
    · next hlt => exact ⟨hb, Int.le_trans (Int.not_lt.1 hlt) hl⟩
  | returnMin x =>
    cases hs
    exact ⟨h0, h0, h⟩
  | returnCap x v =>
    cases hs
    exact h

theorem Access.step_params {a : Access} {b : Bucket} (hs : a.step b = .ok o) :
    o.bucket.cps = b.cps ∧ o.bucket.burst = b.burst ∧ o.bucket.pos = b.pos := by
  cases a with
  | fetchStore r a =>
    simp only [Access.step] at hs
    cases ht : addInt a (-r) with
    | error e =>
      rw [ht] at hs
      cases hs
    | ok t =>
      rw [ht] at hs
      cases hs
      exact ⟨rfl, rfl, rfl⟩
  | returnStore x a =>
    simp only [Access.step] at hs
    cases ht : addInt a x with
    | error e =>
      rw [ht] at hs
      cases hs
    | ok t =>
      rw [ht] at hs
      cases hs
      exact ⟨rfl, rfl, rfl⟩
  | _ =>
    cases hs
    exact ⟨rfl, rfl, rfl⟩

/-- The tokens that are left for later fetches. -/
def Meter.limit (m : Meter) : Int := m.bucket.cps * m.ticks - m.fetched + m.returned

theorem Meter.limit_ticked (m : Meter) {b : Bucket} (hb : b.cps = m.bucket.cps) :
    (m.ticked b).limit = m.limit + m.bucket.cps := by
  simp only [Meter.limit, Meter.ticked, hb]
  push_cast
  ring

structure Meter.Sound (cps burst : Int) (m : Meter) : Prop where
  cps_eq : m.bucket.cps = cps
  burst_eq : m.bucket.burst = burst
  nonneg : 0 ≤ m.bucket.token
  rate : m.fetched - m.returned ≤ cps * m.ticks
  idle : m.access = none → m.bucket.token ≤ m.limit
  busy : ∀ a, m.access = some a → a.Covered m.bucket.token m.limit

theorem Meter.Sound.start (cps burst pos : Int) :
    (Meter.start (created cps burst pos)).Sound cps burst := by
  refine ⟨rfl, rfl, Int.le_refl 0, ?_, fun _ => ?_, fun a ha => by cases ha⟩
  · simp [Meter.start]
  · simp [Meter.start, Meter.limit, created]

theorem Meter.Sound.ticked {m : Meter} (h : m.Sound cps burst) (hc : 0 ≤ cps)
    (ht : m.bucket.tick = .ok b) : (m.ticked b).Sound cps burst := by
  have hb := Bucket.tick_ok ht
  subst hb
  have hcps : 0 ≤ m.bucket.cps := h.cps_eq ▸ hc
  have hlim := m.limit_ticked (b := { m.bucket with token := m.bucket.token + m.bucket.cps }) rfl
  refine ⟨h.cps_eq, h.burst_eq, Int.add_nonneg h.nonneg hcps, ?_, ?_, ?_⟩
  · have hmore : cps * (m.ticks : Int) ≤ cps * ((m.ticks + 1 : Nat) : Int) :=
      Int.mul_le_mul_of_nonneg_left (by omega) hc
    exact Int.le_trans h.rate hmore
  · intro hn
    rw [hlim]
    exact Int.add_le_add_right (h.idle (Option.map_eq_none_iff.1 hn)) _
  · intro a' ha'
    obtain ⟨a, ha, rfl⟩ := Option.map_eq_some_iff.1 ha'
    rw [hlim]
    exact (h.busy a ha).tick hcps

theorem Meter.Sound.after {m : Meter} (h : m.Sound cps burst) (hb : 0 ≤ burst)
    (ha : m.access = some a) (hs : a.step m.bucket = .ok o) : (m.after o).Sound cps burst := by
  have hcov := (h.busy a ha).step h.nonneg (h.burst_eq ▸ hb) hs
  obtain ⟨hcps, hburst, -⟩ := Access.step_params hs
  have hcps' := hcps.trans h.cps_eq
  have hburst' := hburst.trans h.burst_eq
  have hrate := h.rate
  rw [Meter.limit, ← hcps, hcps'] at hcov
  cases o with
  | on b a' =>
    refine ⟨hcps', hburst', hcov.1, hrate, fun hn => (by cases hn), ?_⟩
    intro a₁ ha₁
    cases ha₁
    rw [Meter.limit, show (m.after (.on b a')).bucket.cps = cps from hcps']
    exact hcov.2
  | fetched b r =>
    obtain ⟨h0, hl⟩ := hcov
    have hl' : b.token ≤ cps * m.ticks - (m.fetched + r) + m.returned := by omega
    refine ⟨hcps', hburst', h0, ?_, fun _ => ?_, fun a ha => by cases ha⟩
    · change m.fetched + r - m.returned ≤ cps * m.ticks
      omega
    · rw [Meter.limit, show (m.after (.fetched b r)).bucket.cps = cps from hcps']
      exact hl'
  | returned b x =>
    obtain ⟨h0, hl⟩ := hcov
    have hl' : b.token ≤ cps * m.ticks - m.fetched + (m.returned + x) := by omega
    refine ⟨hcps', hburst', h0, ?_, fun _ => ?_, fun a ha => by cases ha⟩
    · change m.fetched - (m.returned + x) ≤ cps * m.ticks
      omega
    · rw [Meter.limit, show (m.after (.returned b x)).bucket.cps = cps from hcps']
      exact hl'

theorem Meter.Sound.step {m m' : Meter} (h : m.Sound cps burst) (hc : 0 ≤ cps) (hb : 0 ≤ burst)
    (hs : Meter.Step (0 ≤ ·) m m') : m'.Sound cps burst := by
  cases hs with
  | tick _ ht => exact h.ticked hc ht
  | tickFault => exact ⟨h.cps_eq, h.burst_eq, h.nonneg, h.rate, h.idle, h.busy⟩
  | fetch _ hn hx =>
    refine ⟨h.cps_eq, h.burst_eq, h.nonneg, h.rate, fun hn => (by cases hn), ?_⟩
    intro a ha
    cases ha
    exact ⟨hx, h.idle hn⟩
  | giveBack _ hn hx =>
    refine ⟨h.cps_eq, h.burst_eq, h.nonneg, h.rate, fun hn => (by cases hn), ?_⟩
    intro a ha
    cases ha
    exact ⟨hx, h.idle hn⟩
  | access _ ha hs => exact h.after hb ha hs
  | accessFault => exact ⟨h.cps_eq, h.burst_eq, h.nonneg, h.rate, h.idle, h.busy⟩

theorem Meter.sound_of_reachable (hc : 0 ≤ cps) (hb : 0 ≤ burst)
    (h : (meter cps burst pos (0 ≤ ·)).Reachable m) : m.Sound cps burst := by
  refine h.invariant ?_ ?_
  · rintro s rfl
    exact Meter.Sound.start cps burst pos
  · intro s t _ hs hst
    exact hs.step hc hb hst

/-- However the ticks fall between the accesses of the calls, no more is fetched than ticks and
returns have brought in. -/
theorem rate_limited (hc : 0 ≤ cps) (hb : 0 ≤ burst)
    (h : (meter cps burst pos (0 ≤ ·)).Reachable m) :
    m.fetched - m.returned ≤ cps * m.ticks ∧ 0 ≤ m.bucket.token := by
  have hs := Meter.sound_of_reachable hc hb h
  exact ⟨hs.rate, hs.nonneg⟩

/-- A fetch of 20 tokens interrupted by one tick inside MIN, which it sees, and by one inside the
subtraction, which is lost. -/
theorem rate_limited_lost_tick :
    ∃ m, (meter 10 5 0 (0 ≤ ·)).Reachable m ∧ m.ticks = 3 ∧ m.fetched = 20 ∧
      m.fetched - m.returned ≤ 10 * m.ticks ∧ 0 ≤ m.bucket.token := by
  have h : (meter 10 5 0 (0 ≤ ·)).Reachable (Meter.start (created 10 5 0)) := .init rfl
  have h := h.step (.tick rfl rfl)
  have h := h.step (.fetch (x := 20) rfl rfl (by decide))
  have h := h.step (.access rfl rfl rfl)
  have h := h.step (.access rfl rfl rfl)
  have h := h.step (.tick rfl rfl)
  have h := h.step (.access rfl rfl rfl)
  have h := h.step (.access rfl rfl rfl)
  have h := h.step (.tick rfl rfl)
  have h := h.step (.access rfl rfl rfl)
  exact ⟨_, h, rfl, rfl, rate_limited (by decide) (by decide) h⟩

end Apue.Tbf
