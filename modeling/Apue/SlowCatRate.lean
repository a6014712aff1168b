import Apue.SlowCat
import Apue.TokenRate

namespace Apue.Tbf
set_option autoImplicit true

/-- The tokens of a return that are already in the bucket but not yet on the books. -/
def Access.early : Access → Int
  | .returnLess x | .returnMin x | .returnCap x _ => x
  | _ => 0

def Meter.early (m : Meter) : Int :=
  match m.access with
  | some a => a.early
  | none => 0

theorem Access.early_wake (a : Access) : a.wake.early = a.early := by
  cases a <;> rfl

theorem Meter.token_le_after {m : Meter} (h : m.Sound cps burst) (hb : 0 ≤ burst)
    (hle : m.bucket.token ≤ m.limit + m.early) (ha : m.access = some a)
    (hs : a.step m.bucket = .ok o) :
    (m.after o).bucket.token ≤ (m.after o).limit + (m.after o).early := by
  have hafter := h.after hb ha hs
  have hcov := h.busy a ha
  simp only [Meter.early, ha] at hle
  cases o with
  | fetched b r | returned b x =>
    have hidle := hafter.idle rfl
    simp only [Meter.early, Meter.after, Int.add_zero] at hidle ⊢
    exact hidle
  | on b a' =>
    obtain ⟨hcps, -, -⟩ := Access.step_params hs
    have hlim : (m.after (.on b a')).limit = m.limit := by
      simp only [Meter.limit, Meter.after]
      rw [show b.cps = m.bucket.cps from hcps]
    rw [hlim]
    change b.token ≤ m.limit + a'.early
    cases a with
    | returnStore x v =>
      obtain ⟨t, ht, he⟩ := bind_ok hs
      cases he
      obtain ⟨rfl, -⟩ := addInt_ok ht
      obtain ⟨-, -, hv⟩ := hcov
      exact Int.add_le_add_right hv x
    | fetchStore r v =>
      obtain ⟨t, -, he⟩ := bind_ok hs
      cases he
    | fetchTest x | fetchLess x =>
      cases hs
      split <;> exact hle
    | returnLess x =>
      cases hs
      split <;> exact hle
    | fetchPause | fetchMin | fetchLoad | returnLoad | returnMin =>
      cases hs
      exact hle
    | returnCap x v => cases hs

/-- Every token in the bucket has come from a tick or a return and has not been fetched. -/
theorem Meter.token_le (hc : 0 ≤ cps) (hb : 0 ≤ burst)
    (h : (meter cps burst pos (0 ≤ ·)).Reachable m) : m.bucket.token ≤ m.limit + m.early := by
  refine h.invariant (P := fun m => m.bucket.token ≤ m.limit + m.early) ?_ ?_
  · rintro m rfl
    simp [Meter.start, Meter.limit, Meter.early, created]
  · intro m m' hr ih hst
    have hsound := Meter.sound_of_reachable hc hb hr
    cases hst with
    | tick _ ht =>
      obtain rfl := Bucket.tick_ok ht
      have hlim := m.limit_ticked
        (b := { m.bucket with token := m.bucket.token + m.bucket.cps }) rfl
      have he : (m.ticked { m.bucket with token := m.bucket.token + m.bucket.cps }).early =
          m.early := by
        simp only [Meter.early, Meter.ticked]
        cases m.access with
        | none => rfl
        | some a => exact a.early_wake
      rw [hlim, he]
      change m.bucket.token + m.bucket.cps ≤ _
      omega
    | fetch _ hn | giveBack _ hn =>
      simp only [Meter.early, hn] at ih
      exact ih
    | access _ ha hs => exact Meter.token_le_after hsound hb ih ha hs
    | tickFault | accessFault => exact ih

theorem Access.step_error {a : Access} {b : Bucket} (h : a.Covered b.token limit)
    (hr : ∀ r v, a = .fetchStore r v → 0 ≤ r) (hs : a.step b = .error e) :
    intMax < limit ∨ ∃ x v, a = .returnStore x v ∧ intMax < limit + x := by
  cases a with
  | fetchStore r v =>
    obtain ⟨hle, hv⟩ := h
    have h0 := hr r v rfl
    rcases bind_error hs with ht | ⟨t, -, ht⟩
    · have hgt := addInt_error_gt (by omega) ht
      exact .inl (by omega)
    · cases ht
  | returnStore x v =>
    obtain ⟨hx, h0, hv⟩ := h
    rcases bind_error hs with ht | ⟨t, -, ht⟩
    · have hgt := addInt_error_gt (by omega) ht
      exact .inr ⟨x, v, rfl, by omega⟩
    · cases ht
  | _ => cases hs

end Apue.Tbf

namespace Apue.SlowCat
set_option autoImplicit true

open Tbf (Meter Access Outcome)

def cps : Int := 10

def burst : Int := 1024

/-- slow_cat with the bucket that mytbf_init(CPS, BURST) has given it. -/
structure Metered where
  main : State
  meter : Meter

def Metered.Running (s : Metered) : Prop := s.main.Running ∧ s.meter.fault = none

/-- mytbf_fetchtoken returns. The result is the size that read gets, for a buffer of `bufSize`
bytes. -/
def State.fetched (s : State) (r : Int) : State :=
  if 0 ≤ r ∧ r ≤ bufSize then s.step (.count r.toNat) else { s with fault := some .bounds }

/-- main goes on when a call of the library has made its last access. -/
def State.resume (s : State) : Outcome → State
  | .on _ _ => s
  | .fetched _ r => s.fetched r
  | .returned _ _ => s.step (.count 0)

/-- The handler runs between any two accesses to p->token and between any two calls. stdout takes
writes as `ok` allows it. -/
inductive Metered.Step (ok : State → Ret → Prop) : Metered → Metered → Prop where
  | tick : s.Running → s.meter.bucket.tick = .ok b → Step ok s { s with meter := s.meter.ticked b }
  | tickFault : s.Running → s.meter.bucket.tick = .error e →
      Step ok s { s with meter := { s.meter with fault := some e } }
  | fetch : s.Running → s.main.pc = .fetch → s.meter.access = none →
      Step ok s { s with meter := { s.meter with access := some (.fetchTest bufSize) } }
  | giveBack {fetched : Nat} : s.Running → s.main.pc = .giveBack fetched →
      s.meter.access = none →
      Step ok s { s with
        meter := { s.meter with access := some (.returnLoad (fetched - s.main.sz)) } }
  | access : s.Running → s.meter.access = some a → a.step s.meter.bucket = .ok o →
      Step ok s ⟨s.main.resume o, s.meter.after o⟩
  | accessFault : s.Running → s.meter.access = some a → a.step s.meter.bucket = .error e →
      Step ok s { s with meter := { s.meter with fault := some e } }
  | read : s.Running → s.main.pc = .read fetched → s.main.Allows r →
      Step ok s { s with main := s.main.step r }
  | write : s.Running → s.main.pc = .write → s.main.Allows r → ok s.main r →
      Step ok s { s with main := s.main.step r }

def metered (ok : State → Ret → Prop) (content buf : List UInt8) (pos : Int) :
    System Metered where
  init s := s = ⟨start content buf, Meter.start (Tbf.created cps burst pos)⟩
  step := Metered.Step ok

def Serves (pc : Pc) (sz : Nat) : Access → Prop
  | .fetchTest x | .fetchPause x | .fetchLess x | .fetchMin x => pc = .fetch ∧ x = bufSize
  | .fetchLoad r | .fetchStore r _ => pc = .fetch ∧ 0 ≤ r
  | .returnLoad x | .returnStore x _ | .returnLess x | .returnMin x | .returnCap x _ =>
    ∃ fetched : Nat, pc = .giveBack fetched ∧ x = fetched - sz

theorem Serves.wake (h : Serves pc sz a) : Serves pc sz a.wake := by
  cases a <;> exact h

theorem Serves.step {b : Tbf.Bucket} (h : Serves pc sz a) (h0 : 0 ≤ b.token)
    (hs : a.step b = .ok o) :
    match o with
    | .on _ a' => Serves pc sz a'
    | .fetched _ r => pc = .fetch ∧ 0 ≤ r
    | .returned _ x => ∃ fetched : Nat, pc = .giveBack fetched ∧ x = fetched - sz := by
  cases a with
  | fetchStore | returnStore =>
    obtain ⟨t, -, he⟩ := bind_ok hs
    cases he
    exact h
  | fetchTest | returnLess =>
    cases hs
    dsimp only
    split <;> exact h
  | fetchLess x =>
    cases hs
    obtain ⟨hpc, rfl⟩ := h
    dsimp only
    split
    · exact ⟨hpc, rfl⟩
    · exact ⟨hpc, by decide⟩
  | fetchMin x =>
    cases hs
    exact ⟨h.1, h0⟩
  | _ =>
    cases hs
    exact h

/-- The tokens in hand pay for the bytes read from the file and for the read to come. -/
def State.Paid (n : Nat) (tokens : Int) (s : State) : Prop :=
  match s.pc with
  | .read fetched => n - s.rest.length + fetched ≤ tokens
  | .giveBack fetched => s.sz ≤ fetched ∧ n - s.rest.length + fetched - s.sz ≤ tokens
  | _ => n - s.rest.length ≤ tokens

structure Metered.Inv (content buf : List UInt8) (pos : Int) (s : Metered) : Prop where
  meter : (Tbf.meter cps burst pos (0 ≤ ·)).Reachable s.meter
  main : (fullRuns content buf).Reachable { s.main with fault := none }
  serves : ∀ a, s.meter.access = some a → Serves s.main.pc s.main.sz a
  paid : s.main.Paid content.length (s.meter.fetched - s.meter.returned)
  safe : cps * s.meter.ticks ≤ bufSize → s.main.fault = none ∧ s.meter.fault = none

theorem Metered.Inv.access_none {s : Metered} (h : s.Inv content buf pos)
    (hf : s.main.pc ≠ .fetch) (hg : ∀ fetched, s.main.pc ≠ .giveBack fetched) :
    s.meter.access = none := by
  cases ha : s.meter.access with
  | none => rfl
  | some a =>
    have hs := h.serves a ha
    cases a with
    | returnLoad | returnStore | returnLess | returnMin | returnCap =>
      obtain ⟨fetched, hpc, -⟩ := hs
      exact absurd hpc (hg fetched)
    | _ => exact absurd hs.1 hf

theorem Metered.Inv.rest_le {s : Metered} (h : s.Inv content buf pos) :
    s.main.rest.length ≤ content.length := by
  have hc := Transfer.content_eq (transfer_reachable h.main)
  rw [← hc, List.length_append, List.length_append]
  change s.main.rest.length ≤ _ + (_ + s.main.rest.length)
  omega

theorem Metered.Inv.sound {s : Metered} (h : s.Inv content buf pos) :
    s.meter.Sound cps burst :=
  Meter.sound_of_reachable (by decide) (by decide) h.meter

theorem Metered.Inv.due_le {s : Metered} (h : s.Inv content buf pos)
    (hpc : s.main.pc = .giveBack fetched) :
    (fetched : Int) - s.main.sz ≤ s.meter.fetched - s.meter.returned := by
  have hp := h.paid
  have hrest := h.rest_le
  simp only [State.Paid, hpc] at hp
  omega

theorem Metered.Inv.tokens_nonneg {s : Metered} (h : s.Inv content buf pos) :
    0 ≤ s.meter.fetched - s.meter.returned := by
  have hp := h.paid
  have hrest := h.rest_le
  unfold State.Paid at hp
  split at hp <;> omega

theorem Metered.Inv.limit_le {s : Metered} (h : s.Inv content buf pos) :
    s.meter.limit ≤ cps * s.meter.ticks := by
  have h0 := h.tokens_nonneg
  rw [Meter.limit, h.sound.cps_eq]
  omega

theorem Metered.Inv.token_le {s : Metered} (h : s.Inv content buf pos) :
    s.meter.bucket.token ≤ cps * s.meter.ticks := by
  have hle := Meter.token_le (by decide) (by decide) h.meter
  have h0 := h.tokens_nonneg
  have hlim := h.limit_le
  have hearly : s.meter.early ≤ s.meter.fetched - s.meter.returned := by
    cases ha : s.meter.access with
    | none =>
      simp only [Meter.early, ha]
      exact h0
    | some a =>
      simp only [Meter.early, ha]
      have hs := h.serves a ha
      cases a with
      | returnLess x | returnMin x | returnCap x v =>
        obtain ⟨fetched, hpc, rfl⟩ := hs
        exact h.due_le hpc
      | _ => exact h0
  rw [Meter.limit, h.sound.cps_eq] at hle
  omega

theorem Metered.Inv.tick_fault {s : Metered} (h : s.Inv content buf pos)
    (he : s.meter.bucket.tick = .error e) : ¬cps * s.meter.ticks ≤ bufSize := by
  intro hle
  have ht := h.token_le
  have hn := h.sound.nonneg
  rw [Tbf.Bucket.tick_of_range] at he
  · cases he
  · rw [h.sound.cps_eq]
    simp only [intMin, cps]
    omega
  · rw [h.sound.cps_eq]
    simp only [intMax, cps, bufSize] at hle ht ⊢
    omega

theorem Metered.Inv.access_fault {s : Metered} (h : s.Inv content buf pos)
    (ha : s.meter.access = some a) (he : a.step s.meter.bucket = .error e) :
    ¬cps * s.meter.ticks ≤ bufSize := by
  intro hle
  have hlim := h.limit_le
  have hs := h.serves a ha
  have hmax : (bufSize : Int) < intMax := by decide
  have hr : ∀ r v, a = .fetchStore r v → 0 ≤ r := by
    rintro r v rfl
    exact hs.2
  rcases Access.step_error (h.sound.busy a ha) hr he with hgt | ⟨x, v, rfl, hgt⟩
  · omega
  · obtain ⟨fetched, hpc, rfl⟩ := hs
    have hdue := h.due_le hpc
    rw [Meter.limit, h.sound.cps_eq] at hgt
    omega

theorem Metered.Inv.main_eq {s : Metered} (h : s.Inv content buf pos) (hr : s.Running) :
    (fullRuns content buf).Reachable s.main := by
  have hm := h.main
  rwa [← hr.1.2] at hm

theorem Metered.Inv.tick {s : Metered} (h : s.Inv content buf pos) (hr : s.Running)
    (ht : s.meter.bucket.tick = .ok b) :
    Metered.Inv content buf pos { s with meter := s.meter.ticked b } := by
  refine ⟨.step h.meter (.tick hr.2 ht), h.main, ?_, h.paid, fun _ => ⟨hr.1.2, hr.2⟩⟩
  intro a ha
  obtain ⟨a', ha', rfl⟩ := Option.map_eq_some_iff.1 ha
  exact (h.serves a' ha').wake

theorem State.step_fault {s : State} (hb : s.Bounded) (hf : s.fault = none) :
    (s.step r).fault = none := by
  cases hp : s.pc with
  | fetch =>
    simp only [State.step, hp]
    cases r with
    | count n =>
      simp only [State.afterFetch]
      split <;> exact hf
    | _ => exact hf
  | read fetched =>
    simp only [State.step, hp]
    cases r with
    | count n =>
      simp only [State.afterRead]
      split <;> exact hf
    | _ => exact hf
  | write =>
    simp only [State.Bounded, hp] at hb
    have hle : ¬bufSize < s.cur + s.sz := by omega
    simp only [State.step, hp, State.afterWrite, if_neg hle]
    cases r <;> exact hf
  | _ =>
    simp only [State.step, hp]
    exact hf

theorem Metered.Inv.main_step {s : Metered} (h : s.Inv content buf pos) (hr : s.Running)
    (hallow : s.main.Allows r) (hfull : Full s.main r)
    (hm : (Tbf.meter cps burst pos (0 ≤ ·)).Reachable m) (hf : m.fault = none)
    (ha : m.access = none)
    (hp : (s.main.step r).Paid content.length (m.fetched - m.returned)) :
    Metered.Inv content buf pos ⟨s.main.step r, m⟩ := by
  have hmain := h.main_eq hr
  have hfault : (s.main.step r).fault = none :=
    State.step_fault (bounded_of_reachable hmain) hr.1.2
  refine ⟨hm, ?_, fun a he => ?_, hp, fun _ => ⟨hfault, hf⟩⟩
  · have hstep : (fullRuns content buf).Reachable (s.main.step r) :=
      .step hmain ⟨r, hr.1, hallow, hfull, rfl⟩
    change (fullRuns content buf).Reachable { s.main.step r with fault := none }
    rwa [← hfault]
  · rw [show m.access = some a from he] at ha
    cases ha

/-- A fetch that asks the read for more than the buffer holds has got more than 1024 tokens. -/
theorem Metered.Inv.fetched {s : Metered} (h : s.Inv content buf pos) (hr : s.Running)
    (hpc : s.main.pc = .fetch) (h0 : 0 ≤ r) (ha : s.meter.access = some a)
    (hs : a.step s.meter.bucket = .ok (.fetched b r)) :
    Metered.Inv content buf pos ⟨s.main.fetched r, s.meter.after (.fetched b r)⟩ := by
  have hmeter : (Tbf.meter cps burst pos (0 ≤ ·)).Reachable (s.meter.after (.fetched b r)) :=
    .step h.meter (.access hr.2 ha hs)
  have hp := h.paid
  simp only [State.Paid, hpc] at hp
  unfold State.fetched
  split
  · next hle =>
    refine h.main_step hr ?_ ?_ hmeter hr.2 rfl ?_
    · simp only [State.Allows, hpc]
      exact ⟨r.toNat, by omega, rfl⟩
    · intro hw
      rw [hpc] at hw
      cases hw
    · simp only [State.step, hpc, State.afterFetch, Meter.after]
      split
      · simp only [State.Paid, hpc]
        omega
      · simp only [State.Paid]
        omega
  · next hle =>
    refine ⟨hmeter, h.main, fun a ha => ?_, ?_, fun hticks => ?_⟩
    · cases ha
    · simp only [State.Paid, hpc, Meter.after]
      omega
    · have hrate := (Meter.sound_of_reachable (by decide) (by decide) hmeter).rate
      have htokens := h.tokens_nonneg
      simp only [Meter.after] at hrate hticks
      omega

theorem Metered.Inv.returned {s : Metered} {fetched : Nat} (h : s.Inv content buf pos)
    (hr : s.Running) (hpc : s.main.pc = .giveBack fetched) (ha : s.meter.access = some a)
    (hs : a.step s.meter.bucket = .ok (.returned b (fetched - s.main.sz))) :
    Metered.Inv content buf pos
      ⟨s.main.step (.count 0), s.meter.after (.returned b (fetched - s.main.sz))⟩ := by
  have hp := h.paid
  simp only [State.Paid, hpc] at hp
  refine h.main_step hr ?_ ?_ (.step h.meter (.access hr.2 ha hs)) hr.2 rfl ?_
  · simp only [State.Allows, hpc]
  · intro hw
    rw [hpc] at hw
    cases hw
  · simp only [State.step, hpc, State.Paid, Meter.after]
    omega

theorem Metered.Inv.read {s : Metered} {fetched : Nat} (h : s.Inv content buf pos)
    (hr : s.Running) (hpc : s.main.pc = .read fetched) (hallow : s.main.Allows r) :
    Metered.Inv content buf pos { s with main := s.main.step r } := by
  have hp := h.paid
  have hn := h.access_none (by simp [hpc]) (by simp [hpc])
  refine h.main_step hr hallow ?_ h.meter hr.2 hn ?_
  · cases r with
    | count k =>
      intro hw
      rw [hpc] at hw
      cases hw
    | _ => trivial
  · simp only [State.Paid, hpc] at hp
    simp only [State.Allows, hpc] at hallow
    simp only [State.step, hpc]
    cases r with
    | count k =>
      obtain ⟨hk, hl, -⟩ := hallow
      simp only [State.afterRead]
      split
      · simp only [State.Paid]
        omega
      · simp only [State.Paid, List.length_drop]
        omega
    | eintr =>
      simp only [State.afterRead, State.Paid]
      omega
    | error =>
      simp only [State.afterRead, State.Paid, hpc]
      exact hp

theorem Metered.Inv.write {s : Metered} (h : s.Inv content buf pos) (hr : s.Running)
    (hpc : s.main.pc = .write) (hallow : s.main.Allows r) (hfull : Full s.main r) :
    Metered.Inv content buf pos { s with main := s.main.step r } := by
  have hp := h.paid
  have hn := h.access_none (by simp [hpc]) (by simp [hpc])
  have hb := bounded_of_reachable (h.main_eq hr)
  simp only [State.Bounded, hpc] at hb
  have hle : ¬bufSize < s.main.cur + s.main.sz := by omega
  refine h.main_step hr hallow hfull h.meter hr.2 hn ?_
  simp only [State.Paid, hpc] at hp
  simp only [State.step, hpc, State.afterWrite, if_neg hle]
  cases r with
  | count k =>
    dsimp only
    split <;> exact hp
  | _ =>
    simp only [State.Paid, hpc]
    exact hp

theorem Metered.Inv.step {s t : Metered} (h : s.Inv content buf pos) (hst : Metered.Step Full s t) :
    t.Inv content buf pos := by
  cases hst with
  | tick hr ht => exact h.tick hr ht
  | tickFault hr he =>
    exact ⟨.step h.meter (.tickFault hr.2 he), h.main, h.serves, h.paid,
      fun hle => absurd hle (h.tick_fault he)⟩
  | fetch hr hpc hn =>
    refine ⟨.step h.meter (.fetch hr.2 hn (by decide)), h.main, ?_, h.paid,
      fun _ => ⟨hr.1.2, hr.2⟩⟩
    intro a ha
    cases ha
    exact ⟨hpc, rfl⟩
  | giveBack hr hpc hn =>
    have hp := h.paid
    simp only [State.Paid, hpc] at hp
    refine ⟨.step h.meter (.giveBack hr.2 hn (by omega)), h.main, ?_, h.paid,
      fun _ => ⟨hr.1.2, hr.2⟩⟩
    intro a ha
    cases ha
    exact ⟨_, hpc, rfl⟩
  | access hr ha hs =>
    rename_i a o
    have hserve := (h.serves a ha).step h.sound.nonneg hs
    cases o with
    | on b a' =>
      refine ⟨.step h.meter (.access hr.2 ha hs), h.main, ?_, h.paid, fun _ => ⟨hr.1.2, hr.2⟩⟩
      intro a ha
      cases ha
      exact hserve
    | fetched b r => exact h.fetched hr hserve.1 hserve.2 ha hs
    | returned b x =>
      obtain ⟨fetched, hpc, rfl⟩ := hserve
      exact h.returned hr hpc ha hs
  | accessFault hr ha he =>
    exact ⟨.step h.meter (.accessFault hr.2 ha he), h.main, h.serves, h.paid,
      fun hle => absurd hle (h.access_fault ha he)⟩
  | read hr hpc hallow => exact h.read hr hpc hallow
  | write hr hpc hallow hfull => exact h.write hr hpc hallow hfull

theorem metered_inv (h : (metered Full content buf pos).Reachable s) : s.Inv content buf pos := by
  refine h.invariant ?_ fun _ _ _ hi hst => hi.step hst
  rintro s rfl
  refine ⟨.init rfl, .init rfl, nofun, ?_, fun _ => ⟨rfl, rfl⟩⟩
  simp [State.Paid, start, Meter.start]

/-- Where stdout takes each write whole, slow_cat puts out the file in order, with at most ten bytes
for each tick. -/
theorem slow_cat_rate (h : (metered Full content buf pos).Reachable s) :
    s.main.out <+: content ∧ s.main.out.length ≤ 10 * s.meter.ticks ∧
      (s.main.pc = .ended → s.main.out = content) ∧
      (10 * s.meter.ticks ≤ 1024 → s.main.fault = none ∧ s.meter.fault = none) := by
  have hi := metered_inv h
  have hgood := good_of_reachable hi.main
  have hlen := congrArg List.length (Transfer.content_eq (transfer_reachable hi.main))
  have hrate := hi.sound.rate
  have hpaid : (content.length : Int) - s.main.rest.length ≤
      s.meter.fetched - s.meter.returned := by
    have hp := hi.paid
    unfold State.Paid at hp
    split at hp <;> omega
  refine ⟨hgood.out, ?_, hgood.ended, fun hle => hi.safe ?_⟩
  · rw [List.length_append, List.length_append] at hlen
    change s.main.out.length + (_ + s.main.rest.length) = _ at hlen
    simp only [cps] at hrate
    omega
  · simp only [cps, bufSize]
    omega

theorem slow_cat_rate_ab : ∃ s, (metered Full [97, 98] (List.replicate bufSize 0) 0).Reachable s ∧
    s.main.out = [97, 98] ∧ s.meter.bucket.token = 8 ∧ s.main.out.length ≤ 10 * s.meter.ticks := by
  have h : (metered Full [97, 98] (List.replicate bufSize 0) 0).Reachable _ := .init rfl
  have h := h.step (.tick ⟨⟨rfl, rfl⟩, rfl⟩ rfl)
  have h := h.step (.fetch ⟨⟨rfl, rfl⟩, rfl⟩ rfl rfl)
  have h := h.step (.access ⟨⟨rfl, rfl⟩, rfl⟩ rfl rfl)
  have h := h.step (.access ⟨⟨rfl, rfl⟩, rfl⟩ rfl rfl)
  have h := h.step (.access ⟨⟨rfl, rfl⟩, rfl⟩ rfl rfl)
  have h := h.step (.access ⟨⟨rfl, rfl⟩, rfl⟩ rfl rfl)
  have h := h.step (.access ⟨⟨rfl, rfl⟩, rfl⟩ rfl rfl)
  have h := h.step (.read (r := .count 2) ⟨⟨rfl, rfl⟩, rfl⟩ rfl
    ⟨by decide, by decide, by decide⟩)
  have h := h.step (.giveBack ⟨⟨rfl, rfl⟩, rfl⟩ rfl rfl)
  have h := h.step (.access ⟨⟨rfl, rfl⟩, rfl⟩ rfl rfl)
  have h := h.step (.access ⟨⟨rfl, rfl⟩, rfl⟩ rfl rfl)
  have h := h.step (.access ⟨⟨rfl, rfl⟩, rfl⟩ rfl rfl)
  have h := h.step (.access ⟨⟨rfl, rfl⟩, rfl⟩ rfl rfl)
  have h := h.step (.access ⟨⟨rfl, rfl⟩, rfl⟩ rfl rfl)
  have h := h.step (.write (r := .count 2) ⟨⟨rfl, rfl⟩, rfl⟩ rfl ⟨by decide, Nat.le_refl 2⟩
    fun _ => rfl)
  exact ⟨_, h, rfl, rfl, (slow_cat_rate h).2.1⟩

end Apue.SlowCat
