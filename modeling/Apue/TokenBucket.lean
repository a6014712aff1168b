import Apue.Lists
import Apue.Memory
import Apue.Reachability
import Apue.Reservoir
import Mathlib.Algebra.Order.Ring.Int

namespace Apue.Tbf
set_option autoImplicit true

structure Bucket where
  cps : Int
  burst : Int
  token : Int
  pos : Int
  deriving DecidableEq, Repr

/-- What the signal handler does to one bucket. -/
def Bucket.tick (b : Bucket) : Except Fault Bucket := do
  let t ← addInt b.token b.cps
  return { b with token := t }

/-- The rest of a call, from one access to p->token to the next. MIN evaluates its smaller argument
a second time. -/
inductive Access where
  /-- while (p->token == 0) -/
  | fetchTest (token : Int)
  | fetchPause (token : Int)
  /-- p->token < token -/
  | fetchLess (token : Int)
  | fetchMin (token : Int)
  /-- p->token -= r -/
  | fetchLoad (r : Int)
  | fetchStore (r a : Int)
  /-- p->token += token -/
  | returnLoad (token : Int)
  | returnStore (token a : Int)
  /-- p->token < p->burst -/
  | returnLess (token : Int)
  | returnMin (token : Int)
  | returnCap (token v : Int)
  deriving DecidableEq, Repr

inductive Outcome where
  | on (b : Bucket) (a : Access)
  | fetched (b : Bucket) (r : Int)
  | returned (b : Bucket) (token : Int)
  deriving DecidableEq, Repr

/-- One access to p->token. A paused call stays where it is until a signal arrives. -/
def Access.step : Access → Bucket → Except Fault Outcome
  | .fetchTest x, b => .ok (.on b (if b.token = 0 then .fetchPause x else .fetchLess x))
  | .fetchPause x, b => .ok (.on b (.fetchPause x))
  | .fetchLess x, b => .ok (.on b (if b.token < x then .fetchMin x else .fetchLoad x))
  | .fetchMin _, b => .ok (.on b (.fetchLoad b.token))
  | .fetchLoad r, b => .ok (.on b (.fetchStore r b.token))
  | .fetchStore r a, b => do
    let t ← addInt a (-r)
    return .fetched { b with token := t } r
  | .returnLoad x, b => .ok (.on b (.returnStore x b.token))
  | .returnStore x a, b => do
    let t ← addInt a x
    return .on { b with token := t } (.returnLess x)
  | .returnLess x, b =>
    .ok (.on b (if b.token < b.burst then .returnMin x else .returnCap x b.burst))
  | .returnMin x, b => .ok (.on b (.returnCap x b.token))
  | .returnCap x v, b => .ok (.returned { b with token := v } x)

/-- pause returns after the handler has run. -/
def Access.wake : Access → Access
  | .fetchPause x => .fetchTest x
  | a => a

/-- mytbf_returntoken on its bucket, when no signal arrives during the call. -/
def Bucket.returntoken (b : Bucket) (token : Int) : Except Fault (Int × Bucket) := do
  let t ← addInt b.token token
  return (token, { b with token := if t < b.burst then t else b.burst })

/-- mytbf_fetchtoken likewise; on an empty bucket the caller waits. -/
def Bucket.fetchtoken (b : Bucket) (token : Int) : Option (Except Fault (Int × Bucket)) :=
  if b.token = 0 then none
  else
    let r := if b.token < token then b.token else token
    some do
      let t ← addInt b.token (-r)
      return (r, { b with token := t })

/-- The rest of a call without interruption, for at most `n` accesses. -/
def Access.finish : Nat → Access → Bucket → Option (Except Fault (Int × Bucket))
  | 0, _, _ => none
  | n + 1, a, b =>
    match a.step b with
    | .ok (.on b' a') => finish n a' b'
    | .ok (.fetched b' r) => some (.ok (r, b'))
    | .ok (.returned b' x) => some (.ok (x, b'))
    | .error e => some (.error e)

theorem Bucket.returntoken_eq (b : Bucket) (x : Int) :
    Access.finish 5 (.returnLoad x) b = some (b.returntoken x) := by
  cases ht : addInt b.token x with
  | error e => simp [Access.finish, Access.step, Bucket.returntoken, ht, bind, Except.bind]
  | ok t =>
    by_cases hl : t < b.burst <;>
      simp [Access.finish, Access.step, Bucket.returntoken, ht, hl, bind, Except.bind, pure,
        Except.pure]

theorem Bucket.fetchtoken_eq (b : Bucket) (x : Int) :
    Access.finish 5 (.fetchTest x) b = b.fetchtoken x := by
  by_cases h0 : b.token = 0
  · simp [Access.finish, Access.step, Bucket.fetchtoken, h0]
  · by_cases hl : b.token < x
    · cases ht : addInt b.token (-b.token) <;>
        simp [Access.finish, Access.step, Bucket.fetchtoken, ht, h0, hl, bind, Except.bind, pure,
          Except.pure]
    · cases ht : addInt b.token (-x) <;>
        simp [Access.finish, Access.step, Bucket.fetchtoken, ht, h0, hl, bind, Except.bind, pure,
          Except.pure]

/-- The bucket mytbf_init(cps, burst) leaves in slot `pos`. -/
def created (cps burst pos : Int) : Bucket := ⟨cps, burst, 0, pos⟩

inductive Op where
  | tick
  | fetchtoken (token : Int)
  | returntoken (token : Int)
  /-- A fetch that has waited for a tick goes on. -/
  | resume
  deriving DecidableEq, Repr

def Op.Nonneg : Op → Prop
  | .tick => True
  | .fetchtoken x => 0 ≤ x
  | .returntoken x => 0 ≤ x
  | .resume => True

/-- A bucket with its caller, and the amount of the fetch that it waits in. The last field is
history. -/
structure Caller where
  bucket : Bucket
  waiting : Option Int
  flows : List Int
  deriving DecidableEq, Repr

/-- A caller that waits in mytbf_fetchtoken makes no other call. -/
def Caller.Allows (s : Caller) : Op → Prop
  | .tick => True
  | .fetchtoken _ => s.waiting = none
  | .returntoken _ => s.waiting = none
  | .resume => s.waiting ≠ none ∧ s.bucket.token ≠ 0

/-- mytbf_fetchtoken from its loop on. -/
def Caller.fetch (s : Caller) (x : Int) : Except Fault Caller :=
  match s.bucket.fetchtoken x with
  | none => .ok { s with waiting := some x }
  | some r => do
    let (_, b) ← r
    return { bucket := b, waiting := none, flows := s.flows ++ [-x] }

def Caller.serve (s : Caller) : Op → Except Fault Caller
  | .tick => do
    let b ← s.bucket.tick
    return { s with bucket := b, flows := s.flows ++ [s.bucket.cps] }
  | .fetchtoken x => s.fetch x
  | .returntoken x => do
    let (_, b) ← s.bucket.returntoken x
    return { s with bucket := b, flows := s.flows ++ [x] }
  | .resume =>
    match s.waiting with
    | none => .ok s
    | some x => s.fetch x

def Caller.run (s : Caller) (ops : List Op) : Except Fault Caller := ops.foldlM Caller.serve s

/-- A sequence of operations that can come about. -/
def Caller.Possible (s : Caller) (ops : List Op) : Prop :=
  ∀ pre op, pre ++ [op] <+: ops → ∃ s', s.run pre = .ok s' ∧ s'.Allows op

def started (cps burst pos : Int) : Caller := ⟨created cps burst pos, none, []⟩

/-- What the flows before an operation are like when it leaves the token within the cap. -/
def Room (cps burst : Int) (flows : List Int) : Op → Prop
  | .tick => LevelLe burst (burst - cps) flows
  | .returntoken x => LevelLe burst (intMax - x) flows
  | _ => True

theorem Bucket.tick_ok {b : Bucket} (h : b.tick = .ok b') :
    b' = { b with token := b.token + b.cps } := by
  unfold Bucket.tick at h
  cases ht : addInt b.token b.cps with
  | error e =>
    rw [ht] at h
    cases h
  | ok t =>
    rw [ht] at h
    cases h
    rw [(addInt_ok ht).1]

theorem Bucket.tick_error {b : Bucket} (h : b.tick = .error e) : e = .overflow := by
  rcases bind_error h with ht | ⟨t, -, ht⟩
  · exact addInt_error ht
  · cases ht

theorem Bucket.tick_of_range {b : Bucket} (hl : intMin ≤ b.token + b.cps)
    (hu : b.token + b.cps ≤ intMax) : b.tick = .ok { b with token := b.token + b.cps } := by
  rw [Bucket.tick, addInt_of_range hl hu]
  rfl

theorem Bucket.returntoken_ok {b : Bucket} (h : b.returntoken x = .ok (r, b')) :
    r = x ∧ b.token + x ≤ intMax ∧ b' = { b with token := min (b.token + x) b.burst } := by
  unfold Bucket.returntoken at h
  cases ht : addInt b.token x with
  | error e =>
    rw [ht] at h
    cases h
  | ok t =>
    rw [ht] at h
    cases h
    obtain ⟨rfl, hl, hu⟩ := addInt_ok ht
    refine ⟨rfl, hu, ?_⟩
    congr 1
    split <;> omega

theorem Bucket.returntoken_of_range {b : Bucket} (hl : intMin ≤ b.token + x)
    (hu : b.token + x ≤ intMax) :
    b.returntoken x = .ok (x, { b with token := min (b.token + x) b.burst }) := by
  rw [Bucket.returntoken, addInt_of_range hl hu]
  have he : (if b.token + x < b.burst then b.token + x else b.burst) =
      min (b.token + x) b.burst := by
    split <;> omega
  rw [← he]
  rfl

theorem Bucket.fetchtoken_of_range {b : Bucket} (h0 : b.token ≠ 0)
    (hl : intMin ≤ b.token - min b.token x) (hu : b.token - min b.token x ≤ intMax) :
    b.fetchtoken x =
      some (.ok (min b.token x, { b with token := b.token - min b.token x })) := by
  have he : (if b.token < x then b.token else x) = min b.token x := by
    split <;> omega
  rw [Bucket.fetchtoken, if_neg h0]
  simp only [he]
  rw [addInt_of_range (by omega) (by omega)]
  rfl

/-- While the cap is kept the bucket is a reservoir: the flows determine the token. -/
structure Caller.Sound (s : Caller) (cps burst : Int) : Prop where
  rate : s.bucket.cps = cps
  bound : s.bucket.burst = burst
  token : s.bucket.token = reservoir burst s.flows
  waiting : ∀ x ∈ s.waiting, 0 ≤ x

theorem started_sound (cps burst pos : Int) : (started cps burst pos).Sound cps burst where
  rate := rfl
  bound := rfl
  token := rfl
  waiting := nofun

section
variable {cps burst : Int} {s s' : Caller}

theorem Caller.Sound.range (h : s.Sound cps burst) (hb : 0 ≤ burst) :
    0 ≤ s.bucket.token ∧ s.bucket.token ≤ burst := by
  rw [h.token]
  exact ⟨reservoir_nonneg _ _, reservoir_le hb _⟩

theorem Caller.Sound.tick (h : s.Sound cps burst) (hc : 0 ≤ cps) (hb : 0 ≤ burst)
    (hi : burst ≤ intMax) (hroom : Room cps burst s.flows .tick) :
    ∃ s', s.serve .tick = .ok s' ∧ s'.Sound cps burst := by
  obtain ⟨h0, hB⟩ := h.range hb
  have hmin : intMin ≤ 0 := by decide
  rw [Room, ← reservoir_le_iff hb, ← h.token] at hroom
  have hadd : reservoir burst (s.flows ++ [cps]) = s.bucket.token + cps := by
    rw [reservoir_concat, ← h.token]
    omega
  rw [Caller.serve, Bucket.tick_of_range (by rw [h.rate]; omega) (by rw [h.rate]; omega)]
  exact ⟨_, rfl, h.rate, h.bound, by rw [h.rate]; exact hadd.symm, h.waiting⟩

theorem Caller.Sound.returntoken (h : s.Sound cps burst) (hb : 0 ≤ burst) (hx : 0 ≤ x)
    (hroom : Room cps burst s.flows (.returntoken x)) :
    ∃ s', s.serve (.returntoken x) = .ok s' ∧ s'.Sound cps burst := by
  obtain ⟨h0, hB⟩ := h.range hb
  have hmin : intMin ≤ 0 := by decide
  rw [Room, ← reservoir_le_iff hb, ← h.token] at hroom
  have hadd : reservoir burst (s.flows ++ [x]) = min (s.bucket.token + x) burst := by
    rw [reservoir_concat, ← h.token]
    omega
  rw [Caller.serve, Bucket.returntoken_of_range (by omega) (by omega)]
  exact ⟨_, rfl, h.rate, h.bound, by rw [h.bound]; exact hadd.symm, h.waiting⟩

theorem Caller.Sound.fetch (h : s.Sound cps burst) (hb : 0 ≤ burst) (hi : burst ≤ intMax)
    (hx : 0 ≤ x) : ∃ s', s.fetch x = .ok s' ∧ s'.Sound cps burst := by
  obtain ⟨h0, hB⟩ := h.range hb
  have hmin : intMin ≤ 0 := by decide
  by_cases he : s.bucket.token = 0
  · rw [Caller.fetch, Bucket.fetchtoken, if_pos he]
    apply Exists.intro { s with waiting := some x }
    apply And.intro rfl
    exact ⟨h.rate, h.bound, h.token, fun y hy => by cases hy; exact hx⟩
  · have hsub : reservoir burst (s.flows ++ [-x]) = s.bucket.token - min s.bucket.token x := by
      rw [reservoir_concat, ← h.token]
      omega
    rw [Caller.fetch, Bucket.fetchtoken_of_range he (by omega) (by omega)]
    exact ⟨_, rfl, h.rate, h.bound, hsub.symm, nofun⟩

theorem Caller.Sound.serve (h : s.Sound cps burst) (hc : 0 ≤ cps) (hb : 0 ≤ burst)
    (hi : burst ≤ intMax) (hx : op.Nonneg) (hroom : Room cps burst s.flows op) :
    ∃ s', s.serve op = .ok s' ∧ s'.Sound cps burst := by
  cases op with
  | tick => exact h.tick hc hb hi hroom
  | fetchtoken x => exact h.fetch hb hi hx
  | returntoken x => exact h.returntoken hb hx hroom
  | resume =>
    rw [Caller.serve]
    cases hw : s.waiting with
    | none => exact ⟨s, rfl, h⟩
    | some x => exact h.fetch hb hi (h.waiting x hw)

theorem Caller.Sound.room (h : s.Sound cps burst) (hb : 0 ≤ burst) (hs : s.serve op = .ok s')
    (hle : s'.bucket.token ≤ burst) : Room cps burst s.flows op := by
  cases op with
  | tick =>
    obtain ⟨b, ht, he⟩ := bind_ok hs
    cases he
    rw [Bucket.tick_ok ht, h.rate] at hle
    rw [Room, ← reservoir_le_iff hb, ← h.token]
    exact le_sub_iff_add_le.mpr hle
  | fetchtoken x => trivial
  | returntoken x =>
    obtain ⟨⟨r, b⟩, hr, -⟩ := bind_ok hs
    rw [Room, ← reservoir_le_iff hb, ← h.token]
    exact le_sub_iff_add_le.mpr (Bucket.returntoken_ok hr).2.1
  | resume => trivial

end

theorem Caller.run_concat (s : Caller) (ops : List Op) (op : Op) :
    s.run (ops ++ [op]) = s.run ops >>= fun s' => s'.serve op := by
  rw [Caller.run, List.foldlM_append]
  simp only [List.foldlM_cons, List.foldlM_nil, bind_pure]
  rfl

theorem Caller.possible_nil (s : Caller) : s.Possible [] := by
  intro pre op hp
  simp at hp

theorem Caller.possible_concat {s : Caller} : s.Possible (ops ++ [op]) ↔
    s.Possible ops ∧ ∃ s', s.run ops = .ok s' ∧ s'.Allows op :=
  forall_concat_prefix

def AllRoom (cps burst : Int) (s : Caller) (ops : List Op) : Prop :=
  ∀ pre op, pre ++ [op] <+: ops → ∀ s', s.run pre = .ok s' → Room cps burst s'.flows op

theorem allRoom_nil : AllRoom cps burst s [] := by
  intro pre op hp
  simp at hp

theorem allRoom_concat : AllRoom cps burst s (ops ++ [op]) ↔
    AllRoom cps burst s ops ∧ ∀ s', s.run ops = .ok s' → Room cps burst s'.flows op :=
  forall_concat_prefix

theorem AllRoom.sound (h : AllRoom cps burst s ops) (hs : s.Sound cps burst) (hc : 0 ≤ cps)
    (hb : 0 ≤ burst) (hi : burst ≤ intMax) (hx : ∀ op ∈ ops, op.Nonneg) :
    ∃ s', s.run ops = .ok s' ∧ s'.Sound cps burst := by
  induction ops using List.reverseRecOn with
  | nil => exact ⟨s, rfl, hs⟩
  | append_singleton ops op ih =>
    obtain ⟨hall, hlast⟩ := allRoom_concat.mp h
    obtain ⟨s', hrun, hs'⟩ := ih hall fun o ho => hx o (List.mem_append_left _ ho)
    rw [Caller.run_concat, hrun]
    exact hs'.serve hc hb hi (hx op (by simp)) (hlast s' hrun)

/-- The token stays between 0 and burst exactly when the flows before every tick and every return
leave room. -/
theorem token_capped_iff (hc : 0 ≤ cps) (hb : 0 ≤ burst) (hi : burst ≤ intMax) (pos : Int)
    {ops : List Op} (hp : (started cps burst pos).Possible ops) (hx : ∀ op ∈ ops, op.Nonneg) :
    (∀ pre, pre <+: ops → ∃ s, (started cps burst pos).run pre = .ok s ∧
        0 ≤ s.bucket.token ∧ s.bucket.token ≤ burst) ↔
      AllRoom cps burst (started cps burst pos) ops := by
  have hstart := started_sound cps burst pos
  constructor
  · intro hall
    induction ops using List.reverseRecOn with
    | nil => exact allRoom_nil
    | append_singleton ops op ih =>
      have hpre : ops <+: ops ++ [op] := List.prefix_append ops [op]
      have hx' : ∀ o ∈ ops, o.Nonneg := fun o ho => hx o (List.mem_append_left _ ho)
      have hroom := ih (Caller.possible_concat.mp hp).1 hx' fun pre hq => hall pre (hq.trans hpre)
      apply allRoom_concat.mpr
      apply And.intro hroom
      intro s' hs'
      obtain ⟨s₁, hrun, hsound⟩ := hroom.sound hstart hc hb hi hx'
      rw [hs'] at hrun
      cases hrun
      obtain ⟨s₂, hrun, -, hle⟩ := hall (ops ++ [op]) (List.prefix_refl _)
      rw [Caller.run_concat, hs'] at hrun
      exact hsound.room hb hrun hle
  · intro hroom pre hpre
    have hroom' : AllRoom cps burst (started cps burst pos) pre := by
      intro q o hq
      exact hroom q o (hq.trans hpre)
    obtain ⟨s, hrun, hs⟩ := hroom'.sound hstart hc hb hi fun o ho => hx o (hpre.subset ho)
    exact ⟨s, hrun, hs.range hb⟩

/-- A fetch that finds the bucket empty, the tick that it waits for, and another tick. -/
theorem token_capped_waiting :
    ∃ s, (started 1 1 0).run [.fetchtoken 5, .tick, .resume, .tick] = .ok s ∧
      0 ≤ s.bucket.token ∧ s.bucket.token ≤ 1 := by
  have hone : (0 : Int) ≤ 1 := by decide
  have h1 : (started 1 1 0).Possible ([] ++ [.fetchtoken 5]) :=
    Caller.possible_concat.mpr ⟨Caller.possible_nil _, _, rfl, rfl⟩
  have h2 : (started 1 1 0).Possible ([.fetchtoken 5] ++ [.tick]) :=
    Caller.possible_concat.mpr ⟨h1, _, rfl, trivial⟩
  have h3 : (started 1 1 0).Possible ([.fetchtoken 5, .tick] ++ [.resume]) :=
    Caller.possible_concat.mpr ⟨h2, _, rfl, nofun, by decide⟩
  have hp : (started 1 1 0).Possible ([.fetchtoken 5, .tick, .resume] ++ [.tick]) :=
    Caller.possible_concat.mpr ⟨h3, _, rfl, trivial⟩
  have r1 : AllRoom 1 1 (started 1 1 0) ([] ++ [.fetchtoken 5]) :=
    allRoom_concat.mpr ⟨allRoom_nil, fun _ _ => trivial⟩
  have r2 : AllRoom 1 1 (started 1 1 0) ([.fetchtoken 5] ++ [.tick]) := by
    apply allRoom_concat.mpr ⟨r1, ?_⟩
    rintro s ⟨⟩
    exact (reservoir_le_iff hone _ _).mp (by decide)
  have r3 : AllRoom 1 1 (started 1 1 0) ([.fetchtoken 5, .tick] ++ [.resume]) :=
    allRoom_concat.mpr ⟨r2, fun _ _ => trivial⟩
  have hroom : AllRoom 1 1 (started 1 1 0) ([.fetchtoken 5, .tick, .resume] ++ [.tick]) := by
    apply allRoom_concat.mpr ⟨r3, ?_⟩
    rintro s ⟨⟩
    exact (reservoir_le_iff hone _ _).mp (by decide)
  exact (token_capped_iff hone hone (by decide) 0 hp (by simp [Op.Nonneg])).2 hroom _
    (List.prefix_refl _)

theorem idle_exceeds_burst :
    (started 1 1 0).Possible [.tick, .tick] ∧
      ¬∀ pre, pre <+: [Op.tick, Op.tick] →
        ∃ s, (started 1 1 0).run pre = .ok s ∧ 0 ≤ s.bucket.token ∧ s.bucket.token ≤ 1 := by
  constructor
  · have h1 : (started 1 1 0).Possible ([] ++ [.tick]) :=
      Caller.possible_concat.mpr ⟨Caller.possible_nil _, _, rfl, trivial⟩
    have h2 : (started 1 1 0).Possible ([.tick] ++ [.tick]) :=
      Caller.possible_concat.mpr ⟨h1, _, rfl, trivial⟩
    exact h2
  · intro h
    obtain ⟨s, hr, -, hu⟩ := h [.tick, .tick] (List.prefix_refl _)
    have he : (started 1 1 0).run [.tick, .tick] = .ok ⟨⟨1, 1, 2, 0⟩, none, [1, 1]⟩ := by rfl
    rw [he] at hr
    cases hr
    exact absurd hu (by decide)

end Apue.Tbf
