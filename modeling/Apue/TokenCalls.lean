import Apue.TokenTable

namespace Apue.Tbf
set_option autoImplicit true

def State.bucket (s : State) (i : Fin maxTbf) : Option Bucket :=
  match s.jobs i with
  | none => none
  | some p => (bucketAt s.heap p).toOption

def Bucket.ticks (k : Nat) (b : Bucket) : Bucket := { b with token := b.token + k * b.cps }

/-- The main flow goes on with its call, interrupted by k ticks. -/
inductive Exec (s : State) : Nat → State → Prop where
  | refl : Exec s 0 s
  | stmt : Exec s k t → t.stmt = .ok u → Exec s k u
  | tick : Exec s k t → t.tick = .ok u → Exec s (k + 1) u

theorem Bucket.ticks_zero (b : Bucket) : b.ticks 0 = b := by
  simp [Bucket.ticks]

theorem Bucket.ticks_succ (b : Bucket) (k : Nat) : (b.ticks k).ticks 1 = b.ticks (k + 1) := by
  simp only [Bucket.ticks]
  congr 1
  push_cast
  ring

theorem map_ticks_zero (o : Option Bucket) : o.map (Bucket.ticks 0) = o := by
  cases o with
  | none => rfl
  | some b => rw [Option.map_some, Bucket.ticks_zero]

theorem map_ticks_succ (o : Option Bucket) (k : Nat) :
    (o.map (Bucket.ticks k)).map (Bucket.ticks 1) = o.map (Bucket.ticks (k + 1)) := by
  cases o with
  | none => rfl
  | some b => rw [Option.map_some, Option.map_some, Bucket.ticks_succ, Option.map_some]

theorem State.bucket_none {s : State} (h : s.jobs i = none) : s.bucket i = none := by
  rw [State.bucket, h]

theorem State.bucket_some {s : State} {b : Bucket} (h : s.jobs i = some p)
    (hb : s.heap.Live p b.cell) : s.bucket i = some b := by
  rw [State.bucket, h]
  simp only []
  rw [bucketAt_of_live hb]
  rfl

theorem SameSlot.bucket {s t : State} (h : SameSlot s t j) (hs : s.Inv) :
    t.bucket j = s.bucket j := by
  obtain ⟨hj, hp⟩ := h
  cases hjs : s.jobs j with
  | none => rw [State.bucket_none hjs, State.bucket_none (hj.trans hjs)]
  | some p =>
    obtain ⟨b, hb, -⟩ := hs.table j p hjs
    rw [State.bucket_some hjs hb, State.bucket_some (hj.trans hjs) ((hp p hjs _).2 hb)]

theorem State.Inv.tick_bucket {s : State} (h : s.Inv) (ht : s.tick = .ok t) (j : Fin maxTbf) :
    t.jobs = s.jobs ∧ t.bucket j = (s.bucket j).map (Bucket.ticks 1) := by
  obtain ⟨H, hh, he⟩ := bind_ok ht
  cases he
  refine ⟨rfl, ?_⟩
  have hs := h.table.handle_ok hh
  cases hj : s.jobs j with
  | none =>
    rw [State.bucket_none hj]
    exact State.bucket_none hj
  | some p =>
    obtain ⟨b, hb, -⟩ := h.table j p hj
    obtain ⟨b', ht, hb'⟩ := hs.done j (by simp) p b hj hb
    rw [State.bucket_some hj hb, Option.map_some]
    have he : b' = b.ticks 1 := by
      rw [Bucket.tick_ok ht, Bucket.ticks, Nat.cast_one, Int.one_mul]
    rw [← he]
    exact State.bucket_some hj hb'

theorem Exec.inv {s t : State} (he : Exec s k t) (h : s.Inv) : t.Inv := by
  induction he with
  | refl => exact h
  | stmt _ hs ih => exact (ih.stmt_cases hs).inv ih
  | tick _ hs ih => exact ih.tick hs

/-- The main flow is in a call on the bucket with this id, or has returned from it. -/
def Pc.On (id : Fin maxTbf) : Pc → Prop
  | .idle _ => True
  | .fetch i _ | .giveBack i _ | .access i _ _ | .destroy i | .destroyClear i _
  | .destroyFree i _ => i = id
  | _ => False

theorem Pc.On.target {pc : Pc} {id : Fin maxTbf} (h : pc.On id) (hj : j ≠ id) :
    pc.target ≠ some j := by
  cases pc <;> simp_all [Pc.On, Pc.target]
  · exact fun he => hj he.symm
  · exact fun he => hj he.symm

theorem Pc.On.wake {pc : Pc} {id : Fin maxTbf} (h : pc.On id) : pc.wake.On id := by
  cases pc <;> exact h

theorem Pc.On.stmt {s t : State} {id : Fin maxTbf} (h : s.pc.On id) (hs : Stmt s t) :
    t.pc.On id := by
  cases hs with
  | idle => exact h
  | full | free | publish => trivial
  | fetch hp | giveBack hp | destroy hp | clear hp =>
    rw [hp] at h
    exact h
  | @access i p a o b hp =>
    rw [hp] at h
    cases o with
    | on b' a' => exact h
    | fetched b' r => trivial
    | returned b' x => trivial
  | load hp | malloc hp | found hp | taken hp | set hp =>
    rw [hp] at h
    cases h

/-- A call on one bucket leaves the others alone: they only see the ticks. -/
theorem Exec.frame {s t : State} {id : Fin maxTbf} (he : Exec s k t) (h : s.Inv)
    (hon : s.pc.On id) (hj : j ≠ id) :
    t.pc.On id ∧ t.bucket j = (s.bucket j).map (Bucket.ticks k) := by
  induction he with
  | refl => exact ⟨hon, (map_ticks_zero _).symm⟩
  | @stmt k t u he hs ih =>
    obtain ⟨hon', hb⟩ := ih
    have ht := he.inv h
    have hst := ht.stmt_cases hs
    exact ⟨hon'.stmt hst, ((hst.same ht (hon'.target hj)).bucket ht).trans hb⟩
  | @tick k t u he ht ih =>
    obtain ⟨hon', hb⟩ := ih
    refine ⟨?_, ?_⟩
    · obtain ⟨H, -, hu⟩ := bind_ok ht
      cases hu
      exact hon'.wake
    · rw [((he.inv h).tick_bucket ht j).2, hb, map_ticks_succ]

/-- The main flow is in mytbf_init(cps, burst), before the new bucket is stored. -/
def Pc.InitOf (cps burst : Int) : Pc → Prop
  | .initLoad c b | .initMalloc c b | .initScan c b _ _ | .initSet c b _ _ _ =>
    c = cps ∧ b = burst
  | _ => False

theorem Pc.InitOf.wake {pc : Pc} (h : pc.InitOf cps burst) : pc.wake = pc := by
  cases pc <;> first | rfl | cases h

theorem Stmt.init {s t : State} (hs : Stmt s t) (h : s.Inv) (hi : s.pc.InitOf cps burst) :
    (t.pc.InitOf cps burst ∧ ∀ j, SameSlot s t j) ∨
      (t.pc = .idle (-1) ∧ (∀ j, s.jobs j ≠ none) ∧ ∀ j, SameSlot s t j) ∨
      ∃ i, s.jobs i = none ∧ t.jobs i ≠ none ∧ t.pc = .idle i.val ∧
        t.bucket i = some (created cps burst i.val) ∧ ∀ j, j ≠ i → SameSlot s t j := by
  have hsame := fun j => hs.same h (j := j)
  have hpc := h.pc
  cases hs with
  | load hp | malloc hp | found hp | taken hp | set hp =>
    rw [hp] at hi hsame
    exact .inl ⟨hi, fun j => hsame j (by simp [Pc.target])⟩
  | full hp hge =>
    rw [hp] at hpc hsame
    refine .inr (.inl ⟨rfl, fun j => hpc.2.2 j ?_, fun j => hsame j (by simp [Pc.target])⟩)
    have hlt := j.isLt
    omega
  | @publish c b m i hp =>
    rw [hp] at hi hpc hsame
    obtain ⟨rfl, rfl⟩ := hi
    obtain ⟨⟨c', hm, hc⟩, -, hfree⟩ := hpc
    rw [show c' = (created c b i.val).cell from hc] at hm
    have hself : Function.update s.jobs i (some m) i = some m := Function.update_self ..
    refine .inr (.inr ⟨i, hfree, ?_, rfl, State.bucket_some hself hm, ?_⟩)
    · intro hn
      rw [show Function.update s.jobs i (some m) i = none from hn] at hself
      cases hself
    · intro j hne
      refine hsame j ?_
      intro he
      cases he
      exact hne rfl
  | idle hp | fetch hp | giveBack hp | access hp | destroy hp | clear hp | free hp =>
    rw [hp] at hi
    cases hi

/-- mytbf_init, called in s, has stored its bucket in slot i, k₂ of the k ticks ago. -/
structure Stored (s : State) (cps burst : Int) (k : Nat) (t : State) (i : Fin maxTbf) : Prop where
  free : s.jobs i = none
  store : ∃ u v k₁ k₂, Exec s k₁ u ∧ u.jobs i = none ∧ u.stmt = .ok v ∧ v.jobs i ≠ none ∧
    Exec v k₂ t ∧ k = k₁ + k₂ ∧ t.bucket i = some ((created cps burst i.val).ticks k₂)
  others : ∀ j, j ≠ i → t.bucket j = (s.bucket j).map (Bucket.ticks k)

/-- How far a call of mytbf_init has come after k ticks. -/
inductive Initialising (s : State) (cps burst : Int) (k : Nat) (t : State) : Prop where
  | running (hi : t.pc.InitOf cps burst) (hj : t.jobs = s.jobs)
      (hb : ∀ j, t.bucket j = (s.bucket j).map (Bucket.ticks k))
  | full (hp : t.pc = .idle (-1)) (hall : ∀ i, s.jobs i ≠ none) (hj : t.jobs = s.jobs)
      (hb : ∀ j, t.bucket j = (s.bucket j).map (Bucket.ticks k))
  | stored (i : Fin maxTbf) (hp : t.pc = .idle i.val) (hst : Stored s cps burst k t i)

theorem Initialising.stmt {s t : State} (hI : Initialising s cps burst k t) (h : t.Inv)
    (he : Exec s k t) (hs : t.stmt = .ok u) : Initialising s cps burst k u := by
  cases hI with
  | running hi hj hb =>
    rcases (h.stmt_cases hs).init h hi with ⟨hi', hsame⟩ | ⟨hp, hall, hsame⟩ |
      ⟨i, hfree, hnew, hp, hbi, hsame⟩
    · refine .running hi' ?_ ?_
      · funext j
        rw [(hsame j).1, hj]
      · intro j
        rw [(hsame j).bucket h, hb]
    · refine .full hp (hj ▸ hall) ?_ ?_
      · funext j
        rw [(hsame j).1, hj]
      · intro j
        rw [(hsame j).bucket h, hb]
    · refine .stored i hp ⟨hj ▸ hfree, ?_, ?_⟩
      · exact ⟨t, u, k, 0, he, hfree, hs, hnew, .refl, rfl, by rw [hbi, Bucket.ticks_zero]⟩
      · intro j hne
        rw [(hsame j hne).bucket h, hb]
  | full hp hall hj hb =>
    rw [State.stmt, hp] at hs
    cases hs
    exact .full hp hall hj hb
  | stored i hp hst =>
    rw [State.stmt, hp] at hs
    cases hs
    exact .stored i hp hst

theorem Initialising.tick {s t : State} (hI : Initialising s cps burst k t) (h : t.Inv)
    (ht : t.tick = .ok u) : Initialising s cps burst (k + 1) u := by
  have htick := h.tick_bucket ht
  have hpc : u.pc = t.pc.wake := by
    obtain ⟨H, -, hu⟩ := bind_ok ht
    cases hu
    rfl
  cases hI with
  | running hi hj hb =>
    refine .running ?_ ?_ ?_
    · rw [hpc, hi.wake]
      exact hi
    · rw [(htick ⟨0, by decide⟩).1, hj]
    · intro j
      rw [(htick j).2, hb, map_ticks_succ]
  | full hp hall hj hb =>
    refine .full ?_ hall ?_ ?_
    · rw [hpc, hp]
      rfl
    · rw [(htick ⟨0, by decide⟩).1, hj]
    · intro j
      rw [(htick j).2, hb, map_ticks_succ]
  | stored i hp hst =>
    refine .stored i ?_ ⟨hst.free, ?_, ?_⟩
    · rw [hpc, hp]
      rfl
    · obtain ⟨v, w, k₁, k₂, h₁, hv, hs, hw, h₂, hk, hb⟩ := hst.store
      refine ⟨v, w, k₁, k₂ + 1, h₁, hv, hs, hw, .tick h₂ ht, by omega, ?_⟩
      rw [(htick i).2, hb, Option.map_some, Bucket.ticks_succ]
    · intro j hne
      rw [(htick j).2, hst.others j hne, map_ticks_succ]

theorem Exec.initialising {s t : State} (he : Exec s k t) (cps burst : Int) (h : s.Inv)
    (hi : s.pc.InitOf cps burst) : Initialising s cps burst k t := by
  induction he with
  | refl => exact .running hi rfl fun j => (map_ticks_zero _).symm
  | stmt he hs ih => exact ih.stmt (he.inv h) he hs
  | tick he ht ih => exact ih.tick (he.inv h) ht

def Pc.remaining : Pc → Nat
  | .initLoad .. => maxTbf + 8
  | .initMalloc .. => maxTbf + 7
  | .initScan _ _ _ i => maxTbf - i + 6
  | .initSet _ _ todo _ _ => todo.length + 1
  | _ => 0

theorem State.Inv.init_progress {s : State} (h : s.Inv) (hi : s.pc.InitOf cps burst) :
    ∃ t, s.stmt = .ok t ∧ t.pc.remaining < s.pc.remaining := by
  have hpc := h.pc
  cases hp : s.pc with
  | initLoad c b => exact ⟨_, by rw [State.stmt, hp], by simp [Pc.remaining]⟩
  | initMalloc c b => exact ⟨_, by rw [State.stmt, hp], by simp [Pc.remaining]⟩
  | initScan c b m i =>
    by_cases hlt : i < maxTbf
    · cases hj : s.jobs ⟨i, hlt⟩ with
      | none =>
        refine ⟨{ s with pc := .initSet c b (initStores c b i) m ⟨i, hlt⟩ }, ?_, ?_⟩
        · rw [State.stmt, hp]
          simp only [dif_pos hlt, hj]
        · simp [Pc.remaining, initStores]
      | some q =>
        refine ⟨{ s with pc := .initScan c b m (i + 1) }, ?_, ?_⟩
        · rw [State.stmt, hp]
          simp only [dif_pos hlt, hj]
        · simp only [Pc.remaining]
          omega
    · refine ⟨{ s with pc := .idle (-1) }, ?_, by simp [Pc.remaining]⟩
      rw [State.stmt, hp]
      simp only [dif_neg hlt]
  | initSet c b todo m i =>
    cases todo with
    | nil => exact ⟨_, by rw [State.stmt, hp], by simp [Pc.remaining]⟩
    | cons w todo =>
      rw [hp] at hpc
      obtain ⟨⟨c', hm, -⟩, -⟩ := hpc
      refine ⟨{ s with
        heap := s.heap.put m (some (c'.set w.2 w.1)), pc := .initSet c b todo m i }, ?_, ?_⟩
      · rw [State.stmt, hp]
        simp only []
        rw [hm.load]
        change s.heap.store m (c'.set w.2 w.1) >>= _ = _
        rw [hm.store]
        rfl
      · simp [Pc.remaining]
  | _ =>
    rw [hp] at hi
    cases hi

theorem Exec.head {s t u : State} (hs : s.stmt = .ok u) (he : Exec u k t) : Exec s k t := by
  induction he with
  | refl => exact .stmt .refl hs
  | stmt _ hst ih => exact .stmt ih hst
  | tick _ hst ih => exact .tick ih hst

/-- mytbf_init returns, wherever the ticks have interrupted it so far. -/
theorem State.Inv.init_returns {s : State} (h : s.Inv) (hi : s.pc.InitOf cps burst) :
    ∃ t r, Exec s 0 t ∧ t.pc = .idle r := by
  generalize hn : s.pc.remaining = n
  induction n using Nat.strong_induction_on generalizing s with
  | _ n ih =>
    obtain ⟨u, hs, hlt⟩ := h.init_progress hi
    have hst := h.stmt_cases hs
    rcases hst.init h hi with ⟨hi', -⟩ | ⟨hp, -⟩ | ⟨i, -, -, hp, -⟩
    · obtain ⟨t, r, he, hp⟩ := ih u.pc.remaining (hn ▸ hlt) (hst.inv h) hi' rfl
      exact ⟨t, r, he.head hs, hp⟩
    · exact ⟨u, -1, .stmt .refl hs, hp⟩
    · exact ⟨u, i.val, .stmt .refl hs, hp⟩

theorem State.Inv.call {s : State} (h : s.Inv) (c : Call) : (s.call c).Inv :=
  ⟨h.table, c.entry_ok⟩

def Call.id? : Call → Option (Fin maxTbf)
  | .init .. => none
  | .fetchtoken id _ => some id
  | .returntoken id _ => some id
  | .destroy id => some id

theorem Call.entry_on {c : Call} {id : Fin maxTbf} (h : c.id? = some id) : c.entry.On id := by
  cases c with
  | init => cases h
  | fetchtoken i x | returntoken i x | destroy i =>
    cases h
    rfl

theorem State.Inv.init_result {s : State} (h : s.Inv)
    (he : Exec (s.call (.init cps burst)) k t) (hr : t.pc = .idle r) :
    (r = -1 ↔ ∀ i, s.jobs i ≠ none) ∧
      (r = -1 → t.jobs = s.jobs ∧ ∀ j, t.bucket j = (s.bucket j).map (Bucket.ticks k)) ∧
      (r ≠ -1 → ∃ i : Fin maxTbf,
        r = i.val ∧ Stored (s.call (.init cps burst)) cps burst k t i) := by
  cases he.initialising cps burst (h.call _) ⟨rfl, rfl⟩ with
  | running hi =>
    rw [hr] at hi
    cases hi
  | full hp hall hj hb =>
    rw [hr] at hp
    cases hp
    exact ⟨⟨fun _ => hall, fun _ => rfl⟩, fun _ => ⟨hj, hb⟩, fun hne => absurd rfl hne⟩
  | stored i hp hst =>
    rw [hr] at hp
    cases hp
    have hne : (i.val : Int) ≠ -1 := by omega
    refine ⟨⟨fun he => absurd he hne, fun hall => absurd hst.free (hall i)⟩,
      fun he => absurd he hne, fun _ => ⟨i, rfl, hst⟩⟩

/-- The table stays in order wherever the handler interrupts the main flow, and every call does what
it is for. -/
theorem table_in_order (h : (mytbf usage).Reachable s) :
    (∀ i p, s.jobs i = some p → ∃ b : Bucket, s.heap.Live p b.cell ∧ b.pos = (i.val : Int)) ∧
      (∀ e, s.tick = .error e → e = .overflow) ∧
      (∀ cps burst k t, Exec (s.call (.init cps burst)) k t →
        (∃ t' r, Exec t 0 t' ∧ t'.pc = .idle r) ∧
        ∀ r, t.pc = .idle r →
          (r = -1 ↔ ∀ i, s.jobs i ≠ none) ∧
          (r = -1 → t.jobs = s.jobs ∧ ∀ j, t.bucket j = (s.bucket j).map (Bucket.ticks k)) ∧
          (r ≠ -1 → ∃ i : Fin maxTbf, r = i.val ∧
            Stored (s.call (.init cps burst)) cps burst k t i)) ∧
      ∀ c id, c.id? = some id → ∀ k t, Exec (s.call c) k t →
        ∀ j, j ≠ id → t.bucket j = (s.bucket j).map (Bucket.ticks k) := by
  have hs := State.Inv.of_reachable h
  refine ⟨hs.table, ?_, ?_, ?_⟩
  · intro e he
    rcases bind_error he with hh | ⟨H, -, hh⟩
    · rcases hs.table.handle_cases with hc | ⟨H', hc, -⟩
      · rw [hc] at hh
        cases hh
        rfl
      · rw [hc] at hh
        cases hh
    · cases hh
  · intro cps burst k t he
    refine ⟨?_, fun r hr => hs.init_result he hr⟩
    cases he.initialising cps burst (hs.call _) ⟨rfl, rfl⟩ with
    | running hi => exact (he.inv (hs.call _)).init_returns hi
    | full hp => exact ⟨t, _, .refl, hp⟩
    | stored i hp => exact ⟨t, _, .refl, hp⟩
  · intro c id hc k t he j hj
    exact (he.frame (hs.call c) (Call.entry_on hc) hj).2

theorem table_in_order_one_bucket :
    ∃ s, (mytbf fun _ => True).Reachable s ∧
      s.bucket ⟨0, by decide⟩ = some (created 10 100 0) ∧
      ∀ e, s.tick = .error e → e = .overflow := by
  have h : (mytbf fun _ => True).Reachable ⟨false, fun _ => none, .empty, .idle 0, none⟩ :=
    .init rfl
  have h := h.step (.call (c := .init 10 100) rfl rfl trivial)
  have h := h.step (.stmt rfl rfl)
  have h := h.step (.stmt rfl rfl)
  have h := h.step (.stmt rfl rfl)
  have h := h.step (.stmt rfl rfl)
  have h := h.step (.stmt rfl rfl)
  have h := h.step (.stmt rfl rfl)
  have h := h.step (.stmt rfl rfl)
  have h := h.step (.stmt rfl rfl)
  exact ⟨_, h, rfl, (table_in_order h).2.1⟩

end Apue.Tbf
