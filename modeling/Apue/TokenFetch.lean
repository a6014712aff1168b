import Apue.TokenBucket

namespace Apue.Tbf
set_option autoImplicit true

/-- A call in progress. Each tick is listed with the access that was to come next and the bucket
that it found. -/
inductive Fetch (n : Int) (b : Bucket) : List (Access × Bucket) → Access → Bucket → Prop where
  | call : Fetch n b [] (.fetchTest n) b
  | tick : Fetch n b l a c → c.tick = .ok d → Fetch n b ((a, c) :: l) a.wake d
  | access : Fetch n b l a c → a.step c = .ok (.on d e) → Fetch n b l e d

def Fetch.Returns (n : Int) (b : Bucket) (l : List (Access × Bucket)) (r : Int) : Prop :=
  ∃ a c c', Fetch n b l a c ∧ a.step c = .ok (.fetched c' r)

/-- No tick between the comparison in MIN and the second read of p->token lifts it over n. -/
def Within (n : Int) (l : List (Access × Bucket)) : Prop :=
  ∀ p ∈ l, p.1 = .fetchMin n → p.2.token + p.2.cps ≤ n

theorem within_cons_of_ne (n : Int) (l : List (Access × Bucket)) (c : Bucket) (a : Access)
    (h : a ≠ .fetchMin n) : Within n ((a, c) :: l) ↔ Within n l := by
  constructor
  · exact fun hw p hp => hw p (List.mem_cons_of_mem _ hp)
  · intro hw p hp hm
    rcases List.mem_cons.1 hp with rfl | hp
    · exact absurd hm h
    · exact hw p hp hm

theorem within_cons_fetchMin (n : Int) (l : List (Access × Bucket)) (c : Bucket) :
    Within n ((.fetchMin n, c) :: l) ↔ c.token + c.cps ≤ n ∧ Within n l := by
  constructor
  · exact fun hw => ⟨hw _ List.mem_cons_self rfl, fun p hp => hw p (List.mem_cons_of_mem _ hp)⟩
  · rintro ⟨hc, hw⟩ p hp hm
    rcases List.mem_cons.1 hp with rfl | hp
    · exact hc
    · exact hw p hp hm

/-- What is known at each access; `within` says whether the ticks have kept within the amount asked
for. -/
def Access.Fetching (n token : Int) (within : Prop) : Access → Prop
  | .fetchTest x => x = n ∧ within
  | .fetchPause x => x = n ∧ within ∧ token = 0
  | .fetchLess x => x = n ∧ within ∧ 1 ≤ token
  | .fetchMin x => x = n ∧ 1 ≤ token ∧ (token ≤ n ↔ within)
  | .fetchLoad r => 1 ≤ r ∧ r ≤ token ∧ (r ≤ n ↔ within)
  | .fetchStore r a => 1 ≤ r ∧ r ≤ a ∧ a ≤ token ∧ (r ≤ n ↔ within)
  | _ => False

structure Fetch.Inv (n : Int) (b : Bucket) (l : List (Access × Bucket)) (a : Access)
    (c : Bucket) : Prop where
  cps_eq : c.cps = b.cps
  ge : b.token ≤ c.token
  still : b.cps = 0 → c.token = b.token
  le_max : c.token ≤ intMax
  fetching : a.Fetching n c.token (Within n l)

theorem Bucket.tick_le_max {c : Bucket} (h : c.tick = .ok c') : c.token + c.cps ≤ intMax := by
  obtain ⟨t, ht, -⟩ := bind_ok h
  exact (addInt_ok ht).2.2

theorem Access.Fetching.tick {a : Access} {c : Bucket} (h : a.Fetching n c.token (Within n l))
    (hc : 0 ≤ c.cps) : a.wake.Fetching n (c.token + c.cps) (Within n ((a, c) :: l)) := by
  cases a with
  | fetchTest x =>
    rw [within_cons_of_ne n l c (.fetchTest x) nofun]
    exact h
  | fetchPause x =>
    rw [within_cons_of_ne n l c (.fetchPause x) nofun]
    exact ⟨h.1, h.2.1⟩
  | fetchLess x =>
    rw [within_cons_of_ne n l c (.fetchLess x) nofun]
    obtain ⟨hx, hw, h1⟩ := h
    exact ⟨hx, hw, by omega⟩
  | fetchMin x =>
    obtain ⟨rfl, h1, hw⟩ := h
    rw [within_cons_fetchMin, ← hw]
    exact ⟨rfl, by omega, by omega⟩
  | fetchLoad r =>
    rw [within_cons_of_ne n l c (.fetchLoad r) nofun]
    obtain ⟨h1, hr, hw⟩ := h
    exact ⟨h1, by omega, hw⟩
  | fetchStore r x =>
    rw [within_cons_of_ne n l c (.fetchStore r x) nofun]
    obtain ⟨h1, hr, hx, hw⟩ := h
    exact ⟨h1, hr, by omega, hw⟩
  | _ => exact h

theorem Fetch.Inv.tick {c : Bucket} (h : Fetch.Inv n b l a c) (hc : 0 ≤ b.cps)
    (ht : c.tick = .ok c') : Fetch.Inv n b ((a, c) :: l) a.wake c' := by
  have hmax := Bucket.tick_le_max ht
  obtain rfl := Bucket.tick_ok ht
  have hcps := h.cps_eq
  have hge := h.ge
  refine ⟨hcps, ?_, fun h0 => ?_, hmax, h.fetching.tick (hcps ▸ hc)⟩
  · change b.token ≤ c.token + c.cps
    omega
  · have hs := h.still h0
    change c.token + c.cps = b.token
    omega

theorem Fetch.Inv.access {c : Bucket} (h : Fetch.Inv n b l a c) (h0 : 0 ≤ c.token) (hn : 1 ≤ n)
    (hs : a.step c = .ok (.on c' a')) : Fetch.Inv n b l a' c' := by
  have hf := h.fetching
  cases a with
  | fetchTest x =>
    cases hs
    refine ⟨h.cps_eq, h.ge, h.still, h.le_max, ?_⟩
    obtain ⟨hx, hw⟩ := hf
    split
    · next hz => exact ⟨hx, hw, hz⟩
    · next hz => exact ⟨hx, hw, by omega⟩
  | fetchPause x =>
    cases hs
    exact h
  | fetchLess x =>
    cases hs
    refine ⟨h.cps_eq, h.ge, h.still, h.le_max, ?_⟩
    obtain ⟨rfl, hw, h1⟩ := hf
    split
    · next hlt => exact ⟨rfl, h1, fun _ => hw, fun _ => Int.le_of_lt hlt⟩
    · next hlt => exact ⟨hn, Int.not_lt.1 hlt, fun _ => hw, fun _ => Int.le_refl _⟩
  | fetchMin x =>
    cases hs
    obtain ⟨-, h1, hw⟩ := hf
    exact ⟨h.cps_eq, h.ge, h.still, h.le_max, h1, Int.le_refl _, hw⟩
  | fetchLoad r =>
    cases hs
    obtain ⟨h1, hr, hw⟩ := hf
    exact ⟨h.cps_eq, h.ge, h.still, h.le_max, h1, hr, Int.le_refl _, hw⟩
  | fetchStore r x =>
    obtain ⟨t, -, ht⟩ := bind_ok hs
    cases ht
  | _ => exact hf.elim

theorem Fetch.inv (h : Fetch n b l a c) (hn : 1 ≤ n) (hc : 0 ≤ b.cps) (h0 : 0 ≤ b.token)
    (hmax : b.token ≤ intMax) : Fetch.Inv n b l a c := by
  induction h with
  | call =>
    exact ⟨rfl, Int.le_refl _, fun _ => rfl, hmax, rfl, fun p hp => absurd hp List.not_mem_nil⟩
  | tick _ ht ih => exact ih.tick hc ht
  | access _ hs ih => exact ih.access (Int.le_trans h0 ih.ge) hn hs

theorem Fetch.Inv.returned {c : Bucket} (h : Fetch.Inv n b l a c)
    (hs : a.step c = .ok (.fetched c' r)) : 1 ≤ r ∧ r ≤ c.token ∧ (r ≤ n ↔ Within n l) := by
  have hf := h.fetching
  cases a with
  | fetchStore r x =>
    obtain ⟨t, -, ht⟩ := bind_ok hs
    cases ht
    obtain ⟨h1, hr, hx, hw⟩ := hf
    exact ⟨h1, Int.le_trans hr hx, hw⟩
  | fetchTest | fetchPause | fetchLess | fetchMin | fetchLoad => cases hs
  | _ => exact hf.elim

theorem Fetch.returns_of_store (h : Fetch n b l (.fetchStore r x) c)
    (hi : Fetch.Inv n b l (.fetchStore r x) c) : Fetch.Returns n b l r := by
  obtain ⟨h1, hr, hx, -⟩ := hi.fetching
  have hmax := hi.le_max
  have hadd : addInt x (-r) = .ok (x + -r) := addInt_of_nonneg (by omega) (by omega)
  exact ⟨_, c, { c with token := x + -r }, h, by rw [Access.step, hadd, ok_bind]; rfl⟩

theorem Fetch.returns_of_nonempty (h : Fetch n b l a c) (hn : 1 ≤ n) (hc : 0 ≤ b.cps)
    (h0 : 0 ≤ b.token) (hmax : b.token ≤ intMax) (hpos : 0 < c.token)
    (hp : ∀ x, a ≠ .fetchPause x) : ∃ r, Fetch.Returns n b l r := by
  have hstore : ∀ r x, Fetch n b l (.fetchStore r x) c → Fetch.Returns n b l r :=
    fun r x hx => returns_of_store hx (hx.inv hn hc h0 hmax)
  have hload : ∀ r, Fetch n b l (.fetchLoad r) c → Fetch.Returns n b l r :=
    fun r hx => hstore r _ (hx.access rfl)
  have hless : ∀ x, Fetch n b l (.fetchLess x) c → ∃ r, Fetch.Returns n b l r := by
    intro x hx
    by_cases hlt : c.token < x
    · have hm : Fetch n b l (.fetchMin x) c := hx.access (by rw [Access.step, if_pos hlt])
      exact ⟨_, hload _ (hm.access rfl)⟩
    · exact ⟨_, hload x (hx.access (by rw [Access.step, if_neg hlt]))⟩
  have hf := (h.inv hn hc h0 hmax).fetching
  cases a with
  | fetchTest x =>
    have hne : c.token ≠ 0 := by omega
    exact hless x (h.access (by rw [Access.step, if_neg hne]))
  | fetchPause x => exact absurd rfl (hp x)
  | fetchLess x => exact hless x h
  | fetchMin x => exact ⟨_, hload _ (h.access rfl)⟩
  | fetchLoad r => exact ⟨r, hload r h⟩
  | fetchStore r x => exact ⟨r, hstore r x h⟩
  | _ => exact hf.elim

/-- A call on a bucket that is filled, or will be, is never stuck: a tick or none and it returns. -/
theorem Fetch.returns (h : Fetch n b l a c) (hn : 1 ≤ n) (hc : 0 ≤ b.cps) (h0 : 0 ≤ b.token)
    (hmax : b.token ≤ intMax) (hcmax : b.cps ≤ intMax) (hpos : 0 < b.token ∨ 0 < b.cps) :
    ∃ l' r, Fetch.Returns n b (l' ++ l) r := by
  have hi := h.inv hn hc h0 hmax
  have hge := hi.ge
  by_cases hz : 0 < c.token
  · by_cases hp : ∃ x, a = .fetchPause x
    · obtain ⟨x, rfl⟩ := hp
      have hz' := hi.fetching.2.2
      omega
    · obtain ⟨r, hr⟩ := h.returns_of_nonempty hn hc h0 hmax hz fun x hx => hp ⟨x, hx⟩
      exact ⟨[], r, hr⟩
  · -- the bucket is empty: the call goes to sleep, if it has not yet, and a tick wakes it
    have hcps := hi.cps_eq
    have hf := hi.fetching
    have htick : c.tick = .ok { c with token := c.token + c.cps } := by
      apply Bucket.tick_of_range
      · simp only [intMin]
        omega
      · omega
    have hwake : ∀ x, Fetch n b l (.fetchPause x) c → ∃ l' r, Fetch.Returns n b (l' ++ l) r := by
      intro x hx
      have hpos' : 0 < c.token + c.cps := by omega
      obtain ⟨r, hr⟩ := (hx.tick htick).returns_of_nonempty hn hc h0 hmax hpos' nofun
      exact ⟨[_], r, hr⟩
    cases a with
    | fetchTest x =>
      have h0' : c.token = 0 := by omega
      exact hwake x (h.access (by rw [Access.step, if_pos h0']))
    | fetchPause x => exact hwake x h
    | fetchLess x =>
      obtain ⟨-, -, h1⟩ := hf
      omega
    | fetchMin x =>
      obtain ⟨-, h1, -⟩ := hf
      omega
    | fetchLoad r =>
      obtain ⟨h1, hr, -⟩ := hf
      omega
    | fetchStore r x => exact ⟨[], r, returns_of_store h hi⟩
    | _ => exact hf.elim

/-- What is returned is between 1 and n just if no tick inside MIN lifts the bucket over n. -/
theorem fetch_bound_iff (hn : 1 ≤ n) (hc : 0 ≤ b.cps) (hcmax : b.cps ≤ intMax) (h0 : 0 ≤ b.token)
    (hmax : b.token ≤ intMax) :
    ((∀ l a c, Fetch n b l a c → ∃ l' r, Fetch.Returns n b (l' ++ l) r) ↔
      0 < b.token ∨ 0 < b.cps) ∧
    ∀ l r, Fetch.Returns n b l r → (1 ≤ r ∧ r ≤ n ↔ Within n l) := by
  refine ⟨⟨fun h => ?_, fun hpos l a c h => h.returns hn hc h0 hmax hcmax hpos⟩, ?_⟩
  · obtain ⟨l, r, a, c, c', hf, hs⟩ := h [] _ _ .call
    have hi := hf.inv hn hc h0 hmax
    obtain ⟨h1, hr, -⟩ := hi.returned hs
    by_contra hne
    have hstill := hi.still (by omega)
    omega
  · rintro l r ⟨a, c, c', hf, hs⟩
    obtain ⟨h1, -, hw⟩ := (hf.inv hn hc h0 hmax).returned hs
    exact ⟨fun hr => hw.1 hr.2, fun hl => ⟨h1, hw.2 hl⟩⟩

theorem fetch_bound_iff_empty :
    ∃ l r, Fetch.Returns 1024 ⟨10, 1024, 0, 0⟩ l r ∧ l.length = 1 ∧ 1 ≤ r ∧ r ≤ 1024 := by
  have h : Fetch 1024 ⟨10, 1024, 0, 0⟩ [] (.fetchTest 1024) ⟨10, 1024, 0, 0⟩ := .call
  have h := h.access (e := .fetchPause 1024) rfl
  have h := h.tick (d := ⟨10, 1024, 10, 0⟩) rfl
  have h := h.access (e := .fetchLess 1024) rfl
  have h := h.access (e := .fetchMin 1024) rfl
  have h := h.access (e := .fetchLoad 10) rfl
  have h := h.access (e := .fetchStore 10 10) rfl
  have hr : Fetch.Returns 1024 ⟨10, 1024, 0, 0⟩ _ 10 := ⟨_, _, ⟨10, 1024, 0, 0⟩, h, rfl⟩
  have hiff := (fetch_bound_iff (n := 1024) (b := ⟨10, 1024, 0, 0⟩) (by decide) (by decide)
    (by decide) (by decide) (by decide)).2 _ _ hr
  refine ⟨_, _, hr, rfl, hiff.2 fun p hp hm => ?_⟩
  rw [List.mem_singleton.1 hp] at hm
  cases hm

/-- slow_cat asks for the 1024 bytes of its buffer, and a tick between the comparison and the second
read gives it 1030. -/
theorem fetch_overruns :
    ∃ l, Fetch.Returns 1024 ⟨10, 1024, 1020, 0⟩ l 1030 ∧ l.length = 1 := by
  have h : Fetch 1024 ⟨10, 1024, 1020, 0⟩ [] (.fetchTest 1024) ⟨10, 1024, 1020, 0⟩ := .call
  have h := h.access (e := .fetchLess 1024) rfl
  have h := h.access (e := .fetchMin 1024) rfl
  have h := h.tick (d := ⟨10, 1024, 1030, 0⟩) rfl
  have h := h.access (e := .fetchLoad 1030) rfl
  have h := h.access (e := .fetchStore 1030 1030) rfl
  exact ⟨_, ⟨_, _, ⟨10, 1024, 0, 0⟩, h, rfl⟩, rfl⟩

end Apue.Tbf
