import Apue.AnyTimerIds

namespace Apue.AnyTimer
set_option autoImplicit true

/-- The callbacks run for the job with record p, the latest first. -/
def State.firings (s : State F A) (p : Nat) : List (Firing F A) :=
  s.fired.filter fun f => f.job == p

/-- The current tick has been through with slot i. -/
def passed (i : Fin maxTasks) : Option Handler → Bool
  | none => true
  | some (.scan j) => decide (i.val < j)
  | some (.callback j _) => decide (i.val < j.val)

/-- The last tick that slot i has seen. -/
def State.seen (s : State F A) (i : Fin maxTasks) : Int :=
  if passed i s.handler then s.clock else s.clock - 1

/-- The job e with record p is in the table and counts down towards its tick. -/
structure State.Waiting (s : State F A) (p : Nat) (e : Job F A) (k : Task F A) : Prop where
  slot : s.tasks e.id = some p
  live : s.heap.Live p k
  func_eq : k.func = e.func
  arg_eq : k.arg = e.arg
  sec_eq : k.sec = e.sec + e.addedAt - s.seen e.id
  since : (e.addedAt : Int) ≤ s.seen e.id
  positive : 1 ≤ e.sec → 1 ≤ k.sec
  silent : s.firings p = []
  kept : p ∉ s.cancelled

inductive State.Fate (s : State F A) (p : Nat) (e : Job F A) : Prop where
  | waiting (k : Task F A) (hw : s.Waiting p e k)
  | fired (h1 : 1 ≤ e.sec) (hd : e.due ≤ s.clock)
      (hf : s.firings p = [⟨p, e.func, e.arg, e.due⟩]) (hc : p ∉ s.cancelled)
  | cancelled (hc : p ∈ s.cancelled) (hf : s.firings p = [])

/-- The calls and signals under which nothing goes wrong. -/
def Careful (s : State F A) : Act F A → Prop
  -- the slot that at_add_job has found is still free when it stores the record
  | .stmt => s.Vacant
  -- at_cancel_job has not freed the record, and has not loaded one that is about to fire
  | .tick => (∀ i p, s.main ≠ .cancelClear i p) ∧
      ∀ i p k, s.main.record = some (i, p) → s.heap.Live p k → k.sec ≠ 1
  -- a callback finds a free slot below its own, if it finds any
  | .callAdd .. => ∀ i p, s.handler = some (.callback i p) → (∃ j, s.tasks j = none) →
      ∃ j, j < i ∧ s.tasks j = none
  -- it cancels neither its own id nor the one that is being cancelled
  | .callCancel id => ∀ i p, s.handler = some (.callback i p) →
      id ≠ i ∧ ∀ q, s.main.record ≠ some (id, q)
  | _ => True

structure State.Sound (s : State F A) : Prop where
  no_fault : s.fault = none
  fate : ∀ p e, s.jobs[p]? = some e → s.Fate p e
  calling : ∀ i p, s.handler = some (.callback i p) →
    s.tasks i = some p ∧ (∃ k, s.heap.Live p k) ∧ s.firings p ≠ []
  held : ∀ i p, s.main.record = some (i, p) → s.tasks i = some p ∧ s.firings p = [] ∧
    (passed i s.handler = false → ∀ k, s.heap.Live p k → k.sec ≠ 1)
  clearing : ∀ i p, s.main = .cancelClear i p → s.handler = none ∧ p ∈ s.cancelled

theorem State.mem_firings {s : State F A} (h : s.firings p ≠ []) : ∃ f ∈ s.fired, f.job = p := by
  obtain ⟨f, hf⟩ := List.exists_mem_of_ne_nil _ h
  obtain ⟨hm, he⟩ := List.mem_filter.1 hf
  exact ⟨f, hm, beq_iff_eq.1 he⟩

theorem State.firings_nil {s : State F A} (h : ∀ f ∈ s.fired, f.job ≠ p) : s.firings p = [] := by
  rw [State.firings, List.filter_eq_nil_iff]
  intro f hf he
  exact h f hf (beq_iff_eq.1 he)

theorem State.Fate.frame {s t : State F A} (h : s.Fate p e) (hf : t.firings p = s.firings p)
    (hc : p ∈ t.cancelled ↔ p ∈ s.cancelled) (hclock : s.clock ≤ t.clock)
    (hw : ∀ k, s.Waiting p e k → t.tasks e.id = some p ∧ t.heap.Live p k ∧
      t.seen e.id = s.seen e.id) : t.Fate p e := by
  cases h with
  | waiting k hk =>
    obtain ⟨ht, hl, hs⟩ := hw k hk
    exact .waiting k ⟨ht, hl, hk.func_eq, hk.arg_eq, hs ▸ hk.sec_eq, hs ▸ hk.since, hk.positive,
      hf.trans hk.silent, fun hm => hk.kept (hc.1 hm)⟩
  | fired h1 hd hfs hn =>
    exact .fired h1 (Nat.le_trans hd hclock) (hf.trans hfs) (fun hm => hn (hc.1 hm))
  | cancelled hm hfs => exact .cancelled (hc.2 hm) (hf.trans hfs)

/-- A record in the table that is not being fired or cleared belongs to a waiting job. -/
theorem State.Sound.waiting {s : State F A} (h : s.Sound) (hs : s.Slots)
    (hp : s.tasks i = some p) (hh : s.handler ≠ some (.callback i p))
    (hm : s.main ≠ .cancelClear i p) :
    ∃ e k, s.jobs[p]? = some e ∧ e.id = i ∧ s.Waiting p e k := by
  obtain ⟨e, he, rfl⟩ := hs.slot i p hp
  cases h.fate p e he with
  | waiting k hk => exact ⟨e, k, he, rfl, hk⟩
  | fired _ _ hf =>
    obtain ⟨f, hfm, rfl⟩ := s.mem_firings (p := p) (by rw [hf]; simp)
    exact absurd (hs.firedGone f hfm _ hp) hh
  | cancelled hc => exact absurd (hs.cancelledGone p hc _ hp) hm

theorem State.Sound.not_clearing {s : State F A} (h : s.Sound) (hh : s.handler ≠ none)
    (i : Fin maxTasks) (p : Nat) : s.main ≠ .cancelClear i p :=
  fun hm => hh (h.clearing i p hm).1

theorem State.Sound.main {s : State F A} (h : s.Sound)
    (hr : ∀ i p, m.record = some (i, p) → s.tasks i = some p ∧ s.firings p = [] ∧
      (passed i s.handler = false → ∀ k, s.heap.Live p k → k.sec ≠ 1))
    (hc : ∀ i p, m ≠ .cancelClear i p) : State.Sound { s with main := m } := by
  refine ⟨h.no_fault, ?_, h.calling, hr, fun i p hp => absurd hp (hc i p)⟩
  intro p e he
  exact (h.fate p e he).frame rfl Iff.rfl (Nat.le_refl _)
    fun k hk => ⟨hk.slot, hk.live, rfl⟩

theorem State.Slots.stored {s : State F A} (hs : s.Slots) (hpass : passed j s.handler = true)
    (sec : Int) (job : F) (arg : A) :
    (s.store j sec job arg).Waiting s.jobs.length ⟨j, sec, job, arg, s.clock⟩
      ⟨sec, job, arg, j⟩ := by
  have hseen : (s.store j sec job arg).seen j = s.clock := by
    rw [State.seen, show (s.store j sec job arg).handler = s.handler from rfl, hpass]
    rfl
  refine ⟨?_, ?_, rfl, rfl, ?_, ?_, fun h1 => h1, ?_, ?_⟩
  · rw [hs.length_eq]
    exact Function.update_self j (some s.heap.next) s.tasks
  · rw [hs.length_eq]
    exact Heap.live_malloc_self _
  · rw [hseen]
    exact (Int.add_sub_cancel _ _).symm
  · rw [hseen]
  · apply State.firings_nil
    intro f hf he
    exact Nat.lt_irrefl _ (he ▸ hs.firedJob f hf)
  · intro hc
    exact Nat.lt_irrefl _ (hs.cancelledJob _ hc)

theorem State.Sound.store {s : State F A} (h : s.Sound) (hs : s.Slots)
    (hfree : s.tasks j = none) (hpass : passed j s.handler = true) :
    (s.store j sec job arg).Sound := by
  have hkeep : ∀ {i p}, s.tasks i = some p → (s.store j sec job arg).tasks i = some p := by
    intro i p hp
    have hne : i ≠ j := by
      rintro rfl
      rw [hfree] at hp
      cases hp
    exact (Function.update_of_ne hne _ _).trans hp
  have hlive : ∀ {p k}, s.heap.Live p k → (s.store j sec job arg).heap.Live p k := by
    intro p k hk
    exact (Heap.live_malloc_of_lt hk.lt_next).2 hk
  refine ⟨h.no_fault, ?_, ?_, ?_, h.clearing⟩
  · intro p e he
    rcases concat_getElem?.1 he with he' | ⟨rfl, rfl⟩
    · exact (h.fate p e he').frame rfl Iff.rfl (Nat.le_refl _)
        fun k hk => ⟨hkeep hk.slot, hlive hk.live, rfl⟩
    · exact .waiting _ (hs.stored hpass sec job arg)
  · intro i p hh
    obtain ⟨hp, ⟨k, hk⟩, hf⟩ := h.calling i p hh
    exact ⟨hkeep hp, ⟨k, hlive hk⟩, hf⟩
  · intro i p hr
    obtain ⟨hp, hf, hk⟩ := h.held i p hr
    refine ⟨hkeep hp, hf, fun hpass' k hk' => hk hpass' k ?_⟩
    have hlt : p < s.heap.next := hs.length_eq ▸ hs.lt hp
    exact (Heap.live_malloc_of_lt hlt).1 hk'

theorem State.Sound.quiet {s : State F A} (h : s.Sound) (hr : m.record = none) :
    State.Sound { s with main := m } := by
  apply h.main
  · intro i p hp
    rw [hr] at hp
    cases hp
  · intro i p hp
    rw [hp] at hr
    cases hr

theorem State.Sound.init {s : State F A} (h : s.Sound) : State.Sound { s with inited := true } :=
  ⟨h.no_fault, fun p e he => (h.fate p e he).frame rfl Iff.rfl (Nat.le_refl _)
    fun _ hk => ⟨hk.slot, hk.live, rfl⟩, h.calling, h.held, h.clearing⟩

theorem State.Sound.load {s : State F A} (h : s.Sound) (hs : s.Slots) (hh : s.handler = none)
    (hm : s.main = .cancelLoad j) (hp : s.tasks j = some p) :
    State.Sound { s with main := .cancelTest j (some p) } := by
  obtain ⟨e, k, he, rfl, hk⟩ := h.waiting hs hp (by rw [hh]; simp) (by rw [hm]; simp)
  refine h.main (fun i q hq => ?_) (by simp)
  cases hq
  refine ⟨hp, hk.silent, fun hpass => ?_⟩
  rw [hh] at hpass
  cases hpass

theorem State.Sound.free {s : State F A} (h : s.Sound) (hh : s.handler = none)
    (hm : s.main = .cancelFree j p) :
    State.Sound { s with
      heap := s.heap.put p none
      cancelled := p :: s.cancelled
      main := .cancelClear j p } := by
  obtain ⟨hp, hf, -⟩ := h.held j p (by rw [hm]; rfl)
  refine ⟨h.no_fault, ?_, ?_, ?_, ?_⟩
  · intro q e he
    by_cases hq : q = p
    · subst hq
      exact .cancelled List.mem_cons_self hf
    · refine (h.fate q e he).frame rfl ?_ (Nat.le_refl _)
        fun k hk => ⟨hk.slot, (Heap.live_put_of_ne hq).2 hk.live, rfl⟩
      exact ⟨fun hc => (List.mem_cons.1 hc).resolve_left hq, List.mem_cons_of_mem p⟩
  · intro i q hc
    rw [show s.handler = _ from hc] at hh
    cases hh
  · intro i q hr
    cases hr
    refine ⟨hp, hf, fun hpass => ?_⟩
    rw [show passed j _ = true from congrArg (passed j) hh] at hpass
    cases hpass
  · intro i q hc
    cases hc
    exact ⟨hh, List.mem_cons_self⟩

theorem State.Sound.clear {s : State F A} (h : s.Sound) (hh : s.handler = none)
    (hm : s.main = .cancelClear j p) :
    State.Sound { s with tasks := Function.update s.tasks j none, main := .idle } := by
  obtain ⟨hp, -, -⟩ := h.held j p (by rw [hm]; rfl)
  obtain ⟨-, hc⟩ := h.clearing j p hm
  refine ⟨h.no_fault, ?_, ?_, fun i q hr => (by cases hr), fun i q hq => (by cases hq)⟩
  · intro q e he
    refine (h.fate q e he).frame rfl Iff.rfl (Nat.le_refl _) fun k hk => ⟨?_, hk.live, rfl⟩
    have hne : e.id ≠ j := by
      rintro rfl
      have hslot := hk.slot
      rw [hp] at hslot
      cases hslot
      exact hk.kept hc
    exact (Function.update_of_ne hne _ _).trans hk.slot
  · intro i q hq
    rw [show s.handler = _ from hq] at hh
    cases hh

theorem State.Sound.tick {s : State F A} (h : s.Sound) (hh : s.handler = none)
    (hok : Careful s .tick) :
    State.Sound { s with handler := some (.scan 0), clock := s.clock + 1 } := by
  obtain ⟨hclear, hsec⟩ := hok
  refine ⟨h.no_fault, ?_, fun i p hc => (by cases hc), ?_, fun i p hm => absurd hm (hclear i p)⟩
  · intro p e he
    refine (h.fate p e he).frame rfl Iff.rfl (Nat.le_succ _) fun k hk => ⟨hk.slot, hk.live, ?_⟩
    simp [State.seen, passed, hh]
  · intro i p hr
    obtain ⟨hp, hf, -⟩ := h.held i p hr
    exact ⟨hp, hf, fun _ k hk => hsec i p k hr hk⟩

theorem State.Sound.finish {s : State F A} (h : s.Sound) (hh : s.handler = some (.scan i))
    (hi : maxTasks ≤ i) : State.Sound { s with handler := none, main := s.main.wake } := by
  have hpass : ∀ j : Fin maxTasks, passed j s.handler = true := by
    intro j
    rw [hh]
    exact decide_eq_true (Nat.lt_of_lt_of_le j.isLt hi)
  refine ⟨h.no_fault, ?_, fun i p hc => (by cases hc), ?_, ?_⟩
  · intro p e he
    refine (h.fate p e he).frame rfl Iff.rfl (Nat.le_refl _) fun k hk => ⟨hk.slot, hk.live, ?_⟩
    rw [State.seen, State.seen, hpass]
    rfl
  · intro j p hr
    have hr' : s.main.record = some (j, p) := by
      rw [← hr]
      cases s.main <;> rfl
    obtain ⟨hp, hf, -⟩ := h.held j p hr'
    exact ⟨hp, hf, fun hn => (by cases hn)⟩
  · intro j p hm
    have hm' : s.main = .cancelClear j p := by
      cases hmain : s.main <;> simp_all [Main.wake]
    exact absurd hm' (h.not_clearing (by rw [hh]; simp) j p)

theorem seen_scan_succ {s t : State F A} (hh : s.handler = some (.scan i.val))
    (ht : t.handler = some (.scan (i.val + 1))) (hc : t.clock = s.clock) (hj : j ≠ i) :
    t.seen j = s.seen j := by
  have hne : j.val ≠ i.val := fun he => hj (Fin.ext he)
  have hiff : decide (j.val < i.val + 1) = decide (j.val < i.val) := by
    rw [decide_eq_decide]
    omega
  simp only [State.seen, hh, ht, hc, passed, hiff]

theorem passed_scan_succ (h : passed j (some (.scan (i + 1))) = false) :
    passed j (some (.scan i)) = false ∧ j.val ≠ i := by
  simp only [passed, decide_eq_false_iff_not] at h ⊢
  omega

theorem seen_of_scan {s : State F A} (hh : s.handler = some (.scan i.val)) :
    s.seen i = s.clock - 1 := by
  simp [State.seen, hh, passed]

theorem State.Waiting.down {s : State F A} (hw : s.Waiting p e k)
    (hh : s.handler = some (.scan e.id.val)) (hne : k.sec - 1 ≠ 0) :
    State.Waiting { s with
      heap := s.heap.put p (some k.older)
      handler := some (.scan (e.id.val + 1)) } p e k.older := by
  have hnew : State.seen { s with
      heap := s.heap.put p (some k.older)
      handler := some (.scan (e.id.val + 1)) } e.id = s.clock := by
    simp [State.seen, passed]
  have hsec := hw.sec_eq
  have hsince := hw.since
  rw [seen_of_scan hh] at hsec hsince
  refine ⟨hw.slot, Heap.live_put_self hw.live.lt_next, hw.func_eq, hw.arg_eq, ?_, ?_, ?_,
    hw.silent, hw.kept⟩
  · rw [hnew]
    change k.sec - 1 = _
    omega
  · rw [hnew]
    omega
  · intro h1
    have hpos := hw.positive h1
    change 1 ≤ k.sec - 1
    omega

theorem State.Waiting.due_now {s : State F A} (hw : s.Waiting p e k)
    (hh : s.handler = some (.scan e.id.val)) (he : k.sec - 1 = 0) :
    1 ≤ e.sec ∧ e.due = s.clock := by
  have hsec := hw.sec_eq
  have hsince := hw.since
  rw [seen_of_scan hh] at hsec hsince
  rw [Job.due]
  omega

theorem State.Sound.visit_none {s : State F A} (h : s.Sound) (hh : s.handler = some (.scan i.val))
    (hn : s.tasks i = none) : State.Sound { s with handler := some (.scan (i.val + 1)) } := by
  refine ⟨h.no_fault, ?_, fun j p hc => (by cases hc), ?_, ?_⟩
  · intro p e he
    refine (h.fate p e he).frame rfl Iff.rfl (Nat.le_refl _)
      fun k hk => ⟨hk.slot, hk.live, seen_scan_succ hh rfl rfl ?_⟩
    rintro rfl
    rw [hk.slot] at hn
    cases hn
  · intro j p hr
    obtain ⟨hp, hf, hk⟩ := h.held j p hr
    refine ⟨hp, hf, fun hpass => hk ?_⟩
    rw [hh]
    exact (passed_scan_succ hpass).1
  · intro j p hm
    exact absurd hm (h.not_clearing (by rw [hh]; simp) j p)

theorem State.Sound.visit_down {s : State F A} (h : s.Sound) (hs : s.Slots)
    (hh : s.handler = some (.scan i.val)) (hp : s.tasks i = some p) (hk : s.heap.Live p k)
    (hne : k.sec - 1 ≠ 0) :
    State.Sound { s with
      heap := s.heap.put p (some k.older), handler := some (.scan (i.val + 1)) } := by
  have hclear := h.not_clearing (by rw [hh]; simp)
  obtain ⟨e, k', he, rfl, hw⟩ := h.waiting hs hp (by rw [hh]; simp) (hclear _ _)
  cases hk.unique hw.live
  refine ⟨h.no_fault, ?_, fun j q hc => (by cases hc), ?_, fun j q hm => absurd hm (hclear j q)⟩
  · intro q e' he'
    by_cases hq : q = p
    · subst hq
      rw [show s.jobs[q]? = some e' from he'] at he
      cases he
      exact .waiting k.older (hw.down hh hne)
    · refine (h.fate q e' he').frame rfl Iff.rfl (Nat.le_refl _)
        fun k' hk' => ⟨hk'.slot, (Heap.live_put_of_ne hq).2 hk'.live, seen_scan_succ hh rfl rfl ?_⟩
      intro hid
      have hslot := hk'.slot
      rw [hid, hp] at hslot
      cases hslot
      exact hq rfl
  · intro j q hr
    obtain ⟨hq, hf, hsec⟩ := h.held j q hr
    refine ⟨hq, hf, fun hpass k₁ hk₁ => ?_⟩
    obtain ⟨hpass', hji⟩ := passed_scan_succ hpass
    have hqp : q ≠ p := by
      rintro rfl
      exact hji (congrArg Fin.val (hs.injective hq hp))
    rw [← hh] at hpass'
    exact hsec hpass' k₁ ((Heap.live_put_of_ne hqp).1 hk₁)

theorem State.Sound.visit_fire {s : State F A} (h : s.Sound) (hs : s.Slots)
    (hh : s.handler = some (.scan i.val)) (hp : s.tasks i = some p) (hk : s.heap.Live p k)
    (he : k.sec - 1 = 0) :
    State.Sound { s with
      heap := s.heap.put p (some k.older)
      handler := some (.callback i p)
      fired := ⟨p, k.func, k.arg, s.clock⟩ :: s.fired } := by
  have hclear := h.not_clearing (by rw [hh]; simp)
  obtain ⟨e, k', hje, rfl, hw⟩ := h.waiting hs hp (by rw [hh]; simp) (hclear _ _)
  cases hk.unique hw.live
  have hself : State.firings { s with
      heap := s.heap.put p (some k.older)
      handler := some (.callback e.id p)
      fired := ⟨p, k.func, k.arg, s.clock⟩ :: s.fired } p =
      ⟨p, k.func, k.arg, s.clock⟩ :: s.firings p := by
    simp [State.firings]
  have hother : ∀ q, q ≠ p → State.firings { s with
      heap := s.heap.put p (some k.older)
      handler := some (.callback e.id p)
      fired := ⟨p, k.func, k.arg, s.clock⟩ :: s.fired } q = s.firings q := by
    intro q hq
    simp [State.firings, Ne.symm hq]
  have hnot : passed e.id s.handler = false := by
    simp [hh, passed]
  refine ⟨h.no_fault, ?_, ?_, ?_, fun j q hm => absurd hm (hclear j q)⟩
  · intro q e' he'
    by_cases hq : q = p
    · subst hq
      rw [show s.jobs[q]? = some e' from he'] at hje
      cases hje
      obtain ⟨h1, hdue⟩ := hw.due_now hh he
      refine .fired h1 (Nat.le_of_eq hdue) ?_ hw.kept
      rw [hself, hw.silent, hw.func_eq, hw.arg_eq, hdue]
    · refine (h.fate q e' he').frame (hother q hq) Iff.rfl (Nat.le_refl _)
        fun k' hk' => ⟨hk'.slot, (Heap.live_put_of_ne hq).2 hk'.live, ?_⟩
      simp only [State.seen, hh, passed]
      rfl
  · intro j q hc
    cases hc
    refine ⟨hp, ⟨_, Heap.live_put_self hk.lt_next⟩, ?_⟩
    rw [hself]
    exact List.cons_ne_nil _ _
  · intro j q hr
    obtain ⟨hq, hf, hsec⟩ := h.held j q hr
    have hqp : q ≠ p := by
      rintro rfl
      have hid := hs.injective hq hp
      subst hid
      exact hsec hnot k hk (by omega)
    refine ⟨hq, (hother q hqp).trans hf, fun hpass k₁ hk₁ => ?_⟩
    refine hsec ?_ k₁ ((Heap.live_put_of_ne hqp).1 hk₁)
    rw [hh]
    exact hpass

theorem State.Sound.callCancel {s : State F A} {j : Fin maxTasks} (h : s.Sound) (hs : s.Slots)
    (hh : s.handler = some (.callback i p)) (hok : Careful s (.callCancel j))
    (hq : s.tasks j = some q) :
    State.Sound { s with
      heap := s.heap.put q none
      cancelled := q :: s.cancelled
      tasks := Function.update s.tasks j none } := by
  obtain ⟨hji, hmain⟩ := hok i p hh
  have hclear := h.not_clearing (by rw [hh]; simp)
  obtain ⟨e, k, he, rfl, hw⟩ := h.waiting hs hq (by rw [hh]; simp [Ne.symm hji]) (hclear _ _)
  have hkeep : ∀ {l r}, s.tasks l = some r → r ≠ q →
      Function.update s.tasks e.id none l = some r := by
    intro l r hr hrq
    have hne : l ≠ e.id := by
      rintro rfl
      rw [hq] at hr
      cases hr
      exact hrq rfl
    exact (Function.update_of_ne hne _ _).trans hr
  refine ⟨h.no_fault, ?_, ?_, ?_, fun l r hm => absurd hm (hclear l r)⟩
  · intro r e' he'
    by_cases hr : r = q
    · subst hr
      exact .cancelled List.mem_cons_self hw.silent
    · refine (h.fate r e' he').frame rfl ?_ (Nat.le_refl _)
        fun k' hk' => ⟨hkeep hk'.slot hr, (Heap.live_put_of_ne hr).2 hk'.live, rfl⟩
      exact ⟨fun hc => (List.mem_cons.1 hc).resolve_left hr, List.mem_cons_of_mem q⟩
  · intro l r hc
    obtain ⟨hl, ⟨k', hk'⟩, hf⟩ := h.calling l r hc
    have hr : r ≠ q := by
      rintro rfl
      exact hf hw.silent
    exact ⟨hkeep hl hr, ⟨k', (Heap.live_put_of_ne hr).2 hk'⟩, hf⟩
  · intro l r hrec
    obtain ⟨hl, hf, hsec⟩ := h.held l r hrec
    have hr : r ≠ q := by
      rintro rfl
      have hid := hs.injective hl hq
      subst hid
      exact hmain r hrec
    exact ⟨hkeep hl hr, hf, fun hpass k' hk' => hsec hpass k' ((Heap.live_put_of_ne hr).1 hk')⟩

theorem State.Sound.callReturn {s : State F A} (h : s.Sound)
    (hh : s.handler = some (.callback i p)) :
    State.Sound { s with
      heap := s.heap.put p none
      tasks := Function.update s.tasks i none
      handler := some (.scan (i + 1)) } := by
  obtain ⟨hp, -, hfired⟩ := h.calling i p hh
  have hclear := h.not_clearing (by rw [hh]; simp)
  have hslot : ∀ {l q}, s.tasks l = some q → s.firings q = [] →
      q ≠ p ∧ l ≠ i ∧ Function.update s.tasks i none l = some q := by
    intro l q hq hf
    have hqp : q ≠ p := by
      rintro rfl
      exact hfired hf
    have hli : l ≠ i := by
      rintro rfl
      rw [hp] at hq
      cases hq
      exact hqp rfl
    exact ⟨hqp, hli, (Function.update_of_ne hli _ _).trans hq⟩
  have hpass : ∀ {l : Fin maxTasks}, l ≠ i →
      passed l (some (.scan (i.val + 1))) = passed l s.handler := by
    intro l hl
    have hne : l.val ≠ i.val := fun he => hl (Fin.ext he)
    rw [hh]
    simp only [passed, decide_eq_decide]
    omega
  refine ⟨h.no_fault, ?_, fun l q hc => (by cases hc), ?_, fun l q hm => absurd hm (hclear l q)⟩
  · intro q e he
    refine (h.fate q e he).frame rfl Iff.rfl (Nat.le_refl _) fun k hk => ?_
    obtain ⟨hqp, hli, ht⟩ := hslot hk.slot hk.silent
    refine ⟨ht, (Heap.live_put_of_ne hqp).2 hk.live, ?_⟩
    rw [State.seen, State.seen, ← hpass hli]
  · intro l q hr
    obtain ⟨hl, hf, hsec⟩ := h.held l q hr
    obtain ⟨hqp, hli, ht⟩ := hslot hl hf
    refine ⟨ht, hf, fun hn k hk => hsec ?_ k ((Heap.live_put_of_ne hqp).1 hk)⟩
    rw [← hpass hli]
    exact hn

theorem State.stmt_error {s : State F A} (h : s.stmt = .error e) :
    ∃ j p, s.main = .cancelFree j p ∧ s.heap.free p = .error e := by
  cases hm : s.main with
  | cancelFree j p =>
    rw [State.stmt, hm] at h
    rcases bind_error h with hr | ⟨u, -, hr⟩
    · rcases bind_error hr with hf | ⟨H, -, hf⟩
      · exact ⟨j, p, rfl, hf⟩
      · cases hf
    · cases hr
  | cancelTest j o =>
    rw [State.stmt, hm] at h
    cases o <;> cases h
  | addScan i sec job arg =>
    rw [State.stmt, hm] at h
    simp only at h
    split at h
    · split at h <;> cases h
    · cases h
  | _ =>
    rw [State.stmt, hm] at h
    cases h

theorem State.Sound.live {s : State F A} (h : s.Sound) (hs : s.Slots) (hp : s.tasks i = some p)
    (hm : s.main ≠ .cancelClear i p) : ∃ k, s.heap.Live p k := by
  by_cases hh : s.handler = some (.callback i p)
  · exact (h.calling i p hh).2.1
  · obtain ⟨e, k, -, -, hw⟩ := h.waiting hs hp hh hm
    exact ⟨k, hw.live⟩

theorem State.Sound.stmt_defined {s : State F A} (h : s.Sound) (hs : s.Slots) :
    s.stmt ≠ .error e := by
  intro he
  obtain ⟨j, p, hm, hf⟩ := State.stmt_error he
  obtain ⟨hp, -⟩ := h.held j p (by rw [hm]; rfl)
  obtain ⟨k, hk⟩ := h.live hs hp (by rw [hm]; simp)
  rw [hk.free] at hf
  cases hf

theorem State.Sound.visit_defined {s : State F A} (h : s.Sound) (hs : s.Slots)
    (hh : s.handler ≠ none) : s.visit i ≠ .error e := by
  intro he
  unfold State.visit at he
  split at he
  · cases he
  · next p hp =>
    obtain ⟨k, hk⟩ := h.live hs hp (h.not_clearing hh i p)
    rw [hk.load] at he
    obtain hH | ⟨H, -, he⟩ := bind_error (x := s.heap.store p k.older) he
    · rw [hk.store] at hH
      cases hH
    · split at he <;> cases he

theorem State.Sound.cancel_defined {s : State F A} {j : Fin maxTasks} (h : s.Sound) (hs : s.Slots)
    (hh : s.handler ≠ none) : s.atCancelJob j ≠ .error e := by
  intro he
  unfold State.atCancelJob at he
  split at he
  · cases he
  · next p hp =>
    obtain ⟨k, hk⟩ := h.live hs hp (h.not_clearing hh j p)
    rcases bind_error he with hr | ⟨u, -, hr⟩
    · rcases bind_error hr with hf | ⟨H, -, hf⟩
      · rw [hk.free] at hf
        cases hf
      · cases hf
    · cases hr

theorem State.Sound.return_defined {s : State F A} (h : s.Sound)
    (hh : s.handler = some (.callback i p)) : s.finishCallback i p ≠ .error e := by
  intro he
  obtain ⟨-, ⟨k, hk⟩, -⟩ := h.calling i p hh
  rcases bind_error he with hf | ⟨H, -, hf⟩
  · rw [hk.free] at hf
    cases hf
  · cases hf

theorem State.Sound.step {s t : State F A} (h : s.Sound) (hs : s.Slots) (hm : Move Careful s t) :
    t.Sound := by
  cases hm with
  | full => exact h.init
  | same => exact h
  | quiet _ _ hl => exact h.quiet hl.record_none
  | request => exact h.init.quiet rfl
  | scan | found => exact h.quiet rfl
  | add hh hm hok => exact (h.store hs (hok _ _ _ _ hm) (by rw [hh]; rfl)).quiet rfl
  | @callAdd i p j _ _ _ hh hj hok =>
    apply h.store hs (getfFreePos_some hj)
    obtain ⟨l, hl, hn⟩ := hok i p hh ⟨j, getfFreePos_some hj⟩
    rw [hh]
    exact decide_eq_true (lt_of_le_of_lt (getfFreePos_le hj hn) hl)
  | load hh hm hp => exact h.load hs hh hm hp
  | test hh hm =>
    refine h.main (fun i p hr => ?_) (by simp)
    cases hr
    exact h.held _ _ (by rw [hm]; rfl)
  | free hh hm => exact h.free hh hm
  | clear hh hm => exact h.clear hh hm
  | tick hh hok => exact h.tick hh hok
  | visit hh hi hv =>
    cases hv with
    | none hn => exact h.visit_none hh hn
    | down hp hk hne => exact h.visit_down hs hh hp hk hne
    | fire hp hk he => exact h.visit_fire hs hh hp hk he
  | finish hh hi => exact h.finish hh hi
  | callCancel hh hok hq => exact h.callCancel hs hh hok hq
  | callReturn hh => exact h.callReturn hh
  | stmtFault _ he => exact absurd he (h.stmt_defined hs)
  | visitFault hh _ he => exact absurd he (h.visit_defined hs (by rw [hh]; simp))
  | cancelFault hh _ he => exact absurd he (h.cancel_defined hs (by rw [hh]; simp))
  | returnFault hh he => exact absurd he (h.return_defined hh)

theorem State.Step.mono {s t : State F A} (h : State.Step P s t) (hP : ∀ a, P s a → Q s a) :
    State.Step Q s t := by
  cases h with
  | add hf hh hm hok => exact .add hf hh hm (hP _ hok)
  | cancel j hf hh hm hok => exact .cancel j hf hh hm (hP _ hok)
  | wait j hf hh hm hok => exact .wait j hf hh hm (hP _ hok)
  | stmt hf hh hok => exact .stmt hf hh (hP _ hok)
  | tick hf hh hi hok => exact .tick hf hh hi (hP _ hok)
  | visit hf hh hi => exact .visit hf hh hi
  | finish hf hh hi => exact .finish hf hh hi
  | callAdd hf hh hok => exact .callAdd hf hh (hP _ hok)
  | callCancel j hf hh hok => exact .callCancel j hf hh (hP _ hok)
  | callReturn hf hh => exact .callReturn hf hh

theorem State.Sound.of_reachable {s : State F A} (h : (anytimer F A ok).Reachable s)
    (hok : ∀ s a, (anytimer F A ok).Reachable s → ok s a → Careful s a) : s.Sound := by
  refine h.invariant ?_ ?_
  · rintro s rfl
    exact ⟨rfl, fun p e he => (by simp [State.start] at he), fun i p hc => (by cases hc),
      fun i p hr => (by cases hr), fun i p hm => (by cases hm)⟩
  · intro s t hr hs hst
    exact hs.step (State.Slots.of_reachable hr) (State.Step.mono hst fun a => hok s a hr).move

end Apue.AnyTimer
