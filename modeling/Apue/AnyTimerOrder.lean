import Apue.AnyTimerFiring

namespace Apue.AnyTimer
set_option autoImplicit true

/-- The order in which two jobs are due: by their ticks, and within a tick by their slots. -/
def Job.Before (e e' : Job F A) : Prop := e.due < e'.due ∨ e.due = e'.due ∧ e.id < e'.id

/-- The current tick has come to slot i. -/
def reached (i : Fin maxTasks) : Option Handler → Prop
  | none => True
  | some (.scan j) => i.val < j
  | some (.callback j _) => i ≤ j

structure State.InOrder (s : State F A) : Prop where
  time_le : ∀ f ∈ s.fired, f.time ≤ s.clock
  now : ∀ f ∈ s.fired, f.time = s.clock → ∀ e, s.jobs[f.job]? = some e → reached e.id s.handler
  sorted : s.fired.Pairwise fun g f => ∀ e e', s.jobs[f.job]? = some e →
    s.jobs[g.job]? = some e' → f.time < g.time ∨ f.time = g.time ∧ e.id < e'.id

theorem State.InOrder.frame {s t : State F A} (h : s.InOrder) (hf : t.fired = s.fired)
    (hc : t.clock = s.clock) (hj : ∀ f ∈ s.fired, t.jobs[f.job]? = s.jobs[f.job]?)
    (hh : ∀ i, reached i s.handler → reached i t.handler) : t.InOrder := by
  refine ⟨?_, ?_, ?_⟩
  · rw [hf, hc]
    exact h.time_le
  · rw [hf, hc]
    intro f hm ht e he
    rw [hj f hm] at he
    exact hh _ (h.now f hm ht e he)
  · rw [hf]
    refine h.sorted.imp_of_mem fun hg hm hlt e e' he he' => ?_
    rw [hj _ hm] at he
    rw [hj _ hg] at he'
    exact hlt e e' he he'

theorem State.InOrder.store {s : State F A} (h : s.InOrder) (hs : s.Slots) (j : Fin maxTasks)
    (sec : Int) (job : F) (arg : A) : (s.store j sec job arg).InOrder :=
  h.frame rfl rfl (fun f hf => List.getElem?_append_left (hs.firedJob f hf)) fun _ => id

/-- The slot whose turn it is comes after all those that have fired at this tick. -/
theorem State.InOrder.fire {s : State F A} (h : s.InOrder) (hs : s.Slots)
    (hh : s.handler = some (.scan i.val)) (hp : s.tasks i = some p) (H : Heap (Task F A))
    (func : F) (arg : A) : State.InOrder { s with
      heap := H
      handler := some (.callback i p)
      fired := ⟨p, func, arg, s.clock⟩ :: s.fired } := by
  obtain ⟨e₀, he₀, rfl⟩ := hs.slot i p hp
  have hnow : ∀ f ∈ s.fired, f.time = s.clock → ∀ e, s.jobs[f.job]? = some e →
      e.id < e₀.id := by
    intro f hf ht e he
    have hr := h.now f hf ht e he
    rw [hh] at hr
    exact hr
  refine ⟨?_, ?_, ?_⟩
  · intro f hf
    rcases List.mem_cons.1 hf with rfl | hf
    · exact Nat.le_refl _
    · exact h.time_le f hf
  · intro f hf ht e he
    rcases List.mem_cons.1 hf with rfl | hf
    · rw [show s.jobs[p]? = some e from he] at he₀
      cases he₀
      exact Nat.le_refl _
    · exact le_of_lt (hnow f hf ht e he)
  · refine List.pairwise_cons.2 ⟨?_, h.sorted⟩
    intro f hf e e' he he'
    rw [show s.jobs[p]? = some e' from he'] at he₀
    cases he₀
    rcases Nat.lt_or_eq_of_le (h.time_le f hf) with hlt | heq
    · exact .inl hlt
    · exact .inr ⟨heq, hnow f hf heq e he⟩

theorem State.InOrder.step {s t : State F A} (h : s.InOrder) (hs : s.Slots)
    (hm : Move ok s t) : t.InOrder := by
  cases hm with
  | add => exact (h.store hs _ _ _ _).frame rfl rfl (fun _ _ => rfl) fun _ => id
  | callAdd => exact h.store hs _ _ _ _
  | tick hh =>
    refine ⟨fun f hf => Nat.le_succ_of_le (h.time_le f hf), ?_, h.sorted⟩
    intro f hf ht
    have hle := h.time_le f hf
    exact absurd ht (Nat.ne_of_lt (Nat.lt_succ_of_le hle))
  | visit hh hi hv =>
    cases hv with
    | none | down =>
      refine h.frame rfl rfl (fun _ _ => rfl) fun j hj => ?_
      rw [hh] at hj
      exact Nat.lt_succ_of_lt hj
    | fire hp => exact h.fire hs hh hp _ _ _
  | finish => exact h.frame rfl rfl (fun _ _ => rfl) fun _ _ => trivial
  | callReturn hh =>
    refine h.frame rfl rfl (fun _ _ => rfl) fun j hj => ?_
    rw [hh] at hj
    exact Nat.lt_succ_of_le hj
  | _ => exact h.frame rfl rfl (fun _ _ => rfl) fun _ => id

theorem State.InOrder.of_reachable {s : State F A} (h : (anytimer F A ok).Reachable s) :
    s.InOrder := by
  refine h.invariant ?_ fun s t hr hi hst =>
    hi.step (State.Slots.of_reachable hr) (State.Step.move hst)
  rintro s rfl
  exact ⟨fun _ hf => (by cases hf), fun _ hf => (by cases hf), .nil⟩

theorem State.Sound.firing_eq {s : State F A} (h : s.Sound) (hf : f ∈ s.fired)
    (he : s.jobs[f.job]? = some e) : f = ⟨f.job, e.func, e.arg, e.due⟩ := by
  have hmem : f ∈ s.firings f.job := List.mem_filter.2 ⟨hf, beq_self_eq_true _⟩
  cases h.fate f.job e he with
  | waiting k hw =>
    rw [hw.silent] at hmem
    cases hmem
  | fired _ _ hl =>
    rw [hl] at hmem
    exact List.mem_singleton.1 hmem
  | cancelled _ hl =>
    rw [hl] at hmem
    cases hmem

theorem State.Sound.time_eq {s : State F A} (h : s.Sound) (hf : f ∈ s.fired)
    (he : s.jobs[f.job]? = some e) : f.time = e.due :=
  congrArg Firing.time (h.firing_eq hf he)

theorem State.Sound.before_outstanding {s : State F A} (h : s.Sound) (ho : s.InOrder)
    (hf : f ∈ s.fired) (he : s.jobs[f.job]? = some e) (hp : s.Outstanding p e') (h1 : 1 ≤ e'.sec) :
    e.Before e' := by
  have htime := h.time_eq hf he
  have hle := ho.time_le f hf
  have hslot := h.slot hp
  cases h.fate p e' hp.job with
  | fired _ _ hl =>
    rw [hp.silent] at hl
    cases hl
  | cancelled hc => exact absurd hc hp.kept
  | waiting k hw =>
    have hsec := hw.sec_eq
    have hpos := hw.positive h1
    have hdue : (e'.due : Int) = e'.addedAt + e'.sec := by
      rw [Job.due]
      omega
    unfold State.seen at hsec
    split at hsec
    · exact .inl (by omega)
    · next hpass =>
      rcases Nat.lt_or_ge e.due e'.due with hlt | hge
      · exact .inl hlt
      · -- both are due at the current tick, which has not come to the second one
        refine .inr ⟨by omega, ?_⟩
        have hreached := ho.now f hf (by omega) e he
        cases hh : s.handler with
        | none =>
          rw [hh] at hpass
          exact absurd rfl hpass
        | some c =>
          cases c with
          | scan j =>
            rw [hh] at hpass hreached
            simp only [passed, decide_eq_true_eq] at hpass
            exact Nat.lt_of_lt_of_le hreached (Nat.not_lt.1 hpass)
          | callback j q =>
            obtain ⟨hj, -, hq⟩ := h.calling j q hh
            rw [hh] at hpass hreached
            simp only [passed, decide_eq_true_eq] at hpass
            have hne : j ≠ e'.id := by
              rintro rfl
              rw [hj] at hslot
              cases hslot
              exact hq hp.silent
            have hlt : j < e'.id := lt_of_le_of_ne (Nat.not_lt.1 hpass) hne
            exact lt_of_le_of_lt hreached hlt

theorem State.Sound.fired_before {s : State F A} (h : s.Sound) (ho : s.InOrder) :
    s.fired.Pairwise fun g f => ∀ e e', s.jobs[f.job]? = some e → s.jobs[g.job]? = some e' →
      e.Before e' := by
  refine ho.sorted.imp_of_mem fun hg hf hlt e e' he he' => ?_
  have hbefore := hlt e e' he he'
  rw [h.time_eq hf he, h.time_eq hg he'] at hbefore
  exact hbefore

/-- The callbacks run in the order of their ticks, and within a tick in the order of their slots. -/
theorem fires_in_order {s : State F A} (h : (anytimer F A Careful).Reachable s) :
    (s.fired.Pairwise fun g f => ∀ e e', s.jobs[f.job]? = some e → s.jobs[g.job]? = some e' →
      e.Before e') ∧
    ∀ f ∈ s.fired, ∀ e p e', s.jobs[f.job]? = some e → s.Outstanding p e' → 1 ≤ e'.sec →
      e.Before e' := by
  have hsound := State.Sound.of_reachable h fun _ _ _ hok => hok
  have horder := State.InOrder.of_reachable h
  refine ⟨hsound.fired_before horder, fun f hf e p e' he hp h1 => ?_⟩
  exact hsound.before_outstanding horder hf he hp h1

theorem fires_in_order_two :
    ∃ s : State Unit Unit, s.jobs.length = 2 ∧ s.fired.map Firing.job = [1, 0] ∧
      s.fired.Pairwise fun g f => ∀ e e', s.jobs[f.job]? = some e → s.jobs[g.job]? = some e' →
        e.Before e' := by
  have h : (anytimer Unit Unit Careful).Reachable (State.start Unit Unit) := .init rfl
  have h := reachable_store h 1 () () (fun _ hv => hv) rfl rfl rfl trivial (getfFreePos_zero rfl)
  have h := reachable_store h 1 () () (fun _ hv => hv) rfl rfl rfl trivial
    (getfFreePos_one (fun hn => by cases hn) rfl)
  have h := h.step (.tick rfl rfl rfl (careful_of_not_busy rfl))
  have h := h.step (.visit rfl rfl (by decide))
  have h := h.step (.callReturn rfl rfl)
  have h := h.step (.visit rfl rfl (by decide))
  exact ⟨_, rfl, rfl, (fires_in_order h).1⟩

end Apue.AnyTimer
