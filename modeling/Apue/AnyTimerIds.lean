import Apue.AnyTimer

namespace Apue.AnyTimer
set_option autoImplicit true

structure State.Slots (s : State F A) : Prop where
  length_eq : s.jobs.length = s.heap.next
  slot : ∀ i p, s.tasks i = some p → ∃ e, s.jobs[p]? = some e ∧ e.id = i
  record : ∀ i p, s.main.record = some (i, p) → ∃ e, s.jobs[p]? = some e ∧ e.id = i
  firedJob : ∀ f ∈ s.fired, f.job < s.jobs.length
  cancelledJob : ∀ p ∈ s.cancelled, p < s.jobs.length
  firedGone : ∀ f ∈ s.fired, ∀ i, s.tasks i = some f.job → s.handler = some (.callback i f.job)
  cancelledGone : ∀ p ∈ s.cancelled, ∀ i, s.tasks i = some p → s.main = .cancelClear i p

theorem State.Slots.injective {s : State F A} (h : s.Slots) (hi : s.tasks i = some p)
    (hj : s.tasks j = some p) : i = j := by
  obtain ⟨e, he, rfl⟩ := h.slot i p hi
  obtain ⟨e', he', rfl⟩ := h.slot j p hj
  rw [he] at he'
  cases he'
  rfl

theorem State.Slots.lt {s : State F A} (h : s.Slots) (hi : s.tasks i = some p) :
    p < s.jobs.length := by
  obtain ⟨e, he, -⟩ := h.slot i p hi
  exact (List.getElem?_eq_some_iff.1 he).1

theorem State.Slots.start : (State.start F A).Slots :=
  ⟨rfl, fun _ _ h => (by cases h), fun _ _ h => (by cases h), fun _ h => (by cases h),
    fun _ h => (by cases h), fun _ h => (by cases h), fun _ h => (by cases h)⟩

theorem State.Slots.store {s : State F A} (h : s.Slots) (sec : Int) (job : F) (arg : A) :
    (s.store j sec job arg).Slots := by
  have hnew : (s.jobs ++ [⟨j, sec, job, arg, s.clock⟩])[s.heap.next]? =
      some ⟨j, sec, job, arg, s.clock⟩ :=
    concat_getElem?.2 (.inr ⟨h.length_eq.symm, rfl⟩)
  have hlen : (s.jobs ++ [(⟨j, sec, job, arg, s.clock⟩ : Job F A)]).length =
      s.jobs.length + 1 := by
    rw [List.length_append, List.length_singleton]
  refine ⟨?_, ?_, ?_, ?_, ?_, ?_, ?_⟩
  · exact hlen.trans ((congrArg (· + 1) h.length_eq).trans (Heap.malloc_next _).symm)
  · intro i p hp
    rcases update_some hp with ⟨rfl, rfl⟩ | ⟨-, hp⟩
    · exact ⟨_, hnew, rfl⟩
    · obtain ⟨e, he, hid⟩ := h.slot i p hp
      exact ⟨e, concat_getElem?.2 (.inl he), hid⟩
  · intro i p hp
    obtain ⟨e, he, hid⟩ := h.record i p hp
    exact ⟨e, concat_getElem?.2 (.inl he), hid⟩
  · intro f hf
    exact hlen ▸ Nat.lt_succ_of_lt (h.firedJob f hf)
  · intro p hp
    exact hlen ▸ Nat.lt_succ_of_lt (h.cancelledJob p hp)
  · intro f hf i hi
    rcases update_some hi with ⟨-, he⟩ | ⟨-, hi⟩
    · have hlt := h.firedJob f hf
      rw [he, h.length_eq] at hlt
      exact absurd hlt (Nat.lt_irrefl _)
    · exact h.firedGone f hf i hi
  · intro p hp i hi
    rcases update_some hi with ⟨-, he⟩ | ⟨-, hi⟩
    · have hlt := h.cancelledJob p hp
      rw [he, h.length_eq] at hlt
      exact absurd hlt (Nat.lt_irrefl _)
    · exact h.cancelledGone p hp i hi

theorem State.Slots.not_fired {s : State F A} (h : s.Slots)
    (hh : ∀ i p, s.handler ≠ some (.callback i p)) (hf : f ∈ s.fired) (i : Fin maxTasks) :
    s.tasks i ≠ some f.job :=
  fun hi => hh i f.job (h.firedGone f hf i hi)

theorem State.Slots.not_cancelled {s : State F A} (h : s.Slots)
    (hm : ∀ i p, s.main ≠ .cancelClear i p) (hp : p ∈ s.cancelled) (i : Fin maxTasks) :
    s.tasks i ≠ some p :=
  fun hi => hm i p (h.cancelledGone p hp i hi)

theorem State.Slots.visited {s t : State F A} (h : s.Slots) (hh : s.handler = some (.scan n))
    (hv : Visited s i t) : t.Slots := by
  have hgone : ∀ f ∈ s.fired, ∀ j, s.tasks j ≠ some f.job :=
    fun f hf => h.not_fired (by simp [hh]) hf
  cases hv with
  | none =>
    exact ⟨h.length_eq, h.slot, h.record, h.firedJob, h.cancelledJob,
      fun f hf j hj => absurd hj (hgone f hf j), h.cancelledGone⟩
  | down hp hk =>
    exact ⟨h.length_eq.trans (Heap.put_next _).symm, h.slot, h.record, h.firedJob,
      h.cancelledJob, fun f hf j hj => absurd hj (hgone f hf j), h.cancelledGone⟩
  | fire hp hk =>
    refine ⟨h.length_eq.trans (Heap.put_next _).symm, h.slot, h.record, ?_, h.cancelledJob,
      ?_, h.cancelledGone⟩
    · intro f hf
      rcases List.mem_cons.1 hf with rfl | hf
      · exact h.lt hp
      · exact h.firedJob f hf
    · intro f hf j hj
      rcases List.mem_cons.1 hf with rfl | hf
      · have hij := h.injective hp hj
        subst hij
        rfl
      · exact absurd hj (hgone f hf j)

theorem State.Slots.main {s : State F A} (h : s.Slots) (hm : ∀ i p, s.main ≠ .cancelClear i p)
    (hr : ∀ i p, m.record = some (i, p) → ∃ e, s.jobs[p]? = some e ∧ e.id = i) :
    State.Slots { s with main := m } :=
  ⟨h.length_eq, h.slot, hr, h.firedJob, h.cancelledJob, h.firedGone,
    fun _ hp i hi => absurd hi (h.not_cancelled hm hp i)⟩

theorem State.Slots.quiet {s : State F A} (h : s.Slots) (hm : s.main.record = none)
    (hm' : m.record = none) : State.Slots { s with inited := b, main := m } := by
  have hslots : State.Slots { s with main := m } := by
    apply h.main
    · intro i p hc
      rw [hc] at hm
      cases hm
    · intro i p hr
      rw [hm'] at hr
      cases hr
  exact ⟨hslots.length_eq, hslots.slot, hslots.record, hslots.firedJob, hslots.cancelledJob,
    hslots.firedGone, hslots.cancelledGone⟩

theorem State.Slots.free {s : State F A} (h : s.Slots) (hm : s.main = .cancelFree j p) :
    State.Slots { s with
      heap := s.heap.put p none
      cancelled := p :: s.cancelled
      main := .cancelClear j p } := by
  obtain ⟨e, he, hid⟩ := h.record j p (by rw [hm]; rfl)
  refine ⟨h.length_eq.trans (Heap.put_next _).symm, h.slot, fun i q hr => ?_, h.firedJob, ?_,
    h.firedGone, ?_⟩
  · cases hr
    exact ⟨e, he, hid⟩
  · intro q hq
    rcases List.mem_cons.1 hq with rfl | hq
    · exact (List.getElem?_eq_some_iff.1 he).1
    · exact h.cancelledJob q hq
  · intro q hq i hi
    rcases List.mem_cons.1 hq with rfl | hq
    · obtain ⟨e', he', rfl⟩ := h.slot i q hi
      rw [he] at he'
      cases he'
      rw [hid]
    · exact absurd hi (h.not_cancelled (by simp [hm]) hq i)

theorem State.Slots.callCancel {s : State F A} (h : s.Slots) (hq : s.tasks j = some q) :
    State.Slots { s with
      heap := s.heap.put q none
      cancelled := q :: s.cancelled
      tasks := Function.update s.tasks j none } := by
  refine ⟨h.length_eq.trans (Heap.put_next _).symm,
    fun i p hp => h.slot i p (update_none hp).2, h.record, h.firedJob, ?_,
    fun f hf i hi => h.firedGone f hf i (update_none hi).2, ?_⟩
  · intro r hr
    rcases List.mem_cons.1 hr with rfl | hr
    · exact h.lt hq
    · exact h.cancelledJob r hr
  · intro r hr i hi
    obtain ⟨hne, hi'⟩ := update_none hi
    rcases List.mem_cons.1 hr with rfl | hr
    · exact absurd (h.injective hi' hq) hne
    · exact h.cancelledGone r hr i hi'

theorem State.Slots.step {s t : State F A} (h : s.Slots) (hm : Move ok s t) : t.Slots := by
  cases hm with
  | full | same | stmtFault | visitFault | cancelFault | returnFault =>
    exact ⟨h.length_eq, h.slot, h.record, h.firedJob, h.cancelledJob, h.firedGone,
      h.cancelledGone⟩
  | quiet hh hr hl => exact h.quiet hr hl.record_none
  | request hh hm | scan hh hm | found hh hm => exact h.quiet (by rw [hm]; rfl) rfl
  | add hh hm => exact (h.store _ _ _).quiet (by rw [State.store, hm]; rfl) rfl
  | callAdd => exact h.store _ _ _
  | load hh hm hp =>
    refine h.main (by simp [hm]) (fun i p hr => ?_)
    cases hr
    exact h.slot _ _ hp
  | test hh hm =>
    refine h.main (by simp [hm]) (fun i p hr => ?_)
    cases hr
    exact h.record _ _ (by rw [hm]; rfl)
  | free hh hm => exact h.free hm
  | @clear j p hh hm =>
    refine ⟨h.length_eq, fun i p hp => h.slot i p (update_none hp).2, fun i p hr => (by cases hr),
      h.firedJob, h.cancelledJob, fun f hf i hi => h.firedGone f hf i (update_none hi).2, ?_⟩
    intro q hq i hi
    obtain ⟨hne, hi⟩ := update_none hi
    have hc := h.cancelledGone q hq i hi
    rw [hm] at hc
    cases hc
    exact absurd rfl hne
  | tick hh =>
    exact ⟨h.length_eq, h.slot, h.record, h.firedJob, h.cancelledJob,
      fun f hf i hi => absurd hi (h.not_fired (by simp [hh]) hf i), h.cancelledGone⟩
  | visit hh hi hv => exact h.visited hh hv
  | finish hh =>
    refine ⟨h.length_eq, h.slot, fun i p hr => h.record i p ?_, h.firedJob, h.cancelledJob,
      fun f hf i hi => absurd hi (h.not_fired (by simp [hh]) hf i), fun p hp i hi => ?_⟩
    · rw [← hr]
      cases s.main <;> rfl
    · change s.main.wake = _
      rw [h.cancelledGone p hp i hi]
      rfl
  | callCancel hh hok hq => exact h.callCancel hq
  | @callReturn i p k hh hk =>
    refine ⟨h.length_eq.trans (Heap.put_next _).symm,
      fun i p hp => h.slot i p (update_none hp).2, h.record, h.firedJob, h.cancelledJob, ?_,
      fun q hq i hi => h.cancelledGone q hq i (update_none hi).2⟩
    intro f hf j hj
    obtain ⟨hne, hj⟩ := update_none hj
    have hc := h.firedGone f hf j hj
    rw [hh] at hc
    cases hc
    exact absurd rfl hne

theorem State.Slots.of_reachable {s : State F A} (h : (anytimer F A ok).Reachable s) :
    s.Slots := by
  refine h.invariant ?_ ?_
  · rintro s rfl
    exact State.Slots.start
  · intro s t _ hs hst
    exact hs.step hst.move

def State.Pending (s : State F A) (q : Nat) : Prop := ∃ i, s.tasks i = some q

/-- The job with record q keeps its slot and its remaining delay. -/
def Unaffected (s t : State F A) (q : Nat) : Prop :=
  (∀ i, s.tasks i = some q → t.tasks i = some q) ∧ ∀ k, s.heap.Live q k → t.heap.Live q k

def State.stmts : Nat → State F A → Except Fault (State F A)
  | 0, s => .ok s
  | n + 1, s => s.stmt >>= State.stmts n

theorem State.cancel_stmts (s : State F A) (j : Fin maxTasks) :
    State.stmts 4 { s with main := .cancelLoad j } =
      (s.atCancelJob j).map fun t => { t with main := .idle } := by
  cases hp : s.tasks j with
  | none => simp [State.stmts, State.stmt, State.atCancelJob, hp, bind, Except.bind, Except.map]
  | some p =>
    cases hf : s.heap.free p <;>
      simp [State.stmts, State.stmt, State.atCancelJob, State.release, State.clear, hp, hf, bind,
        Except.bind, Except.map, pure, Except.pure]

/-- The job with record J has run, or it has been cancelled. -/
def State.Over (s : State F A) (J : Nat) : Prop := (∃ f ∈ s.fired, f.job = J) ∨ J ∈ s.cancelled

theorem State.Slots.over_gone {s : State F A} (h : s.Slots) (hh : s.handler = none)
    (hm : s.main.record = none) (hJ : s.Over J) : ¬s.Pending J := by
  rintro ⟨i, hi⟩
  rcases hJ with ⟨f, hf, rfl⟩ | hc
  · have hg := h.firedGone f hf i hi
    rw [hh] at hg
    cases hg
  · have hg := h.cancelledGone J hc i hi
    rw [hg] at hm
    cases hm

theorem State.Slots.free_of_unnamed {s : State F A} (h : s.Slots)
    (hfree : ∀ q e, s.Pending q → s.jobs[q]? = some e → e.id ≠ i) : s.tasks i = none := by
  cases hp : s.tasks i with
  | none => rfl
  | some q =>
    obtain ⟨e, he, hid⟩ := h.slot i q hp
    exact absurd hid (hfree q e ⟨i, hp⟩ he)

/-- The call that the main flow is in returns, and leaves the jobs other than J as they are. -/
def State.Spares (s : State F A) (J : Nat) : Prop :=
  ∃ t, State.stmts 4 s = .ok t ∧ t.main = .idle ∧ ∀ q, q ≠ J → s.Pending q → Unaffected s t q

theorem State.spares_of_free {s : State F A} (hcall : s.main = .cancelLoad i ∨ s.main = .waitTest i)
    (hn : s.tasks i = none) : s.Spares J := by
  refine ⟨{ s with main := .idle }, ?_, rfl, fun q _ _ => ⟨fun i hi => hi, fun k hk => hk⟩⟩
  rcases hcall with hm | hm <;>
    simp [State.stmts, State.stmt, hm, hn, bind, Except.bind]

/-- at_cancel_job frees the job of the slot, and at_wait goes on waiting for it. -/
theorem State.not_spares {s : State F A} (hcall : s.main = .cancelLoad i ∨ s.main = .waitTest i)
    (hi : s.tasks i = some q) (hq : q ≠ J) : ¬s.Spares J := by
  rintro ⟨t, ht, hidle, hun⟩
  rcases hcall with hm | hm
  · have hself : s = { s with main := .cancelLoad i } := by rw [← hm]
    rw [hself, State.cancel_stmts] at ht
    cases hc : s.atCancelJob i with
    | error e =>
      rw [hc] at ht
      cases ht
    | ok u =>
      rw [hc] at ht
      cases ht
      have hstill := (hun q hq ⟨i, hi⟩).1 i hi
      rcases State.atCancelJob_ok hc with ⟨hn, -⟩ | ⟨p, k, -, -, rfl⟩
      · rw [hn] at hi
        cases hi
      · exact (update_none hstill).1 rfl
  · simp [State.stmts, State.stmt, hm, hi, bind, Except.bind] at ht
    rw [← ht] at hidle
    cases hidle

/-- A call with the id of a job that is over behaves as meant exactly when no job of the table has
that id. -/
theorem ids_name_jobs_iff {s : State F A} (h : (anytimer F A ok).Reachable s)
    (hh : s.handler = none) (hJ : s.jobs[J]? = some e) (hend : s.Over J)
    (hcall : s.main = .cancelLoad e.id ∨ s.main = .waitTest e.id) :
    s.Spares J ↔ ∀ q e', s.Pending q → s.jobs[q]? = some e' → e'.id ≠ e.id := by
  have hs := State.Slots.of_reachable h
  have hrecord : s.main.record = none := by
    rcases hcall with hm | hm <;> rw [hm] <;> rfl
  constructor
  · rintro hspares q e' ⟨i, hi⟩ hq hid
    have hqJ : q ≠ J := by
      rintro rfl
      exact hs.over_gone hh hrecord hend ⟨i, hi⟩
    obtain ⟨e₁, he₁, rfl⟩ := hs.slot i q hi
    rw [hq] at he₁
    cases he₁
    rw [hid] at hi
    exact State.not_spares hcall hi hqJ hspares
  · intro hfree
    exact State.spares_of_free hcall (hs.free_of_unnamed hfree)

theorem getfFreePos_eq {j : Fin maxTasks} (h : tasks j = none) (hlow : ∀ i < j, tasks i ≠ none) :
    getfFreePos tasks = some j := by
  cases hf : getfFreePos tasks with
  | none => exact absurd h (getfFreePos_none.1 hf j)
  | some i =>
    rcases lt_or_eq_of_le (getfFreePos_le hf h) with hlt | rfl
    · exact absurd (getfFreePos_some hf) (hlow i hlt)
    · rfl

theorem getfFreePos_zero (h : tasks ⟨0, by decide⟩ = none) :
    getfFreePos tasks = some ⟨0, by decide⟩ :=
  getfFreePos_eq h fun i hi => absurd hi (Nat.not_lt_zero i)

theorem getfFreePos_one (h0 : tasks ⟨0, by decide⟩ ≠ none) (h1 : tasks ⟨1, by decide⟩ = none) :
    getfFreePos tasks = some ⟨1, by decide⟩ := by
  refine getfFreePos_eq h1 fun i hi => ?_
  have hz : i = ⟨0, by decide⟩ := Fin.ext (Nat.lt_one_iff.1 hi)
  rw [hz]
  exact h0

theorem sweep_empty {s : State F A} (ok : State F A → Act F A → Prop) (hf : s.fault = none)
    (hh : s.handler = some (.scan i)) (hn : ∀ j : Fin maxTasks, i ≤ j.val → s.tasks j = none) :
    Relation.ReflTransGen (State.Step ok) s { s with handler := none, main := s.main.wake } := by
  generalize hd : maxTasks - i = d
  induction d generalizing s i with
  | zero => exact .single (.finish hf hh (by omega))
  | succ d ih =>
    have hi : i < maxTasks := by omega
    have hvisit : s.attempt (s.visit ⟨i, hi⟩) = { s with handler := some (.scan (i + 1)) } := by
      rw [State.visit, hn ⟨i, hi⟩ (Nat.le_refl i)]
      rfl
    have hstep : State.Step ok s { s with handler := some (.scan (i + 1)) } := by
      rw [← hvisit]
      exact .visit hf hh hi
    exact .head hstep (ih (s := { s with handler := some (.scan (i + 1)) }) hf rfl
      (fun j hj => hn j (by omega)) (by omega))

/-- The slot in which at_add_job of the main flow is about to store its record is still free. -/
def State.Vacant (s : State F A) : Prop :=
  ∀ j sec job arg, s.main = .addStore j sec job arg → s.tasks j = none

theorem scan_stmts {s : State F A} {j : Fin maxTasks} (hst : ∀ t : State F A, t.Vacant → ok t .stmt)
    (hf : s.fault = none) (hh : s.handler = none) (hm : s.main = .addScan i sec job arg)
    (hij : i ≤ j.val) (hj : s.tasks j = none)
    (hlow : ∀ l : Fin maxTasks, l < j → s.tasks l ≠ none) :
    Relation.ReflTransGen (State.Step ok) s { s.store j sec job arg with main := .idle } := by
  generalize hd : j.val - i = d
  have hok : ok s .stmt := by
    apply hst
    intro l sec job arg hl
    rw [hm] at hl
    cases hl
  have hstep : State.Step ok s (s.attempt s.stmt) := .stmt hf hh hok
  have hi : i < maxTasks := Nat.lt_of_le_of_lt hij j.isLt
  rw [State.stmt, hm] at hstep
  simp only [dif_pos hi] at hstep
  induction d generalizing s i with
  | zero =>
    have hje : (⟨i, hi⟩ : Fin maxTasks) = j := Fin.ext (by simp only; omega)
    rw [hje, if_pos hj] at hstep
    have hvacant : State.Vacant { s with main := .addStore j sec job arg } := by
      intro l sec job arg hl
      cases hl
      exact hj
    exact .tail (.single hstep) (.stmt hf hh (hst _ hvacant))
  | succ d ih =>
    have hlt : (⟨i, hi⟩ : Fin maxTasks) < j := Fin.lt_def.2 (show i < j.val by omega)
    rw [if_neg (hlow _ hlt)] at hstep
    have hnext : i + 1 < maxTasks := Nat.lt_of_le_of_lt (by omega) j.isLt
    have hok' : ok { s with main := .addScan (i + 1) sec job arg } .stmt := by
      apply hst
      intro l sec job arg hl
      cases hl
    refine .head hstep (ih (s := { s with main := .addScan (i + 1) sec job arg }) hf hh rfl
      (by omega) hj hlow (by omega) hok' hnext ?_)
    have hstep' : State.Step ok { s with main := .addScan (i + 1) sec job arg } _ :=
      .stmt hf hh hok'
    simpa only [State.stmt, dif_pos hnext] using hstep'

theorem add_stmts {s : State F A} (hst : ∀ t : State F A, t.Vacant → ok t .stmt)
    (hf : s.fault = none) (hh : s.handler = none) (hm : s.main = .idle)
    (hok : ok s (.add sec job arg)) (hj : getfFreePos s.tasks = some j) :
    Relation.ReflTransGen (State.Step ok) s (s.store j sec job arg) := by
  have hscan := scan_stmts (s := { s with inited := true, main := .addScan 0 sec job arg }) hst hf
    hh rfl (Nat.zero_le j) (getfFreePos_some hj) fun l hl hn =>
      absurd (getfFreePos_le hj hn) (not_le.2 hl)
  have hidle : { s.store j sec job arg with main := .idle } = s.store j sec job arg := by
    rw [← hm]
    rfl
  rw [← hidle]
  exact .head (.add hf hh hm hok) hscan

theorem reachable_store {s : State F A} (h : (anytimer F A ok).Reachable s) (sec : Int)
    (job : F) (arg : A) (hst : ∀ t : State F A, t.Vacant → ok t .stmt) (hf : s.fault = none)
    (hh : s.handler = none) (hm : s.main = .idle) (hok : ok s (.add sec job arg))
    (hj : getfFreePos s.tasks = some j) :
    (anytimer F A ok).Reachable (s.store j sec job arg) :=
  h.trans (add_stmts hst hf hh hm hok hj)

theorem callStore_step {s : State F A} (sec : Int) (job : F) (arg : A) (hf : s.fault = none)
    (hh : s.handler = some (.callback i p)) (hok : ok s (.callAdd sec job arg))
    (hj : getfFreePos s.tasks = some j) : State.Step ok s (s.store j sec job arg) := by
  rw [← State.atAddJob_store hj sec job arg]
  exact .callAdd hf hh hok

theorem taken_and_cleared {i : Fin maxTasks} (p : Nat) (j : Fin maxTasks) :
    Function.update (Function.update (fun _ => none) i (some p)) i none j = none := by
  rw [Function.update_idem]
  exact congrFun (Function.update_eq_self i fun _ : Fin maxTasks => (none : Option Nat)) j

theorem fired_once (F A : Type) (f : F) (a : A) : ∃ s : State F A,
    (anytimer F A fun _ _ => True).Reachable s ∧ s.fault = none ∧ s.handler = none ∧
      s.main = .idle ∧ s.clock = 1 ∧ s.heap.next = 1 ∧
      s.jobs = [⟨⟨0, by decide⟩, 1, f, a, 0⟩] ∧ s.fired = [⟨0, f, a, 1⟩] ∧
      ∀ j, s.tasks j = none := by
  have h : (anytimer F A fun _ _ => True).Reachable (State.start F A) := .init rfl
  have h := reachable_store h 1 f a (fun _ _ => trivial) rfl rfl rfl trivial
    (getfFreePos_zero rfl)
  have h := h.step (.tick rfl rfl rfl trivial)
  have h := h.step (.visit rfl rfl (by decide))
  have h := h.step (.callReturn rfl rfl)
  have h := h.trans (sweep_empty _ rfl rfl fun j _ => taken_and_cleared _ j)
  exact ⟨_, h, rfl, rfl, rfl, rfl, rfl, rfl, rfl, taken_and_cleared _⟩

theorem ids_name_jobs_once :
    ∃ s : State Unit Unit, s.Over 0 ∧
      State.Spares { s with main := .cancelLoad ⟨0, by decide⟩ } 0 ∧
      State.Spares { s with main := .waitTest ⟨0, by decide⟩ } 0 := by
  obtain ⟨s, h, hf, hh, hm, -, -, hjobs, hfired, htasks⟩ := fired_once Unit Unit () ()
  have hend : ∃ f ∈ s.fired, f.job = 0 := ⟨⟨0, (), (), 1⟩, by rw [hfired]; simp, rfl⟩
  have hjob : s.jobs[0]? = some ⟨⟨0, by decide⟩, 1, (), (), 0⟩ := by rw [hjobs]; rfl
  have hcancel := h.step (.cancel ⟨0, by decide⟩ hf hh hm trivial)
  have hwait := h.step (.wait ⟨0, by decide⟩ hf hh hm trivial)
  have hnone : ∀ q e', s.Pending q → s.jobs[q]? = some e' → e'.id ≠ ⟨0, by decide⟩ := by
    rintro q e' ⟨i, hi⟩
    rw [htasks i] at hi
    cases hi
  exact ⟨s, .inl hend, (ids_name_jobs_iff hcancel hh hjob (.inl hend) (.inl rfl)).2 hnone,
    (ids_name_jobs_iff hwait hh hjob (.inl hend) (.inr rfl)).2 hnone⟩

/-- With the id of a job that has fired, at_cancel_job frees a job added later, and at_wait goes on
waiting. -/
theorem stale_id_hits_later_job :
    (∃ s : State Unit Unit, s.handler = none ∧ s.Over 0 ∧
      s.jobs[0]? = some ⟨⟨0, by decide⟩, 1, (), (), 0⟩ ∧
      (anytimer Unit Unit fun _ _ => True).Reachable
        { s with main := .cancelLoad ⟨0, by decide⟩ } ∧
      ¬State.Spares { s with main := .cancelLoad ⟨0, by decide⟩ } 0 ∧
      (anytimer Unit Unit fun _ _ => True).Reachable
        { s with main := .waitTest ⟨0, by decide⟩ } ∧
      ¬State.Spares { s with main := .waitTest ⟨0, by decide⟩ } 0) ∧
    ∃ s t : State Unit Unit, (anytimer Unit Unit fun _ _ => True).Reachable s ∧
      s.main = .waitPause ⟨0, by decide⟩ ∧ s.Pending 0 ∧
      Relation.ReflTransGen (State.Step fun _ _ => True) s t ∧ t.handler = none ∧ t.Over 0 ∧
      t.main = .waitTest ⟨0, by decide⟩ ∧ ¬t.Spares 0 := by
  constructor
  · obtain ⟨s, h, hf, hh, hm, -, hnext, hjobs, hfired, htasks⟩ := fired_once Unit Unit () ()
    have h := reachable_store h 5 () () (fun _ _ => trivial) hf hh hm trivial
      (getfFreePos_zero (htasks _))
    have hslot : (s.store ⟨0, by decide⟩ 5 () ()).tasks ⟨0, by decide⟩ = some 1 := by
      rw [← hnext]
      exact Function.update_self (⟨0, by decide⟩ : Fin maxTasks) (some s.heap.next) s.tasks
    refine ⟨s.store ⟨0, by decide⟩ 5 () (), hh, .inl ⟨⟨0, (), (), 1⟩, ?_, rfl⟩, ?_,
      h.step (.cancel _ hf hh hm trivial), State.not_spares (.inl rfl) hslot (by decide),
      h.step (.wait _ hf hh hm trivial), State.not_spares (.inr rfl) hslot (by decide)⟩
    · change _ ∈ s.fired
      rw [hfired]
      exact List.mem_singleton_self _
    · change (s.jobs ++ _)[0]? = _
      rw [hjobs]
      rfl
  · have h : (anytimer Unit Unit fun _ _ => True).Reachable (State.start Unit Unit) := .init rfl
    have h := reachable_store h 1 () () (fun _ _ => trivial) rfl rfl rfl trivial
      (getfFreePos_zero rfl)
    have h := reachable_store h 1 () () (fun _ _ => trivial) rfl rfl rfl trivial
      (getfFreePos_one (fun hn => by cases hn) rfl)
    have h := h.step (.wait ⟨0, by decide⟩ rfl rfl rfl trivial)
    have h := h.step (.stmt rfl rfl trivial)
    have h := h.step (.stmt rfl rfl trivial)
    have hfree : ∀ j : Fin maxTasks, 2 ≤ j.val →
        Function.update (Function.update (Function.update (Function.update (Function.update
          (fun _ => none) ⟨0, by decide⟩ (some 0)) ⟨1, by decide⟩ (some 1)) ⟨0, by decide⟩ none)
          ⟨0, by decide⟩ (some 2)) ⟨1, by decide⟩ (none : Option Nat) j = none := by
      intro j hj
      have h0 : j ≠ ⟨0, by decide⟩ := Fin.ne_of_gt (Nat.lt_of_lt_of_le (by decide) hj)
      have h1 : j ≠ ⟨1, by decide⟩ := Fin.ne_of_gt (Nat.lt_of_lt_of_le (by decide) hj)
      simp only [Function.update_of_ne h0, Function.update_of_ne h1]
    exact ⟨_, _, h, rfl, ⟨⟨0, by decide⟩, rfl⟩,
      .head (.tick rfl rfl rfl trivial) <| .head (.visit rfl rfl (by decide)) <|
      .head (.callReturn rfl rfl) <| .head (.visit rfl rfl (by decide)) <|
      .head (callStore_step 5 () () rfl rfl trivial (getfFreePos_zero rfl)) <|
      .head (.callReturn rfl rfl) <| sweep_empty _ rfl rfl hfree, rfl,
      .inl ⟨⟨0, (), (), 1⟩, .tail _ (.head _), rfl⟩, rfl,
      State.not_spares (.inr rfl) rfl (by decide)⟩

end Apue.AnyTimer
