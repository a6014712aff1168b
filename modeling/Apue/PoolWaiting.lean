import Apue.PoolHandoff

namespace Apue.ThreadPool
set_option autoImplicit true

/-- The task stored in slot `i`, a worker with a task popped from it, or a call that has locked
`waits[i]`. -/
inductive Holder (W C : Type) where
  | slot
  | worker (w : W)
  | call (t : W ⊕ C)

def Worker.slot (q : Worker F A) : Option Slot := q.held.map Held.slot

/-- The mutex `waits[i]` a call has locked and not yet unlocked or handed to a stored task. -/
def Call.token : Call F A → Option Slot
  | .addStore _ _ i | .waitUnlock i => some i
  | _ => none

def State.holdsWait (s : State W C F A) (i : Slot) : Holder W C → Prop
  | .slot => s.pool.tasks i ≠ none
  | .worker w => (s.worker w).slot = some i
  | .call t => (s.call t).token = some i

def Tokens (s : State W C F A) : Prop := ∀ i, Owned (s.pool.waits i) (s.holdsWait i)

theorem Init.tokens {s : State W C F A} (h : Init s) : Tokens s := by
  obtain ⟨⟨p, hp, he⟩, hw, hc⟩ := h
  rw [tpInit_fresh hp] at he
  intro i
  have hn (x : Holder W C) : ¬s.holdsWait i x := by
    cases x with
    | slot => simp [State.holdsWait, he]
    | worker w => simp [State.holdsWait, hw, Worker.slot, Worker.held]
    | call t => simp [State.holdsWait, hc, Call.token]
  refine ⟨?_, fun hx => (hn _ hx).elim⟩
  simp [he, hn]

theorem WorkerStep.tokens [DecidableEq W] {p p' : Pool W F A} {w : W}
    (h : WorkerStep w p q p' q') (hq : ∀ i a k, q ≠ .runUnlock i none a k) :
    (p'.waits = p.waits ∧ p'.tasks = p.tasks ∧ q'.slot = q.slot) ∨
    (∃ i, q = .runPop i ∧ q' = .runUnlock i (p.tasks i) (p.args i) (p.ticket i) ∧
      p'.waits = p.waits ∧ p'.tasks = Function.update p.tasks i none) ∨
    (∃ i, q.slot = some i ∧ q'.slot = none ∧ p'.tasks = p.tasks ∧
      p'.waits = Function.update p.waits i false) := by
  cases h with
  | runPop => exact .inr (.inl ⟨_, rfl, rfl, rfl, rfl⟩)
  | runNull => exact absurd rfl (hq _ _ _)
  | unlockWait => exact .inr (.inr ⟨_, rfl, rfl, rfl, rfl⟩)
  | _ => exact .inl ⟨rfl, rfl, rfl⟩

theorem CallStep.tokens {p p' : Pool W F A} (h : CallStep p c p' c') :
    (p'.waits = p.waits ∧ p'.tasks = p.tasks ∧ c'.token = c.token) ∨
    (∃ i, p.waits i = false ∧ p'.waits = Function.update p.waits i true ∧
      p'.tasks = p.tasks ∧ c.token = none ∧ c'.token = some i) ∨
    (∃ i, p'.waits = Function.update p.waits i false ∧ p'.tasks = p.tasks ∧
      c.token = some i ∧ c'.token = none) ∨
    (∃ f a i, c = .addStore f a i ∧ p'.waits = p.waits ∧
      p'.tasks = Function.update p.tasks i (some f) ∧ c'.token = none) := by
  cases h with
  | lockWait hw => exact .inr (.inl ⟨_, hw, rfl, rfl, rfl, rfl⟩)
  | waitLock hw => exact .inr (.inl ⟨_, hw, rfl, rfl, rfl, rfl⟩)
  | waitUnlock => exact .inr (.inr (.inl ⟨_, rfl, rfl, rfl, rfl⟩))
  | store => exact .inr (.inr (.inr ⟨_, _, _, rfl, rfl, rfl, rfl⟩))
  | _ => exact .inl ⟨rfl, rfl, rfl⟩

section
variable [DecidableEq W]

theorem Tokens.worker {s : State W C F A} {w : W} (h : Tokens s) (hl : Locks s)
    (hs : WorkerStep w s.pool (s.worker w) p q) :
    Tokens { s with pool := p, worker := Function.update s.worker w q } := by
  intro i
  have other (ht : p.tasks i = s.pool.tasks i) (x : Holder W C) (hx : x ≠ .worker w) :
      State.holdsWait { s with pool := p, worker := Function.update s.worker w q } i x ↔
        s.holdsWait i x := by
    cases x with
    | slot => simp only [State.holdsWait, ht]
    | worker v =>
      have hv : v ≠ w := fun he => hx (congrArg Holder.worker he)
      simp only [State.holdsWait, Function.update_of_ne hv]
    | call t => rfl
  rcases hs.tokens (hl.popped w) with ⟨hw, ht, hq⟩ | ⟨j, hq, hq', hw, ht⟩ | ⟨j, hq, hq', ht, hw⟩
  · simp only [hw]
    refine (h i).handover (.worker w) (.inl ⟨rfl, ?_⟩) (other (by rw [ht]))
    simp only [State.holdsWait, Function.update_self, hq]
  · obtain ⟨f, hf⟩ := Option.ne_none_iff_exists'.1 (hl.found w j (by rw [hq]; rfl))
    have hold : (s.worker w).slot = none := by rw [hq]; rfl
    have hnew : q.slot = some j := by rw [hq', hf]; rfl
    simp only [hw]
    by_cases hi : i = j
    · subst hi
      apply (h i).transfer .slot (.worker w)
      · simp only [State.holdsWait, hf, ne_eq, reduceCtorEq, not_false_eq_true]
      · simp only [State.holdsWait, ht, Function.update_self, ne_eq, not_true_eq_false,
          not_false_eq_true]
      · simp only [State.holdsWait, Function.update_self, hnew]
      · intro x hx hx'
        cases x with
        | slot => exact absurd rfl hx
        | worker v =>
          have hv : v ≠ w := fun he => hx' (congrArg Holder.worker he)
          simp only [State.holdsWait, Function.update_of_ne hv]
        | call t => rfl
    · refine (h i).handover (.worker w) (.inl ⟨rfl, ?_⟩)
        (other (by rw [ht, Function.update_of_ne hi]))
      simp [State.holdsWait, hold, hnew, Ne.symm hi]
  · by_cases hi : i = j
    · subst hi
      simp only [hw, Function.update_self]
      apply (h i).release (.worker w)
      · exact hq
      · simp only [State.holdsWait, Function.update_self, hq', reduceCtorEq, not_false_eq_true]
      · exact other (by rw [ht])
    · simp only [hw, Function.update_of_ne hi]
      refine (h i).handover (.worker w) (.inl ⟨rfl, ?_⟩) (other (by rw [ht]))
      simp [State.holdsWait, hq, hq', Ne.symm hi]

variable [DecidableEq C]

theorem Tokens.call {s : State W C F A} {t : W ⊕ C} (h : Tokens s)
    (hs : CallStep s.pool (s.call t) p c) :
    Tokens { s with pool := p, call := Function.update s.call t c } := by
  intro i
  have other (ht : p.tasks i = s.pool.tasks i) (x : Holder W C) (hx : x ≠ .call t) :
      State.holdsWait { s with pool := p, call := Function.update s.call t c } i x ↔
        s.holdsWait i x := by
    cases x with
    | slot => simp only [State.holdsWait, ht]
    | worker v => rfl
    | call t' =>
      have ht' : t' ≠ t := fun he => hx (congrArg Holder.call he)
      simp only [State.holdsWait, Function.update_of_ne ht']
  rcases hs.tokens with ⟨hw, ht, hc⟩ | ⟨j, hw, hw', ht, hc, hc'⟩ | ⟨j, hw, ht, hc, hc'⟩ |
    ⟨f, a, j, hc, hw, ht, hc'⟩
  · simp only [hw]
    refine (h i).handover (.call t) (.inl ⟨rfl, ?_⟩) (other (by rw [ht]))
    simp only [State.holdsWait, Function.update_self, hc]
  · refine (h i).handover (.call t) ?_ (other (by rw [ht]))
    by_cases hi : i = j
    · subst hi
      refine .inr (.inl ⟨hw, ?_, ?_⟩)
      · simp only [hw', Function.update_self]
      · simp only [State.holdsWait, Function.update_self, hc']
    · refine .inl ⟨?_, ?_⟩
      · simp only [hw', Function.update_of_ne hi]
      · simp [State.holdsWait, hc, hc', Ne.symm hi]
  · refine (h i).handover (.call t) ?_ (other (by rw [ht]))
    by_cases hi : i = j
    · subst hi
      refine .inr (.inr ⟨hc, ?_, ?_⟩)
      · simp only [hw, Function.update_self]
      · simp [State.holdsWait, hc']
    · refine .inl ⟨?_, ?_⟩
      · simp only [hw, Function.update_of_ne hi]
      · simp [State.holdsWait, hc, hc', Ne.symm hi]
  · simp only [hw]
    by_cases hi : i = j
    · subst hi
      apply (h i).transfer (.call t) .slot
      · simp only [State.holdsWait, hc, Call.token]
      · simp [State.holdsWait, hc']
      · simp [State.holdsWait, ht]
      · intro x hx hx'
        cases x with
        | slot => exact absurd rfl hx'
        | worker v => rfl
        | call t' =>
          have ht' : t' ≠ t := fun he => hx (congrArg Holder.call he)
          simp only [State.holdsWait, Function.update_of_ne ht']
    · have hold : (s.call t).token = some j := by rw [hc]; rfl
      refine (h i).handover (.call t) (.inl ⟨rfl, ?_⟩)
        (other (by rw [ht, Function.update_of_ne hi]))
      simp [State.holdsWait, hold, hc', Ne.symm hi]

theorem Tokens.begin {s : State W C F A} {t : W ⊕ C} (h : Tokens s) (hi : s.call t = .idle)
    (hc : c.token = none) : Tokens { s with call := Function.update s.call t c } := by
  intro i
  apply (h i).congr
  intro x
  cases x with
  | slot => rfl
  | worker w => rfl
  | call t' =>
    by_cases ht : t' = t
    · subst ht
      have hold : (s.call t').token = none := by rw [hi]; rfl
      simp [State.holdsWait, hold, hc]
    · simp only [State.holdsWait, Function.update_of_ne ht]

theorem Tokens.step {s s' : State W C F A} (h : Tokens s) (hl : Locks s) (hs : Step s s') :
    Tokens s' := by
  cases hs with
  | thread ht =>
    cases ht with
    | worker w he hi hw => exact h.worker hl hw
    | call t he hc => exact h.call hc
  | beginAdd t f a he hi hm => exact h.begin hi rfl
  | beginWait t i he hi hm => exact h.begin hi rfl
  | spurious w he => exact fun i => ⟨(h i).held_iff, (h i).unique⟩

theorem Reachable.tokens {s : State W C F A} (h : Reachable s) : Tokens s :=
  h.invariant (fun _ => Init.tokens) (fun _ _ hr ht => ht.step (Reachable.locks hr))

end

/-- Slot `i` has an open task: stored there, and its worker not past the unlock of `waits[i]`. -/
def State.Open (s : State W C F A) (i : Slot) (k : Nat) : Prop :=
  (s.pool.tasks i ≠ none ∧ s.pool.ticket i = k) ∨
    ∃ w x, (s.worker w).held = some x ∧ x.slot = i ∧ x.job.ticket = k

theorem State.Open.holder {s : State W C F A} (h : s.Open i k) :
    (s.holdsWait i .slot ∧ s.pool.ticket i = k) ∨
      ∃ w x, s.holdsWait i (.worker w) ∧ (s.worker w).held = some x ∧ x.job.ticket = k := by
  rcases h with h | ⟨w, x, hx, hi, hk⟩
  · exact .inl h
  · refine .inr ⟨w, x, ?_, hx, hk⟩
    simp only [State.holdsWait, Worker.slot, hx, Option.map_some, hi]

theorem Tokens.open_unique {s : State W C F A} (h : Tokens s) (hk : s.Open i k)
    (hk' : s.Open i k') : k = k' := by
  rcases hk.holder with ⟨ho, he⟩ | ⟨w, x, ho, hx, he⟩ <;>
    rcases hk'.holder with ⟨ho', he'⟩ | ⟨w', x', ho', hx', he'⟩
  · exact he.symm.trans he'
  · cases (h i).unique ho ho'
  · cases (h i).unique ho ho'
  · cases (h i).unique ho ho'
    rw [hx] at hx'
    cases hx'
    exact he.symm.trans he'

theorem Tokens.open_no_call {s : State W C F A} (h : Tokens s) (hk : s.Open i k)
    (t : W ⊕ C) : (s.call t).token ≠ some i := by
  intro ht
  have hc : s.holdsWait i (.call t) := ht
  rcases hk.holder with ⟨ho, -⟩ | ⟨w, x, ho, -, -⟩
  · cases (h i).unique hc ho
  · cases (h i).unique hc ho

theorem Tokens.held_iff {s : State W C F A} (h : Tokens s) (i : Slot) :
    s.pool.waits i = true ↔ (∃ k, s.Open i k) ∨ ∃ t, (s.call t).token = some i := by
  rw [(h i).held_iff]
  constructor
  · rintro ⟨x, hx⟩
    cases x with
    | slot => exact .inl ⟨_, .inl ⟨hx, rfl⟩⟩
    | worker w =>
      obtain ⟨y, hy, hi⟩ := Option.map_eq_some_iff.1 hx
      exact .inl ⟨_, .inr ⟨w, y, hy, hi, rfl⟩⟩
    | call t => exact .inr ⟨t, hx⟩
  · rintro (⟨k, hk⟩ | ⟨t, ht⟩)
    · rcases hk.holder with ⟨ho, -⟩ | ⟨w, x, ho, -, -⟩
      · exact ⟨.slot, ho⟩
      · exact ⟨.worker w, ho⟩
    · exact ⟨.call t, ht⟩

theorem Call.token_eq {c : Call F A} :
    c.token = some i ↔ c = .waitUnlock i ∨ ∃ f a, c = .addStore f a i := by
  cases c <;> simp [Call.token]

section
variable [DecidableEq W] [DecidableEq C]

/-- An accepted task is open in the slot it was stored in, or its function has returned. -/
theorem Reachable.open_or_finished {s : State W C F A} (h : Reachable s)
    (hu : s.pool.accepted[k]? = some u) :
    s.Open u.slot k ∨ ∃ w, (w, k) ∈ s.pool.finished := by
  obtain ⟨b, -, hb, hn, hr⟩ := h.ledger
  have hk : k < b.length := hn ▸ (List.getElem?_eq_some_iff.1 hu).1
  have hx : s.At k b[k] := (hb k _).2 (List.getElem?_eq_getElem hk)
  generalize b[k] = x at hx
  cases x with
  | slot i =>
    obtain ⟨ht, hi⟩ := hx
    obtain ⟨f, hf⟩ := Option.ne_none_iff_exists'.1 ht
    have ha := hr.stored i f hf
    rw [hi, hu] at ha
    cases ha
    exact .inl (.inl ⟨ht, hi⟩)
  | worker w =>
    rcases hx with ⟨y, hy, hi⟩ | hf
    · have ha := hr.held w y hy
      rw [hi, hu] at ha
      cases ha
      exact .inl (.inr ⟨w, y, hy, rfl, hi⟩)
    · exact .inr ⟨w, hf⟩

/-- A run from a state in which `t` has called `tp_wait_task` and not locked `waits[i]`, until the
call returns. -/
inductive WaitRun (t : W ⊕ C) (i : Slot) : State W C F A → State W C F A → Prop where
  | call : s.call t = .waitLock i → WaitRun t i s s
  | step : WaitRun t i s u → Step u v → v.call t ≠ .idle → WaitRun t i s v

theorem WaitRun.reachable {s u : State W C F A} (h : WaitRun t i s u) (hs : Reachable s) :
    Reachable u := by
  induction h with
  | call => exact hs
  | step _ hst _ ih => exact .step ih hst

theorem CallStep.waitLock_inv (h : CallStep p c p' c') (hc : c = .waitLock i) :
    p.waits i = false ∧ c' = .waitUnlock i := by
  cases h with
  | waitLock hw =>
    cases hc
    exact ⟨hw, rfl⟩
  | _ => cases hc

theorem CallStep.waitUnlock_inv (h : CallStep p c p' c') (hc : c = .waitUnlock i) :
    c' = .idle := by
  cases h with
  | waitUnlock => rfl
  | _ => cases hc

theorem WorkerStep.finished {w : W} (h : WorkerStep w p q p' q') (hx : x ∈ p.finished) :
    x ∈ p'.finished := by
  cases h with
  | finish => exact List.mem_append_left _ hx
  | _ => exact hx

theorem CallStep.returned (h : CallStep p c p' c') (hx : x ∈ p.returned) : x ∈ p'.returned := by
  cases h with
  | broadcast => exact List.mem_append_left _ hx
  | _ => exact hx

theorem Step.logs {s s' : State W C F A} (h : Step s s') :
    (∀ x ∈ s.pool.finished, x ∈ s'.pool.finished) ∧
      ∀ x ∈ s.pool.returned, x ∈ s'.pool.returned := by
  cases h with
  | thread ht =>
    cases ht with
    | worker w he hi hw =>
      exact ⟨fun _ hx => hw.finished hx, fun x hx => hw.frame.2.2.symm ▸ hx⟩
    | call t he hc =>
      exact ⟨fun x hx => hc.frame.2.symm ▸ hx, fun _ hx => hc.returned hx⟩
  | _ => exact ⟨fun _ => id, fun _ => id⟩

/-- A step leaves the call of a thread alone, executes one of its statements, or begins it. -/
theorem Step.call_cases {s s' : State W C F A} (h : Step s s') (t : W ⊕ C) :
    s'.call t = s.call t ∨ CallStep s.pool (s.call t) s'.pool (s'.call t) ∨
      (s.call t = .idle ∧
        ((∃ f a, s'.call t = .addTest f a) ∨ ∃ i, s'.call t = .waitLock i)) := by
  cases h with
  | thread ht =>
    cases ht with
    | worker w he hi hw => exact .inl rfl
    | call _ he hc =>
      rename_i t' p c
      by_cases ht : t = t'
      · subst ht
        exact .inr (.inl (by simpa only [Function.update_self] using hc))
      · exact .inl (Function.update_of_ne ht _ _)
  | beginAdd t' f a he hi hm =>
    by_cases ht : t = t'
    · subst ht
      exact .inr (.inr ⟨hi, .inl ⟨f, a, Function.update_self _ _ _⟩⟩)
    · exact .inl (Function.update_of_ne ht _ _)
  | beginWait t' i he hi hm =>
    by_cases ht : t = t'
    · subst ht
      exact .inr (.inr ⟨hi, .inr ⟨i, Function.update_self _ _ _⟩⟩)
    · exact .inl (Function.update_of_ne ht _ _)
  | spurious w he => exact .inl rfl

theorem Reachable.finished_of_free {s : State W C F A} (h : Reachable s)
    (hr : (k, i) ∈ s.pool.returned) (hw : s.pool.waits i = false) :
    ∃ w, (w, k) ∈ s.pool.finished := by
  obtain ⟨b, -, -, -, hrec⟩ := h.ledger
  obtain ⟨u, hu, hi⟩ := hrec.returned k i hr
  subst hi
  rcases h.open_or_finished hu with ho | hf
  · have ht := (h.tokens.held_iff u.slot).2 (.inl ⟨k, ho⟩)
    rw [hw] at ht
    cases ht
  · exact hf

/-- Inside the call either the mutex is still to be locked, or the task has finished. -/
theorem WaitRun.finished {s u : State W C F A} (h : WaitRun t i s u) (hs : Reachable s)
    (hr : (k, i) ∈ s.pool.returned) : (k, i) ∈ u.pool.returned ∧
      (u.call t = .waitLock i ∨
        u.call t = .waitUnlock i ∧ ∃ w, (w, k) ∈ u.pool.finished) := by
  induction h with
  | call hc => exact ⟨hr, .inl hc⟩
  | @step u v hrun hst hne ih =>
    obtain ⟨hru, hcu⟩ := ih
    refine ⟨hst.logs.2 _ hru, ?_⟩
    rcases hst.call_cases t with he | hc | ⟨hi, -⟩
    · rw [he]
      exact hcu.imp_right (fun ⟨h, w, hw⟩ => ⟨h, w, hst.logs.1 _ hw⟩)
    · rcases hcu with hl | ⟨hl, -⟩
      · obtain ⟨hw, hv⟩ := hc.waitLock_inv hl
        obtain ⟨w, hf⟩ := (hrun.reachable hs).finished_of_free hru hw
        exact .inr ⟨hv, w, hst.logs.1 _ hf⟩
      · exact absurd (hc.waitUnlock_inv hl) hne
    · rcases hcu with hl | ⟨hl, -⟩
      · rw [hi] at hl
        cases hl
      · rw [hi] at hl
        cases hl

/-- `tp_wait_task` returns only after the task it waits for. The mutex `waits[i]` is a token of the
open task. -/
theorem wait_sound {s : State W C F A} (h : Reachable s) :
    (∀ t i k u v, s.call t = .waitLock i → (k, i) ∈ s.pool.returned → WaitRun t i s u →
      Step u v → v.call t = .idle → ∃ w, (w, k) ∈ u.pool.finished) ∧
    (∀ i k k', s.Open i k → s.Open i k' → k = k') ∧
    (∀ i, s.pool.waits i = true ↔ (∃ k, s.Open i k) ∨ (∃ t, s.call t = .waitUnlock i) ∨
      ∃ t f a, s.call t = .addStore f a i) ∧
    (∀ i k t, s.Open i k → s.call t ≠ .waitUnlock i ∧ ∀ f a, s.call t ≠ .addStore f a i) ∧
    (∀ i t t', s.call t = .waitUnlock i → s.call t' = .waitUnlock i → t = t') ∧
    ∀ i t t' f a, s.call t = .waitUnlock i → s.call t' ≠ .addStore f a i := by
  have hk := h.tokens
  refine ⟨?_, fun _ _ _ => hk.open_unique, ?_, ?_, ?_, ?_⟩
  · intro t i k u v hc hr hrun hst hv
    obtain ⟨-, hl | ⟨-, hf⟩⟩ := hrun.finished h hr
    · -- A call that has not locked the mutex does not return in one step.
      rcases hst.call_cases t with he | hs | ⟨hi, -⟩
      · rw [hv, hl] at he
        cases he
      · rw [(hs.waitLock_inv hl).2] at hv
        cases hv
      · rw [hl] at hi
        cases hi
    · exact hf
  · intro i
    rw [hk.held_iff]
    simp only [Call.token_eq, exists_or]
  · intro i k t ho
    have hn := hk.open_no_call ho t
    rw [ne_eq, Call.token_eq, not_or] at hn
    exact ⟨hn.1, fun f a he => hn.2 ⟨f, a, he⟩⟩
  · intro i t t' ht ht'
    have ho : s.holdsWait i (.call t) := Call.token_eq.2 (.inl ht)
    have ho' : s.holdsWait i (.call t') := Call.token_eq.2 (.inl ht')
    cases (hk i).unique ho ho'
    rfl
  · intro i t t' f a ht ht'
    have ho : s.holdsWait i (.call t) := Call.token_eq.2 (.inl ht)
    have ho' : s.holdsWait i (.call t') := Call.token_eq.2 (.inr ⟨f, a, ht'⟩)
    cases (hk i).unique ho ho'
    rw [ht] at ht'
    cases ht'

end

theorem findTask_slot0 {tasks : Slot → Option F} (h : (tasks slot0).isSome = true) :
    findTask tasks = some slot0 :=
  scan_eq_some.2 ⟨h, fun j hj => absurd hj (Nat.not_lt_zero j.1)⟩

theorem booted_take [DecidableEq W] (w : W) :
    Reachable (((booted W Unit Unit Unit).submit () none slot0).take w () slot0) :=
  booted_submit.trans (State.take_run rfl rfl rfl rfl rfl (findTask_slot0 rfl) rfl)

theorem wait_sound_one_task : ∃ s u v : State Unit Unit Unit Unit,
    WaitRun (.inr ()) slot0 s u ∧ Step u v ∧ ∃ w, (w, 0) ∈ u.pool.finished := by
  have h1 := (booted_take ()).step (.thread (.worker () rfl rfl .finish))
  have h2 := h1.step (.thread (.worker () rfl rfl .unlockWait))
  have h3 := h2.step (.beginWait (.inr ()) slot0 rfl rfl trivial)
  have start {s : State Unit Unit Unit Unit} (_ : Reachable s)
      (hc : s.call (.inr ()) = .waitLock slot0) : WaitRun (.inr ()) slot0 s s := .call hc
  have hrun := (start h3 rfl).step (.thread (.call (.inr ()) rfl (.waitLock rfl))) nofun
  refine ⟨_, _, _, hrun, .thread (.call (.inr ()) rfl .waitUnlock), ?_⟩
  exact (wait_sound h3).1 (.inr ()) slot0 0 _ _ rfl (List.mem_singleton.2 rfl) hrun
    (.thread (.call (.inr ()) rfl .waitUnlock)) rfl

end Apue.ThreadPool
