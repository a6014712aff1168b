import Apue.PoolBoard

namespace Apue.ThreadPool
set_option autoImplicit true

/-- The slot and ticket a `tp_add_task` call is about to return. -/
def Call.announces : Call F A → Option (Slot × Nat)
  | .addUnlock i k | .addBroadcast i k => some (i, k)
  | _ => none

/-- A worker step either leaves the records alone or moves the worker's pair one stage on. -/
theorem WorkerStep.records [DecidableEq W] {p p' : Pool W F A} {w : W} (h : WorkerStep w p q p' q')
    (hq : ∀ i a k, q ≠ .runUnlock i none a k) :
    (p'.tasks = p.tasks ∧ p'.args = p.args ∧ p'.started = p.started ∧
      p'.finished = p.finished ∧ q'.held = q.held) ∨
    (∃ i, q = .runPop i ∧ q' = .runUnlock i (p.tasks i) (p.args i) (p.ticket i) ∧
      p'.tasks = Function.update p.tasks i none ∧ p'.args = Function.update p.args i none ∧
      p'.started = p.started ∧ p'.finished = p.finished) ∨
    (∃ i j, q.held = some ⟨i, j, .popped⟩ ∧ q'.held = some ⟨i, j, .running⟩ ∧
      p'.tasks = p.tasks ∧ p'.args = p.args ∧ p'.started = p.started ++ [(w, j)] ∧
      p'.finished = p.finished) ∨
    (∃ i j, q.held = some ⟨i, j, .running⟩ ∧ q'.held = some ⟨i, j, .returned⟩ ∧
      p'.tasks = p.tasks ∧ p'.args = p.args ∧ p'.started = p.started ∧
      p'.finished = p.finished ++ [(w, j.ticket)]) ∨
    (∃ i j, q.held = some ⟨i, j, .returned⟩ ∧ q'.held = none ∧
      p'.tasks = p.tasks ∧ p'.args = p.args ∧ p'.started = p.started ∧
      p'.finished = p.finished) := by
  cases h with
  | runPop => exact .inr (.inl ⟨_, rfl, rfl, rfl, rfl, rfl, rfl⟩)
  | runNull => exact absurd rfl (hq _ _ _)
  | start => exact .inr (.inr (.inl ⟨_, _, rfl, rfl, rfl, rfl, rfl, rfl⟩))
  | finish => exact .inr (.inr (.inr (.inl ⟨_, _, rfl, rfl, rfl, rfl, rfl, rfl⟩)))
  | unlockWait => exact .inr (.inr (.inr (.inr ⟨_, _, rfl, rfl, rfl, rfl, rfl, rfl⟩)))
  | _ => exact .inl ⟨rfl, rfl, rfl, rfl, rfl⟩

theorem WorkerStep.frame [DecidableEq W] {w : W} (h : WorkerStep w p q p' q') :
    p'.ticket = p.ticket ∧ p'.accepted = p.accepted ∧ p'.returned = p.returned := by
  cases h <;> exact ⟨rfl, rfl, rfl⟩

theorem CallStep.records {p p' : Pool W F A} (h : CallStep p c p' c') :
    (p'.tasks = p.tasks ∧ p'.args = p.args ∧ p'.ticket = p.ticket ∧
      p'.accepted = p.accepted ∧ p'.returned = p.returned ∧ c'.announces = c.announces) ∨
    (∃ f a i, c = .addStore f a i ∧ c'.announces = some (i, p.accepted.length) ∧
      p'.tasks = Function.update p.tasks i (some f) ∧ p'.args = Function.update p.args i a ∧
      p'.ticket = Function.update p.ticket i p.accepted.length ∧
      p'.accepted = p.accepted ++ [⟨f, a, i⟩] ∧ p'.returned = p.returned) ∨
    (∃ i k, c.announces = some (i, k) ∧ c'.announces = none ∧
      p'.tasks = p.tasks ∧ p'.args = p.args ∧ p'.ticket = p.ticket ∧
      p'.accepted = p.accepted ∧ p'.returned = p.returned ++ [(k, i)]) := by
  cases h with
  | store => exact .inr (.inl ⟨_, _, _, rfl, rfl, rfl, rfl, rfl, rfl, rfl⟩)
  | broadcast => exact .inr (.inr ⟨_, _, rfl, rfl, rfl, rfl, rfl, rfl, rfl⟩)
  | _ => exact .inl ⟨rfl, rfl, rfl, rfl, rfl, rfl⟩

theorem CallStep.frame (h : CallStep p c p' c') :
    p'.started = p.started ∧ p'.finished = p.finished := by
  cases h <;> exact ⟨rfl, rfl⟩

/-- The slots, the workers and the logs all carry pairs as they were accepted. -/
structure Records (s : State W C F A) : Prop where
  stored : ∀ i f, s.pool.tasks i = some f →
    s.pool.accepted[s.pool.ticket i]? = some ⟨f, s.pool.args i, i⟩
  held : ∀ w x, (s.worker w).held = some x →
    s.pool.accepted[x.job.ticket]? = some ⟨x.job.task, x.job.arg, x.slot⟩
  announced : ∀ t i k, (s.call t).announces = some (i, k) →
    ∃ u, s.pool.accepted[k]? = some u ∧ u.slot = i
  returned : ∀ k i, (k, i) ∈ s.pool.returned → ∃ u, s.pool.accepted[k]? = some u ∧ u.slot = i
  done : ∀ w x, (s.worker w).held = some x → x.stage = .returned →
    (w, x.job.ticket) ∈ s.pool.finished
  undone : ∀ w v x, (s.worker w).held = some x → x.stage ≠ .returned →
    (v, x.job.ticket) ∉ s.pool.finished
  began : ∀ w j, (w, j) ∈ s.pool.started →
    (∃ i, s.pool.accepted[j.ticket]? = some ⟨j.task, j.arg, i⟩) ∧
      ((∃ i, (s.worker w).held = some ⟨i, j, .running⟩) ∨ (w, j.ticket) ∈ s.pool.finished)
  once : (s.pool.started.map (fun e => e.2.ticket)).Nodup

theorem Records.not_started {s : State W C F A} (h : Records s) (hb : Represents s b)
    (hw : (s.worker w).held = some ⟨i, j, .popped⟩) :
    j.ticket ∉ s.pool.started.map (fun e => e.2.ticket) := by
  intro hm
  obtain ⟨⟨v, j'⟩, he, ht⟩ := List.mem_map.1 hm
  dsimp only at ht
  obtain ⟨-, ⟨i', hv⟩ | hf⟩ := h.began v j' he
  · have hvw : v = w := hb.holder hw (.inl ⟨_, hv, ht⟩)
    subst hvw
    rw [hw] at hv
    cases hv
  · rw [ht] at hf
    exact h.undone w v _ hw (by simp) hf

section
variable [DecidableEq W]

theorem update_held (g : W → Worker F A) (w : W) (q : Worker F A) (v : W) :
    (Function.update g w q v).held = if v = w then q.held else (g v).held := by
  rw [Function.update_apply]
  split <;> rfl

theorem Records.worker {s : State W C F A} {w : W} (h : Records s) (hl : Locks s)
    (hb : Represents s b) (hs : WorkerStep w s.pool (s.worker w) p q) :
    Records { s with pool := p, worker := Function.update s.worker w q } := by
  obtain ⟨hk, ha, hr⟩ := hs.frame
  rcases hs.records (hl.popped w) with ⟨ht, hg, hs', hf, hh⟩ | ⟨i, hq, hq', ht, hg, hs', hf⟩ |
    ⟨i, j, hq, hq', ht, hg, hs', hf⟩ | ⟨i, j, hq, hq', ht, hg, hs', hf⟩ |
    ⟨i, j, hq, hq', ht, hg, hs', hf⟩
  · have hu (v : W) : (Function.update s.worker w q v).held = (s.worker v).held := by
      rw [update_held]
      split
      · subst v
        exact hh
      · rfl
    constructor <;> simp only [hk, ha, hr, ht, hg, hs', hf, hu]
    exacts [h.stored, h.held, h.announced, h.returned, h.done, h.undone, h.began, h.once]
  · -- The popped pair is the stored one, and its ticket has not run yet.
    obtain ⟨f, hi⟩ : ∃ f, s.pool.tasks i = some f :=
      Option.ne_none_iff_exists'.1 (hl.found w i (by rw [hq]; rfl))
    have hw : (s.worker w).held = none := by rw [hq]; rfl
    have hx : q.held = some ⟨i, ⟨f, s.pool.args i, s.pool.ticket i⟩, .popped⟩ := by
      rw [hq', hi]
      rfl
    have hn (v : W) : (v, s.pool.ticket i) ∉ s.pool.finished := hb.pending_undone hi
    constructor <;> simp only [hk, ha, hr, ht, hg, hs', hf, update_held]
    case announced => exact h.announced
    case returned => exact h.returned
    case once => exact h.once
    case stored => grind [h.stored]
    case held => grind [h.stored, h.held]
    case done => grind [h.done]
    case undone => grind [h.undone]
    case began => grind [h.began]
  · have hnew := h.not_started hb hq
    have hw := h.held w _ hq
    have hn (v : W) : (v, j.ticket) ∉ s.pool.finished := h.undone w v _ hq (by simp)
    constructor <;> simp only [hk, ha, hr, ht, hg, hs', hf, update_held]
    case stored => exact h.stored
    case announced => exact h.announced
    case returned => exact h.returned
    case held => grind [h.held]
    case done => grind [h.done]
    case undone => grind [h.undone]
    case began => grind [h.began, h.held]
    case once =>
      rw [List.map_append, List.map_singleton, List.nodup_append]
      refine ⟨h.once, List.nodup_singleton _, ?_⟩
      intro k hk k' hk' he
      rw [he, List.mem_singleton.1 hk'] at hk
      exact hnew hk
  · have hw := h.held w _ hq
    have hon (v : W) (x : Held F A) (hv : (s.worker v).held = some x)
        (he : x.job.ticket = j.ticket) : v = w :=
      hb.holder hq (.inl ⟨x, hv, he⟩)
    constructor <;> simp only [hk, ha, hr, ht, hg, hs', hf, update_held]
    case stored => exact h.stored
    case announced => exact h.announced
    case returned => exact h.returned
    case once => exact h.once
    case held => grind [h.held]
    case done => grind [h.done]
    case undone => grind [h.undone]
    case began => grind [h.began]
  · have hd := h.done w _ hq rfl
    constructor <;> simp only [hk, ha, hr, ht, hg, hs', hf, update_held]
    case stored => exact h.stored
    case announced => exact h.announced
    case returned => exact h.returned
    case once => exact h.once
    case held => grind [h.held]
    case done => grind [h.done]
    case undone => grind [h.undone]
    case began => grind [h.began]
variable [DecidableEq C]

theorem Records.call {s : State W C F A} {t : W ⊕ C} (h : Records s)
    (hs : CallStep s.pool (s.call t) p c) :
    Records { s with pool := p, call := Function.update s.call t c } := by
  obtain ⟨hst, hf⟩ := hs.frame
  have upd (t' : W ⊕ C) : (Function.update s.call t c t').announces =
      if t' = t then c.announces else (s.call t').announces := by
    rw [Function.update_apply]
    split <;> rfl
  rcases hs.records with ⟨ht, hg, hk, ha, hr, hc⟩ | ⟨f, a, i, hq, hc, ht, hg, hk, ha, hr⟩ |
    ⟨i, k, hq, hc, ht, hg, hk, ha, hr⟩
  · constructor <;> simp only [hst, hf, ht, hg, hk, ha, hr, upd, hc]
    case announced => grind [h.announced]
    exacts [h.stored, h.held, h.returned, h.done, h.undone, h.began, h.once]
  · constructor <;> simp only [hst, hf, ht, hg, hk, ha, hr, upd, hc, concat_getElem?]
    case stored => grind [h.stored]
    case held => exact fun w x hx => .inl (h.held w x hx)
    case announced => grind [h.announced]
    case returned => grind [h.returned]
    case began => grind [h.began]
    exacts [h.done, h.undone, h.once]
  · constructor <;> simp only [hst, hf, ht, hg, hk, ha, hr, upd, hc]
    case announced => grind [h.announced]
    case returned => grind [h.announced, h.returned]
    exacts [h.stored, h.held, h.done, h.undone, h.began, h.once]

theorem Records.begin {s : State W C F A} {t : W ⊕ C} (h : Records s)
    (hc : c.announces = none) : Records { s with call := Function.update s.call t c } := by
  refine ⟨h.stored, h.held, ?_, h.returned, h.done, h.undone, h.began, h.once⟩
  intro t' i k ht
  by_cases he : t' = t
  · subst he
    simp only [Function.update_self, hc] at ht
    cases ht
  · simp only [Function.update_of_ne he] at ht
    exact h.announced t' i k ht

theorem Records.step {s s' : State W C F A} (h : Records s) (hl : Locks s)
    (hb : Represents s b) (hs : Step s s') : Records s' := by
  cases hs with
  | thread ht =>
    cases ht with
    | worker w he hi hw => exact h.worker hl hb hw
    | call t he hc => exact h.call hc
  | beginAdd t f a he hi hm => exact h.begin rfl
  | beginWait t i he hi hm => exact h.begin rfl
  | spurious w he =>
    exact ⟨h.stored, h.held, h.announced, h.returned, h.done, h.undone, h.began, h.once⟩

omit [DecidableEq C] in
theorem Represents.worker {s : State W C F A} {w : W} (h : Represents s b) (hr : Records s)
    (hl : Locks s) (hs : WorkerStep w s.pool (s.worker w) p q) :
    ∃ b', (b' = b ∨ BoardStep b b') ∧ b'.length = b.length ∧
      Represents { s with pool := p, worker := Function.update s.worker w q } b' := by
  have same (ht : p.tasks = s.pool.tasks) (hw : ∀ k v,
      State.At { s with pool := p, worker := Function.update s.worker w q } k (.worker v) ↔
        s.At k (.worker v)) : ∃ b', (b' = b ∨ BoardStep b b') ∧ b'.length = b.length ∧
      Represents { s with pool := p, worker := Function.update s.worker w q } b' :=
    ⟨b, .inl rfl, rfl, h.frame ht hs.frame.1 hw⟩
  rcases hs.records (hl.popped w) with ⟨ht, hg, hs', hf, hh⟩ | ⟨i, hq, hq', ht, hg, hs', hf⟩ |
    ⟨i, j, hq, hq', ht, hg, hs', hf⟩ | ⟨i, j, hq, hq', ht, hg, hs', hf⟩ |
    ⟨i, j, hq, hq', ht, hg, hs', hf⟩
  · apply same ht
    intro k v
    simp only [State.At, update_held, hf]
    grind
  · have hi := hl.found w i (by rw [hq]; rfl)
    obtain ⟨f, hif⟩ := Option.ne_none_iff_exists'.1 hi
    have hx : q.held = some ⟨i, ⟨f, s.pool.args i, s.pool.ticket i⟩, .popped⟩ := by
      rw [hq', hif]
      rfl
    have hw : (s.worker w).held = none := by
      rw [hq]
      rfl
    exact ⟨_, .inr (.take ((h _ (.slot i)).1 ⟨hi, rfl⟩)), List.length_set,
      h.take hi hw ht hs.frame.1 rfl hx rfl hf⟩
  · apply same ht
    intro k v
    simp only [State.At, update_held, hf]
    grind
  · apply same ht
    intro k v
    simp only [State.At, update_held, hf]
    grind
  · have hd := hr.done w _ hq rfl
    apply same ht
    intro k v
    simp only [State.At, update_held, hf]
    grind

theorem Represents.call {s : State W C F A} {t : W ⊕ C} (h : Represents s b) (hl : Locks s)
    (hn : b.length = s.pool.accepted.length) (hs : CallStep s.pool (s.call t) p c) :
    ∃ b', (b' = b ∨ BoardStep b b') ∧ b'.length = p.accepted.length ∧
      Represents { s with pool := p, call := Function.update s.call t c } b' := by
  rcases hs.records with ⟨ht, hg, hk, ha, hr, hc⟩ | ⟨f, a, i, hq, hc, ht, hg, hk, ha, hr⟩ |
    ⟨i, k, hq, hc, ht, hg, hk, ha, hr⟩
  · refine ⟨b, .inl rfl, by rw [hn, ha], h.frame ht hk ?_⟩
    intro k w
    simp only [State.At, hs.frame.2]
  · have hi : s.pool.tasks i = none := hl.chosen t i (by rw [hq]; rfl)
    refine ⟨b ++ [.slot i], .inr .submit, ?_, ?_⟩
    · simp only [ha, List.length_append, hn, List.length_singleton]
    · rw [← hn] at hk
      exact h.submit hi ht hk rfl hs.frame.2
  · refine ⟨b, .inl rfl, by rw [hn, ha], h.frame ht hk ?_⟩
    intro k w
    simp only [State.At, hs.frame.2]

/-- The board of a state, with the records that tie its tickets to the accepted pairs. -/
structure Ledger (s : State W C F A) (b : List (Place W)) : Prop where
  board : Represents s b
  length : b.length = s.pool.accepted.length
  records : Records s

theorem Ledger.step {s s' : State W C F A} (h : Ledger s b) (hl : Locks s) (hs : Step s s') :
    ∃ b', (b' = b ∨ BoardStep b b') ∧ Ledger s' b' := by
  have hr := h.records.step hl h.board hs
  cases hs with
  | thread ht =>
    cases ht with
    | worker w he hi hw =>
      obtain ⟨b', hb, hn, hb'⟩ := h.board.worker h.records hl hw
      exact ⟨b', hb, hb', hn.trans (h.length.trans (congrArg List.length hw.frame.2.1.symm)), hr⟩
    | call t he hc =>
      obtain ⟨b', hb, hn, hb'⟩ := h.board.call hl h.length hc
      exact ⟨b', hb, hb', hn, hr⟩
  | beginAdd t f a he hi hm => exact ⟨b, .inl rfl, h.board, h.length, hr⟩
  | beginWait t i he hi hm => exact ⟨b, .inl rfl, h.board, h.length, hr⟩
  | spurious w he => exact ⟨b, .inl rfl, h.board, h.length, hr⟩

omit [DecidableEq W] [DecidableEq C] in
theorem Init.ledger {s : State W C F A} (h : Init s) : Ledger s [] := by
  obtain ⟨⟨p, hp, he⟩, hw, hc⟩ := h
  rw [tpInit_fresh hp] at he
  refine ⟨?_, by simp [he, hp.accepted], ?_⟩
  · intro k x
    cases x with
    | slot i => simp [State.At, he]
    | worker w => simp [State.At, he, hw, hp.finished, Worker.held]
  · constructor
    · simp [he]
    · simp [hw, Worker.held]
    · simp [hc, Call.announces]
    · simp [he, hp.returned]
    · simp [hw, Worker.held]
    · simp [hw, Worker.held]
    · simp [he, hp.started]
    · simp [he, hp.started]

def boardSystem (W : Type) : System (List (Place W)) where
  init b := b = []
  step := BoardStep

/-- The pool refines the job board. -/
theorem Reachable.ledger {s : State W C F A} (h : Reachable s) :
    ∃ b, (boardSystem W).Reachable b ∧ Ledger s b :=
  h.simulation (fun _ h0 => ⟨[], rfl, Init.ledger h0⟩)
    (fun _ _ _ hr hb hs => hb.step (Reachable.locks hr) hs)

/-- Every accepted pair is pending in one slot or taken by one worker, and is run at most once, with
its own argument. -/
theorem handoff_exactly_once {s : State W C F A} (h : Reachable s) :
    (∀ k < s.pool.accepted.length, ∃! x, s.At k x) ∧
    (∀ k x, s.At k x → k < s.pool.accepted.length) ∧
    (∀ i f, s.pool.tasks i = some f →
      s.pool.accepted[s.pool.ticket i]? = some ⟨f, s.pool.args i, i⟩) ∧
    (∀ w x, (s.worker w).held = some x →
      s.pool.accepted[x.job.ticket]? = some ⟨x.job.task, x.job.arg, x.slot⟩) ∧
    (s.pool.started.map (fun e => e.2.ticket)).Nodup ∧
    (∀ w j, (w, j) ∈ s.pool.started → s.At j.ticket (.worker w) ∧
      ∃ i, s.pool.accepted[j.ticket]? = some ⟨j.task, j.arg, i⟩) ∧
    ∀ w i a k, s.worker w ≠ .runUnlock i none a k := by
  obtain ⟨b, -, hb, hn, hr⟩ := h.ledger
  refine ⟨?_, ?_, hr.stored, hr.held, hr.once, ?_, (Reachable.locks h).popped⟩
  · intro k hk
    rw [← hn] at hk
    refine ⟨b[k], (hb k _).2 (List.getElem?_eq_getElem hk), ?_⟩
    intro y hy
    exact hb.unique hy ((hb k _).2 (List.getElem?_eq_getElem hk))
  · intro k x hx
    rw [← hn]
    exact (List.getElem?_eq_some_iff.1 ((hb k x).1 hx)).1
  · intro w j hj
    obtain ⟨ha, ⟨i, hi⟩ | hf⟩ := hr.began w j hj
    · exact ⟨.inl ⟨_, hi, rfl⟩, ha⟩
    · exact ⟨.inr hf, ha⟩

end

def slot0 : Slot := ⟨0, by decide⟩

theorem findFree_slot0 {tasks : Slot → Option F} (h : tasks slot0 = none) :
    findFree tasks = some slot0 :=
  findFree_eq_some.2 ⟨h, fun j hj => absurd hj (Nat.not_lt_zero j.1)⟩

theorem booted_submit [DecidableEq W] :
    Reachable ((booted W Unit Unit Unit).submit () none slot0) :=
  (System.Reachable.init booted_init).trans
    (State.submit_run (t := .inr ()) () none rfl rfl rfl trivial rfl (findFree_slot0 rfl) rfl)

theorem handoff_exactly_once_submit :
    ∃ s : State Unit Unit Unit Unit, s.pool.accepted.length = 1 ∧ ∃! x, s.At 0 x :=
  ⟨_, rfl, (handoff_exactly_once booted_submit).1 0 Nat.one_pos⟩

end Apue.ThreadPool
