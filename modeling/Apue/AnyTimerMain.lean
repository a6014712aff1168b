import Apue.Lists
import Apue.AnyTimerOrder
import Mathlib.Data.Finset.Order
import Mathlib.Data.Fintype.Pigeonhole

namespace Apue.AnyTimer
set_option autoImplicit true

/-- Jobs are added as time goes on. -/
structure State.Dated (s : State F A) : Prop where
  le_clock : ∀ e ∈ s.jobs, e.addedAt ≤ s.clock
  sorted : s.jobs.Pairwise fun e e' => e.addedAt ≤ e'.addedAt

theorem State.Dated.store {s : State F A} (h : s.Dated) (j : Fin maxTasks) (sec : Int) (job : F)
    (arg : A) : (s.store j sec job arg).Dated := by
  constructor
  · intro e he
    rcases List.mem_append.1 he with he | he
    · exact h.le_clock e he
    · rw [List.mem_singleton.1 he]
      exact Nat.le_refl _
  · refine List.pairwise_append.2 ⟨h.sorted, List.pairwise_singleton _ _, ?_⟩
    intro e he e' he'
    rw [List.mem_singleton.1 he']
    exact h.le_clock e he

theorem State.Dated.of_reachable {s : State F A} (h : (anytimer F A ok).Reachable s) :
    s.Dated := by
  refine h.invariant ?_ fun s t _ ih hst => ?_
  · rintro s rfl
    exact ⟨fun _ he => (by cases he), .nil⟩
  · cases State.Step.move hst with
    | add => exact ⟨(ih.store _ _ _ _).le_clock, (ih.store _ _ _ _).sorted⟩
    | callAdd => exact ih.store _ _ _ _
    | tick => exact ⟨fun e he => Nat.le_succ_of_le (ih.le_clock e he), ih.sorted⟩
    | visit _ _ hv => cases hv <;> exact ⟨ih.le_clock, ih.sorted⟩
    | _ => exact ⟨ih.le_clock, ih.sorted⟩

theorem State.Slots.exists_free {s : State F A} (h : s.Slots) (hlt : s.jobs.length < maxTasks) :
    ∃ j, getfFreePos s.tasks = some j := by
  cases hj : getfFreePos s.tasks with
  | some j => exact ⟨j, rfl⟩
  | none =>
    have hall := getfFreePos_none.1 hj
    have hslot (i : Fin maxTasks) : ∃ p : Fin s.jobs.length, s.tasks i = some p.val := by
      obtain ⟨p, hp⟩ := Option.ne_none_iff_exists'.1 (hall i)
      exact ⟨⟨p, h.lt hp⟩, hp⟩
    choose f hf using hslot
    obtain ⟨i, j, hne, he⟩ := Fintype.exists_ne_map_eq_of_card_lt f (by simpa using hlt)
    have hi := hf i
    rw [he, ← hf j] at hi
    obtain ⟨p, hp⟩ := Option.ne_none_iff_exists'.1 (hall i)
    exact absurd (h.injective hp (hi ▸ hp)) hne

namespace Test

/-- Where main of at_test.c stands: before at_add_job or at_wait for job k, in at_wait, or at its
end. -/
inductive Pc where
  | add (k : Nat)
  | wait (k : Nat)
  | waiting (k : Nat)
  | done
  deriving DecidableEq

structure State (F A : Type) where
  base : AnyTimer.State F A
  ids : List (Option (Fin maxTasks))
  pc : Pc

def Ticks (_ : AnyTimer.State F A) : Act F A → Prop
  | .stmt => True
  | .tick => True
  | _ => False

/-- The program that adds the jobs of a list and then waits for each of them. -/
inductive Step (prog : List (Int × F × A)) : State F A → State F A → Prop where
  | lib : AnyTimer.State.Step Ticks s.base b → Step prog s { s with base := b }
  | add : s.pc = .add k → prog[k]? = some (sec, job, arg) → s.base.fault = none →
      s.base.handler = none → s.base.main = .idle →
      Step prog s ⟨(s.base.atAddJob sec job arg).2, s.ids ++ [(s.base.atAddJob sec job arg).1],
        .add (k + 1)⟩
  | addsDone : s.pc = .add prog.length → s.base.fault = none → s.base.handler = none →
      Step prog s { s with pc := .wait 0 }
  | wait : s.pc = .wait k → s.ids[k]? = some (some i) → s.base.fault = none →
      s.base.handler = none → s.base.main = .idle →
      Step prog s { s with base := { s.base with main := .waitTest i }, pc := .waiting k }
  /-- tasks[-1] -/
  | waitFault : s.pc = .wait k → s.ids[k]? = some none → s.base.fault = none →
      s.base.handler = none → s.base.main = .idle →
      Step prog s { s with base := { s.base with fault := some .bounds }, pc := .waiting k }
  | waited : s.pc = .waiting k → s.base.fault = none → s.base.handler = none →
      s.base.main = .idle → Step prog s { s with pc := .wait (k + 1) }
  | waitsDone : s.pc = .wait prog.length → s.base.fault = none → s.base.handler = none →
      Step prog s { s with pc := .done }

def system (prog : List (Int × F × A)) : System (State F A) where
  init s := s = ⟨.start F A, [], .add 0⟩
  step := Step prog

def Job.request (e : Job F A) : Int × F × A := (e.sec, e.func, e.arg)

def Progress (prog : List (Int × F × A)) (s : State F A) : Prop :=
  match s.pc with
  | .add k =>
    s.base.main = .idle ∧ k ≤ prog.length ∧ s.base.jobs.map Job.request = prog.take k
  | .wait k =>
    s.base.main = .idle ∧ k ≤ prog.length ∧ s.base.jobs.map Job.request = prog ∧
      ∀ p < k, s.base.firings p ≠ []
  | .waiting k =>
    k < prog.length ∧ s.base.jobs.map Job.request = prog ∧ (∀ p < k, s.base.firings p ≠ []) ∧
      ((∃ e, s.base.jobs[k]? = some e ∧
        s.base.main.Waits e.id) ∨
        s.base.main = .idle ∧ s.base.firings k ≠ [])
  | .done =>
    s.base.main = .idle ∧ s.base.jobs.map Job.request = prog ∧
      ∀ p < prog.length, s.base.firings p ≠ []

structure Inv (prog : List (Int × F × A)) (s : State F A) : Prop where
  base : (anytimer F A Quiet).Reachable s.base
  kept : s.base.cancelled = []
  ids : s.ids = s.base.jobs.map fun e => some e.id
  inited : s.base.jobs ≠ [] → s.base.inited = true
  progress : Progress prog s

theorem not_busy_of_waits {m : Main F A} (h : m.Waits i) : m.busy = false := by
  cases h <;> rfl

theorem Progress.not_busy {s : State F A} (h : Progress prog s) : s.base.main.busy = false := by
  unfold Progress at h
  split at h
  · rw [h.1]
    rfl
  · rw [h.1]
    rfl
  · obtain ⟨-, -, -, ⟨e, -, hm⟩ | ⟨hm, -⟩⟩ := h
    · exact not_busy_of_waits hm
    · rw [hm]
      rfl
  · rw [h.1]
    rfl

/-- What the library does by itself: a statement of at_wait, or a part of the handler. -/
theorem lib_cases {b b' : AnyTimer.State F A} (h : AnyTimer.State.Step Ticks b b')
    (hm : b.main.busy = false) :
    b'.jobs = b.jobs ∧ b'.cancelled = b.cancelled ∧ b'.inited = b.inited ∧ b.fired <:+ b'.fired ∧
      (b'.main = b.main ∨ b'.main = b.main.wake ∨
        (∃ i, b.main = .waitEnter i ∧ b'.main = .waitPause i) ∨
        ∃ i, b.main = .waitTest i ∧
          b'.main = if b.tasks i = none then .idle else .waitEnter i) := by
  cases h with
  | add _ _ _ hok | cancel _ _ _ _ hok | wait _ _ _ _ hok | callAdd _ _ hok
  | callCancel _ _ _ hok => exact hok.elim
  | stmt =>
    cases hc : b.main with
    | idle =>
      rw [State.stmt, hc]
      exact ⟨rfl, rfl, rfl, List.suffix_refl _, .inl hc⟩
    | waitTest i =>
      rw [State.stmt, hc]
      exact ⟨rfl, rfl, rfl, List.suffix_refl _, .inr (.inr (.inr ⟨i, rfl, rfl⟩))⟩
    | waitEnter i =>
      rw [State.stmt, hc]
      exact ⟨rfl, rfl, rfl, List.suffix_refl _, .inr (.inr (.inl ⟨i, rfl, rfl⟩))⟩
    | waitPause i =>
      rw [State.stmt, hc]
      exact ⟨rfl, rfl, rfl, List.suffix_refl _, .inl rfl⟩
    | _ =>
      rw [hc] at hm
      cases hm
  | tick => exact ⟨rfl, rfl, rfl, List.suffix_refl _, .inl rfl⟩
  | finish => exact ⟨rfl, rfl, rfl, List.suffix_refl _, .inr (.inl rfl)⟩
  | visit _ _ hi =>
    rcases b.attempt_cases (b.visit ⟨_, hi⟩) with ⟨t, hv, he⟩ | ⟨e, -, he⟩
    · rw [he]
      cases State.visit_ok hv with
      | none | down => exact ⟨rfl, rfl, rfl, List.suffix_refl _, .inl rfl⟩
      | fire => exact ⟨rfl, rfl, rfl, List.suffix_cons _ _, .inl rfl⟩
    · rw [he]
      exact ⟨rfl, rfl, rfl, List.suffix_refl _, .inl rfl⟩
  | @callReturn _ i t =>
    rcases b.attempt_cases (b.finishCallback i t) with ⟨u, hr, he⟩ | ⟨e, -, he⟩
    · rw [he]
      obtain ⟨k, -, rfl⟩ := State.finishCallback_ok hr
      exact ⟨rfl, rfl, rfl, List.suffix_refl _, .inl rfl⟩
    · rw [he]
      exact ⟨rfl, rfl, rfl, List.suffix_refl _, .inl rfl⟩

theorem Inv.sound {s : State F A} (h : Inv prog s) : s.base.Sound :=
  State.Sound.of_reachable h.base fun _ _ => Quiet.careful

theorem Inv.fired_of_empty {s : State F A} (h : Inv prog s) (he : s.base.jobs[k]? = some e)
    (hn : s.base.tasks e.id = none) : s.base.firings k ≠ [] := by
  cases h.sound.fate k e he with
  | waiting t hw =>
    rw [hw.slot] at hn
    cases hn
  | fired _ _ hf =>
    rw [hf]
    exact List.cons_ne_nil _ _
  | cancelled hc =>
    rw [h.kept] at hc
    cases hc

theorem firings_ne_nil_of_suffix {b b' : AnyTimer.State F A} (h : b.fired <:+ b'.fired)
    (hp : b.firings p ≠ []) : b'.firings p ≠ [] := by
  intro hn
  have hsuffix := h.filter fun f => f.job == p
  rw [show b'.fired.filter (fun f => f.job == p) = [] from hn] at hsuffix
  exact hp (List.suffix_nil.1 hsuffix)

theorem Inv.lib_waiting {s : State F A} (h : Inv prog s)
    (hst : AnyTimer.State.Step Ticks s.base b) (he : s.base.jobs[k]? = some e)
    (hm : s.base.main.Waits e.id) :
    b.main.Waits e.id ∨ b.main = .idle ∧ b.firings k ≠ [] := by
  obtain ⟨-, -, -, hf, hmain⟩ := lib_cases hst h.progress.not_busy
  rcases hmain with hb | hb | ⟨i, hw, hb⟩ | ⟨i, hw, hb⟩
  · exact .inl (hb ▸ hm)
  · left
    rw [hb]
    exact hm.wake
  · left
    rw [hw] at hm
    cases hm
    rw [hb]
    exact .paused
  · rw [hw] at hm
    cases hm
    by_cases hn : s.base.tasks e.id = none
    · rw [if_pos hn] at hb
      exact .inr ⟨hb, firings_ne_nil_of_suffix hf (h.fired_of_empty he hn)⟩
    · left
      rw [hb, if_neg hn]
      exact .entering

theorem Inv.lib {s : State F A} (h : Inv prog s) (hst : AnyTimer.State.Step Ticks s.base b) :
    Inv prog { s with base := b } := by
  have hnc := h.progress.not_busy
  obtain ⟨hj, hc, hi, hf, hmain⟩ := lib_cases hst hnc
  have hfirings (p : Nat) : s.base.firings p ≠ [] → b.firings p ≠ [] :=
    firings_ne_nil_of_suffix hf
  refine ⟨?_, hc.trans h.kept, ?_, ?_, ?_⟩
  · refine .step h.base (hst.mono fun a ha => ?_)
    cases a with
    | stmt => trivial
    | tick => exact hnc
    | _ => exact ha.elim
  · rw [hj]
    exact h.ids
  · rw [hj, hi]
    exact h.inited
  · have hp := h.progress
    have hidle : s.base.main = .idle → b.main = .idle := by
      intro hm
      rcases hmain with he | he | ⟨i, hw, -⟩ | ⟨i, hw, -⟩
      · rw [he, hm]
      · rw [he, hm]
        rfl
      · rw [hm] at hw
        cases hw
      · rw [hm] at hw
        cases hw
    simp only [Progress] at hp ⊢
    split at hp
    · exact ⟨hidle hp.1, hp.2.1, hj ▸ hp.2.2⟩
    · obtain ⟨hm, hk, hjobs, hfired⟩ := hp
      exact ⟨hidle hm, hk, hj ▸ hjobs, fun p hp => hfirings p (hfired p hp)⟩
    · obtain ⟨hk, hjobs, hfired, hat⟩ := hp
      refine ⟨hk, hj ▸ hjobs, fun p hp => hfirings p (hfired p hp), ?_⟩
      rcases hat with ⟨e, he, hm⟩ | ⟨hm, hlast⟩
      · exact (h.lib_waiting hst he hm).imp_left fun hw => ⟨e, hj ▸ he, hw⟩
      · exact .inr ⟨hidle hm, hfirings _ hlast⟩
    · obtain ⟨hm, hjobs, hfired⟩ := hp
      exact ⟨hidle hm, hj ▸ hjobs, fun p hp => hfirings p (hfired p hp)⟩

theorem Inv.add {s : State F A} (h : Inv prog s) (hn : prog.length ≤ maxTasks)
    (hpos : ∀ x ∈ prog, 1 ≤ x.1) (hpc : s.pc = .add k) (hk : prog[k]? = some (sec, job, arg))
    (hf : s.base.fault = none) (hh : s.base.handler = none) (hm : s.base.main = .idle) :
    Inv prog ⟨(s.base.atAddJob sec job arg).2, s.ids ++ [(s.base.atAddJob sec job arg).1],
      .add (k + 1)⟩ := by
  have hp := h.progress
  simp only [Progress, hpc] at hp
  obtain ⟨-, -, hjobs⟩ := hp
  have hlt : k < prog.length := (List.getElem?_eq_some_iff.1 hk).1
  have hlen : s.base.jobs.length = k := by
    rw [← List.length_map (f := Job.request), hjobs, List.length_take_of_le (Nat.le_of_lt hlt)]
  obtain ⟨j, hj⟩ := (State.Slots.of_reachable h.base).exists_free
    (hlen ▸ Nat.lt_of_lt_of_le hlt hn)
  have hadd : s.base.atAddJob sec job arg = (some j, s.base.store j sec job arg) := by
    rcases s.base.atAddJob_cases sec job arg with ⟨hnone, -⟩ | ⟨i, hi, he⟩
    · rw [hj] at hnone
      cases hnone
    · rw [hj] at hi
      cases hi
      exact he
  have hreach : (anytimer F A Quiet).Reachable (s.base.store j sec job arg) :=
    reachable_store h.base sec job arg (fun _ _ => trivial) hf hh hm
      (hpos _ (List.mem_of_getElem? hk)) hj
  rw [hadd]
  refine ⟨hreach, h.kept, ?_, fun _ => rfl, hm, hlt, ?_⟩
  · change s.ids ++ [some j] = (s.base.jobs ++ [(⟨j, sec, job, arg, s.base.clock⟩ : Job F A)]).map _
    rw [h.ids, List.map_append]
    rfl
  · change (s.base.jobs ++ [(⟨j, sec, job, arg, s.base.clock⟩ : Job F A)]).map Job.request = _
    rw [List.map_append, hjobs, List.take_add_one, hk]
    rfl

theorem Inv.step {s t : State F A} (h : Inv prog s) (hn : prog.length ≤ maxTasks)
    (hpos : ∀ x ∈ prog, 1 ≤ x.1) (hst : Step prog s t) : Inv prog t := by
  have hp := h.progress
  cases hst with
  | lib hl => exact h.lib hl
  | add hpc hk hf hh hm => exact h.add hn hpos hpc hk hf hh hm
  | addsDone hpc =>
    simp only [Progress, hpc] at hp
    obtain ⟨hm, -, hjobs⟩ := hp
    rw [List.take_length] at hjobs
    exact ⟨h.base, h.kept, h.ids, h.inited, hm, Nat.zero_le _, hjobs, nofun⟩
  | wait hpc hi hf hh hm =>
    simp only [Progress, hpc] at hp
    obtain ⟨-, -, hjobs, hfired⟩ := hp
    rw [h.ids, List.getElem?_map, Option.map_eq_some_iff] at hi
    obtain ⟨e, he, hid⟩ := hi
    cases hid
    have hlt := (List.getElem?_eq_some_iff.1 he).1
    rw [← List.length_map (f := Job.request), hjobs] at hlt
    exact ⟨.step h.base (.wait e.id hf hh hm trivial), h.kept, h.ids, h.inited, hlt, hjobs,
      hfired, .inl ⟨e, he, .testing⟩⟩
  | waitFault _ hi =>
    rw [h.ids, List.getElem?_map, Option.map_eq_some_iff] at hi
    obtain ⟨e, -, hid⟩ := hi
    cases hid
  | waited hpc _ _ hm =>
    simp only [Progress, hpc] at hp
    obtain ⟨hk, hjobs, hfired, ⟨e, -, hw⟩ | ⟨-, hlast⟩⟩ := hp
    · rw [hm] at hw
      cases hw
    · refine ⟨h.base, h.kept, h.ids, h.inited, hm, hk, hjobs, fun p hlt => ?_⟩
      rcases Nat.lt_or_eq_of_le (Nat.le_of_lt_succ hlt) with hlt | rfl
      · exact hfired p hlt
      · exact hlast
  | waitsDone hpc =>
    simp only [Progress, hpc] at hp
    obtain ⟨hm, -, hjobs, hfired⟩ := hp
    exact ⟨h.base, h.kept, h.ids, h.inited, hm, hjobs, hfired⟩

theorem inv_of_reachable {s : State F A} (hn : prog.length ≤ maxTasks)
    (hpos : ∀ x ∈ prog, 1 ≤ x.1) (h : (system prog).Reachable s) : Inv prog s := by
  refine h.invariant ?_ fun s t _ hi hst => hi.step hn hpos hst
  rintro s rfl
  exact ⟨.init rfl, rfl, rfl, fun hne => absurd rfl hne, rfl, Nat.zero_le _, rfl⟩

theorem Inv.jobs_prefix {s : State F A} (h : Inv prog s) :
    s.base.jobs.map Job.request <+: prog := by
  have hp := h.progress
  unfold Progress at hp
  split at hp
  · rw [hp.2.2]
    exact List.take_prefix _ _
  · rw [hp.2.2.1]
  · rw [hp.2.1]
  · rw [hp.2.1]

theorem Inv.request {s : State F A} {p : Nat} {e : Job F A} (h : Inv prog s)
    (he : s.base.jobs[p]? = some e) : prog[p]? = some (Job.request e) := by
  obtain ⟨rest, hrest⟩ := h.jobs_prefix
  have hlt : p < (s.base.jobs.map Job.request).length := by
    rw [List.length_map]
    exact (List.getElem?_eq_some_iff.1 he).1
  rw [← hrest, List.getElem?_append_left hlt, List.getElem?_map, he]
  rfl

theorem Inv.due_lt {s : State F A} {p q : Nat} {e e' : Job F A} (h : Inv prog s)
    (hinc : prog.Pairwise fun x y => x.1 < y.1) (hpos : ∀ x ∈ prog, 1 ≤ x.1)
    (hp : s.base.jobs[p]? = some e) (hq : s.base.jobs[q]? = some e') (hlt : p < q) :
    e.due < e'.due := by
  obtain ⟨hpl, hpe⟩ := List.getElem?_eq_some_iff.1 hp
  obtain ⟨hql, hqe⟩ := List.getElem?_eq_some_iff.1 hq
  obtain ⟨hpn, hpr⟩ := List.getElem?_eq_some_iff.1 (h.request hp)
  obtain ⟨hqn, hqr⟩ := List.getElem?_eq_some_iff.1 (h.request hq)
  have hsec := List.pairwise_iff_getElem.1 hinc p q hpn hqn hlt
  rw [hpr, hqr] at hsec
  have hadded := List.pairwise_iff_getElem.1 (State.Dated.of_reachable h.base).sorted p q hpl hql
    hlt
  rw [hpe, hqe] at hadded
  have h1 := hpos _ (List.mem_of_getElem? (h.request hp))
  simp only [Job.request] at hsec h1
  rw [Job.due, Job.due]
  omega

theorem Inv.job_of_fired {s : State F A} (h : Inv prog s) (hf : f ∈ s.base.fired) :
    ∃ e, s.base.jobs[f.job]? = some e ∧ f = ⟨f.job, e.func, e.arg, e.due⟩ := by
  have he := List.getElem?_eq_getElem ((State.Slots.of_reachable h.base).firedJob f hf)
  exact ⟨_, he, h.sound.firing_eq hf he⟩

theorem Inv.fired_jobs {s : State F A} (h : Inv prog s)
    (hinc : prog.Pairwise fun x y => x.1 < y.1) (hpos : ∀ x ∈ prog, 1 ≤ x.1) :
    s.base.fired.map Firing.job = (List.range s.base.fired.length).reverse := by
  have horder := State.InOrder.of_reachable h.base
  have hdecreasing : (s.base.fired.map Firing.job).Pairwise (· > ·) := by
    rw [List.pairwise_map]
    refine (h.sound.fired_before horder).imp_of_mem fun {g f} hg hf hbefore => ?_
    obtain ⟨e, he, -⟩ := h.job_of_fired hf
    obtain ⟨e', he', -⟩ := h.job_of_fired hg
    have hlt := hbefore e e' he he'
    rcases Nat.lt_trichotomy f.job g.job with hj | hj | hj
    · exact hj
    · rw [hj, he'] at he
      cases he
      rcases hlt with hlt | ⟨-, hlt⟩
      · exact absurd hlt (Nat.lt_irrefl _)
      · exact absurd hlt (lt_irrefl _)
    · have hdue := h.due_lt hinc hpos he' he hj
      rcases hlt with hlt | ⟨heq, -⟩
      · omega
      · omega
  have hdown : ∀ q ∈ s.base.fired.map Firing.job, ∀ p < q, p ∈ s.base.fired.map Firing.job := by
    intro q hq p hp
    obtain ⟨f, hf, rfl⟩ := List.mem_map.1 hq
    obtain ⟨e', he', -⟩ := h.job_of_fired hf
    have hlen := (List.getElem?_eq_some_iff.1 he').1
    have he := List.getElem?_eq_getElem (Nat.lt_trans hp hlen)
    have hdue := h.due_lt hinc hpos he he' hp
    by_contra hnot
    have hsilent : s.base.firings p = [] :=
      State.firings_nil fun f' hf' hjob => hnot (List.mem_map.2 ⟨f', hf', hjob⟩)
    have hout : s.base.Outstanding p _ := ⟨he, by rw [h.kept]; exact List.not_mem_nil, hsilent⟩
    rcases h.sound.before_outstanding horder hf he' hout
      (hpos _ (List.mem_of_getElem? (h.request he))) with hlt | ⟨heq, -⟩
    · omega
    · omega
  have hrange := eq_range_of_decreasing hdecreasing hdown
  rwa [List.length_map] at hrange

def State.printed (s : State F A) : List (F × A) :=
  s.base.fired.reverse.map fun f => (f.func, f.arg)

theorem Inv.printed_prefix {s : State F A} (h : Inv prog s)
    (hinc : prog.Pairwise fun x y => x.1 < y.1) (hpos : ∀ x ∈ prog, 1 ≤ x.1) :
    s.printed <+: prog.map Prod.snd := by
  apply prefix_of_getElem?
  have hjobs := congrArg List.reverse (h.fired_jobs hinc hpos)
  rw [List.reverse_reverse, ← List.map_reverse] at hjobs
  rw [State.printed, List.length_map, List.length_reverse, ← hjobs, List.map_map, List.map_map]
  refine List.map_congr_left fun f hf => ?_
  obtain ⟨e, he, hfiring⟩ := h.job_of_fired (List.mem_reverse.1 hf)
  have hfunc := congrArg Firing.func hfiring
  have harg := congrArg Firing.arg hfiring
  simp only [Function.comp, List.getElem?_map, h.request he, Option.map_some, hfunc, harg]
  rfl

theorem Inv.printed_done {s : State F A} (h : Inv prog s)
    (hinc : prog.Pairwise fun x y => x.1 < y.1) (hpos : ∀ x ∈ prog, 1 ≤ x.1)
    (hpc : s.pc = .done) : s.printed = prog.map Prod.snd := by
  have hprefix := h.printed_prefix hinc hpos
  refine hprefix.eq_of_length_le ?_
  have hp := h.progress
  simp only [Progress, hpc] at hp
  rw [State.printed, List.length_map, List.length_map, List.length_reverse]
  cases hn : prog.length with
  | zero => exact Nat.zero_le _
  | succ n =>
    obtain ⟨f, hf, hjob⟩ := State.mem_firings (hp.2.2 n (by omega))
    have hmem := List.mem_map_of_mem (f := Firing.job) hf
    rw [h.fired_jobs hinc hpos, List.mem_reverse, List.mem_range, hjob] at hmem
    exact hmem

theorem lib_run {s : State F A}
    (h : Relation.ReflTransGen (AnyTimer.State.Step Ticks) s.base b) :
    Relation.ReflTransGen (Step prog) s { s with base := b } :=
  h.lift (fun b => { s with base := b }) fun _ _ hst => Step.lib (s := { s with base := _ }) hst

theorem Inv.tick_round {s : State F A} (h : Inv prog s) (hh : s.base.handler = none)
    (hne : s.base.jobs ≠ []) :
    ∃ b, Relation.ReflTransGen (Step prog) s { s with base := b } ∧ b.handler = none ∧
      b.clock = s.base.clock + 1 ∧ b.jobs = s.base.jobs ∧ b.main = s.base.main.wake := by
  have hst : AnyTimer.State.Step Ticks s.base _ :=
    .tick h.sound.no_fault hh (h.inited hne) trivial
  obtain ⟨b, hrun, hb, hnone, hmain⟩ :=
    handler_runs (h.lib hst).base (fun _ _ => Quiet.careful) rfl
  exact ⟨b, lib_run (.head hst (hrun Ticks)), hnone, hb.clock_eq, hb.jobs_eq, hmain⟩

/-- at_wait has come to its test: it returns, or a job is still to run and it goes to sleep. -/
theorem Inv.wait_test {s : State F A} (h : Inv prog s) (hpos : ∀ x ∈ prog, 1 ≤ x.1)
    (hpc : s.pc = .waiting k) (hh : s.base.handler = none) (hm : s.base.main = .waitTest i) :
    (∃ t, Relation.ReflTransGen (Step prog) s t ∧ t.pc = .wait (k + 1) ∧
      t.base.handler = none) ∨
    Relation.ReflTransGen (Step prog) s
        { s with base := { s.base with main := .waitPause i } } ∧
      ∃ e ∈ s.base.jobs, s.base.clock < e.due := by
  have hf := h.sound.no_fault
  have hst : Step prog s { s with
      base := { s.base with
        main := if s.base.tasks i = none then .idle else .waitEnter i } } := by
    have hstmt : Step prog s { s with base := s.base.attempt s.base.stmt } :=
      .lib (.stmt hf hh trivial)
    rwa [State.stmt_waitTest hm] at hstmt
  cases ht : s.base.tasks i with
  | none =>
    rw [if_pos ht] at hst
    exact .inl ⟨_, .tail (.single hst) (.waited hpc hf hh rfl), rfl, hh⟩
  | some p =>
    rw [if_neg (by rw [ht]; exact Option.some_ne_none p)] at hst
    obtain ⟨e, r, he, -, hw⟩ := h.sound.waiting (State.Slots.of_reachable h.base) ht
      (by simp [hh]) (by simp [hm])
    have henter : Step prog { s with base := { s.base with main := .waitEnter i } }
        { s with base := { s.base with main := .waitPause i } } := .lib (.stmt hf hh trivial)
    refine .inr ⟨.tail (.single hst) henter, e, List.mem_of_getElem? he, ?_⟩
    have hsec := hw.sec_eq
    have h1 := hpos _ (List.mem_of_getElem? (h.request he))
    have hr := hw.positive h1
    simp only [State.seen, hh, passed, if_true] at hsec
    rw [Job.due]
    simp only [Job.request] at h1
    omega

/-- at_wait returns, after at most as many ticks as the last job is away. -/
theorem finish_waiting {s : State F A} (hn : prog.length ≤ maxTasks)
    (hpos : ∀ x ∈ prog, 1 ≤ x.1) (h : (system prog).Reachable s) (hpc : s.pc = .waiting k)
    (hh : s.base.handler = none) (hm : s.base.main = .waitTest i)
    (hd : ∀ e ∈ s.base.jobs, e.due ≤ s.base.clock + d) :
    ∃ t, Relation.ReflTransGen (Step prog) s t ∧ t.pc = .wait (k + 1) ∧
      t.base.handler = none := by
  induction d generalizing s with
  | zero =>
    rcases (inv_of_reachable hn hpos h).wait_test hpos hpc hh hm with ht | ⟨-, e, he, hlt⟩
    · exact ht
    · exact absurd hlt (Nat.not_lt.2 (hd e he))
  | succ d ih =>
    rcases (inv_of_reachable hn hpos h).wait_test hpos hpc hh hm with ht | ⟨hst, e, he, hlt⟩
    · exact ht
    · have hp := h.trans hst
      obtain ⟨b, hrun, hb, hclock, hjobs, hmain⟩ :=
        (inv_of_reachable hn hpos hp).tick_round hh (List.ne_nil_of_mem he)
      obtain ⟨t, hrun', ht⟩ := ih (hp.trans hrun) hpc hb hmain fun e he => by
        have hle := hd e (hjobs ▸ he)
        rw [hclock]
        change e.due ≤ s.base.clock + 1 + d
        omega
      exact ⟨t, hst.trans (hrun.trans hrun'), ht⟩

theorem exists_due_le (jobs : List (Job F A)) : ∃ d, ∀ e ∈ jobs, e.due ≤ d := by
  obtain ⟨d, hd⟩ := Finset.exists_le (jobs.map Job.due).toFinset
  exact ⟨d, fun e he => hd _ (List.mem_toFinset.2 (List.mem_map_of_mem he))⟩

theorem finish_test {s : State F A} (hn : prog.length ≤ maxTasks) (hpos : ∀ x ∈ prog, 1 ≤ x.1)
    (h : (system prog).Reachable s) (hpc : s.pc = .waiting k) (hh : s.base.handler = none)
    (hm : s.base.main = .waitTest i) :
    ∃ t, Relation.ReflTransGen (Step prog) s t ∧ t.pc = .wait (k + 1) ∧
      t.base.handler = none := by
  obtain ⟨d, hd⟩ := exists_due_le s.base.jobs
  apply finish_waiting hn hpos h hpc hh hm (d := d)
  intro e he
  exact Nat.le_trans (hd e he) (Nat.le_add_left _ _)

theorem finish_at_wait {s : State F A} (hn : prog.length ≤ maxTasks) (hpos : ∀ x ∈ prog, 1 ≤ x.1)
    (h : (system prog).Reachable s) (hpc : s.pc = .waiting k) (hh : s.base.handler = none)
    (hne : s.base.jobs ≠ []) (hw : s.base.main.Waits i) :
    ∃ t, Relation.ReflTransGen (Step prog) s t ∧ t.pc = .wait (k + 1) ∧
      t.base.handler = none := by
  have hi := inv_of_reachable hn hpos h
  generalize hm : s.base.main = m at hw
  cases hw with
  | testing => exact finish_test hn hpos h hpc hh hm
  | paused =>
    obtain ⟨b, hrun, hb, -, -, hmain⟩ := hi.tick_round hh hne
    rw [hm] at hmain
    obtain ⟨t, hrun', ht⟩ := finish_test hn hpos (h.trans hrun) hpc hb hmain
    exact ⟨t, hrun.trans hrun', ht⟩
  | entering =>
    have hlib : AnyTimer.State.Step Ticks s.base { s.base with main := .waitPause i } := by
      have hst : AnyTimer.State.Step Ticks s.base (s.base.attempt s.base.stmt) :=
        .stmt hi.sound.no_fault hh trivial
      rwa [State.stmt, hm] at hst
    obtain ⟨b, hrun, hb, -, -, hmain⟩ := (hi.lib hlib).tick_round hh hne
    have hrun := Relation.ReflTransGen.head (Step.lib hlib) hrun
    obtain ⟨t, hrun', ht⟩ := finish_test hn hpos (h.trans hrun) hpc hb hmain
    exact ⟨t, hrun.trans hrun', ht⟩

def rest (n : Nat) : Pc → Nat
  | .add k => n - k + 2 * n + 3
  | .wait k => 2 * (n - k) + 1
  | .waiting k => 2 * (n - k)
  | .done => 0

theorem rest_wait_lt (hk : k < n) : rest n (.wait (k + 1)) < rest n (.waiting k) := by
  simp only [rest]
  omega

theorem finish_part {s : State F A} (hn : prog.length ≤ maxTasks) (hpos : ∀ x ∈ prog, 1 ≤ x.1)
    (h : (system prog).Reachable s) (hh : s.base.handler = none) (hpc : s.pc ≠ .done) :
    ∃ t, Relation.ReflTransGen (Step prog) s t ∧ t.base.handler = none ∧
      rest prog.length t.pc < rest prog.length s.pc := by
  have hi := inv_of_reachable hn hpos h
  have hf := hi.sound.no_fault
  have hp := hi.progress
  cases hs : s.pc with
  | add k =>
    simp only [Progress, hs] at hp
    obtain ⟨hm, hk, -⟩ := hp
    rcases Nat.lt_or_eq_of_le hk with hlt | rfl
    · obtain ⟨⟨sec, job, arg⟩, hget⟩ : ∃ x, prog[k]? = some x := ⟨_, List.getElem?_eq_getElem hlt⟩
      refine ⟨_, .single (.add hs hget hf hh hm), ?_, ?_⟩
      · rcases s.base.atAddJob_cases sec job arg with ⟨-, he⟩ | ⟨j, -, he⟩
        · rw [he]
          exact hh
        · rw [he]
          exact hh
      · simp only [rest]
        omega
    · refine ⟨_, .single (.addsDone hs hf hh), hh, ?_⟩
      simp only [rest]
      omega
  | wait k =>
    simp only [Progress, hs] at hp
    obtain ⟨hm, hk, hjobs, -⟩ := hp
    rcases Nat.lt_or_eq_of_le hk with hlt | rfl
    · have hlen : k < s.base.jobs.length := by
        rw [← List.length_map (f := Job.request), hjobs]
        exact hlt
      have hid : s.ids[k]? = some (some s.base.jobs[k].id) := by
        rw [hi.ids, List.getElem?_map, List.getElem?_eq_getElem hlen]
        rfl
      have hst : Step prog s _ := .wait hs hid hf hh hm
      obtain ⟨t, hrun, ht, hnone⟩ := finish_test hn hpos (h.step hst) rfl hh rfl
      refine ⟨t, .head hst hrun, hnone, ?_⟩
      rw [ht]
      exact Nat.lt_succ_of_lt (rest_wait_lt hlt)
    · exact ⟨_, .single (.waitsDone hs hf hh), hh, by simp [rest]⟩
  | waiting k =>
    simp only [Progress, hs] at hp
    obtain ⟨hk, -, -, ⟨e, he, hw⟩ | ⟨hm, -⟩⟩ := hp
    · have hne := List.ne_nil_of_mem (List.mem_of_getElem? he)
      obtain ⟨t, hrun, ht, hnone⟩ := finish_at_wait hn hpos h hs hh hne hw
      refine ⟨t, hrun, hnone, ?_⟩
      rw [ht]
      exact rest_wait_lt hk
    · exact ⟨_, .single (.waited hs hf hh hm), hh, rest_wait_lt hk⟩
  | done => exact absurd hs hpc

theorem exists_done {s : State F A} (hn : prog.length ≤ maxTasks) (hpos : ∀ x ∈ prog, 1 ≤ x.1)
    (h : (system prog).Reachable s) :
    ∃ t, Relation.ReflTransGen (Step prog) s t ∧ t.pc = .done := by
  have hquiet : ∃ t, Relation.ReflTransGen (Step prog) s t ∧ t.base.handler = none := by
    cases hh : s.base.handler with
    | none => exact ⟨s, .refl, hh⟩
    | some c =>
      have hi := inv_of_reachable hn hpos h
      obtain ⟨b, hrun, -, hb, -⟩ := handler_runs hi.base (fun _ _ => Quiet.careful) hh
      exact ⟨_, lib_run (hrun Ticks), hb⟩
  obtain ⟨u, hrun, hu⟩ := hquiet
  have hstep : ∀ t : State F A, (system prog).Reachable t ∧ t.base.handler = none →
      ¬t.pc = .done → ∃ v, Relation.ReflTransGen (Step prog) t v ∧
        ((system prog).Reachable v ∧ v.base.handler = none) ∧
        rest prog.length v.pc < rest prog.length t.pc := by
    intro t hi hpc
    obtain ⟨v, hv, hnone, hlt⟩ := finish_part hn hpos hi.1 hi.2 hpc
    exact ⟨v, hv, ⟨hi.1.trans hv, hnone⟩, hlt⟩
  obtain ⟨t, hrun', -, ht⟩ :=
    exists_run_of_rank (fun t : State F A => rest prog.length t.pc) hstep ⟨h.trans hrun, hu⟩
  rw [Relation.reflTransGen_eq_self] at hrun'
  exact ⟨t, hrun.trans hrun', ht⟩

/-- Jobs added with increasing delays print their texts in that order, all of them when main
returns, which it always can. -/
theorem main_prints_in_order {s : State F A} (hn : prog.length ≤ maxTasks)
    (hpos : ∀ x ∈ prog, 1 ≤ x.1) (hinc : prog.Pairwise fun x y => x.1 < y.1)
    (h : (system prog).Reachable s) :
    s.base.fault = none ∧ s.printed <+: prog.map Prod.snd ∧
      (s.pc = .done → s.printed = prog.map Prod.snd) ∧
      ∃ t, Relation.ReflTransGen (Step prog) s t ∧ t.pc = .done := by
  have hi := inv_of_reachable hn hpos h
  exact ⟨hi.sound.no_fault, hi.printed_prefix hinc hpos, hi.printed_done hinc hpos,
    exists_done hn hpos h⟩

def atTest : List (Int × Unit × String) :=
  [(2, (), "hello world2"), (5, (), "hello world5"), (7, (), "hello world7")]

theorem main_prints_in_order_at_test : ∃ s : State Unit String,
    (system atTest).Reachable s ∧ s.pc = .done ∧
      s.printed = [((), "hello world2"), ((), "hello world5"), ((), "hello world7")] := by
  have h0 : (system atTest).Reachable ⟨.start Unit String, [], .add 0⟩ := .init rfl
  obtain ⟨t, hrun, ht⟩ := exists_done (by decide) (by decide) h0
  have hr := h0.trans hrun
  exact ⟨t, hr, ht,
    (main_prints_in_order (by decide) (by decide) (by simp [atTest]) hr).2.2.1 ht⟩

end Test

end Apue.AnyTimer
