import Apue.PipeCopy

namespace Apue.Adio.Select
set_option autoImplicit true

def fdSetSize : Nat := 1024

/-- The memory from the start of an `fd_set` on; what follows the first `FD_SETSIZE` bits is not the
set's. -/
abbrev FdSet := Nat → Bool

/-- `FD_SET`, or `none` where it writes behind the set. -/
def fdSet (fd : Nat) (s : FdSet) : Option FdSet :=
  if fd < fdSetSize then some (Function.update s fd true) else none

/-- `FD_ISSET`, or `none` where it reads behind the set. -/
def fdIsset (fd : Nat) (s : FdSet) : Option Bool :=
  if fd < fdSetSize then some (s fd) else none

structure FdSets where
  reads : FdSet
  writes : FdSet
  excepts : FdSet

/-- What `pipe_push` passes to `select`. -/
structure Interest where
  nfds : Nat
  sets : FdSets

def Interest.zero : Interest where
  nfds := 0
  sets := { reads := fun _ => false, writes := fun _ => false, excepts := fun _ => false }

def FdSets.addRead (s : FdSets) (p : Pipe) : Option FdSets := do
  let reads ← fdSet p.src s.reads
  let excepts ← fdSet p.src s.excepts
  return { s with reads := reads, excepts := excepts }

def FdSets.addWrite (s : FdSets) (p : Pipe) : Option FdSets := do
  let writes ← fdSet p.dst s.writes
  let excepts ← fdSet p.dst s.excepts
  return { s with writes := writes, excepts := excepts }

/-- One turn of the loop that fills the sets. -/
def Interest.add (w : Interest) (p : Pipe) : Option Interest := do
  let nfds := if p.src > w.nfds then p.src else w.nfds
  let nfds := if p.dst > nfds then p.dst else nfds
  let sets ← if p.state = .read then w.sets.addRead p else pure w.sets
  let sets ← if p.state = .write then sets.addWrite p else pure sets
  -- the two lines that are printed about every pipe
  let _ ← fdIsset p.src sets.reads
  let _ ← fdIsset p.dst sets.writes
  return { nfds := nfds, sets := sets }

def register (pipes : Fin n → Pipe) : Option Interest :=
  ((List.finRange n).map pipes).foldlM Interest.add .zero

/-- What `select` may leave in the sets: at least one descriptor, and none that was not asked
for. -/
structure Interest.Answers (w : Interest) (r : FdSets) : Prop where
  reads : ∀ fd, r.reads fd = true → w.sets.reads fd = true ∧ fd < w.nfds + 1
  writes : ∀ fd, r.writes fd = true → w.sets.writes fd = true ∧ fd < w.nfds + 1
  excepts : ∀ fd, r.excepts fd = true → w.sets.excepts fd = true ∧ fd < w.nfds + 1
  ready : ∃ fd, r.reads fd = true ∨ r.writes fd = true ∨ r.excepts fd = true

def serve (r : FdSets) (io : Io) : Service Pipe IoCall := fun p =>
  Tests.serve
    { srcExcept := r.excepts p.src, srcReady := r.reads p.src
      dstExcept := r.excepts p.dst, dstReady := r.writes p.dst } io p

theorem serve_proper (r : FdSets) (io : Io) : Proper (serve r io) where
  src p := (Tests.serve_proper _ io).src p
  dst p := (Tests.serve_proper _ io).dst p
  fd p := (Tests.serve_proper _ io).fd p
  finished p := (Tests.serve_proper _ io).finished p

/-- `select.c`: `main` loops until every pipe is finished. Where a descriptor does not fit into the
sets nothing is known of what is reported. -/
def program (n : Nat) : Program FdSets n where
  limit := none
  waits pipes r := ∀ w, register pipes = some w → w.Answers r
  visits r io := everyone fun i => serve r (io i)
  nodup _ := everyone_nodup _
  proper := by
    intro r io i
    rw [serviceOf_everyone]
    exact serve_proper r (io i)

/-- Both descriptors of a pipe have a bit in the sets. -/
def Fits (p : Pipe) : Prop := p.src < fdSetSize ∧ p.dst < fdSetSize
  deriving Decidable

theorem update_iff {s : FdSet} :
    Function.update s fd true fd' = true ↔ s fd' = true ∨ fd = fd' := by
  by_cases h : fd' = fd
  · simp [h]
  · simp [h, Ne.symm h]

theorem Interest.add_isSome (w : Interest) (p : Pipe) : (w.add p).isSome = true ↔ Fits p := by
  by_cases hs : p.src < fdSetSize <;> by_cases hd : p.dst < fdSetSize <;>
    cases hp : p.state <;>
    simp [add, FdSets.addRead, FdSets.addWrite, fdSet, fdIsset, Fits, hp, hs, hd]

theorem Interest.add_reads (h : Interest.add w p = some w') : w'.sets.reads fd = true ↔
    w.sets.reads fd = true ∨ (p.state = .read ∧ p.src = fd) := by
  obtain ⟨hs, hd⟩ := (w.add_isSome p).mp (by rw [h]; rfl)
  cases hp : p.state <;>
    simp [add, FdSets.addRead, FdSets.addWrite, fdSet, fdIsset, hp, hs, hd] at h <;>
    simp [← h, update_iff]

theorem Interest.add_writes (h : Interest.add w p = some w') : w'.sets.writes fd = true ↔
    w.sets.writes fd = true ∨ (p.state = .write ∧ p.dst = fd) := by
  obtain ⟨hs, hd⟩ := (w.add_isSome p).mp (by rw [h]; rfl)
  cases hp : p.state <;>
    simp [add, FdSets.addRead, FdSets.addWrite, fdSet, fdIsset, hp, hs, hd] at h <;>
    simp [← h, update_iff]

theorem Interest.add_excepts (h : Interest.add w p = some w') : w'.sets.excepts fd = true ↔
    w.sets.excepts fd = true ∨
      (p.state = .read ∧ p.src = fd) ∨ (p.state = .write ∧ p.dst = fd) := by
  obtain ⟨hs, hd⟩ := (w.add_isSome p).mp (by rw [h]; rfl)
  cases hp : p.state <;>
    simp [add, FdSets.addRead, FdSets.addWrite, fdSet, fdIsset, hp, hs, hd] at h <;>
    simp [← h, update_iff]

theorem Interest.add_nfds (h : Interest.add w p = some w') :
    w.nfds ≤ w'.nfds ∧ p.src ≤ w'.nfds ∧ p.dst ≤ w'.nfds := by
  have hn : w'.nfds = max (max w.nfds p.src) p.dst := by
    obtain ⟨hs, hd⟩ := (w.add_isSome p).mp (by rw [h]; rfl)
    cases hp : p.state <;>
      simp [add, FdSets.addRead, FdSets.addWrite, fdSet, fdIsset, hp, hs, hd] at h <;>
      rw [← h] <;> grind
  omega

/-- The sets that the registration of `ps` gives. -/
structure Registers (w : Interest) (ps : List Pipe) : Prop where
  reads : ∀ fd, w.sets.reads fd = true ↔ ∃ p ∈ ps, p.state = .read ∧ p.src = fd
  writes : ∀ fd, w.sets.writes fd = true ↔ ∃ p ∈ ps, p.state = .write ∧ p.dst = fd
  excepts : ∀ fd, w.sets.excepts fd = true ↔
    ∃ p ∈ ps, (p.state = .read ∧ p.src = fd) ∨ (p.state = .write ∧ p.dst = fd)
  nfds : ∀ p ∈ ps, p.src ≤ w.nfds ∧ p.dst ≤ w.nfds

theorem Registers.zero : Registers .zero [] := by
  constructor <;> simp [Interest.zero]

theorem exists_mem_concat {ps : List α} {Q : α → Prop} :
    (∃ p ∈ ps ++ [q], Q p) ↔ (∃ p ∈ ps, Q p) ∨ Q q := by
  simp [or_and_right, exists_or]

theorem Registers.add (h : Registers w ps) (hp : w.add p = some w') :
    Registers w' (ps ++ [p]) where
  reads fd := by rw [Interest.add_reads hp, h.reads, exists_mem_concat]
  writes fd := by rw [Interest.add_writes hp, h.writes, exists_mem_concat]
  excepts fd := by rw [Interest.add_excepts hp, h.excepts, exists_mem_concat]
  nfds q hq := by
    obtain ⟨hle, hsrc, hdst⟩ := Interest.add_nfds hp
    rcases List.mem_append.mp hq with hq | hq
    · have hold := h.nfds q hq
      exact ⟨hold.1.trans hle, hold.2.trans hle⟩
    · rw [List.mem_singleton.mp hq]
      exact ⟨hsrc, hdst⟩

theorem registers_foldlM (h : ps.foldlM Interest.add .zero = some w) : Registers w ps := by
  induction ps using List.reverseRecOn generalizing w with
  | nil =>
    cases h
    exact .zero
  | append_singleton ps p ih =>
    rw [List.foldlM_append] at h
    obtain ⟨w', hw, hp⟩ := Option.bind_eq_some_iff.mp h
    simp only [List.foldlM_cons, List.foldlM_nil, bind_pure] at hp
    exact (ih hw).add hp

theorem foldlM_add_isSome (ps : List Pipe) (w : Interest) :
    (ps.foldlM Interest.add w).isSome = true ↔ ∀ p ∈ ps, Fits p := by
  induction ps generalizing w with
  | nil => simp
  | cons p ps ih =>
    rw [List.foldlM_cons, List.forall_mem_cons, ← w.add_isSome p]
    cases hp : w.add p with
    | none => simp
    | some w' => simpa using ih w'

section
variable {pipes : Fin n → Pipe}

theorem register_isSome : (register pipes).isSome = true ↔ ∀ i, Fits (pipes i) := by
  simp [register, foldlM_add_isSome]

theorem exists_register (h : ∀ i, Fits (pipes i)) : ∃ w, register pipes = some w :=
  Option.isSome_iff_exists.mp (register_isSome.mpr h)

theorem register_reads (h : register pipes = some w) : w.sets.reads fd = true ↔
    ∃ i, (pipes i).state = .read ∧ (pipes i).src = fd := by
  simp [(registers_foldlM h).reads]

theorem register_writes (h : register pipes = some w) : w.sets.writes fd = true ↔
    ∃ i, (pipes i).state = .write ∧ (pipes i).dst = fd := by
  simp [(registers_foldlM h).writes]

theorem register_excepts (h : register pipes = some w) : w.sets.excepts fd = true ↔
    ∃ i, ((pipes i).state = .read ∧ (pipes i).src = fd) ∨
      ((pipes i).state = .write ∧ (pipes i).dst = fd) := by
  simp [(registers_foldlM h).excepts]

theorem lt_register_nfds (h : register pipes = some w) (i : Fin n)
    (hfd : fd = (pipes i).src ∨ fd = (pipes i).dst) : fd < w.nfds + 1 := by
  have hle := (registers_foldlM h).nfds (pipes i) (List.mem_map_of_mem (List.mem_finRange i))
  rcases hfd with rfl | rfl
  · exact Nat.lt_succ_of_le hle.1
  · exact Nat.lt_succ_of_le hle.2

end

/-- The part of a report that is about the descriptors of `p`. -/
def FdSets.only (r : FdSets) (p : Pipe) : FdSets where
  reads fd := r.reads fd && (fd == p.src || fd == p.dst)
  writes fd := r.writes fd && (fd == p.src || fd == p.dst)
  excepts fd := r.excepts fd && (fd == p.src || fd == p.dst)

def FdSets.has (r : FdSets) (fd : Nat) : Bool := r.reads fd || r.writes fd || r.excepts fd

/-- What a copier of `p` alone would be told, if anything. -/
def own (p : Pipe) (r : FdSets) : Option FdSets :=
  if r.has p.src || r.has p.dst then some (r.only p) else none

/-- One pipe of a copier, seen as a copier of one pipe. -/
def alone (i : Fin n) (m : Machine FdSets n) : Machine FdSets 1 where
  pipes _ := m.pipes i
  calls := m.callsOf i
  reports := m.reports.filterMap (own (m.pipes i))
  exit := if (m.pipes i).Finished then some 0 else m.exit

theorem serve_only (r : FdSets) (io : Io) (p : Pipe) : serve (r.only p) io p = serve r io p := by
  simp [serve, FdSets.only]

theorem serve_quiet (h : r.has p.src = false) (h' : r.has p.dst = false) :
    serve r io p = (p, none) := by
  simp only [FdSets.has, Bool.or_eq_false_iff] at h h'
  simp only [serve, Tests.serve, h, h']
  cases p.state <;> rfl

theorem src_owner {pipes : Fin n → Pipe} (hd : Distinct pipes) (hj : (pipes j).src = fd)
    (h : fd = (pipes i).src ∨ fd = (pipes i).dst) : j = i := by
  subst hj
  exact hd.src j i (h.resolve_right (hd.src_ne_dst j i))

theorem dst_owner {pipes : Fin n → Pipe} (hd : Distinct pipes) (hj : (pipes j).dst = fd)
    (h : fd = (pipes i).src ∨ fd = (pipes i).dst) : j = i := by
  subst hj
  exact hd.dst j i (h.resolve_left (hd.src_ne_dst i j).symm)

theorem answers_only {pipes : Fin n → Pipe} (hd : Distinct pipes) (hw : register pipes = some w)
    (h : w.Answers r) (i : Fin n) (hw1 : register (fun _ : Fin 1 => pipes i) = some w1)
    (hi : r.has (pipes i).src = true ∨ r.has (pipes i).dst = true) :
    w1.Answers (r.only (pipes i)) where
  reads fd hr := by
    simp only [FdSets.only, Bool.and_eq_true, Bool.or_eq_true, beq_iff_eq] at hr
    obtain ⟨j, hs, hj⟩ := (register_reads hw).mp (h.reads fd hr.1).1
    cases src_owner hd hj hr.2
    exact ⟨(register_reads hw1).mpr ⟨0, hs, hj⟩, lt_register_nfds hw1 0 hr.2⟩
  writes fd hr := by
    simp only [FdSets.only, Bool.and_eq_true, Bool.or_eq_true, beq_iff_eq] at hr
    obtain ⟨j, hs, hj⟩ := (register_writes hw).mp (h.writes fd hr.1).1
    cases dst_owner hd hj hr.2
    exact ⟨(register_writes hw1).mpr ⟨0, hs, hj⟩, lt_register_nfds hw1 0 hr.2⟩
  excepts fd hr := by
    simp only [FdSets.only, Bool.and_eq_true, Bool.or_eq_true, beq_iff_eq] at hr
    refine ⟨(register_excepts hw1).mpr ⟨0, ?_⟩, lt_register_nfds hw1 0 hr.2⟩
    obtain ⟨j, ⟨hs, hj⟩ | ⟨hs, hj⟩⟩ := (register_excepts hw).mp (h.excepts fd hr.1).1
    · cases src_owner hd hj hr.2
      exact .inl ⟨hs, hj⟩
    · cases dst_owner hd hj hr.2
      exact .inr ⟨hs, hj⟩
  ready := by
    rcases hi with hi | hi
    · exact ⟨(pipes i).src, by simpa [FdSets.only, FdSets.has, or_assoc] using hi⟩
    · exact ⟨(pipes i).dst, by simpa [FdSets.only, FdSets.has, or_assoc] using hi⟩

/-- A pipe that is reported on is registered, so it is not finished. -/
theorem Interest.Answers.not_finished {p : Pipe}
    (hw : register (fun _ : Fin 1 => p) = some w) (h : w.Answers r) : ¬p.Finished := by
  obtain ⟨fd, hr | hr | hr⟩ := h.ready
  · obtain ⟨_, hs, -⟩ := (register_reads hw).mp (h.reads fd hr).1
    simp [Pipe.Finished, hs]
  · obtain ⟨_, hs, -⟩ := (register_writes hw).mp (h.writes fd hr).1
    simp [Pipe.Finished, hs]
  · obtain ⟨_, ⟨hs, -⟩ | ⟨hs, -⟩⟩ := (register_excepts hw).mp (h.excepts fd hr).1
    · simp [Pipe.Finished, hs]
    · simp [Pipe.Finished, hs]

theorem own_congr {p q : Pipe} (hs : p.src = q.src) (hd : p.dst = q.dst) : own p = own q := by
  funext r
  rw [own, own, FdSets.only, FdSets.only, hs, hd]

theorem visits_service (r : FdSets) (io : Fin n → Io) (i : Fin n) :
    serviceOf ((program n).visits r io) i = serve r (io i) :=
  serviceOf_everyone _ i

theorem push_exit {m : Machine FdSets n} (h : ¬((m.push (program n) r io).pipes i).Finished) :
    (m.push (program n) r io).exit = none := by
  refine if_neg ?_
  rintro (hall | hl)
  · exact h (hall i)
  · cases hl

theorem round_one (r : FdSets) (io : Fin 1 → Io) (pipes : Fin 1 → Pipe) :
    (round ((program 1).visits r io) pipes).2 = (serve r (io 0) (pipes 0)).2.toList :=
  List.append_nil _

theorem waits_only {pipes : Fin n → Pipe} (hd : Distinct pipes) (hfit : ∀ i, Fits (pipes i))
    (hw : (program n).waits pipes r) (i : Fin n)
    (hi : r.has (pipes i).src = true ∨ r.has (pipes i).dst = true) :
    (program 1).waits (fun _ => pipes i) (r.only (pipes i)) := by
  intro w1 hw1
  obtain ⟨w, hreg⟩ := exists_register hfit
  exact answers_only hd hreg (hw w hreg) i hw1 hi

/-- A `pipe_push` that reports on a pipe is one of the copier of that pipe alone. -/
theorem alone_push {m : Machine FdSets n} (hd : Distinct m.pipes)
    (hfit : ∀ i, Fits (m.pipes i)) (hw : (program n).waits m.pipes r) (i : Fin n)
    (hi : r.has (m.pipes i).src = true ∨ r.has (m.pipes i).dst = true) :
    alone i (m.push (program n) r io) =
      (alone i m).push (program 1) (r.only (m.pipes i)) fun _ => io i := by
  have hw1 : (program 1).waits (alone i m).pipes (r.only (m.pipes i)) :=
    waits_only hd hfit hw i hi
  have hp : (m.push (program n) r io).pipes i = (serve r (io i) (m.pipes i)).1 := by
    rw [Machine.push_pipe hw, visits_service]
  have hp1 : ∀ k, ((alone i m).push (program 1) (r.only (m.pipes i)) fun _ => io i).pipes k =
      (m.push (program n) r io).pipes i := by
    intro k
    rw [Machine.push_pipe hw1, visits_service, hp]
    exact congrArg Prod.fst (serve_only r (io i) (m.pipes i))
  ext1
  · funext k
    exact (hp1 k).symm
  · show (m.push (program n) r io).callsOf i = m.callsOf i ++ (round _ fun _ => m.pipes i).2
    rw [Machine.push_callsOf hd hw, visits_service, round_one, serve_only]
  · show List.filterMap _ (m.reports ++ [r]) = List.filterMap _ m.reports ++ [r.only (m.pipes i)]
    rw [own_congr (Machine.push_src hw i) (Machine.push_dst hw i), List.filterMap_append]
    simp [own, hi]
  · by_cases hf : ((m.push (program n) r io).pipes i).Finished
    · rw [alone, if_pos hf, Machine.push_exit_zero]
      intro k
      rwa [hp1]
    · rw [alone, if_neg hf, push_exit hf]
      exact (push_exit (i := 0) (by rwa [hp1])).symm

theorem alone_quiet {m : Machine FdSets n} (hd : Distinct m.pipes)
    (hw : (program n).waits m.pipes r) (he : m.exit = none) (i : Fin n)
    (hi : r.has (m.pipes i).src = false) (hi' : r.has (m.pipes i).dst = false) :
    alone i (m.push (program n) r io) = alone i m := by
  have hq : serviceOf ((program n).visits r io) i (m.pipes i) = (m.pipes i, none) := by
    rw [visits_service, serve_quiet hi hi']
  have hp : (m.push (program n) r io).pipes i = m.pipes i := by
    rw [Machine.push_pipe hw, hq]
  have hc : (m.push (program n) r io).callsOf i = m.callsOf i := by
    rw [Machine.push_callsOf hd hw, hq]
    exact List.append_nil _
  have ho : own (m.pipes i) r = none := by simp [own, hi, hi']
  rw [alone, alone, hp, hc]
  ext1
  · rfl
  · rfl
  · simp [Machine.push, ho]
  · by_cases hf : (m.pipes i).Finished
    · simp only [if_pos hf]
    · simp only [if_neg hf, he]
      exact push_exit (i := i) (by rwa [hp])

theorem started_alone {m : Machine FdSets n} (h : Started m) (i : Fin n) :
    Started (alone i m) where
  argc := ⟨3, by decide, rfl⟩
  pipes _ := h.pipes i
  distinct := ⟨fun _ _ _ => Subsingleton.elim _ _, fun _ _ _ => Subsingleton.elim _ _,
    fun _ _ => h.distinct.src_ne_dst i i⟩
  calls := h.callsOf i
  reports := by rw [alone, h.reports, List.filterMap_nil]
  exit := by
    obtain ⟨p, src, dst, hp⟩ := h.pipes i
    rw [alone, hp, h.exit]
    rfl

theorem alone_step {m m' : Machine FdSets n} (hok : Separate ok) (hd : Distinct m.pipes)
    (hfit : ∀ i, Fits (m.pipes i)) (h : (program n).Step ok m m') (i : Fin n) :
    alone i m' = alone i m ∨ (program 1).Step ok (alone i m) (alone i m') := by
  cases h with
  | intr => exact .inl rfl
  | fail he =>
    by_cases hf : (m.pipes i).Finished
    · left
      simp only [alone, if_pos hf]
      rfl
    · right
      have he1 : alone i { m with exit := some 1 } = { alone i m with exit := some 1 } := by
        simp only [alone, if_neg hf]
        rfl
      rw [he1]
      exact .fail ((if_neg hf).trans he)
  | @push r _ _ he hw hcalls =>
    by_cases hi : r.has (m.pipes i).src = true ∨ r.has (m.pipes i).dst = true
    · right
      rw [alone_push hd hfit hw i hi]
      have hw1 := waits_only hd hfit hw i hi
      have hreg1 : ∃ w1, register (fun _ : Fin 1 => m.pipes i) = some w1 :=
        exists_register fun _ => hfit i
      obtain ⟨w1, hreg⟩ := hreg1
      have hne : ¬(m.pipes i).Finished := Interest.Answers.not_finished hreg (hw1 w1 hreg)
      apply Program.Step.push ((if_neg hne).trans he) hw1
      intro c hc
      rw [round_one] at hc
      apply hok.own hd hw hcalls i
      rw [visits_service, ← serve_only]
      exact Option.mem_toList.mp hc
    · left
      simp only [not_or, Bool.not_eq_true] at hi
      exact alone_quiet hd hw he i hi.1 hi.2

theorem finished_forever {m m' : Machine FdSets n}
    (h : ((program n).main ok).Reachable m) (hf : (m.pipes i).Finished)
    (hlater : Relation.ReflTransGen ((program n).main ok).step m m') :
    m'.pipes i = m.pipes i ∧ m'.callsOf i = m.callsOf i := by
  have hinv : ((program n).main ok).Reachable m' ∧
      m'.pipes i = m.pipes i ∧ m'.callsOf i = m.callsOf i := by
    induction hlater with
    | refl => exact ⟨h, rfl, rfl⟩
    | tail _ hst ih =>
      obtain ⟨hr, hp, hc⟩ := ih
      obtain ⟨hp', hc'⟩ := Program.Step.finished hst ((program n).distinct hr) (hp ▸ hf)
      exact ⟨hr.step hst, hp'.trans hp, hc'.trans hc⟩
  exact hinv.2

theorem fits_of_step {m m' : Machine FdSets n} (h : (program n).Step ok m m') (i : Fin n) :
    Fits (m'.pipes i) ↔ Fits (m.pipes i) := by
  cases h with
  | intr => rfl
  | fail => rfl
  | push _ hw _ => rw [Fits, Machine.push_src hw, Machine.push_dst hw, Fits]

theorem register_nonempty {m : Machine FdSets n} (h : ((program n).main ok).Reachable m)
    (he : m.exit = none) (hfit : ∀ i, Fits (m.pipes i)) :
    ∃ w, register m.pipes = some w ∧
      ∃ fd < w.nfds + 1, w.sets.reads fd = true ∨ w.sets.writes fd = true := by
  obtain ⟨w, hw⟩ := exists_register hfit
  apply Exists.intro w
  apply And.intro hw
  obtain ⟨i, hi⟩ := (program n).unfinished h he
  cases hs : (m.pipes i).state with
  | read =>
    exact ⟨_, lt_register_nfds hw i (.inl rfl), .inl ((register_reads hw).mpr ⟨i, hs, rfl⟩)⟩
  | write =>
    exact ⟨_, lt_register_nfds hw i (.inr rfl), .inr ((register_writes hw).mpr ⟨i, hs, rfl⟩)⟩
  | err => exact absurd (.inr hs) hi
  | eof => exact absurd (.inl hs) hi

theorem serve_other {pipes : Fin n → Pipe} (hd : Distinct pipes) (hj : j ≠ i) (r : FdSets)
    (io : Io) : (round [(j, serve r io)] pipes).1 i = pipes i ∧
      (round [(j, serve r io)] pipes).2.filter (pipes i).owns = [] := by
  constructor
  · exact Function.update_of_ne hj.symm _ _
  · rw [List.filter_eq_nil_iff]
    intro c hc
    have hc' : c ∈ (serve r io (pipes j)).2 := by simpa [round] using hc
    simp [hd.not_owns hj ((serve_proper r io).owns _ c hc')]

def readable (fd : Nat) : FdSets where
  reads x := x == fd
  writes _ := false
  excepts _ := false

def writable (fd : Nat) : FdSets where
  reads _ := false
  writes x := x == fd
  excepts _ := false

theorem answers_readable {pipes : Fin n → Pipe} (i : Fin n) (h : (pipes i).state = .read) :
    (program n).waits pipes (readable (pipes i).src) := by
  intro w hw
  exact {
    reads := by
      intro fd hfd
      cases eq_of_beq hfd
      exact ⟨(register_reads hw).mpr ⟨i, h, rfl⟩, lt_register_nfds hw i (.inl rfl)⟩
    writes := fun _ => nofun
    excepts := fun _ => nofun
    ready := ⟨_, .inl (beq_self_eq_true _)⟩ }

theorem answers_writable {pipes : Fin n → Pipe} (i : Fin n) (h : (pipes i).state = .write) :
    (program n).waits pipes (writable (pipes i).dst) := by
  intro w hw
  exact {
    reads := fun _ => nofun
    writes := by
      intro fd hfd
      cases eq_of_beq hfd
      exact ⟨(register_writes hw).mpr ⟨i, h, rfl⟩, lt_register_nfds hw i (.inr rfl)⟩
    excepts := fun _ => nofun
    ready := ⟨_, .inr (.inl (beq_self_eq_true _))⟩ }

def gives (c : Chunk) : Io := { rd := some c, wr := none, past := fun _ => 0 }

def takes (k : Nat) : Io := { rd := none, wr := some k, past := fun _ => 0 }

/-- Each pipe runs as it would alone, and `select` is entered with sets that hold all that was
entered. -/
structure Independent (content : Nat → List UInt8) (l : List (Machine FdSets n)) : Prop where
  alone : ∀ i, ∃ l', ((program 1).main (Admissible content)).Run l' ∧
    Destutter (l.map (alone i)) l'
  other : ∀ m ∈ l, ∀ i j, j ≠ i → ∀ r io,
    (round [(j, serve r io)] m.pipes).1 i = m.pipes i ∧
      (round [(j, serve r io)] m.pipes).2.filter (m.pipes i).owns = []
  finished : ∀ m ∈ l, ∀ i, (m.pipes i).Finished → ∀ m',
    Relation.ReflTransGen ((program n).main (Admissible content)).step m m' →
      m'.pipes i = m.pipes i ∧ m'.callsOf i = m.callsOf i
  registered : ∀ m ∈ l, m.exit = none → ∃ w, register m.pipes = some w ∧
    ∃ fd < w.nfds + 1, w.sets.reads fd = true ∨ w.sets.writes fd = true

theorem fits_of_run {l : List (Machine FdSets n)}
    (h : ((program n).main ok).Run l) (hl : l.getLast? = some m₀) (hfit : ∀ i, Fits (m₀.pipes i)) :
    ((program n).main ok |>.guard fun m _ => ∀ i, Fits (m.pipes i)).Run l ∧
      ∀ m ∈ l, ∀ i, Fits (m.pipes i) := by
  induction h with
  | start h0 =>
    cases hl
    apply And.intro (.start h0)
    intro m hm
    rw [List.mem_singleton.mp hm]
    exact hfit
  | @step m l m' hr hst ih =>
    rw [List.getLast?_cons_cons] at hl
    obtain ⟨hg, hall⟩ := ih hl
    have hm := hall m List.mem_cons_self
    apply And.intro (hg.step ⟨hst, hm⟩)
    intro u hu i
    rcases List.mem_cons.mp hu with rfl | hu
    · exact (fits_of_step hst i).mpr (hm i)
    · exact hall u hu i

theorem independent_of_fits (content : Nat → List UInt8) {l : List (Machine FdSets n)}
    (h : ((program n).main (Admissible content)).Run l) (hl : l.getLast? = some m₀)
    (hfit : ∀ i, Fits (m₀.pipes i)) : Independent content l := by
  obtain ⟨hg, hall⟩ := fits_of_run h hl hfit
  constructor
  · intro i
    apply hg.project
    · intro m hm
      exact started_alone hm i
    · intro m m' hr hst
      exact alone_step (Admissible.separate content) ((program n).distinct hr.of_guard) hst.2
        hst.1 i
  · intro m hm i j hj r io
    exact serve_other ((program n).distinct (h.reachable m hm)) hj r io
  · intro m hm i hf m' hlater
    exact finished_forever (h.reachable m hm) hf hlater
  · intro m hm he
    exact register_nonempty (h.reachable m hm) he (hall m hm)

/-- The pipes are independent in every run of a copier exactly when all of its descriptors are
below `FD_SETSIZE`. -/
theorem pipes_independent_iff (content : Nat → List UInt8) {m₀ : Machine FdSets n}
    (h : Started m₀) :
    (∀ l, ((program n).main (Admissible content)).Run l → l.getLast? = some m₀ →
      Independent content l) ↔ ∀ i, Fits (m₀.pipes i) := by
  constructor
  · intro hall
    have hstart : ((program n).main (Admissible content)).Run [m₀] := .start h
    have hind := hall [m₀] hstart rfl
    obtain ⟨w, hw, -⟩ := hind.registered m₀ List.mem_cons_self h.exit
    apply register_isSome.mp
    rw [hw]
    rfl
  · intro hfit l hrun hl
    exact independent_of_fits content hrun hl hfit

theorem pipes_independent_two :
    let m := opened FdSets 2
    let m' := m.push (program 2) (readable 5) fun _ => gives ⟨[], Nat.zero_le _⟩
    ∃ l', ((program 1).main (Admissible fun _ => [])).Run l' ∧
      Destutter ([m', m].map (alone 0)) l' := by
  have h0 : Started (opened FdSets 2) := opened_started (by decide)
  have hfit : ∀ i, Fits ((opened FdSets 2).pipes i) := by decide
  apply ((pipes_independent_iff (fun _ => []) h0).mpr hfit _ ?_ rfl).alone 0
  apply (System.Run.start h0).step
  apply Program.Step.push rfl (answers_readable 1 rfl)
  intro c hc
  cases List.mem_singleton.mp (show c ∈ [IoCall.read 5 (some [])] from hc)
  exact ⟨List.prefix_refl _, fun _ => rfl⟩

/-- With 511 pipes the last destination is descriptor 1024, for which the sets have no bit. -/
theorem pipes_overflow : ∃ l, ((program 511).main (Admissible fun _ => [])).Run l ∧
    l.getLast? = some (opened FdSets 511) ∧ ¬Independent (fun _ => []) l := by
  have h0 : Started (opened FdSets 511) := opened_started (by decide)
  apply Exists.intro [opened FdSets 511]
  apply And.intro (System.Run.start h0)
  apply And.intro rfl
  intro hind
  obtain ⟨w, hw, -⟩ := hind.registered _ List.mem_cons_self rfl
  have hfit := register_isSome.mp (show (register (opened FdSets 511).pipes).isSome by rw [hw]; rfl)
  exact absurd (hfit ⟨510, by decide⟩).2 (by decide)

/-- Where every `write` is full, each destination holds a prefix of its source, and all of it at the
end of the file. -/
theorem copy_intact (content : Nat → List UInt8) {m : Machine FdSets n}
    (h : ((program n).main fun calls c => Admissible content calls c ∧ c.Full).Reachable m)
    (i : Fin n) :
    written (m.pipes i).dst m.calls <+: content (m.pipes i).src ∧
      ((m.pipes i).state = .eof →
        written (m.pipes i).dst m.calls = content (m.pipes i).src) := by
  have hcopy : Copying content (m.pipes i) (m.callsOf i) := by
    apply Program.pipe_invariant (I := fun p calls _ => Copying content p calls) h
      ((Admissible.separate content).and _) i
    · exact Copying.init content
    · intro p calls _ r io hI hc
      rw [visits_service] at hc ⊢
      exact hI.serve (Tests.serves _ _ p) hc
  rw [← m.written_callsOf]
  exact ⟨hcopy.given, hcopy.eof⟩

theorem push_readable {m : Machine FdSets 1} (h : ((program 1).main ok).Reachable m)
    (he : m.exit = none) (hp : (m.pipes 0).state = .read) (chunk : Chunk)
    (hok : ok m.calls (.read (m.pipes 0).src (some chunk.bytes))) :
    ((program 1).main ok).Reachable
      (m.push (program 1) (readable (m.pipes 0).src) fun _ => gives chunk) := by
  refine h.step (.push he (answers_readable 0 hp) ?_)
  intro c hc
  rw [round_one] at hc
  simp [serve, Tests.serve, hp, readable, gives, Io.readRet] at hc
  exact hc ▸ hok

theorem push_writable {m : Machine FdSets 1} (h : ((program 1).main ok).Reachable m)
    (he : m.exit = none) (hp : (m.pipes 0).state = .write) (k : Nat)
    (hok : ok m.calls (.write (m.pipes 0).dst (m.pipes 0).len
      ((takes k).writeRet (m.pipes 0).buf))) :
    ((program 1).main ok).Reachable
      (m.push (program 1) (writable (m.pipes 0).dst) fun _ => takes k) := by
  refine h.step (.push he (answers_writable 0 hp) ?_)
  intro c hc
  rw [round_one] at hc
  simp [serve, Tests.serve, hp, writable] at hc
  exact hc ▸ hok

theorem copy_intact_one_byte :
    ∃ m : Machine FdSets 1,
      ((program 1).main fun calls c =>
        Admissible (fun _ => [7]) calls c ∧ c.Full).Reachable m ∧
      (m.pipes 0).state = .eof ∧ written 4 m.calls = [7] := by
  have h0 : ((program 1).main fun calls c =>
      Admissible (fun _ => [7]) calls c ∧ c.Full).Reachable (opened FdSets 1) :=
    .init (opened_started (by decide))
  have h1 := push_readable h0 rfl rfl ⟨[7], by decide⟩ ⟨by decide, trivial⟩
  have h2 := push_writable h1 rfl rfl 1 ⟨by decide, rfl⟩
  have h3 := push_readable h2 rfl rfl ⟨[], by decide⟩ ⟨by decide, trivial⟩
  exact ⟨_, h3, rfl, (copy_intact _ h3 0).2 rfl⟩

/-- After a short `write` the whole buffer goes out again from its start. -/
theorem short_write_resends :
    ∃ m : Machine FdSets 1, ((program 1).main (Admissible fun _ => [1, 2])).Reachable m ∧
      ¬written (m.pipes 0).dst m.calls <+: [1, 2] := by
  have h0 : ((program 1).main (Admissible fun _ => [1, 2])).Reachable (opened FdSets 1) :=
    .init (opened_started (by decide))
  have h1 := push_readable h0 rfl rfl ⟨[1, 2], by decide⟩ (by decide)
  have h2 := push_writable h1 rfl rfl 1 (by decide)
  have h3 := push_writable h2 rfl rfl 2 (by decide)
  refine ⟨_, h3, ?_⟩
  decide

end Apue.Adio.Select
