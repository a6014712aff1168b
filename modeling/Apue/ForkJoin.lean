import Apue.Census
import Apue.Reachability
import Mathlib.Algebra.BigOperators.Fin
import Mathlib.Algebra.Order.BigOperators.Group.Finset
import Mathlib.Data.List.Count
import Mathlib.Data.List.Perm.Subperm

namespace Apue.ForkJoin
set_option autoImplicit true

/-- A task that works by itself: a step with its output, the steps left at most, and all its outputs
to come. -/
structure Task (σ ω : Type) where
  next : σ → Option (σ × List ω)
  cost : σ → Nat
  yield : σ → List ω
  cost_lt : next x = some (y, l) → cost y < cost x
  yield_step : next x = some (y, l) → yield x = l ++ yield y
  yield_end : next x = none → yield x = []

/-- In which order the tasks are waited for. -/
structure Discipline (n : Nat) where
  picks : Finset (Fin n) → Fin n → Prop
  Ok : Finset (Fin n) → Prop
  ok_empty : Ok ∅
  ok_insert : Ok R → i ∉ R → picks R i → Ok (insert i R)
  exists_pick : Ok R → R ≠ Finset.univ → ∃ i ∉ R, picks R i

def Discipline.any (n : Nat) : Discipline n where
  picks _ _ := True
  Ok _ := True
  ok_empty := trivial
  ok_insert _ _ _ := trivial
  exists_pick _ hne := by
    obtain ⟨i, hi⟩ := not_forall.1 (mt Finset.eq_univ_iff_forall.2 hne)
    exact ⟨i, hi, trivial⟩

def Discipline.inOrder (n : Nat) : Discipline n where
  picks R i := i.val = R.card
  Ok R := ∀ i, i ∈ R ↔ i.val < R.card
  ok_empty i := by simp
  ok_insert := by
    intro R i hok hi hc j
    rw [Finset.card_insert_of_notMem hi, Finset.mem_insert, hok j, ← hc, Fin.ext_iff]
    omega
  exists_pick := by
    intro R hok hne
    have hlt : R.card < n := by
      obtain ⟨i, hi⟩ := not_forall.1 (mt Finset.eq_univ_iff_forall.2 hne)
      simpa using Finset.card_lt_univ_of_notMem hi
    exact ⟨⟨R.card, hlt⟩, fun hm => absurd ((hok _).1 hm) (Nat.lt_irrefl _), rfl⟩

inductive Pc where
  | fork
  | join
  | done
  | failed
  | lost
  deriving DecidableEq

/-- How a start can fail: main may end, or it may go on as if nothing had happened. -/
structure Failure where
  ends : Prop
  unnoticed : Prop

/-- Main starts the tasks one after the other and then waits for all; `missing` are those whose
start has failed unnoticed. -/
structure State (n : Nat) (σ ω : Type) where
  task : Fin n → σ
  forked : Nat
  missing : Finset Nat
  out : List ω
  joined : Finset (Fin n)
  main : Pc

/-- The tasks run in any order. Main is lost when it waits for a task that is not there. -/
inductive Step (T : Task σ ω) (D : Discipline n) (fails : Failure) :
    State n σ ω → State n σ ω → Prop where
  | fork : s.main = .fork → s.forked < n → Step T D fails s { s with forked := s.forked + 1 }
  | fail : s.main = .fork → s.forked < n → fails.ends →
      Step T D fails s { s with main := .failed }
  | skip : s.main = .fork → s.forked < n → fails.unnoticed →
      Step T D fails s
        { s with forked := s.forked + 1, missing := insert s.forked s.missing }
  | forkedAll : s.main = .fork → s.forked = n → Step T D fails s { s with main := .join }
  | run (i : Fin n) : i.val < s.forked → i.val ∉ s.missing → T.next (s.task i) = some (y, l) →
      Step T D fails s { s with task := Function.update s.task i y, out := s.out ++ l }
  | join (i : Fin n) : s.main = .join → i ∉ s.joined → D.picks s.joined i → i.val ∉ s.missing →
      T.next (s.task i) = none → Step T D fails s { s with joined := insert i s.joined }
  | lose (i : Fin n) : s.main = .join → i ∉ s.joined → D.picks s.joined i → i.val ∈ s.missing →
      Step T D fails s { s with main := .lost }
  | joinedAll : s.main = .join → s.joined = Finset.univ →
      Step T D fails s { s with main := .done }

def State.initial (start : Nat → σ) : State n σ ω := ⟨fun i => start i, 0, ∅, [], ∅, .fork⟩

def system (T : Task σ ω) (start : Nat → σ) (D : Discipline n) (fails : Failure) :
    System (State n σ ω) where
  init s := s = .initial start
  step := Step T D fails

def State.started (s : State n σ ω) : List Nat := (List.range s.forked).filter (· ∉ s.missing)

variable {n : Nat} {σ ω : Type} {T : Task σ ω} {start : Nat → σ}
  {D : Discipline n} {fails : Failure} {s t : State n σ ω}

def Pc.left : Pc → Nat
  | .fork => 2
  | .join => 1
  | .done | .failed | .lost => 0

def rank (T : Task σ ω) (s : State n σ ω) : Nat :=
  ∑ i, T.cost (s.task i) + (n - s.forked) + (n - s.joined.card) + s.main.left

theorem Step.rank_lt (hst : Step T D fails s t) : rank T t < rank T s := by
  cases hst with
  | fork hm hk =>
    simp only [rank]
    omega
  | fail hm hk hf =>
    simp only [rank, hm, Pc.left]
    omega
  | forkedAll hm hk =>
    simp only [rank, hm, Pc.left]
    omega
  | skip hm hk hf =>
    simp only [rank]
    omega
  | @run y l s i hi hs hn =>
    have hsum := sum_update T.cost s.task i y
    have hlt := T.cost_lt hn
    simp only [rank]
    omega
  | lose i hm hi hp hs =>
    simp only [rank, hm, Pc.left]
    omega
  | join i hm hi hp hs hn =>
    have hcard := Finset.card_insert_of_notMem hi
    have hle := Finset.card_le_univ (insert i s.joined)
    rw [Fintype.card_fin] at hle
    simp only [rank]
    omega
  | joinedAll hm hall =>
    simp only [rank, hm, Pc.left]
    omega

/-- A run has no more steps than the tasks have, two for each task and two for main. -/
theorem run_le {r : Nat → State n σ ω} (h0 : (system T start D fails).init (r 0))
    (hr : ∀ i < k, Step T D fails (r i) (r (i + 1))) :
    k ≤ ∑ i : Fin n, T.cost (start i) + 2 * n + 2 := by
  have hlen := run_length_le (S := ∅) (d := 0) (rank T) (fun i hi _ => (hr i hi).rank_lt)
    (fun i hi => Nat.le_add_right_of_le (hr i hi).rank_lt.le)
  rw [h0, Finset.card_empty] at hlen
  simp only [rank, State.initial, Pc.left, Finset.card_empty] at hlen
  omega

theorem task_invariant {P : Fin n → σ → Prop} (h : (system T start D fails).Reachable s)
    (h0 : ∀ i, P i (start i)) (hn : ∀ i x y l, P i x → T.next x = some (y, l) → P i y)
    (i : Fin n) : P i (s.task i) := by
  refine h.invariant (P := fun s => ∀ i : Fin n, P i (s.task i)) ?_ ?_ i
  · intro s hs i
    subst hs
    exact h0 i
  · intro s t _ hP hst j
    cases hst with
    | run i hi hs hx =>
      by_cases he : j = i
      · subst he
        simp only [Function.update_self]
        exact hn _ _ _ _ (hP j) hx
      · simp only [Function.update_of_ne he]
        exact hP j
    | _ => exact hP j

variable [DecidableEq ω]

structure Inv (T : Task σ ω) (start : Nat → σ) (D : Discipline n) (fails : Failure)
    (s : State n σ ω) : Prop where
  forked_le : s.forked ≤ n
  missing_lt : ∀ k ∈ s.missing, k < s.forked
  unstarted : ∀ i : Fin n, i.val ∉ s.started → s.task i = start i
  balance : ∀ a, s.out.count a + ∑ i, (T.yield (s.task i)).count a =
    ∑ i : Fin n, (T.yield (start i)).count a
  all_forked : s.main = .join ∨ s.main = .done → s.forked = n
  ok : D.Ok s.joined
  joined_ended : ∀ i ∈ s.joined, i.val ∉ s.missing ∧ T.next (s.task i) = none
  none_joined : s.main = .fork → s.joined = ∅
  all_joined : s.main = .done → s.joined = Finset.univ
  failed : s.main = .failed → fails.ends
  lost : s.main = .lost → s.missing ≠ ∅
  missed : s.missing ≠ ∅ → fails.unnoticed

omit [DecidableEq ω] in
theorem State.mem_started : k ∈ s.started ↔ k < s.forked ∧ k ∉ s.missing := by
  rw [State.started, List.mem_filter, List.mem_range, decide_eq_true_eq]

theorem Inv.run {i : Fin n} (h : Inv T start D fails s) (hi : i.val < s.forked)
    (hs : i.val ∉ s.missing) (hn : T.next (s.task i) = some (y, l)) :
    Inv T start D fails { s with task := Function.update s.task i y, out := s.out ++ l } := by
  refine { h with unstarted := ?_, balance := ?_, joined_ended := ?_ }
  · intro j hj
    have hne : j ≠ i := by
      rintro rfl
      exact hj (State.mem_started.2 ⟨hi, hs⟩)
    exact (Function.update_of_ne hne _ _).trans (h.unstarted j hj)
  · intro a
    have hsum := sum_update (fun x => (T.yield x).count a) s.task i y
    simp only [T.yield_step hn, List.count_append] at hsum ⊢
    have hb := h.balance a
    omega
  · -- a task that has been waited for has no step left
    intro j hj
    have hne : j ≠ i := by
      rintro rfl
      cases (h.joined_ended j hj).2.symm.trans hn
    simp only [Function.update_of_ne hne]
    exact h.joined_ended j hj

theorem Inv.fork (h : Inv T start D fails s) (hm : s.main = .fork) (hk : s.forked < n) :
    Inv T start D fails { s with forked := s.forked + 1 } := by
  refine { h with forked_le := hk, missing_lt := ?_, unstarted := ?_, all_forked := ?_ }
  · exact fun k hk => Nat.lt_succ_of_lt (h.missing_lt k hk)
  · intro i hi
    rw [State.mem_started, not_and] at hi
    apply h.unstarted
    rw [State.mem_started, not_and]
    exact fun hlt => hi (Nat.lt_succ_of_lt hlt)
  · intro hd
    simp [hm] at hd

theorem Inv.skip (h : Inv T start D fails s) (hm : s.main = .fork) (hk : s.forked < n)
    (hf : fails.unnoticed) : Inv T start D fails
      { s with forked := s.forked + 1, missing := insert s.forked s.missing } := by
  refine { h with
    forked_le := hk, missing_lt := ?_, unstarted := ?_, all_forked := ?_, joined_ended := ?_,
    lost := ?_, missed := fun _ => hf }
  · intro k hk
    rcases Finset.mem_insert.1 hk with rfl | hk
    · exact Nat.lt_succ_self s.forked
    · exact Nat.lt_succ_of_lt (h.missing_lt k hk)
  · intro i hi
    apply h.unstarted
    intro hs
    obtain ⟨hlt, hns⟩ := State.mem_started.1 hs
    apply hi
    rw [State.mem_started, Finset.mem_insert, not_or]
    exact ⟨Nat.lt_succ_of_lt hlt, Nat.ne_of_lt hlt, hns⟩
  · intro hd
    simp [hm] at hd
  · intro i hi
    rw [h.none_joined hm] at hi
    cases hi
  · intro hd
    cases hm.symm.trans hd

theorem Inv.join {i : Fin n} (h : Inv T start D fails s) (hm : s.main = .join)
    (hi : i ∉ s.joined) (hp : D.picks s.joined i) (hs : i.val ∉ s.missing)
    (hn : T.next (s.task i) = none) :
    Inv T start D fails { s with joined := insert i s.joined } := by
  refine { h with
    ok := D.ok_insert h.ok hi hp, joined_ended := ?_, none_joined := ?_, all_joined := ?_ }
  · intro j hj
    rcases Finset.mem_insert.1 hj with rfl | hj
    · exact ⟨hs, hn⟩
    · exact h.joined_ended j hj
  · intro hd
    cases hm.symm.trans hd
  · intro hd
    cases hm.symm.trans hd

theorem Step.inv (hst : Step T D fails s t) (h : Inv T start D fails s) :
    Inv T start D fails t := by
  cases hst with
  | fork hm hk => exact h.fork hm hk
  | fail hm hk hf =>
    exact { h with
      all_forked := fun hd => by simp at hd
      none_joined := fun hd => by cases hd
      all_joined := fun hd => by cases hd
      failed := fun _ => hf
      lost := fun hd => by cases hd }
  | skip hm hk hf => exact h.skip hm hk hf
  | forkedAll hm hk =>
    exact { h with
      all_forked := fun _ => hk
      none_joined := fun hd => by cases hd
      all_joined := fun hd => by cases hd
      failed := fun hd => by cases hd
      lost := fun hd => by cases hd }
  | run i hi hs hn => exact h.run hi hs hn
  | join i hm hi hp hs hn => exact h.join hm hi hp hs hn
  | lose i hm hi hp hs =>
    exact { h with
      all_forked := fun hd => by simp at hd
      none_joined := fun hd => by cases hd
      all_joined := fun hd => by cases hd
      failed := fun hd => by cases hd
      lost := fun _ => Finset.ne_empty_of_mem hs }
  | joinedAll hm hall =>
    exact { h with
      all_forked := fun _ => h.all_forked (.inl hm)
      none_joined := fun hd => by cases hd
      all_joined := fun _ => hall
      failed := fun hd => by cases hd
      lost := fun hd => by cases hd }

theorem Inv.of_init (h : (system T start D fails).init s) : Inv T start D fails s := by
  subst h
  exact {
    forked_le := Nat.zero_le n
    missing_lt := fun k hk => by cases hk
    unstarted := fun _ _ => rfl
    balance := fun a => Nat.zero_add _
    all_forked := fun hd => by rcases hd with hd | hd <;> cases hd
    ok := D.ok_empty
    joined_ended := fun i hi => by cases hi
    none_joined := fun _ => rfl
    all_joined := fun hd => by cases hd
    failed := fun hd => by cases hd
    lost := fun hd => by cases hd
    missed := fun hd => absurd rfl hd }

theorem inv_of_reachable (h : (system T start D fails).Reachable s) : Inv T start D fails s :=
  h.invariant (fun _ h0 => .of_init h0) (fun _ _ _ hi hst => hst.inv hi)

/-- What some tasks put out all together, one after the other. -/
def outputs (T : Task σ ω) (start : Nat → σ) (l : List Nat) : List ω :=
  l.flatMap fun i => T.yield (start i)

theorem count_outputs (a : ω) {l : List Nat} (hl : l.Nodup) (hn : ∀ i ∈ l, i < n) :
    (outputs T start l).count a =
      ∑ i : Fin n, (if i.val ∈ l then (T.yield (start i)).count a else 0) := by
  rw [Fin.sum_univ_eq_sum_range (fun i => if i ∈ l then (T.yield (start i)).count a else 0) n,
    ← Finset.sum_filter, outputs, List.count_flatMap, ← List.sum_toFinset _ hl]
  congr 1
  ext i
  rw [List.mem_toFinset, Finset.mem_filter, Finset.mem_range]
  exact ⟨fun hi => ⟨hn i hi, hi⟩, fun hi => hi.2⟩

theorem Inv.started_lt (h : Inv T start D fails s) : ∀ i ∈ s.started, i < n := fun _ hi =>
  Nat.lt_of_lt_of_le (State.mem_started.1 hi).1 h.forked_le

omit [DecidableEq ω] in
theorem State.nodup_started (s : State n σ ω) : s.started.Nodup := List.nodup_range.filter _

/-- What the tasks not yet started are going to put out is missing, and nothing else. -/
theorem Inv.count_add (h : Inv T start D fails s) (a : ω) :
    (outputs T start s.started).count a +
        ∑ i : Fin n, (if i.val ∈ s.started then 0 else (T.yield (start i)).count a) =
      ∑ i : Fin n, (T.yield (start i)).count a := by
  rw [count_outputs a s.nodup_started h.started_lt, ← Finset.sum_add_distrib]
  refine Finset.sum_congr rfl fun i _ => ?_
  split
  · rw [Nat.add_zero]
  · rw [Nat.zero_add]

theorem Inv.out_subperm (h : Inv T start D fails s) :
    s.out.Subperm (outputs T start s.started) := by
  refine List.subperm_iff_count.2 fun a => ?_
  have hle : ∑ i : Fin n, (if i.val ∈ s.started then 0 else (T.yield (start i)).count a) ≤
      ∑ i, (T.yield (s.task i)).count a := by
    refine Finset.sum_le_sum fun i _ => ?_
    split
    · exact Nat.zero_le _
    · rename_i hi
      rw [h.unstarted i hi]
  have hb := h.balance a
  have hall := h.count_add a
  omega

theorem Inv.out_perm (h : Inv T start D fails s)
    (hend : ∀ i : Fin n, i.val ∈ s.started → T.next (s.task i) = none) :
    s.out.Perm (outputs T start s.started) := by
  refine List.perm_iff_count.2 fun a => ?_
  have heq : ∑ i, (T.yield (s.task i)).count a =
      ∑ i : Fin n, (if i.val ∈ s.started then 0 else (T.yield (start i)).count a) := by
    refine Finset.sum_congr rfl fun i _ => ?_
    split
    · rename_i hi
      rw [T.yield_end (hend i hi), List.count_nil]
    · rename_i hi
      rw [h.unstarted i hi]
  have hb := h.balance a
  have hall := h.count_add a
  omega

omit [DecidableEq ω] in
theorem State.started_of_none (hs : s.missing = ∅) : s.started = List.range s.forked := by
  rw [State.started, hs]
  exact List.filter_eq_self.2 fun k _ => by simp

theorem Inv.missing_of_done (h : Inv T start D fails s) (hd : s.main = .done) :
    s.missing = ∅ := by
  apply Finset.eq_empty_of_forall_notMem
  intro k hk
  have hlt : k < n := Nat.lt_of_lt_of_le (h.missing_lt k hk) h.forked_le
  have hj : (⟨k, hlt⟩ : Fin n) ∈ s.joined := by
    rw [h.all_joined hd]
    exact Finset.mem_univ _
  exact (h.joined_ended _ hj).1 hk

theorem Inv.out_done (h : Inv T start D fails s) (hd : s.main = .done) :
    s.out.Perm (outputs T start (List.range n)) := by
  have hp := h.out_perm fun i _ =>
    (h.joined_ended i (by rw [h.all_joined hd]; exact Finset.mem_univ i)).2
  rwa [State.started_of_none (h.missing_of_done hd), h.all_forked (.inr hd)] at hp

/-- As long as main is on its way, main or a task that it waits for has a step. -/
theorem Inv.exists_step (h : Inv T start D fails s) (hm : s.main = .fork ∨ s.main = .join) :
    ∃ t, Step T D fails s t := by
  rcases hm with hm | hm
  · rcases Nat.lt_or_eq_of_le h.forked_le with hlt | heq
    · exact ⟨_, .fork hm hlt⟩
    · exact ⟨_, .forkedAll hm heq⟩
  · by_cases hall : s.joined = Finset.univ
    · exact ⟨_, .joinedAll hm hall⟩
    · obtain ⟨i, hi, hp⟩ := D.exists_pick h.ok hall
      by_cases hs : i.val ∈ s.missing
      · exact ⟨_, .lose i hm hi hp hs⟩
      · cases hn : T.next (s.task i) with
        | none => exact ⟨_, .join i hm hi hp hs hn⟩
        | some r => exact ⟨_, .run i (by rw [h.all_forked (.inl hm)]; exact i.isLt) hs hn⟩

omit [DecidableEq ω] in
theorem Step.mono {f : Failure} (h : Step T D f s t) (he : f.ends → fails.ends)
    (hu : f.unnoticed → fails.unnoticed) : Step T D fails s t := by
  cases h with
  | fork hm hk => exact .fork hm hk
  | fail hm hk hf => exact .fail hm hk (he hf)
  | skip hm hk hf => exact .skip hm hk (hu hf)
  | forkedAll hm hk => exact .forkedAll hm hk
  | run i hi hs hn => exact .run i hi hs hn
  | join i hm hi hp hs hn => exact .join i hm hi hp hs hn
  | lose i hm hi hp hs => exact .lose i hm hi hp hs
  | joinedAll hm hall => exact .joinedAll hm hall

theorem exists_done (T : Task σ ω) (start : Nat → σ) (D : Discipline n) : ∃ s : State n σ ω,
    Relation.ReflTransGen (Step T D ⟨False, False⟩) (.initial start) s ∧ s.main = .done := by
  have hstep : ∀ s : State n σ ω, Inv T start D ⟨False, False⟩ s → ¬s.main = .done →
      ∃ t, Step T D ⟨False, False⟩ s t ∧ Inv T start D ⟨False, False⟩ t ∧
        rank T t < rank T s := by
    intro s hs hd
    have hm : s.main = .fork ∨ s.main = .join := by
      cases hp : s.main with
      | fork => exact .inl rfl
      | join => exact .inr rfl
      | done => exact absurd hp hd
      | failed => exact (hs.failed hp).elim
      | lost => exact (hs.missed (hs.lost hp)).elim
    obtain ⟨t, hst⟩ := hs.exists_step hm
    exact ⟨t, hst, hst.inv hs, hst.rank_lt⟩
  obtain ⟨s, hrun, -, hd⟩ := exists_run_of_rank (rank T) hstep (Inv.of_init rfl)
  exact ⟨s, hrun, hd⟩

end Apue.ForkJoin
