import Mathlib.Data.Fintype.Basic
import Apue.TokenRate

namespace Apue.Tbf
set_option autoImplicit true

def maxTbf : Nat := 1024

inductive Field where
  | cps
  | burst
  | token
  | pos

/-- A block of the size of struct mytbf_st, with the fields that have been written. -/
structure Cell where
  cps : Option Int
  burst : Option Int
  token : Option Int
  pos : Option Int
  deriving DecidableEq

def Cell.fresh : Cell := ⟨none, none, none, none⟩

def Cell.set (c : Cell) (v : Int) : Field → Cell
  | .cps => { c with cps := some v }
  | .burst => { c with burst := some v }
  | .token => { c with token := some v }
  | .pos => { c with pos := some v }

def Bucket.cell (b : Bucket) : Cell := ⟨some b.cps, some b.burst, some b.token, some b.pos⟩

/-- The bucket in a block all of whose fields have been written. -/
def Cell.whole : Cell → Except Fault Bucket
  | ⟨some cps, some burst, some token, some pos⟩ => .ok ⟨cps, burst, token, pos⟩
  | _ => .error .uninitialised

def bucketAt (h : Heap Cell) (p : Nat) : Except Fault Bucket := do
  let c ← h.load p
  c.whole

/-- The turn of the handler's loop for slot i. -/
def handleSlot (jobs : Fin maxTbf → Option Nat) (h : Heap Cell) (i : Fin maxTbf) :
    Except Fault (Heap Cell) :=
  match jobs i with
  | none => .ok h
  | some p => do
    let b ← bucketAt h p
    let b' ← b.tick
    h.store p b'.cell

def handle (jobs : Fin maxTbf → Option Nat) (h : Heap Cell) : Except Fault (Heap Cell) :=
  (List.finRange maxTbf).foldlM (handleSlot jobs) h

inductive Pc where
  | idle (ret : Int)
  /-- mytbf_load -/
  | initLoad (cps burst : Int)
  | initMalloc (cps burst : Int)
  /-- get_pos, at the loop test -/
  | initScan (cps burst : Int) (m i : Nat)
  /-- the stores into m's fields, and then jobs[i] = m -/
  | initSet (cps burst : Int) (todo : List (Field × Int)) (m : Nat) (i : Fin maxTbf)
  | fetch (id : Fin maxTbf) (token : Int)
  | giveBack (id : Fin maxTbf) (token : Int)
  | access (id : Fin maxTbf) (p : Nat) (a : Access)
  | destroy (id : Fin maxTbf)
  | destroyClear (id : Fin maxTbf) (p : Nat)
  | destroyFree (id : Fin maxTbf) (p : Nat)

def Pc.wake : Pc → Pc
  | .access id p a => .access id p a.wake
  | pc => pc

def Outcome.pc (id : Fin maxTbf) (p : Nat) : Outcome → Pc
  | .on _ a => .access id p a
  | .fetched _ r => .idle r
  | .returned _ x => .idle x

structure State where
  inited : Bool
  jobs : Fin maxTbf → Option Nat
  heap : Heap Cell
  pc : Pc
  fault : Option Fault

/-- The index in jobs that a value of type int denotes. -/
def slotOf (n : Int) : Except Fault (Fin maxTbf) :=
  if h : 0 ≤ n ∧ n.toNat < maxTbf then .ok ⟨n.toNat, h.2⟩ else .error .bounds

def State.pointer (s : State) (id : Fin maxTbf) : Except Fault Nat :=
  match s.jobs id with
  | none => .error .null
  | some p => .ok p

/-- The stores of mytbf_init into the fields of the new block, in order. -/
def initStores (cps burst i : Int) : List (Field × Int) :=
  [(.cps, cps), (.burst, burst), (.token, 0), (.pos, i)]

/-- One statement of the main flow, malloc succeeding; p->token is accessed once at a time. -/
def State.stmt (s : State) : Except Fault State :=
  match s.pc with
  | .idle _ => .ok s
  | .initLoad cps burst => .ok { s with inited := true, pc := .initMalloc cps burst }
  | .initMalloc cps burst =>
    .ok { s with heap := s.heap.malloc .fresh, pc := .initScan cps burst s.heap.next 0 }
  | .initScan cps burst m i =>
    if h : i < maxTbf then
      match s.jobs ⟨i, h⟩ with
      | none =>
        .ok { s with pc := .initSet cps burst (initStores cps burst i) m ⟨i, h⟩ }
      | some _ => .ok { s with pc := .initScan cps burst m (i + 1) }
    else .ok { s with pc := .idle (-1) }
  | .initSet cps burst ((f, v) :: todo) m i => do
    let c ← s.heap.load m
    let h ← s.heap.store m (c.set v f)
    return { s with heap := h, pc := .initSet cps burst todo m i }
  | .initSet _ _ [] m i =>
    .ok { s with jobs := Function.update s.jobs i (some m), pc := .idle i }
  | .fetch id x => do
    let p ← s.pointer id
    return { s with pc := .access id p (.fetchTest x) }
  | .giveBack id x => do
    let p ← s.pointer id
    return { s with pc := .access id p (.returnLoad x) }
  | .access id p a => do
    let b ← bucketAt s.heap p
    let o ← a.step b
    let h ← s.heap.store p o.bucket.cell
    return { s with heap := h, pc := o.pc id p }
  | .destroy id => do
    let p ← s.pointer id
    return { s with pc := .destroyClear id p }
  | .destroyClear id p => do
    let b ← bucketAt s.heap p
    let i ← slotOf b.pos
    return { s with jobs := Function.update s.jobs i none, pc := .destroyFree id p }
  | .destroyFree _ p => do
    let h ← s.heap.free p
    return { s with heap := h, pc := .idle 1 }

def State.tick (s : State) : Except Fault State := do
  let h ← handle s.jobs s.heap
  return { s with heap := h, pc := s.pc.wake }

inductive Call where
  | init (cps burst : Int)
  | fetchtoken (id : Fin maxTbf) (token : Int)
  | returntoken (id : Fin maxTbf) (token : Int)
  | destroy (id : Fin maxTbf)

def Call.entry : Call → Pc
  | .init cps burst => .initLoad cps burst
  | .fetchtoken id x => .fetch id x
  | .returntoken id x => .giveBack id x
  | .destroy id => .destroy id

def State.call (s : State) (c : Call) : State := { s with pc := c.entry }

/-- The main flow makes the calls `usage` allows, one after another; the handler comes between
any two of its statements. -/
inductive State.Step (usage : Call → Prop) : State → State → Prop where
  | call : s.fault = none → s.pc = .idle r → usage c → Step usage s (s.call c)
  | stmt : s.fault = none → s.stmt = .ok t → Step usage s t
  | stmtFault : s.fault = none → s.stmt = .error e → Step usage s { s with fault := some e }
  | noMemory : s.fault = none → s.pc = .initMalloc cps burst →
      Step usage s { s with pc := .idle (-1) }
  | tick : s.fault = none → s.inited = true → s.tick = .ok t → Step usage s t
  | tickFault : s.fault = none → s.inited = true → s.tick = .error e →
      Step usage s { s with fault := some e }

def mytbf (usage : Call → Prop) : System State where
  init s := s = ⟨false, fun _ => none, .empty, .idle 0, none⟩
  step := State.Step usage

theorem bucketAt_of_live {b : Bucket} (h : Heap.Live H p b.cell) : bucketAt H p = .ok b := by
  rw [bucketAt, h.load]
  rfl

theorem slotOf_val (i : Fin maxTbf) : slotOf (i.val : Int) = .ok i :=
  dif_pos ⟨Int.natCast_nonneg _, i.isLt⟩

def fill (c : Cell) (todo : List (Field × Int)) : Cell := todo.foldl (fun c w => c.set w.2 w.1) c

/-- Every slot in use leads to a live block with all its fields written, and pos is the slot. -/
def TableOk (jobs : Fin maxTbf → Option Nat) (h : Heap Cell) : Prop :=
  ∀ i p, jobs i = some p → ∃ b : Bucket, h.Live p b.cell ∧ b.pos = (i.val : Int)

theorem Bucket.cell_inj {b b' : Bucket} (h : b.cell = b'.cell) : b = b' := by
  cases b
  cases b'
  cases h
  rfl

theorem TableOk.injective (h : TableOk jobs H) (hi : jobs i = some p) (hj : jobs j = some p) :
    i = j := by
  obtain ⟨b, hb, hpos⟩ := h i p hi
  obtain ⟨b', hb', hpos'⟩ := h j p hj
  have he := Bucket.cell_inj (hb.unique hb')
  subst he
  apply Fin.ext
  omega

theorem TableOk.clear (h : TableOk jobs H) (i : Fin maxTbf) :
    TableOk (Function.update jobs i none) H := by
  intro j p hj
  exact h j p (update_none hj).2

theorem TableOk.clear_unpublished (h : TableOk jobs H) (hi : jobs i = some p)
    (j : Fin maxTbf) : Function.update jobs i none j ≠ some p := by
  intro hj
  obtain ⟨hne, hj⟩ := update_none hj
  exact hne (h.injective hj hi)

theorem TableOk.put_other (h : TableOk jobs H) (hm : ∀ j, jobs j ≠ some m) :
    TableOk jobs (H.put m c) := by
  intro i p hi
  obtain ⟨b, hb, hpos⟩ := h i p hi
  have hne : p ≠ m := fun he => hm i (he ▸ hi)
  exact ⟨b, (Heap.live_put_of_ne hne).2 hb, hpos⟩

theorem TableOk.malloc (h : TableOk jobs H) : TableOk jobs (H.malloc c) := by
  intro i p hi
  obtain ⟨b, hb, hpos⟩ := h i p hi
  exact ⟨b, (Heap.live_malloc_of_lt hb.lt_next).2 hb, hpos⟩

theorem TableOk.unpublished_next (h : TableOk jobs H) (j : Fin maxTbf) :
    jobs j ≠ some H.next := by
  intro hj
  obtain ⟨b, hb, -⟩ := h j _ hj
  exact Nat.lt_irrefl _ hb.lt_next

theorem TableOk.publish {b : Bucket} (h : TableOk jobs H) (hm : H.Live m b.cell)
    (hpos : b.pos = (i.val : Int)) : TableOk (Function.update jobs i (some m)) H := by
  intro j p hj
  rcases update_some hj with ⟨rfl, rfl⟩ | ⟨-, hj⟩
  · exact ⟨b, hm, hpos⟩
  · exact h j p hj

theorem TableOk.put_bucket {b : Bucket} (h : TableOk jobs H) (hi : jobs i = some p)
    (hpos : b.pos = (i.val : Int)) : TableOk jobs (H.put p (some b.cell)) := by
  intro j q hj
  by_cases he : q = p
  · subst he
    obtain ⟨b₀, hb₀, -⟩ := h i q hi
    have hij := h.injective hi hj
    subst hij
    exact ⟨b, Heap.live_put_self hb₀.lt_next, hpos⟩
  · obtain ⟨b', hb', hpos'⟩ := h j q hj
    exact ⟨b', (Heap.live_put_of_ne he).2 hb', hpos'⟩

/-- The handler's loop has still to visit the slots of `rest`. -/
structure Swept (jobs : Fin maxTbf → Option Nat) (H : Heap Cell) (rest : List (Fin maxTbf))
    (H' : Heap Cell) : Prop where
  next_eq : H'.next = H.next
  other : ∀ p, (∀ i, jobs i ≠ some p) → ∀ c, H'.Live p c ↔ H.Live p c
  todo : ∀ i ∈ rest, ∀ p, jobs i = some p → ∀ c, H'.Live p c ↔ H.Live p c
  done : ∀ i ∉ rest, ∀ p b, jobs i = some p → H.Live p (Bucket.cell b) →
    ∃ b', b.tick = .ok b' ∧ H'.Live p b'.cell

theorem Swept.start (jobs : Fin maxTbf → Option Nat) (H : Heap Cell) :
    Swept jobs H (List.finRange maxTbf) H :=
  ⟨rfl, fun _ _ _ => Iff.rfl, fun _ _ _ _ _ => Iff.rfl,
    fun i hi => absurd (List.mem_finRange i) hi⟩

theorem Swept.visit (h : Swept jobs H (i :: rest) H') (hok : TableOk jobs H)
    (hn : (i :: rest).Nodup) :
    handleSlot jobs H' i = .error .overflow ∨
      ∃ H₁, handleSlot jobs H' i = .ok H₁ ∧ Swept jobs H rest H₁ := by
  cases hj : jobs i with
  | none =>
    refine .inr ⟨H', by rw [handleSlot, hj], h.next_eq, h.other, ?_, ?_⟩
    · intro j hm
      exact h.todo j (List.mem_cons_of_mem _ hm)
    · intro j hm p b hp
      have hne : j ≠ i := by
        rintro rfl
        rw [hj] at hp
        cases hp
      exact h.done j (by simp [hne, hm]) p b hp
  | some p =>
    obtain ⟨b, hb, hpos⟩ := hok i p hj
    have hb' : H'.Live p b.cell := (h.todo i List.mem_cons_self p hj _).2 hb
    have hvisit : handleSlot jobs H' i = b.tick >>= fun b' => H'.store p b'.cell := by
      rw [handleSlot, hj]
      simp only []
      rw [bucketAt_of_live hb']
      rfl
    cases ht : b.tick with
    | error e =>
      rw [hvisit, ht, Bucket.tick_error ht]
      exact .inl rfl
    | ok b' =>
      refine .inr ⟨H'.put p (some b'.cell), ?_, ?_, ?_, ?_, ?_⟩
      · rw [hvisit, ht]
        exact hb'.store
      · rw [Heap.put_next, h.next_eq]
      · intro q hq c
        have hne : q ≠ p := fun he => hq i (he ▸ hj)
        rw [Heap.live_put_of_ne hne, h.other q hq]
      · intro j hm q hq c
        have hne : q ≠ p := by
          rintro rfl
          rw [hok.injective hq hj] at hm
          exact (List.nodup_cons.1 hn).1 hm
        rw [Heap.live_put_of_ne hne, h.todo j (List.mem_cons_of_mem _ hm) q hq]
      · intro j hm q b₁ hq hb₁
        by_cases he : j = i
        · subst he
          rw [hj] at hq
          cases hq
          have hbb := Bucket.cell_inj (hb.unique hb₁)
          subst hbb
          exact ⟨b', ht, Heap.live_put_self hb'.lt_next⟩
        · have hne : q ≠ p := by
            rintro rfl
            exact he (hok.injective hq hj)
          obtain ⟨b₂, ht₂, hb₂⟩ := h.done j (by simp [he, hm]) q b₁ hq hb₁
          exact ⟨b₂, ht₂, (Heap.live_put_of_ne hne).2 hb₂⟩

theorem Swept.finish (h : Swept jobs H rest H') (hok : TableOk jobs H) (hn : rest.Nodup) :
    rest.foldlM (handleSlot jobs) H' = .error .overflow ∨
      ∃ H₁, rest.foldlM (handleSlot jobs) H' = .ok H₁ ∧ Swept jobs H [] H₁ := by
  induction rest generalizing H' with
  | nil => exact .inr ⟨H', rfl, h⟩
  | cons i rest ih =>
    rw [List.foldlM_cons]
    rcases h.visit hok hn with he | ⟨H₁, he, h₁⟩
    · rw [he]
      exact .inl rfl
    · rw [he]
      exact ih h₁ (List.nodup_cons.1 hn).2

/-- On a table in order the handler adds cps once to every bucket, and touches nothing else. -/
theorem TableOk.handle_cases (hok : TableOk jobs H) :
    handle jobs H = .error .overflow ∨ ∃ H', handle jobs H = .ok H' ∧ Swept jobs H [] H' :=
  (Swept.start jobs H).finish hok (List.nodup_finRange maxTbf)

theorem TableOk.handle_ok (hok : TableOk jobs H) (h : handle jobs H = .ok H') :
    Swept jobs H [] H' := by
  rcases hok.handle_cases with he | ⟨H₁, he, hs⟩
  · rw [he] at h
    cases h
  · rw [he] at h
    cases h
    exact hs

theorem Swept.tableOk (h : Swept jobs H [] H') (hok : TableOk jobs H) : TableOk jobs H' := by
  intro i p hi
  obtain ⟨b, hb, hpos⟩ := hok i p hi
  obtain ⟨b', ht, hb'⟩ := h.done i (by simp) p b hi hb
  rw [Bucket.tick_ok ht] at hb'
  exact ⟨_, hb', hpos⟩

/-- What the local variables of the main flow stand for. -/
def Pc.Ok (jobs : Fin maxTbf → Option Nat) (H : Heap Cell) : Pc → Prop
  | .initScan _ _ m i => H.Live m .fresh ∧ (∀ j, jobs j ≠ some m) ∧
      ∀ j : Fin maxTbf, j.val < i → jobs j ≠ none
  | .initSet cps burst todo m i =>
      (∃ c, H.Live m c ∧ fill c todo = (created cps burst i.val).cell) ∧
      (∀ j, jobs j ≠ some m) ∧ jobs i = none
  | .access id p _ => jobs id = some p
  | .destroyClear id p => jobs id = some p
  | .destroyFree id p => (∃ c, H.Live p c) ∧ (∀ j, jobs j ≠ some p) ∧ jobs id = none
  | _ => True

structure State.Inv (s : State) : Prop where
  table : TableOk s.jobs s.heap
  pc : s.pc.Ok s.jobs s.heap

theorem Pc.Ok.tick {pc : Pc} (h : pc.Ok jobs H) (hs : Swept jobs H [] H') :
    pc.wake.Ok jobs H' := by
  cases pc with
  | initScan cps burst m i =>
    obtain ⟨hm, hu, hj⟩ := h
    exact ⟨(hs.other m hu _).2 hm, hu, hj⟩
  | initSet cps burst todo m i =>
    obtain ⟨⟨c, hm, hc⟩, hu, hj⟩ := h
    exact ⟨⟨c, (hs.other m hu _).2 hm, hc⟩, hu, hj⟩
  | destroyFree id p =>
    obtain ⟨⟨c, hm⟩, hu, hj⟩ := h
    exact ⟨⟨c, (hs.other p hu _).2 hm⟩, hu, hj⟩
  | access id p a => exact h
  | destroyClear id p => exact h
  | _ => trivial

theorem State.Inv.tick {s : State} (h : s.Inv) (ht : s.tick = .ok t) : t.Inv := by
  obtain ⟨H, hh, he⟩ := bind_ok ht
  cases he
  have hs := h.table.handle_ok hh
  exact ⟨hs.tableOk h.table, h.pc.tick hs⟩

/-- Slot j holds the same bucket in both states. -/
def SameSlot (s t : State) (j : Fin maxTbf) : Prop :=
  t.jobs j = s.jobs j ∧ ∀ p, s.jobs j = some p → ∀ c, t.heap.Live p c ↔ s.heap.Live p c

theorem SameSlot.of_heap {s t : State} (hj : t.jobs = s.jobs) (hh : t.heap = s.heap) :
    SameSlot s t j := by
  rw [SameSlot, hj, hh]
  exact ⟨rfl, fun _ _ _ => Iff.rfl⟩

theorem SameSlot.of_put {s t : State} (hj : t.jobs = s.jobs) (hh : t.heap = s.heap.put m c)
    (hm : s.jobs j ≠ some m) : SameSlot s t j := by
  rw [SameSlot, hj, hh]
  refine ⟨rfl, fun p hp c' => ?_⟩
  have hne : p ≠ m := fun he => hm (he ▸ hp)
  exact Heap.live_put_of_ne hne

theorem SameSlot.of_jobs {s t : State} (hj : t.jobs = Function.update s.jobs i q)
    (hh : t.heap = s.heap) (hne : i ≠ j) : SameSlot s t j := by
  rw [SameSlot, hj, hh, Function.update_of_ne (Ne.symm hne)]
  exact ⟨rfl, fun _ _ _ => Iff.rfl⟩

/-- The slot that the next statement changes. -/
def Pc.target : Pc → Option (Fin maxTbf)
  | .initSet _ _ [] _ i => some i
  | .access id _ _ => some id
  | .destroyClear id _ => some id
  | _ => none

theorem State.pointer_ok {s : State} {id : Fin maxTbf} (h : s.pointer id = .ok p) :
    s.jobs id = some p := by
  unfold State.pointer at h
  split at h
  · cases h
  · next hj =>
    cases h
    exact hj

/-- All that a statement of the main flow can do when the table is in order. -/
inductive Stmt (s : State) : State → Prop where
  | idle (hp : s.pc = .idle r) : Stmt s s
  | load (hp : s.pc = .initLoad cps burst) :
      Stmt s { s with inited := true, pc := .initMalloc cps burst }
  | malloc (hp : s.pc = .initMalloc cps burst) :
      Stmt s { s with heap := s.heap.malloc .fresh, pc := .initScan cps burst s.heap.next 0 }
  | found (hp : s.pc = .initScan cps burst m i) (hi : i < maxTbf) (hj : s.jobs ⟨i, hi⟩ = none) :
      Stmt s { s with pc := .initSet cps burst (initStores cps burst i) m ⟨i, hi⟩ }
  | taken (hp : s.pc = .initScan cps burst m i) (hi : i < maxTbf)
      (hj : s.jobs ⟨i, hi⟩ = some q) : Stmt s { s with pc := .initScan cps burst m (i + 1) }
  | full (hp : s.pc = .initScan cps burst m i) (hi : ¬ i < maxTbf) :
      Stmt s { s with pc := .idle (-1) }
  | set (hp : s.pc = .initSet cps burst (w :: todo) m i) (hm : s.heap.Live m c) :
      Stmt s { s with
        heap := s.heap.put m (some (c.set w.2 w.1)), pc := .initSet cps burst todo m i }
  | publish (hp : s.pc = .initSet cps burst [] m i) :
      Stmt s { s with jobs := Function.update s.jobs i (some m), pc := .idle i }
  | fetch (hp : s.pc = .fetch k x) (hj : s.jobs k = some p) :
      Stmt s { s with pc := .access k p (.fetchTest x) }
  | giveBack (hp : s.pc = .giveBack k x) (hj : s.jobs k = some p) :
      Stmt s { s with pc := .access k p (.returnLoad x) }
  | access {b : Bucket} (hp : s.pc = .access k p a) (hj : s.jobs k = some p)
      (hb : s.heap.Live p b.cell) (hpos : b.pos = (k.val : Int)) (ho : a.step b = .ok o) :
      Stmt s { s with heap := s.heap.put p (some o.bucket.cell), pc := o.pc k p }
  | destroy (hp : s.pc = .destroy k) (hj : s.jobs k = some p) :
      Stmt s { s with pc := .destroyClear k p }
  | clear (hp : s.pc = .destroyClear k p) (hj : s.jobs k = some p) :
      Stmt s { s with jobs := Function.update s.jobs k none, pc := .destroyFree k p }
  | free (hp : s.pc = .destroyFree k p) (hc : s.heap.Live p c) :
      Stmt s { s with heap := s.heap.put p none, pc := .idle 1 }

theorem State.Inv.stmt_cases {s : State} (h : s.Inv) (hs : s.stmt = .ok t) : Stmt s t := by
  have hpc := h.pc
  cases hp : s.pc with
  | idle r =>
    rw [State.stmt, hp] at hs
    cases hs
    exact .idle hp
  | initLoad cps burst =>
    rw [State.stmt, hp] at hs
    cases hs
    exact .load hp
  | initMalloc cps burst =>
    rw [State.stmt, hp] at hs
    cases hs
    exact .malloc hp
  | initScan cps burst m i =>
    rw [State.stmt, hp] at hs
    simp only [] at hs
    split at hs
    · next hi =>
      split at hs
      · next hj =>
        cases hs
        exact .found hp hi hj
      · next q hj =>
        cases hs
        exact .taken hp hi hj
    · next hi =>
      cases hs
      exact .full hp hi
  | initSet cps burst todo m i =>
    cases todo with
    | nil =>
      rw [State.stmt, hp] at hs
      cases hs
      exact .publish hp
    | cons w todo =>
      rw [hp] at hpc
      obtain ⟨⟨c, hm, -⟩, -⟩ := hpc
      rw [State.stmt, hp] at hs
      simp only [] at hs
      rw [hm.load] at hs
      obtain ⟨H, hH, hs⟩ := bind_ok (x := s.heap.store m (c.set w.2 w.1)) hs
      rw [hm.store] at hH
      cases hH
      cases hs
      exact .set hp hm
  | fetch id x =>
    rw [State.stmt, hp] at hs
    obtain ⟨p, hj, hs⟩ := bind_ok hs
    cases hs
    exact .fetch hp (State.pointer_ok hj)
  | giveBack id x =>
    rw [State.stmt, hp] at hs
    obtain ⟨p, hj, hs⟩ := bind_ok hs
    cases hs
    exact .giveBack hp (State.pointer_ok hj)
  | access id p a =>
    rw [hp] at hpc
    obtain ⟨b, hb, hpos⟩ := h.table id p hpc
    rw [State.stmt, hp] at hs
    simp only [] at hs
    rw [bucketAt_of_live hb] at hs
    obtain ⟨o, ho, hs⟩ := bind_ok (x := a.step b) hs
    rw [hb.store] at hs
    cases hs
    exact .access hp hpc hb hpos ho
  | destroy id =>
    rw [State.stmt, hp] at hs
    obtain ⟨p, hj, hs⟩ := bind_ok hs
    cases hs
    exact .destroy hp (State.pointer_ok hj)
  | destroyClear id p =>
    rw [hp] at hpc
    obtain ⟨b, hb, hpos⟩ := h.table id p hpc
    rw [State.stmt, hp] at hs
    simp only [] at hs
    rw [bucketAt_of_live hb] at hs
    obtain ⟨i, hi, hs⟩ := bind_ok (x := slotOf b.pos) hs
    rw [hpos, slotOf_val] at hi
    cases hi
    cases hs
    exact .clear hp hpc
  | destroyFree id p =>
    rw [hp] at hpc
    obtain ⟨⟨c, hc⟩, -⟩ := hpc
    rw [State.stmt, hp] at hs
    simp only [] at hs
    rw [hc.free] at hs
    cases hs
    exact .free hp hc

theorem Stmt.inv {s t : State} (hs : Stmt s t) (h : s.Inv) : t.Inv := by
  have hpc := h.pc
  cases hs with
  | idle => exact h
  | load => exact ⟨h.table, trivial⟩
  | malloc =>
    exact ⟨h.table.malloc, Heap.live_malloc_self _, h.table.unpublished_next,
      fun j hj => absurd hj (Nat.not_lt_zero _)⟩
  | found hp hi hj =>
    rw [hp] at hpc
    exact ⟨h.table, ⟨.fresh, hpc.1, rfl⟩, hpc.2.1, hj⟩
  | @taken cps burst m i q hp hi hj =>
    rw [hp] at hpc
    obtain ⟨hm, hu, hlt⟩ := hpc
    refine ⟨h.table, hm, hu, fun j hji => ?_⟩
    rcases Nat.lt_succ_iff_lt_or_eq.1 hji with hlt' | heq
    · exact hlt j hlt'
    · have he : j = ⟨i, hi⟩ := Fin.ext heq
      rw [he]
      intro hn
      rw [hj] at hn
      cases hn
  | full => exact ⟨h.table, trivial⟩
  | set hp hm =>
    rw [hp] at hpc
    obtain ⟨⟨c', hm', hc⟩, hu, hj⟩ := hpc
    cases hm.unique hm'
    exact ⟨h.table.put_other hu, ⟨_, Heap.live_put_self hm.lt_next, hc⟩, hu, hj⟩
  | @publish cps burst m i hp =>
    rw [hp] at hpc
    obtain ⟨⟨c, hm, hc⟩, -⟩ := hpc
    rw [show c = (created cps burst i.val).cell from hc] at hm
    exact ⟨h.table.publish hm rfl, trivial⟩
  | fetch _ hj => exact ⟨h.table, hj⟩
  | giveBack _ hj => exact ⟨h.table, hj⟩
  | @access _ _ _ o _ _ hj _ hpos ho =>
    refine ⟨h.table.put_bucket hj ((Access.step_params ho).2.2.trans hpos), ?_⟩
    cases o with
    | on b' a' => exact hj
    | fetched b' r => trivial
    | returned b' x => trivial
  | destroy _ hj => exact ⟨h.table, hj⟩
  | clear _ hj =>
    obtain ⟨b, hb, -⟩ := h.table _ _ hj
    exact ⟨h.table.clear _, ⟨b.cell, hb⟩, h.table.clear_unpublished hj, Function.update_self ..⟩
  | free hp =>
    rw [hp] at hpc
    exact ⟨h.table.put_other hpc.2.1, trivial⟩

theorem Stmt.same {s t : State} (hs : Stmt s t) (h : s.Inv) (hne : s.pc.target ≠ some j) :
    SameSlot s t j := by
  have hpc := h.pc
  cases hs with
  | malloc =>
    refine ⟨rfl, fun p hj c => ?_⟩
    obtain ⟨b, hb, -⟩ := h.table j p hj
    exact Heap.live_malloc_of_lt hb.lt_next
  | set hp =>
    rw [hp] at hpc
    exact .of_put rfl rfl (hpc.2.1 j)
  | publish hp =>
    rw [hp] at hne
    exact .of_jobs rfl rfl (fun he => hne (congrArg some he))
  | access hp hj =>
    rw [hp] at hne
    refine .of_put rfl rfl ?_
    intro hj'
    exact hne (congrArg some (h.table.injective hj hj'))
  | clear hp =>
    rw [hp] at hne
    exact .of_jobs rfl rfl (fun he => hne (congrArg some he))
  | free hp =>
    rw [hp] at hpc
    exact .of_put rfl rfl (hpc.2.1 j)
  | _ => exact .of_heap rfl rfl

theorem Call.entry_ok (c : Call) : c.entry.Ok jobs H := by
  cases c <;> trivial

theorem State.Inv.of_reachable {s : State} (h : (mytbf usage).Reachable s) : s.Inv := by
  refine h.invariant ?_ ?_
  · rintro s rfl
    refine ⟨fun i p hi => ?_, trivial⟩
    cases hi
  · intro s t _ hs hst
    cases hst with
    | call => exact ⟨hs.table, Call.entry_ok _⟩
    | stmt _ hst => exact (hs.stmt_cases hst).inv hs
    | stmtFault => exact ⟨hs.table, hs.pc⟩
    | noMemory => exact ⟨hs.table, trivial⟩
    | tick _ _ hst => exact hs.tick hst
    | tickFault => exact ⟨hs.table, hs.pc⟩

end Apue.Tbf
