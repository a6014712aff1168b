import Apue.TokenCalls

namespace Apue.Tbf
set_option autoImplicit true

/-- The access to slot i that the main flow is in the middle of. -/
def Pc.accessTo (i : Fin maxTbf) : Pc → Option Access
  | .access id _ a => if id = i then some a else none
  | _ => none

def Amounts (usage : Call → Prop) (x : Int) : Prop :=
  ∃ id, usage (.fetchtoken id x) ∨ usage (.returntoken id x)

/-- The bucket in slot i is one that a run of its own could have left there. -/
def Metered (usage : Call → Prop) (s : State) (i : Fin maxTbf) : Prop :=
  ∀ p, s.jobs i = some p → ∃ m : Meter, m.fault = none ∧ s.heap.Live p m.bucket.cell ∧
    (meter m.bucket.cps m.bucket.burst i.val (Amounts usage)).Reachable m ∧
    m.access = s.pc.accessTo i

def Pc.Used (usage : Call → Prop) : Pc → Prop
  | .fetch id x => usage (.fetchtoken id x)
  | .giveBack id x => usage (.returntoken id x)
  | _ => True

theorem Metered.same {s t : State} (h : Metered usage s i) (hs : SameSlot s t i)
    (hpc : t.pc.accessTo i = s.pc.accessTo i) : Metered usage t i := by
  intro p hp
  obtain ⟨hj, hl⟩ := hs
  rw [hj] at hp
  obtain ⟨m, hf, hm, hr, ha⟩ := h p hp
  exact ⟨m, hf, (hl p hp _).2 hm, hr, ha.trans hpc.symm⟩

theorem Metered.tick {s t : State} (h : Metered usage s i) (hs : s.Inv) (ht : s.tick = .ok t) :
    Metered usage t i := by
  obtain ⟨H, hh, he⟩ := bind_ok ht
  cases he
  intro p hp
  obtain ⟨m, hf, hm, hr, ha⟩ := h p hp
  obtain ⟨b', hb, hb'⟩ := (hs.table.handle_ok hh).done i (by simp) p m.bucket hp hm
  have hcps : b'.cps = m.bucket.cps ∧ b'.burst = m.bucket.burst := by
    rw [Bucket.tick_ok hb]
    exact ⟨rfl, rfl⟩
  refine ⟨m.ticked b', hf, hb', ?_, ?_⟩
  · rw [show (m.ticked b').bucket = b' from rfl, hcps.1, hcps.2]
    exact .step hr (.tick hf hb)
  · change m.access.map Access.wake = s.pc.wake.accessTo i
    rw [ha]
    cases s.pc with
    | access id q a =>
      simp only [Pc.accessTo, Pc.wake]
      split <;> rfl
    | _ => rfl

theorem Pc.accessTo_of_target {pc : Pc} (h : pc.target ≠ some i) : pc.accessTo i = none := by
  cases pc with
  | access id p a =>
    rw [Pc.accessTo, if_neg]
    intro he
    exact h (congrArg some he)
  | _ => rfl

theorem Stmt.accessTo {s t : State} (hs : Stmt s t) (ht : s.pc.target ≠ some i)
    (hf : ∀ x, s.pc ≠ .fetch i x) (hg : ∀ x, s.pc ≠ .giveBack i x) :
    t.pc.accessTo i = none := by
  cases hs with
  | idle hp =>
    rw [hp]
    rfl
  | @fetch id x p hp =>
    have hne : id ≠ i := by
      rintro rfl
      exact hf x hp
    exact if_neg hne
  | @giveBack id x p hp =>
    have hne : id ≠ i := by
      rintro rfl
      exact hg x hp
    exact if_neg hne
  | @access id p a o b hp =>
    rw [hp] at ht
    have hne : id ≠ i := fun he => ht (congrArg some he)
    cases o with
    | on b' a' => exact if_neg hne
    | fetched b' r => rfl
    | returned b' x => rfl
  | _ => rfl

theorem Metered.access {s : State} {b : Bucket} (h : Metered usage s i)
    (hp : s.pc = .access i p a) (hj : s.jobs i = some p) (hb : s.heap.Live p b.cell)
    (ho : a.step b = .ok o) :
    Metered usage { s with heap := s.heap.put p (some o.bucket.cell), pc := o.pc i p } i := by
  intro q hq
  rw [show s.jobs i = some q from hq] at hj
  cases hj
  obtain ⟨m, hf, hm, hr, ha⟩ := h p hq
  have he := Bucket.cell_inj (hb.unique hm)
  subst he
  have hacc : m.access = some a := by
    rw [ha, hp]
    exact if_pos rfl
  obtain ⟨hcps, hburst, -⟩ := Access.step_params ho
  have hbucket : (m.after o).bucket = o.bucket := by
    cases o <;> rfl
  refine ⟨m.after o, ?_, ?_, ?_, ?_⟩
  · cases o <;> exact hf
  · rw [hbucket]
    exact Heap.live_put_self hb.lt_next
  · rw [hbucket, hcps, hburst]
    exact .step hr (.access hf hacc ho)
  · cases o with
    | on b' a' => exact (if_pos rfl).symm
    | fetched b' r => rfl
    | returned b' x => rfl

theorem Metered.enter {s : State} (h : Metered usage s i) (hn : s.pc.accessTo i = none)
    (hx : Amounts usage x) (hb : a = .fetchTest x ∨ a = .returnLoad x) :
    Metered usage { s with pc := .access i p a } i := by
  intro q hq
  obtain ⟨m, hf, hm, hr, ha⟩ := h q hq
  rw [hn] at ha
  refine ⟨{ m with access := some a }, hf, hm, .step hr ?_, (if_pos rfl).symm⟩
  rcases hb with rfl | rfl
  · exact .fetch hf ha hx
  · exact .giveBack hf ha hx

theorem Metered.stmt {s t : State} (h : Metered usage s i) (hI : s.Inv)
    (hu : s.pc.Used usage) (hs : Stmt s t) : Metered usage t i := by
  have hother : s.pc.target ≠ some i → (∀ x, s.pc ≠ .fetch i x) →
      (∀ x, s.pc ≠ .giveBack i x) → Metered usage t i := by
    intro ht hf hg
    refine h.same (hs.same hI ht) ?_
    rw [hs.accessTo ht hf hg, Pc.accessTo_of_target ht]
  cases hs with
  | @fetch k x p hp =>
    by_cases hk : k = i
    · subst hk
      rw [hp] at hu
      exact h.enter (by rw [hp]; rfl) ⟨k, .inl hu⟩ (.inl rfl)
    · exact hother (by simp [hp, Pc.target]) (by simp [hp, hk]) (by simp [hp])
  | @giveBack k x p hp =>
    by_cases hk : k = i
    · subst hk
      rw [hp] at hu
      exact h.enter (by rw [hp]; rfl) ⟨k, .inr hu⟩ (.inr rfl)
    · exact hother (by simp [hp, Pc.target]) (by simp [hp]) (by simp [hp, hk])
  | @access k p a o b hp hj hb _ ho =>
    by_cases hk : k = i
    · subst hk
      exact h.access hp hj hb ho
    · exact hother (by simp [hp, Pc.target, hk]) (by simp [hp]) (by simp [hp])
  | @publish cps burst m k hp =>
    by_cases hk : k = i
    · subst hk
      have hpc := hI.pc
      rw [hp] at hpc
      obtain ⟨⟨c, hm, hc⟩, -⟩ := hpc
      rw [show c = (created cps burst k.val).cell from hc] at hm
      intro q hq
      have hq : Function.update s.jobs k (some m) k = some q := hq
      rw [Function.update_self] at hq
      cases hq
      exact ⟨Meter.start (created cps burst k.val), rfl, hm, .init rfl, rfl⟩
    · exact hother (by simp [hp, Pc.target, hk]) (by simp [hp]) (by simp [hp])
  | @clear k p hp =>
    by_cases hk : k = i
    · subst hk
      intro q hq
      have hq : Function.update s.jobs k none k = some q := hq
      rw [Function.update_self] at hq
      cases hq
    · exact hother (by simp [hp, Pc.target, hk]) (by simp [hp]) (by simp [hp])
  | idle hp | load hp | malloc hp | found hp | taken hp | full hp | set hp | destroy hp | free hp =>
    exact hother (by simp [hp, Pc.target]) (by simp [hp]) (by simp [hp])

theorem Stmt.used {s t : State} (hs : Stmt s t) (h : s.pc.Used usage) : t.pc.Used usage := by
  cases hs with
  | idle => exact h
  | @access k p a o => cases o <;> trivial
  | _ => trivial

theorem Call.entry_used {c : Call} (h : usage c) : c.entry.Used usage := by
  cases c with
  | fetchtoken | returntoken => exact h
  | init | destroy => trivial

theorem Call.entry_accessTo (c : Call) (i : Fin maxTbf) : c.entry.accessTo i = none := by
  cases c <;> rfl

/-- In every run of the program each bucket of the table is what a run of its own leaves. -/
theorem metered_of_reachable (h : (mytbf usage).Reachable s) (i : Fin maxTbf) :
    Metered usage s i := by
  have hall : s.pc.Used usage ∧ ∀ i, Metered usage s i := by
    refine h.invariant (P := fun s => s.pc.Used usage ∧ ∀ i, Metered usage s i) ?_ ?_
    · rintro s rfl
      refine ⟨trivial, fun i p hp => ?_⟩
      cases hp
    · intro s t hr ⟨hu, hm⟩ hst
      have hI := State.Inv.of_reachable hr
      cases hst with
      | call _ hp hc =>
        refine ⟨Call.entry_used hc, fun i => (hm i).same (.of_heap rfl rfl) ?_⟩
        rw [hp]
        exact Call.entry_accessTo _ i
      | stmt _ hst =>
        have hs := hI.stmt_cases hst
        exact ⟨hs.used hu, fun i => (hm i).stmt hI hu hs⟩
      | stmtFault => exact ⟨hu, fun i => (hm i).same (.of_heap rfl rfl) rfl⟩
      | noMemory _ hp =>
        refine ⟨trivial, fun i => (hm i).same (.of_heap rfl rfl) ?_⟩
        rw [hp]
        rfl
      | tick _ _ hst =>
        refine ⟨?_, fun i => (hm i).tick hI hst⟩
        obtain ⟨H, -, he⟩ := bind_ok hst
        cases he
        change s.pc.wake.Used usage
        cases hp : s.pc <;> rw [hp] at hu <;> exact hu
      | tickFault => exact ⟨hu, fun i => (hm i).same (.of_heap rfl rfl) rfl⟩
  exact hall.2 i

theorem Meter.Step.mono {m m' : Meter} (h : Meter.Step A m m') (hA : ∀ x, A x → B x) :
    Meter.Step B m m' := by
  cases h with
  | tick hf ht => exact .tick hf ht
  | tickFault hf ht => exact .tickFault hf ht
  | fetch hf hn hx => exact .fetch hf hn (hA _ hx)
  | giveBack hf hn hx => exact .giveBack hf hn (hA _ hx)
  | access hf ha hs => exact .access hf ha hs
  | accessFault hf ha hs => exact .accessFault hf ha hs

theorem meter_mono (h : (meter cps burst pos A).Reachable m) (hA : ∀ x, A x → B x) :
    (meter cps burst pos B).Reachable m := by
  induction h with
  | init h0 => exact .init h0
  | step _ hs ih => exact .step ih (Meter.Step.mono hs hA)

/-- No bucket of the table is ever overdrawn. -/
theorem tokens_nonneg (h : (mytbf usage).Reachable s) (hu : ∀ x, Amounts usage x → 0 ≤ x)
    (hj : s.jobs i = some p) : ∃ b : Bucket, s.heap.Live p b.cell ∧
      (0 ≤ b.cps → 0 ≤ b.burst → 0 ≤ b.token) := by
  obtain ⟨m, -, hm, hr, -⟩ := metered_of_reachable h i p hj
  exact ⟨m.bucket, hm, fun hc hb => (Meter.sound_of_reachable hc hb (meter_mono hr hu)).nonneg⟩

end Apue.Tbf
