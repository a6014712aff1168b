import Apue.Memory
import Mathlib.Data.List.Nodup

namespace Apue.Heap
set_option autoImplicit true

/-- malloc for one value after the other: the pointers, and the heap behind the last call. -/
def mallocAll : Heap β → List β → List Nat × Heap β
  | h, [] => ([], h)
  | h, v :: vs => (h.next :: ((h.malloc v).mallocAll vs).1, ((h.malloc v).mallocAll vs).2)

def freeAll : Heap β → List Nat → Except Fault (Heap β)
  | h, [] => .ok h
  | h, p :: ps => do
    let h ← h.free p
    h.freeAll ps

/-- The heap with `k` more blocks, all of them freed. -/
def spent (h : Heap β) (k : Nat) : Heap β := ⟨h.blocks ++ List.replicate k none⟩

/-- The blocks that are left of those allocated since `base`, with the values in them. -/
structure Owned (base h : Heap β) (own : List (Nat × β)) : Prop where
  kept : base.blocks <+: h.blocks
  live : ∀ x ∈ own, base.next ≤ x.1 ∧ h.Live x.1 x.2
  dead : ∀ p v, base.next ≤ p → h.Live p v → (p, v) ∈ own
  nodup : (own.map Prod.fst).Nodup

theorem live_spent {h : Heap β} : (h.spent k).Live p v ↔ h.Live p v := by
  rw [Live, spent, Live]
  rcases Nat.lt_or_ge p h.blocks.length with hp | hp
  · rw [List.getElem?_append_left hp]
  · rw [List.getElem?_append_right hp, List.getElem?_replicate, List.getElem?_eq_none hp]
    split <;> simp

theorem spent_spent (h : Heap β) (j k : Nat) : (h.spent j).spent k = h.spent (j + k) := by
  simp only [spent, List.append_assoc, List.replicate_append_replicate]

theorem length_mallocAll (h : Heap β) (vs : List β) : (h.mallocAll vs).1.length = vs.length := by
  induction vs generalizing h with
  | nil => rfl
  | cons v vs ih => exact congrArg Nat.succ (ih (h.malloc v))

namespace Owned

variable {base h : Heap β} {own rest : List (Nat × β)}

theorem refl (base : Heap β) : Owned base base [] where
  kept := List.prefix_refl _
  live := by simp
  dead := by
    intro p v hp hv
    exact absurd hv.lt_next (Nat.not_lt.mpr hp)
  nodup := .nil

theorem perm (ho : Owned base h own) (hp : own.Perm rest) : Owned base h rest where
  kept := ho.kept
  live := fun x hx => ho.live x (hp.mem_iff.mpr hx)
  dead := fun p v hle hv => hp.mem_iff.mp (ho.dead p v hle hv)
  nodup := (hp.map _).nodup_iff.mp ho.nodup

theorem live_base (ho : Owned base h own) (hb : base.Live p v) : h.Live p v := by
  obtain ⟨t, ht⟩ := ho.kept
  have hlt := hb.lt_next
  rw [Live] at hb ⊢
  rw [← ht, List.getElem?_append_left hlt]
  exact hb

theorem malloc (ho : Owned base h own) (v : β) : Owned base (h.malloc v) ((h.next, v) :: own) where
  kept := ho.kept.trans (List.prefix_append _ _)
  live := by
    intro x hx
    rcases List.mem_cons.mp hx with rfl | hx
    · exact ⟨ho.kept.length_le, h.live_malloc_self⟩
    · obtain ⟨hle, hlive⟩ := ho.live x hx
      exact ⟨hle, (live_malloc_of_lt hlive.lt_next).mpr hlive⟩
  dead := by
    intro p w hp hw
    have hlt := hw.lt_next
    rw [malloc_next] at hlt
    rcases Nat.lt_succ_iff_lt_or_eq.mp hlt with hlt | rfl
    · exact List.mem_cons_of_mem _ (ho.dead p w hp ((live_malloc_of_lt hlt).mp hw))
    · rw [hw.unique h.live_malloc_self]
      exact List.mem_cons_self
  nodup := by
    refine List.nodup_cons.mpr ⟨?_, ho.nodup⟩
    intro hmem
    obtain ⟨x, hx, hn⟩ := List.mem_map.mp hmem
    have hlt := (ho.live x hx).2.lt_next
    omega

theorem mallocAll (ho : Owned base h own) (vs : List β) :
    Owned base (h.mallocAll vs).2 (own ++ (h.mallocAll vs).1.zip vs) := by
  induction vs generalizing h own with
  | nil => rwa [Heap.mallocAll, List.zip_nil_left, List.append_nil]
  | cons v vs ih => exact (ih (ho.malloc v)).perm List.perm_middle.symm

theorem free (ho : Owned base h ((p, v) :: own)) :
    ∃ h', h.free p = .ok h' ∧ Owned base h' own := by
  obtain ⟨hle, hlive⟩ := ho.live (p, v) List.mem_cons_self
  obtain ⟨hnot, hnodup⟩ := List.nodup_cons.mp ho.nodup
  refine ⟨_, hlive.free, ?_, ?_, ?_, hnodup⟩
  · obtain ⟨t, ht⟩ := ho.kept
    rw [put, ← ht, List.set_append_right _ _ hle]
    exact List.prefix_append _ _
  · intro x hx
    have hne : x.1 ≠ p := by
      rintro rfl
      exact hnot (List.mem_map.mpr ⟨x, hx, rfl⟩)
    obtain ⟨hx', hlivex⟩ := ho.live x (List.mem_cons_of_mem _ hx)
    exact ⟨hx', (live_put_of_ne hne).mpr hlivex⟩
  · intro q w hq hw
    by_cases hne : q = p
    · subst hne
      rw [Live, put, List.getElem?_set_self hlive.lt_next] at hw
      cases hw
    · rcases List.mem_cons.mp (ho.dead q w hq ((live_put_of_ne hne).mp hw)) with he | hmem
      · cases he
        exact absurd rfl hne
      · exact hmem

theorem spent (ho : Owned base h own) (k : Nat) : Owned base (h.spent k) own where
  kept := ho.kept.trans (List.prefix_append _ _)
  live := fun x hx => ⟨(ho.live x hx).1, live_spent.mpr (ho.live x hx).2⟩
  dead := fun p v hp hv => ho.dead p v hp (live_spent.mp hv)
  nodup := ho.nodup

theorem eq_spent (ho : Owned base h []) : ∃ k, h = base.spent k := by
  obtain ⟨t, ht⟩ := ho.kept
  have hnone : ∀ b ∈ t, b = none := by
    intro b hb
    obtain ⟨i, hi⟩ := List.mem_iff_getElem?.mp hb
    cases b with
    | none => rfl
    | some v =>
      have hlive : h.Live (base.next + i) v := by
        rw [Live, ← ht, next, List.getElem?_append_right (Nat.le_add_right _ _),
          Nat.add_sub_cancel_left, hi]
      cases ho.dead _ v (Nat.le_add_right _ _) hlive
  refine ⟨t.length, ?_⟩
  rw [Heap.spent, ← List.eq_replicate_of_mem hnone, ht]

theorem freeAll (ho : Owned base h own) :
    ∃ k, h.freeAll (own.map Prod.fst) = .ok (base.spent k) := by
  induction own generalizing h with
  | nil =>
    obtain ⟨k, rfl⟩ := ho.eq_spent
    exact ⟨k, rfl⟩
  | cons x own ih =>
    obtain ⟨h', hfree, ho'⟩ := ho.free
    obtain ⟨k, hk⟩ := ih ho'
    exact ⟨k, by rw [List.map_cons, Heap.freeAll, hfree, ok_bind, hk]⟩

end Owned

end Apue.Heap
