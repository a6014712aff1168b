import Mathlib.Data.List.Basic

namespace Apue
set_option autoImplicit true

/-- A lock flag is set exactly while one party holds the lock. -/
structure Owned (held : Bool) (holds : ι → Prop) : Prop where
  held_iff : held = true ↔ ∃ i, holds i
  unique : ∀ {i j}, holds i → holds j → i = j

variable {ι : Type u} {H H' : ι → Prop} {b b' : Bool}

/-- What one party may do to a lock: leave it alone, take it while free, or give it back. -/
def Handover (held held' : Bool) (p p' : Prop) : Prop :=
  (held' = held ∧ (p' ↔ p)) ∨ (held = false ∧ held' = true ∧ p') ∨
    (p ∧ held' = false ∧ ¬p')

theorem Owned.held (h : Owned b H) {i : ι} (hi : H i) : b = true := h.held_iff.2 ⟨i, hi⟩

theorem Owned.free (h : Owned false H) (i : ι) : ¬H i := by
  intro hi
  cases h.held hi

theorem Owned.congr (h : Owned b H) (he : ∀ i, H' i ↔ H i) : Owned b H' where
  held_iff := by simp only [he, h.held_iff]
  unique hi hj := h.unique ((he _).1 hi) ((he _).1 hj)

theorem Owned.acquire (h : Owned false H) (x : ι) (hx : H' x)
    (ho : ∀ i, i ≠ x → (H' i ↔ H i)) : Owned true H' := by
  have only {i : ι} (hi : H' i) : i = x := by
    by_contra hne
    exact h.free i ((ho i hne).1 hi)
  exact ⟨⟨fun _ => ⟨x, hx⟩, fun _ => rfl⟩, fun hi hj => (only hi).trans (only hj).symm⟩

theorem Owned.release (h : Owned b H) (x : ι) (hx : H x) (hx' : ¬H' x)
    (ho : ∀ i, i ≠ x → (H' i ↔ H i)) : Owned false H' := by
  have none {i : ι} (hi : H' i) : False := by
    by_cases he : i = x
    · subst he
      exact hx' hi
    · exact he (h.unique ((ho i he).1 hi) hx)
  refine ⟨⟨?_, fun ⟨_, hi⟩ => (none hi).elim⟩, fun hi _ => (none hi).elim⟩
  intro hb
  cases hb

theorem Owned.transfer (h : Owned b H) (x y : ι) (hx : H x) (hx' : ¬H' x) (hy : H' y)
    (ho : ∀ i, i ≠ x → i ≠ y → (H' i ↔ H i)) : Owned b H' := by
  have only {i : ι} (hi : H' i) : i = y := by
    by_contra hne
    by_cases he : i = x
    · subst he
      exact hx' hi
    · exact he (h.unique ((ho i he hne).1 hi) hx)
  exact ⟨⟨fun _ => ⟨y, hy⟩, fun _ => h.held hx⟩, fun hi hj => (only hi).trans (only hj).symm⟩

theorem Owned.handover (h : Owned b H) (x : ι) (hx : Handover b b' (H x) (H' x))
    (ho : ∀ i, i ≠ x → (H' i ↔ H i)) : Owned b' H' := by
  rcases hx with ⟨he, hk⟩ | ⟨hb, hb', hx'⟩ | ⟨hx, hb', hx'⟩
  · subst he
    apply h.congr
    intro i
    by_cases hi : i = x
    · subst hi
      exact hk
    · exact ho i hi
  · subst hb hb'
    exact h.acquire x hx' ho
  · subst hb'
    exact h.release x hx hx' ho

end Apue
