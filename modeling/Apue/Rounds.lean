import Mathlib.Data.List.Basic
import Mathlib.Data.List.FinRange
import Mathlib.Logic.Function.Basic

namespace Apue
set_option autoImplicit true

/-- What it takes to serve a component: its next value, and an event if there is one. -/
abbrev Service (σ : Type u) (ε : Type v) := σ → σ × Option ε

def Service.idle : Service σ ε := fun s => (s, none)

/-- A loop that serves components one after the other, with the events in the order in which they
happen. -/
def round [DecidableEq ι] : List (ι × Service σ ε) → (ι → σ) → (ι → σ) × List ε
  | [], x => (x, [])
  | (i, f) :: vs, x =>
    let rest := round vs (Function.update x i (f (x i)).1)
    (rest.1, (f (x i)).2.toList ++ rest.2)

/-- The service that a loop gives to one component. -/
def serviceOf [DecidableEq ι] : List (ι × Service σ ε) → ι → Service σ ε
  | [], _ => .idle
  | (j, f) :: vs, i => if i = j then f else serviceOf vs i

def everyone (f : Fin n → Service σ ε) : List (Fin n × Service σ ε) :=
  (List.finRange n).map fun i => (i, f i)

section
variable [DecidableEq ι]

theorem serviceOf_cons_self {i : ι} {f : Service σ ε} : serviceOf ((i, f) :: vs) i = f :=
  if_pos rfl

theorem serviceOf_cons_ne {i j : ι} {f : Service σ ε} (h : i ≠ j) :
    serviceOf ((j, f) :: vs) i = serviceOf vs i :=
  if_neg h

theorem serviceOf_notMem {vs : List (ι × Service σ ε)} (h : i ∉ vs.map Prod.fst) :
    serviceOf vs i = .idle := by
  induction vs with
  | nil => rfl
  | cons v vs ih =>
    rw [List.map_cons, List.mem_cons, not_or] at h
    rw [serviceOf_cons_ne h.1, ih h.2]

theorem serviceOf_mem {vs : List (ι × Service σ ε)} (hn : (vs.map Prod.fst).Nodup)
    (h : (i, f) ∈ vs) : serviceOf vs i = f := by
  induction vs with
  | nil => cases h
  | cons v vs ih =>
    obtain ⟨j, g⟩ := v
    obtain ⟨hj, hn'⟩ := List.nodup_cons.mp hn
    rcases List.mem_cons.mp h with he | hm
    · cases he
      exact serviceOf_cons_self
    · have hne : i ≠ j := by
        rintro rfl
        exact hj (List.mem_map.mpr ⟨_, hm, rfl⟩)
      rw [serviceOf_cons_ne hne, ih hn' hm]

/-- In a loop that serves no component twice, each one gets its own service. -/
theorem round_fst {vs : List (ι × Service σ ε)} (hn : (vs.map Prod.fst).Nodup) (x : ι → σ)
    (i : ι) : (round vs x).1 i = (serviceOf vs i (x i)).1 := by
  induction vs generalizing x with
  | nil => rfl
  | cons v vs ih =>
    obtain ⟨j, f⟩ := v
    obtain ⟨hj, hn'⟩ := List.nodup_cons.mp hn
    rw [round, ih hn']
    by_cases he : i = j
    · subst he
      rw [serviceOf_notMem hj, serviceOf_cons_self, Function.update_self]
      rfl
    · rw [serviceOf_cons_ne he, Function.update_of_ne he]

/-- Where no other component's service gives an event of a kind, the events of that kind are the
component's own. -/
theorem round_snd {vs : List (ι × Service σ ε)} (hn : (vs.map Prod.fst).Nodup) (x : ι → σ) (i : ι)
    (own : ε → Bool)
    (h : ∀ j, j ≠ i → ∀ e ∈ (serviceOf vs j (x j)).2, own e = false) :
    (round vs x).2.filter own = (serviceOf vs i (x i)).2.toList.filter own := by
  induction vs generalizing x with
  | nil => rfl
  | cons v vs ih =>
    obtain ⟨j, f⟩ := v
    obtain ⟨hj, hn'⟩ := List.nodup_cons.mp hn
    have hrest : ∀ k, k ≠ i →
        ∀ e ∈ (serviceOf vs k (Function.update x j (f (x j)).1 k)).2, own e = false := by
      intro k hk e he
      by_cases hkj : k = j
      · subst hkj
        rw [serviceOf_notMem hj] at he
        cases he
      · rw [Function.update_of_ne hkj] at he
        exact h k hk e (by rwa [serviceOf_cons_ne hkj])
    rw [round, List.filter_append, ih hn' _ hrest]
    by_cases he : i = j
    · subst he
      rw [serviceOf_notMem hj, serviceOf_cons_self]
      exact List.append_nil _
    · have hnil : (f (x j)).2.toList.filter own = [] := by
        rw [List.filter_eq_nil_iff]
        intro e hm
        have hfe := h j (Ne.symm he) e (by rw [serviceOf_cons_self]; exact Option.mem_toList.mp hm)
        simp [hfe]
      rw [hnil, serviceOf_cons_ne he, Function.update_of_ne he, List.nil_append]

theorem mem_round {vs : List (ι × Service σ ε)} (hn : (vs.map Prod.fst).Nodup) {x : ι → σ}
    (h : e ∈ (round vs x).2) : ∃ i, e ∈ (serviceOf vs i (x i)).2 := by
  induction vs generalizing x with
  | nil => cases h
  | cons v vs ih =>
    obtain ⟨j, f⟩ := v
    obtain ⟨hj, hn'⟩ := List.nodup_cons.mp hn
    rcases List.mem_append.mp h with hf | hrest
    · exact ⟨j, by rw [serviceOf_cons_self]; exact Option.mem_toList.mp hf⟩
    · obtain ⟨i, hi⟩ := ih hn' hrest
      have hij : i ≠ j := by
        rintro rfl
        rw [serviceOf_notMem hj] at hi
        cases hi
      rw [Function.update_of_ne hij] at hi
      exact ⟨i, by rwa [serviceOf_cons_ne hij]⟩

end

theorem everyone_nodup (f : Fin n → Service σ ε) : ((everyone f).map Prod.fst).Nodup := by
  simpa [everyone, Function.comp_def] using List.nodup_finRange n

@[simp] theorem serviceOf_everyone (f : Fin n → Service σ ε) (i : Fin n) :
    serviceOf (everyone f) i = f i :=
  serviceOf_mem (everyone_nodup f) (List.mem_map.mpr ⟨i, List.mem_finRange i, rfl⟩)

end Apue
