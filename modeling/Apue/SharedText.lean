import Apue.Memory
import Apue.Reachability
import Mathlib.Data.List.Infix

namespace Apue.SharedText
set_option autoImplicit true

/-- A printed line, whether nothing was stored while it was read, and how many texts had been begun
when it was printed. -/
structure Line where
  text : List Char
  quiet : Bool
  latest : Nat
  deriving Repr, DecidableEq

/-- printf with its %s looks for the NUL first, and then copies what is in front of it. -/
inductive Reading where
  | scan (k : Nat)
  | copy (line : List Char) (left : List Nat)

/-- Memory that is shared by a process that stores one text after the other and a process that
prints it again and again. -/
structure State where
  mem : List Char
  /-- the texts begun so far -/
  begun : Nat
  /-- the characters of the last one that are still to be stored, with their places -/
  todo : List (Char × Nat)
  reading : Option Reading
  /-- nothing has been stored since the running print began -/
  quiet : Bool
  lines : List Line
  fault : Option Fault

/-- One access at a time: the characters of a text are stored, and those of a line copied, in any
order. -/
inductive Step (text : Nat → List Char) (limit : Nat) : State → State → Prop where
  | begin : s.fault = none → s.todo = [] → s.begun < limit → Step text limit s
      { s with begun := s.begun + 1, todo := (text s.begun ++ [nul]).zipIdx, quiet := false }
  | store : s.fault = none → (c, i) ∈ s.todo → i < s.mem.length → Step text limit s
      { s with mem := s.mem.set i c, todo := s.todo.erase (c, i), quiet := false }
  | overrun : s.fault = none → (c, i) ∈ s.todo → s.mem.length ≤ i →
      Step text limit s { s with fault := some .bounds }
  | start : s.fault = none → s.reading = none → Step text limit s
      { s with reading := some (.scan 0), quiet := decide (s.todo = []) }
  | pass : s.fault = none → s.reading = some (.scan k) → s.mem[k]? = some c → c ≠ nul →
      Step text limit s { s with reading := some (.scan (k + 1)) }
  | measured : s.fault = none → s.reading = some (.scan k) → s.mem[k]? = some nul →
      Step text limit s { s with reading := some (.copy (List.replicate k nul) (List.range k)) }
  | copy : s.fault = none → s.reading = some (.copy line left) → i ∈ left → s.mem[i]? = some c →
      Step text limit s { s with reading := some (.copy (line.set i c) (left.erase i)) }
  | print : s.fault = none → s.reading = some (.copy line []) →
      Step text limit s { s with reading := none, lines := s.lines ++ [⟨line, s.quiet, s.begun⟩] }
  | overread : s.fault = none → s.reading = some (.scan k) → s.mem[k]? = none →
      Step text limit s { s with fault := some .bounds }
  | overcopy : s.fault = none → s.reading = some (.copy line left) → i ∈ left →
      s.mem[i]? = none → Step text limit s { s with fault := some .bounds }

/-- Which characters a place may hold. No text has its NUL before `stable`, and some place never
holds anything but NUL. -/
structure Layout (text : Nat → List Char) (limit size : Nat) where
  Allowed : Nat → Char → Prop
  nul_allowed : ∀ i, Allowed i nul
  text_allowed : k < limit → (text k)[i]? = some c → Allowed i c ∧ c ≠ nul
  last : Nat
  last_lt : last < size
  last_nul : Allowed last c → c = nul
  stable : Nat
  stable_le : k < limit → stable ≤ (text k).length

def system (text : Nat → List Char) (limit size : Nat) (L : Layout text limit size) :
    System State where
  init s := s.mem.length = size ∧ (∀ i c, s.mem[i]? = some c → L.Allowed i c) ∧
    s.begun = 0 ∧ s.todo = [] ∧ s.reading = none ∧ s.lines = [] ∧ s.fault = none
  step := Step text limit

variable {text : Nat → List Char} {limit size : Nat} {L : Layout text limit size} {s t : State}

/-- The characters of a line stand where they are allowed to, apart from places that are left. -/
def Layout.Fits (L : Layout text limit size) (left : List Nat) (l : List Char) : Prop :=
  ∀ i c, l[i]? = some c → i ∉ left → L.Allowed i c ∧ (i < L.stable → c ≠ nul)

theorem Layout.text_length_le (L : Layout text limit size) (hk : k < limit) :
    (text k).length ≤ L.last := by
  by_contra hlt
  have hget := List.getElem?_eq_getElem (l := text k) (i := L.last) (by omega)
  obtain ⟨ha, hne⟩ := L.text_allowed hk hget
  exact hne (L.last_nul ha)

theorem Layout.stored_allowed (L : Layout text limit size) (hk : k < limit)
    (h : (text k ++ [nul])[i]? = some c) :
    L.Allowed i c ∧ i < size ∧ (i < L.stable → c ≠ nul) := by
  have hlen := L.text_length_le hk
  have hlast := L.last_lt
  have hstable := L.stable_le hk
  rcases concat_getElem?.1 h with h | ⟨rfl, rfl⟩
  · obtain ⟨ha, hne⟩ := L.text_allowed hk h
    have hi := (List.getElem?_eq_some_iff.mp h).1
    exact ⟨ha, by omega, fun _ => hne⟩
  · exact ⟨L.nul_allowed _, by omega, fun hlt => absurd hlt (by omega)⟩

/-- The first `k` places that are before `stable` do not hold a NUL any more. -/
def State.Kept (L : Layout text limit size) (s : State) (k : Nat) : Prop :=
  ∀ i < k, i < L.stable → s.mem[i]? ≠ some nul

/-- What a print in progress has seen. Where nothing has been stored since it began, that is the
text written last. -/
def State.Sees (L : Layout text limit size) (s : State) : Reading → Prop
  | .scan k => k ≤ L.last ∧ s.Kept L k ∧
    (s.quiet = true → s.todo = [] ∧ ∀ j, s.begun = j + 1 → k ≤ (text j).length)
  | .copy out left => out.length ≤ L.last ∧ s.Kept L out.length ∧
    (∀ i ∈ left, i < out.length) ∧ L.Fits left out ∧
    (s.quiet = true → s.todo = [] ∧ ∀ j, s.begun = j + 1 → out.length = (text j).length ∧
      ∀ i < out.length, i ∉ left → out[i]? = (text j)[i]?)

theorem State.Sees.of_noisy {r : Reading} (h : s.Sees L r) (hk : ∀ k, s.Kept L k → t.Kept L k)
    (hq : t.quiet = false) : t.Sees L r := by
  have hn {P : Prop} (hp : t.quiet = true) : P := by
    rw [hq] at hp
    cases hp
  cases r with
  | scan k =>
    obtain ⟨hle, hkept, -⟩ := h
    exact ⟨hle, hk _ hkept, hn⟩
  | copy line left =>
    obtain ⟨hle, hkept, hleft, hfits, -⟩ := h
    exact ⟨hle, hk _ hkept, hleft, hfits, hn⟩

structure Inv (L : Layout text limit size) (s : State) : Prop where
  no_fault : s.fault = none
  size_eq : s.mem.length = size
  begun_le : s.begun ≤ limit
  mem : ∀ i c, s.mem[i]? = some c → L.Allowed i c
  todo : ∀ c i, (c, i) ∈ s.todo →
    ∃ k < limit, s.begun = k + 1 ∧ (text k ++ [nul])[i]? = some c
  stored : ∀ k, s.begun = k + 1 → ∀ i c, (text k ++ [nul])[i]? = some c →
    s.mem[i]? = some c ∨ (c, i) ∈ s.todo
  reading : ∀ r, s.reading = some r → s.Sees L r
  lines : ∀ x ∈ s.lines, x.text.length ≤ L.last ∧ L.Fits [] x.text ∧
    (x.quiet = true → ∀ k, x.latest = k + 1 → x.text = text k)

theorem Inv.begin (h : Inv L s) (hb : s.begun < limit) : Inv L
    { s with begun := s.begun + 1, todo := (text s.begun ++ [nul]).zipIdx, quiet := false } where
  no_fault := h.no_fault
  size_eq := h.size_eq
  begun_le := hb
  mem := h.mem
  todo c i hm := ⟨s.begun, hb, rfl, List.mem_zipIdx_iff_getElem?.mp hm⟩
  stored k hk i c hc := by
    cases Nat.succ.inj hk
    exact .inr (List.mem_zipIdx_iff_getElem?.mpr hc)
  reading r hr := (h.reading r hr).of_noisy (fun _ hk => hk) rfl
  lines := h.lines

theorem Inv.store (h : Inv L s) (hm : (c, i) ∈ s.todo) : Inv L
    { s with mem := s.mem.set i c, todo := s.todo.erase (c, i), quiet := false } := by
  obtain ⟨k, hk, hb, hc⟩ := h.todo c i hm
  obtain ⟨hallowed, hsize, hstable⟩ := L.stored_allowed hk hc
  have hi : i < s.mem.length := h.size_eq ▸ hsize
  refine { h with
    size_eq := (List.length_set ..).trans h.size_eq, mem := ?_, todo := ?_, stored := ?_
    reading := ?_ }
  · intro j d hd
    rw [List.getElem?_set] at hd
    split at hd
    · rename_i hij
      cases hd
      exact hij ▸ hallowed
    · exact h.mem j d hd
  · intro d j hd
    exact h.todo d j (List.mem_of_mem_erase hd)
  · intro k' hk' j d hd
    obtain rfl : k = k' := Nat.succ.inj (hb.symm.trans hk')
    by_cases hij : i = j
    · -- a place has one character in the text
      subst hij
      cases hc.symm.trans hd
      exact .inl (List.getElem?_set_self hi)
    · rcases h.stored k hb j d hd with hmem | htodo
      · exact .inl ((List.getElem?_set_ne hij).trans hmem)
      · refine .inr ((List.mem_erase_of_ne ?_).mpr htodo)
        intro he
        exact hij (congrArg Prod.snd he).symm
  · intro r hr
    refine (h.reading r hr).of_noisy ?_ rfl
    intro m hkept j hj hlt
    by_cases hij : i = j
    · subst hij
      rw [List.getElem?_set_self hi]
      exact fun he => hstable hlt (Option.some.inj he)
    · rw [List.getElem?_set_ne hij]
      exact hkept j hj hlt

theorem Inv.settled {i : Nat} (h : Inv L s) (hk : s.begun = k + 1) (ht : s.todo = [])
    (hc : (text k ++ [nul])[i]? = some c) : s.mem[i]? = some c := by
  rcases h.stored k hk i c hc with hmem | htodo
  · exact hmem
  · rw [ht] at htodo
    cases htodo

theorem Inv.settled_text (h : Inv L s) (hk : s.begun = k + 1) (ht : s.todo = [])
    (hi : i < (text k).length) : s.mem[i]? = (text k)[i]? ∧ s.mem[i]? ≠ some nul := by
  have hget := List.getElem?_eq_getElem hi
  have hmem := h.settled hk ht (concat_getElem?.2 (.inl hget))
  have hlt : k < limit := by
    have hle := h.begun_le
    omega
  refine ⟨hmem.trans hget.symm, ?_⟩
  rw [hmem]
  exact fun he => (L.text_allowed hlt hget).2 (Option.some.inj he)

theorem Inv.pass (h : Inv L s) (hr : s.reading = some (.scan k)) (hc : s.mem[k]? = some c)
    (hne : c ≠ nul) : Inv L { s with reading := some (.scan (k + 1)) } := by
  obtain ⟨hle, hkept, hquiet⟩ := h.reading _ hr
  refine { h with reading := ?_ }
  intro r hr'
  cases hr'
  refine ⟨?_, ?_, ?_⟩
  · -- the last place holds a NUL
    rcases Nat.lt_or_eq_of_le hle with hlt | rfl
    · exact hlt
    · exact absurd (L.last_nul (h.mem _ _ hc)) hne
  · intro i hi hlt
    rcases Nat.lt_succ_iff_lt_or_eq.1 hi with hi | rfl
    · exact hkept i hi hlt
    · rw [hc]
      exact fun he => hne (Option.some.inj he)
  · intro hq
    obtain ⟨ht, htext⟩ := hquiet hq
    refine ⟨ht, ?_⟩
    intro j hj
    rcases Nat.lt_or_eq_of_le (htext j hj) with hlt | rfl
    · exact hlt
    · have hend := h.settled hj ht (concat_getElem?.2 (.inr ⟨rfl, rfl⟩))
      exact absurd (Option.some.inj (hc.symm.trans hend)) hne

theorem Inv.measured (h : Inv L s) (hr : s.reading = some (.scan k))
    (hc : s.mem[k]? = some nul) :
    Inv L { s with reading := some (.copy (List.replicate k nul) (List.range k)) } := by
  obtain ⟨hle, hkept, hquiet⟩ := h.reading _ hr
  refine { h with reading := ?_ }
  intro r hr'
  cases hr'
  refine ⟨?_, ?_, ?_, ?_, ?_⟩
  · rwa [List.length_replicate]
  · rwa [List.length_replicate]
  · intro i hi
    rwa [List.length_replicate, ← List.mem_range]
  · intro i c hi hleft
    have hlt := (List.getElem?_eq_some_iff.mp hi).1
    rw [List.length_replicate] at hlt
    exact absurd (List.mem_range.2 hlt) hleft
  · intro hq
    obtain ⟨ht, htext⟩ := hquiet hq
    refine ⟨ht, ?_⟩
    intro j hj
    rw [List.length_replicate]
    constructor
    · rcases Nat.lt_or_eq_of_le (htext j hj) with hlt | he
      · exact absurd hc (h.settled_text hj ht hlt).2
      · exact he
    · intro i hi hleft
      exact absurd (List.mem_range.2 hi) hleft

theorem Inv.copy (h : Inv L s) (hr : s.reading = some (.copy line left)) (hi : i ∈ left)
    (hc : s.mem[i]? = some c) :
    Inv L { s with reading := some (.copy (line.set i c) (left.erase i)) } := by
  obtain ⟨hle, hkept, hleft, hfits, hquiet⟩ := h.reading _ hr
  have hlen := hleft i hi
  refine { h with reading := ?_ }
  intro r hr'
  cases hr'
  refine ⟨?_, ?_, ?_, ?_, ?_⟩
  · rwa [List.length_set]
  · rwa [List.length_set]
  · intro j hj
    rw [List.length_set]
    exact hleft j (List.mem_of_mem_erase hj)
  · intro j d hj hout
    by_cases hij : i = j
    · subst hij
      rw [List.getElem?_set_self hlen] at hj
      cases hj
      refine ⟨h.mem _ _ hc, ?_⟩
      rintro hlt rfl
      exact hkept i hlen hlt hc
    · rw [List.getElem?_set_ne hij] at hj
      exact hfits j d hj fun hm => hout ((List.mem_erase_of_ne (Ne.symm hij)).2 hm)
  · intro hq
    obtain ⟨ht, htext⟩ := hquiet hq
    refine ⟨ht, ?_⟩
    intro k hk
    obtain ⟨heq, hsame⟩ := htext k hk
    rw [List.length_set]
    refine ⟨heq, ?_⟩
    intro j hj hout
    by_cases hij : i = j
    · subst hij
      rw [List.getElem?_set_self hlen, ← hc]
      exact (h.settled_text hk ht (heq ▸ hlen)).1
    · rw [List.getElem?_set_ne hij]
      exact hsame j hj fun hm => hout ((List.mem_erase_of_ne (Ne.symm hij)).2 hm)

theorem Inv.print (h : Inv L s) (hr : s.reading = some (.copy line [])) :
    Inv L { s with reading := none, lines := s.lines ++ [⟨line, s.quiet, s.begun⟩] } := by
  obtain ⟨hle, -, -, hfits, hquiet⟩ := h.reading _ hr
  refine { h with reading := fun r hr => (by cases hr), lines := ?_ }
  intro x hx
  rcases List.mem_append.mp hx with hx | hx
  · exact h.lines x hx
  · cases List.mem_singleton.mp hx
    refine ⟨hle, hfits, ?_⟩
    intro hq k hk
    obtain ⟨heq, hsame⟩ := (hquiet hq).2 k hk
    apply List.ext_getElem?
    intro i
    rcases Nat.lt_or_ge i line.length with hlt | hge
    · exact hsame i hlt List.not_mem_nil
    · rw [List.getElem?_eq_none hge, List.getElem?_eq_none (heq ▸ hge)]

theorem Step.inv (hst : Step text limit s t) (h : Inv L s) : Inv L t := by
  cases hst with
  | begin _ ht hb => exact h.begin hb
  | store _ hm _ => exact h.store hm
  | overrun _ hm hge =>
    obtain ⟨k, hk, -, hc⟩ := h.todo _ _ hm
    rw [h.size_eq] at hge
    exact absurd (L.stored_allowed hk hc).2.1 (Nat.not_lt.mpr hge)
  | start _ hs =>
    refine { h with reading := ?_ }
    intro r hr
    cases hr
    refine ⟨Nat.zero_le _, fun i hi => absurd hi (Nat.not_lt_zero i), ?_⟩
    intro hq
    exact ⟨of_decide_eq_true hq, fun j _ => Nat.zero_le _⟩
  | pass _ hr hc hne => exact h.pass hr hc hne
  | measured _ hr hc => exact h.measured hr hc
  | copy _ hr hi hc => exact h.copy hr hi hc
  | print _ hr => exact h.print hr
  | overread _ hr hc =>
    have hle := (h.reading _ hr).1
    have hlast := L.last_lt
    rw [List.getElem?_eq_none_iff, h.size_eq] at hc
    omega
  | overcopy _ hr hi hc =>
    obtain ⟨hle, -, hleft, -⟩ := h.reading _ hr
    have hlen := hleft _ hi
    have hlast := L.last_lt
    rw [List.getElem?_eq_none_iff, h.size_eq] at hc
    omega

theorem inv_of_reachable (h : (system text limit size L).Reachable s) : Inv L s := by
  refine h.invariant (fun s h0 => ?_) (fun _ _ _ hi hst => hst.inv hi)
  obtain ⟨hsize, hmem, hbegun, htodo, hreading, hlines, hfault⟩ := h0
  exact {
    no_fault := hfault
    size_eq := hsize
    begun_le := by omega
    mem := hmem
    todo := fun c i hm => by
      rw [htodo] at hm
      cases hm
    stored := fun k hk => by omega
    reading := fun r hr => by cases hreading.symm.trans hr
    lines := fun x hx => by
      rw [hlines] at hx
      cases hx }

end Apue.SharedText
