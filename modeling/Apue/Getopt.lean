import Mathlib.Data.List.Basic
import Mathlib.Data.List.TakeWhile

namespace Apue.Getopt
set_option autoImplicit true

/-- An element of argv, without its NUL. -/
abbrev Word := List Char

/-- An option: a character of optstring, or an index into the table of the long options. -/
inductive Name where
  | short (c : Char)
  | long (i : Nat)
  deriving DecidableEq, Repr

inductive Found where
  | option (n : Name) (optarg : Option Word)
  /-- The result '?': an unknown or ambiguous option, an argument that is missing or not allowed -/
  | invalid
  /-- The result 1: an element that is no option -/
  | operand (w : Word)
  deriving DecidableEq, Repr

/-- An element that is no option ends the scan, is moved to the end of argv, or is reported. -/
inductive Ordering where
  | requireOrder
  | permute
  | returnInOrder
  deriving DecidableEq, Repr

structure LongOption where
  name : Word
  hasArg : Bool
  deriving DecidableEq, Repr

/-- The arguments of getopt_long. An optstring without the characters for the ordering and without
optional arguments; getopt has no long options. -/
structure Grammar where
  ordering : Ordering
  short : List Char
  long : List LongOption
  no_dash : '-' ∉ short

/-- strchr on optstring: whether the option takes an argument. -/
def takesArg (short : List Char) (c : Char) : Option Bool :=
  match short.dropWhile (· ≠ c) with
  | [] => none
  | _ :: rest => if c = ':' ∨ c = ';' then none else some (rest.head? = some ':')

/-- The characters of one element after its dash, and the option whose argument is the next
element. -/
def cluster (short : List Char) : List Char → List Found × Option Name
  | [] => ([], none)
  | c :: cs =>
    match takesArg short c with
    | none => (.invalid :: (cluster short cs).1, (cluster short cs).2)
    | some false => (.option (.short c) none :: (cluster short cs).1, (cluster short cs).2)
    | some true =>
      if cs = [] then ([], some (.short c)) else ([.option (.short c) (some cs)], none)

/-- The index of the option with this name, or of the first one with a longer name when all of those
agree. -/
def lookup (long : List LongOption) (name : Word) : Option Nat :=
  match long.findIdx? (·.name = name) with
  | some i => some i
  | none =>
    match long.zipIdx.filter fun o => name.isPrefixOf o.1.name with
    | [] => none
    | o :: os => if os.all fun p => p.1.hasArg = o.1.hasArg then some o.2 else none

def hasArg (long : List LongOption) (i : Nat) : Bool := (long[i]?.map LongOption.hasArg).getD false

/-- An element after its two dashes. -/
def longOption (long : List LongOption) (cs : List Char) : List Found × Option Name :=
  match lookup long (cs.takeWhile (· ≠ '=')) with
  | none => ([.invalid], none)
  | some i =>
    match cs.dropWhile (· ≠ '=') with
    | [] => if hasArg long i then ([], some (.long i)) else ([.option (.long i) none], none)
    | _ :: value =>
      if hasArg long i then ([.option (.long i) (some value)], none) else ([.invalid], none)

namespace Grammar

/-- An element that starts with a dash and has more characters than that. -/
def element (g : Grammar) : Word → Option (List Found × Option Name)
  | '-' :: '-' :: cs =>
    some (if g.long = [] then cluster g.short ('-' :: cs) else longOption g.long cs)
  | '-' :: c :: cs => some (cluster g.short (c :: cs))
  | _ => none

/-- The results of all calls until -1, where an option may wait for its argument. -/
def scan (g : Grammar) : Option Name → List Word → List Found
  | some _, [] => [.invalid]
  | some n, w :: ws => .option n (some w) :: scan g none ws
  | none, [] => []
  | none, w :: ws =>
    if w = ['-', '-'] then []
    else
      match g.element w with
      | some (found, pending) => found ++ scan g pending ws
      | none =>
        match g.ordering with
        | .requireOrder => []
        | .permute => scan g none ws
        | .returnInOrder => .operand w :: scan g none ws

variable {g : Grammar}

theorem element_some (h : g.element w = some r) :
    (∃ cs, w = '-' :: cs ∧ cs ≠ [] ∧ r = cluster g.short cs) ∨
      ∃ cs, w = '-' :: '-' :: cs ∧ r = longOption g.long cs := by
  unfold element at h
  split at h
  · split at h
    · exact .inl ⟨_, rfl, by simp, (Option.some.inj h).symm⟩
    · exact .inr ⟨_, rfl, (Option.some.inj h).symm⟩
  · exact .inl ⟨_, rfl, by simp, (Option.some.inj h).symm⟩
  · cases h

/-- optarg is set just for the options that take an argument, and an index is one into the table. -/
def Sound (g : Grammar) : Found → Prop
  | .option (.short c) optarg => takesArg g.short c = some optarg.isSome
  | .option (.long i) optarg => i < g.long.length ∧ hasArg g.long i = optarg.isSome
  | .invalid => True
  | .operand _ => g.ordering = .returnInOrder

def Awaits (g : Grammar) (pending : Option Name) : Prop :=
  ∀ n ∈ pending, ∀ v, g.Sound (.option n (some v))

theorem cluster_sound (g : Grammar) (cs : List Char) :
    (∀ f ∈ (cluster g.short cs).1, g.Sound f) ∧ g.Awaits (cluster g.short cs).2 := by
  induction cs with
  | nil => exact ⟨fun f hf => (by cases hf), fun n hn => (by cases hn)⟩
  | cons c cs ih =>
    rw [cluster]
    cases hc : takesArg g.short c with
    | none =>
      refine ⟨fun f hf => ?_, ih.2⟩
      rcases List.mem_cons.mp hf with rfl | hf
      · trivial
      · exact ih.1 f hf
    | some b =>
      cases b with
      | false =>
        refine ⟨fun f hf => ?_, ih.2⟩
        rcases List.mem_cons.mp hf with rfl | hf
        · exact hc
        · exact ih.1 f hf
      | true =>
        simp only
        split
        · refine ⟨fun f hf => (by cases hf), fun n hn v => ?_⟩
          cases hn
          exact hc
        · refine ⟨fun f hf => ?_, fun n hn => (by cases hn)⟩
          cases List.mem_singleton.mp hf
          exact hc

theorem lookup_lt {long : List LongOption} (h : lookup long name = some i) : i < long.length := by
  unfold lookup at h
  split at h
  · next hi =>
    cases h
    exact (List.findIdx?_eq_some_iff_findIdx_eq.mp hi).1
  · split at h
    · cases h
    · next o os hfilter =>
      split at h
      · cases h
        have hmem : o ∈ long.zipIdx.filter fun o => name.isPrefixOf o.1.name := by
          rw [hfilter]
          exact List.mem_cons_self
        exact List.snd_lt_of_mem_zipIdx (List.mem_filter.mp hmem).1
      · cases h

theorem longOption_sound (g : Grammar) (cs : List Char) :
    (∀ f ∈ (longOption g.long cs).1, g.Sound f) ∧ g.Awaits (longOption g.long cs).2 := by
  rw [longOption]
  split
  · exact ⟨fun f hf => (by cases List.mem_singleton.mp hf; trivial), fun n hn => (by cases hn)⟩
  · next i hl =>
    have hlt := lookup_lt hl
    split
    · split
      · next harg =>
        refine ⟨fun f hf => (by cases hf), fun n hn v => ?_⟩
        cases hn
        exact ⟨hlt, harg⟩
      · next harg =>
        refine ⟨fun f hf => ?_, fun n hn => (by cases hn)⟩
        cases List.mem_singleton.mp hf
        exact ⟨hlt, Bool.eq_false_iff.mpr harg⟩
    · split
      · next harg =>
        refine ⟨fun f hf => ?_, fun n hn => (by cases hn)⟩
        cases List.mem_singleton.mp hf
        exact ⟨hlt, harg⟩
      · refine ⟨fun f hf => ?_, fun n hn => (by cases hn)⟩
        cases List.mem_singleton.mp hf
        trivial

theorem element_sound (h : g.element w = some r) :
    (∀ f ∈ r.1, g.Sound f) ∧ g.Awaits r.2 := by
  rcases element_some h with ⟨cs, -, -, rfl⟩ | ⟨cs, -, rfl⟩
  · exact cluster_sound g cs
  · exact longOption_sound g cs

theorem mem_scan (h : f ∈ g.scan pending ws) :
    f = .invalid ∨ (g.ordering = .returnInOrder ∧ ∃ w, f = .operand w) ∨
    (∃ w ∈ ws, ∃ r, g.element w = some r ∧ f ∈ r.1) ∨
    ∃ n, ∃ v ∈ ws, f = .option n (some v) ∧
      (pending = some n ∨ ∃ w found, g.element w = some (found, some n)) := by
  induction ws generalizing pending with
  | nil =>
    cases pending with
    | none => cases h
    | some n => exact .inl (List.mem_singleton.mp h)
  | cons w ws ih =>
    -- what holds of the results for the elements that follow
    have hrest : ∀ {p}, (∀ n, p = some n → ∃ w found, g.element w = some (found, some n)) →
        f ∈ g.scan p ws → f = .invalid ∨ (g.ordering = .returnInOrder ∧ ∃ w, f = .operand w) ∨
        (∃ u ∈ w :: ws, ∃ r, g.element u = some r ∧ f ∈ r.1) ∨
        ∃ n, ∃ v ∈ w :: ws, f = .option n (some v) ∧
          (pending = some n ∨ ∃ w found, g.element w = some (found, some n)) := by
      intro p hp hf
      rcases ih hf with hf | hf | ⟨u, hu, hf⟩ | ⟨n, v, hv, hf, hn⟩
      · exact .inl hf
      · exact .inr (.inl hf)
      · exact .inr (.inr (.inl ⟨u, List.mem_cons_of_mem w hu, hf⟩))
      · refine .inr (.inr (.inr ⟨n, v, List.mem_cons_of_mem w hv, hf, .inr ?_⟩))
        exact hn.elim (hp n) id
    have hnone : ∀ n, none = some n → ∃ w found, g.element w = some (found, some n) := by
      intro n hn
      cases hn
    cases pending with
    | some n =>
      rw [scan] at h
      rcases List.mem_cons.mp h with rfl | h
      · exact .inr (.inr (.inr ⟨n, w, List.mem_cons_self, rfl, .inl rfl⟩))
      · exact hrest hnone h
    | none =>
      rw [scan] at h
      split at h
      · cases h
      · split at h
        · next found p he =>
          rcases List.mem_append.mp h with h | h
          · exact .inr (.inr (.inl ⟨w, List.mem_cons_self, _, he, h⟩))
          · refine hrest ?_ h
            rintro n rfl
            exact ⟨w, found, he⟩
        · split at h
          · cases h
          · exact hrest hnone h
          · next ho =>
            rcases List.mem_cons.mp h with rfl | h
            · exact .inr (.inl ⟨ho, w, rfl⟩)
            · exact hrest hnone h

theorem sound_of_mem_scan (h : f ∈ g.scan none ws) : g.Sound f := by
  rcases mem_scan h with
    rfl | ⟨ho, w, rfl⟩ | ⟨w, -, r, he, hf⟩ | ⟨n, v, -, rfl, hn | ⟨w, found, he⟩⟩
  · trivial
  · exact ho
  · exact (element_sound he).1 f hf
  · cases hn
  · exact (element_sound he).2 n rfl v

theorem suffix_of_mem_cluster (h : .option n (some v) ∈ (cluster g.short cs).1) : v <:+ cs := by
  induction cs with
  | nil => cases h
  | cons c cs ih =>
    rw [cluster] at h
    split at h
    · have hm := (List.mem_cons.mp h).resolve_left fun he => (by cases he)
      exact (ih hm).trans (List.suffix_cons c cs)
    · have hm := (List.mem_cons.mp h).resolve_left fun he => (by cases he)
      exact (ih hm).trans (List.suffix_cons c cs)
    · split at h
      · cases h
      · cases List.mem_singleton.mp h
        exact List.suffix_cons c v

theorem suffix_of_mem_longOption (h : .option n (some v) ∈ (longOption g.long cs).1) :
    v <:+ cs := by
  rw [longOption] at h
  split at h
  · cases List.mem_singleton.mp h
  · split at h
    · split at h
      · cases h
      · cases List.mem_singleton.mp h
    · next d value hd =>
      have hs : d :: value <:+ cs := hd ▸ List.dropWhile_suffix _
      split at h
      · cases List.mem_singleton.mp h
        exact (List.suffix_cons d v).trans hs
      · cases List.mem_singleton.mp h

theorem suffix_of_mem_scan (h : .option n (some v) ∈ g.scan none ws) : ∃ w ∈ ws, v <:+ w := by
  rcases mem_scan h with hf | ⟨-, w, hf⟩ | ⟨w, hw, r, he, hf⟩ | ⟨m, u, hu, hf, -⟩
  · cases hf
  · cases hf
  · refine ⟨w, hw, ?_⟩
    rcases element_some he with ⟨cs, rfl, -, rfl⟩ | ⟨cs, rfl, rfl⟩
    · exact (suffix_of_mem_cluster hf).trans (List.suffix_cons _ _)
    · exact (suffix_of_mem_longOption hf).trans ⟨['-', '-'], rfl⟩
  · cases hf
    exact ⟨v, hu, List.suffix_refl v⟩

end Grammar

def Found.value? (c : Char) : Found → Option Word
  | .option (.short d) optarg => if d = c then optarg else none
  | _ => none

def Found.names (c : Char) : Found → Bool
  | .option (.short d) _ => d = c
  | _ => false

/-- The argument that an option was given last. -/
def lastValue (c : Char) (fs : List Found) : Option Word := (fs.filterMap (·.value? c)).getLast?

theorem lastValue_cons (c : Char) (f : Found) (fs : List Found) :
    lastValue c (f :: fs) = (lastValue c fs).or (f.value? c) := by
  rw [lastValue, lastValue, List.filterMap_cons]
  cases f.value? c with
  | none => exact (Option.or_none).symm
  | some v =>
    simp only [List.getLast?_cons]
    cases (fs.filterMap (·.value? c)).getLast? with
    | none => rfl
    | some u => rfl

theorem mem_of_lastValue (h : lastValue c fs = some v) : .option (.short c) (some v) ∈ fs := by
  obtain ⟨f, hf, hv⟩ := List.mem_filterMap.mp (List.mem_of_getLast? h)
  unfold Found.value? at hv
  split at hv
  · next d optarg =>
    split at hv
    · next hd =>
      rw [hd, hv] at hf
      exact hf
    · cases hv
  · cases hv

end Apue.Getopt
