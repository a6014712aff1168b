import Mathlib.Algebra.Ring.Nat
import Mathlib.Algebra.BigOperators.Group.List.Basic
import Mathlib.Data.List.Nodup
import Mathlib.Data.List.Perm.Basic

namespace Apue
set_option autoImplicit true

def dot : List Char := ['.']

def dotdot : List Char := ['.', '.']

/-- The name of a directory entry other than the two that every directory has. -/
@[ext]
structure FileName where
  val : List Char
  ne_nil : val ≠ []
  no_slash : '/' ∉ val
  no_nul : '\x00' ∉ val
  ne_dot : val ≠ dot
  ne_dotdot : val ≠ dotdot
  deriving DecidableEq

abbrev Location : Type := List (List Char)

/-- A file, a symbolic link with what it leads to in the end, or a directory with its entries. -/
inductive Tree where
  | file (blocks : Nat)
  | link (blocks : Nat) (target : Option Location)
  | dir (blocks : Nat) (entries : List (FileName × Tree))

structure Stat where
  blocks : Nat
  isDir : Bool

namespace Tree

def stat : Tree → Stat
  | file b => ⟨b, false⟩
  | link b _ => ⟨b, false⟩
  | dir b _ => ⟨b, true⟩

def names (es : List (FileName × Tree)) : List (List Char) := es.map fun e => e.1.val

def find : List (FileName × Tree) → List Char → Option Tree
  | [], _ => none
  | e :: es, n => if e.1.val = n then some e.2 else find es n

def get? : Tree → Location → Option Tree
  | t, [] => some t
  | file _, _ :: _ => none
  | link _ _, _ :: _ => none
  | dir _ es, n :: loc => (find es n).bind fun t => t.get? loc

def IsDir (t : Tree) (loc : Location) : Prop := ∃ b es, t.get? loc = some (dir b es)

instance (t : Tree) (loc : Location) : Decidable (t.IsDir loc) :=
  match h : t.get? loc with
  | some (dir b es) => isTrue ⟨b, es, h⟩
  | some (file b) => isFalse fun ⟨_, _, hd⟩ => by cases h.symm.trans hd
  | some (link b l) => isFalse fun ⟨_, _, hd⟩ => by cases h.symm.trans hd
  | none => isFalse fun ⟨_, _, hd⟩ => by cases h.symm.trans hd

def children (t : Tree) (loc : Location) : List (List Char) :=
  match t.get? loc with
  | some (dir _ es) => names es
  | _ => []

mutual

def total : Tree → Nat
  | file b => b
  | link b _ => b
  | dir b es => b + totals es

def totals : List (FileName × Tree) → Nat
  | [] => 0
  | e :: es => total e.2 + totals es

end

mutual

def height : Tree → Nat
  | file _ => 0
  | link _ _ => 0
  | dir _ es => heights es

def heights : List (FileName × Tree) → Nat
  | [] => 0
  | e :: es => max (height e.2 + 1) (heights es)

end

def Distinct (t : Tree) : Prop :=
  ∀ loc b es, t.get? loc = some (dir b es) → (names es).Nodup

theorem get?_append (t : Tree) (p q : Location) :
    t.get? (p ++ q) = (t.get? p).bind fun u => u.get? q := by
  induction p generalizing t with
  | nil => rfl
  | cons n p ih =>
    cases t with
    | file b => rfl
    | link b l => rfl
    | dir b es =>
      simp only [List.cons_append, get?]
      cases find es n with
      | none => rfl
      | some u => exact ih u

theorem get?_child (h : get? t loc = some (dir b es)) (n : List Char) :
    t.get? (loc ++ [n]) = find es n := by
  rw [get?_append, h, Option.bind_some, get?]
  cases find es n <;> rfl

theorem find_of_mem {es : List (FileName × Tree)} (hn : (names es).Nodup) (h : e ∈ es) :
    find es e.1.val = some e.2 := by
  induction es with
  | nil => cases h
  | cons d es ih =>
    obtain ⟨hd, hn⟩ := List.nodup_cons.1 hn
    rw [find]
    rcases List.mem_cons.1 h with rfl | h
    · exact if_pos rfl
    · have hne : d.1.val ≠ e.1.val := fun he =>
        hd (List.mem_map.2 ⟨e, h, he.symm⟩)
      rw [if_neg hne, ih hn h]

theorem exists_mem_of_find (h : find es n = some t) : ∃ e ∈ es, e.1.val = n ∧ e.2 = t := by
  induction es with
  | nil => cases h
  | cons d es ih =>
    rw [find] at h
    split at h
    next hd => exact ⟨d, List.mem_cons_self, hd, Option.some.inj h⟩
    next =>
      obtain ⟨e, he, hn, ht⟩ := ih h
      exact ⟨e, List.mem_cons_of_mem _ he, hn, ht⟩

theorem exists_mem_of_get? (h : get? (dir b es) (n :: loc) = some t) :
    ∃ e ∈ es, e.1.val = n ∧ e.2.get? loc = some t := by
  obtain ⟨u, hu, h⟩ := Option.bind_eq_some_iff.1 h
  obtain ⟨e, he, hn, rfl⟩ := exists_mem_of_find hu
  exact ⟨e, he, hn, h⟩

theorem distinct_file (b : Nat) : (file b).Distinct := by
  intro loc b' es h
  cases loc <;> cases h

theorem distinct_dir (hn : (names es).Nodup) (h : ∀ e ∈ es, e.2.Distinct) :
    (dir b es).Distinct := by
  intro loc b' es' hd
  cases loc with
  | nil => cases hd; exact hn
  | cons n loc =>
    obtain ⟨e, he, -, hd⟩ := exists_mem_of_get? hd
    exact h e he loc b' es' hd

theorem exists_find (h : n ∈ names es) : ∃ t, find es n = some t := by
  induction es with
  | nil => cases h
  | cons d es ih =>
    rw [find]
    split
    next => exact ⟨_, rfl⟩
    next hd => exact ih ((List.mem_cons.1 h).resolve_left (Ne.symm hd))

theorem height_lt_of_mem {es : List (FileName × Tree)} (h : e ∈ es) :
    e.2.height < heights es := by
  induction es with
  | nil => cases h
  | cons d es ih =>
    rw [heights]
    rcases List.mem_cons.1 h with rfl | h
    · omega
    · have := ih h
      omega

theorem sum_total_mul (es : List (FileName × Tree)) (k : Nat) :
    (es.map fun e => e.2.total * k).sum = totals es * k := by
  induction es with
  | nil => exact (Nat.zero_mul k).symm
  | cons e es ih => rw [totals, Nat.add_mul, List.map_cons, List.sum_cons, ih]

theorem children_eq (h : get? t loc = some (dir b es)) : t.children loc = names es := by
  rw [children, h]

theorem IsDir.of_append (h : IsDir t (p ++ q)) (hq : q ≠ []) : IsDir t p := by
  obtain ⟨b, es, h⟩ := h
  rw [get?_append] at h
  obtain ⟨u, hu, h⟩ := Option.bind_eq_some_iff.1 h
  obtain ⟨n, q, rfl⟩ := List.exists_cons_of_ne_nil hq
  cases u with
  | file b => cases h
  | link b l => cases h
  | dir b es => exact ⟨b, es, hu⟩

/-- A directory has a property that its entries hand on. -/
@[elab_as_elim]
theorem entries_induction {P : Tree → Prop} (file : ∀ b, P (file b))
    (link : ∀ b target, P (link b target))
    (dir : ∀ b es, (∀ e ∈ es, P e.2) → P (dir b es)) (t : Tree) : P t := by
  induction hn : t.height using Nat.strongRecOn generalizing t with
  | _ n ih =>
    cases t with
    | file b => exact file b
    | link b target => exact link b target
    | dir b es =>
      refine dir b es ?_
      intro e he
      have hlt : e.2.height < n := by
        rw [← hn, height]
        exact height_lt_of_mem he
      exact ih _ hlt e.2 rfl

mutual

/-- The locations of a file and of all files below it, as seen from the file. -/
def locations : Tree → List Location
  | file _ => [[]]
  | link _ _ => [[]]
  | dir _ es => [] :: locationsIn es

def locationsIn : List (FileName × Tree) → List Location
  | [] => []
  | e :: es => (locations e.2).map (e.1.val :: ·) ++ locationsIn es

end

theorem locationsIn_eq (es : List (FileName × Tree)) :
    locationsIn es = es.flatMap fun e => e.2.locations.map (e.1.val :: ·) := by
  induction es with
  | nil => rfl
  | cons e es ih => rw [locationsIn, List.flatMap_cons, ih]

def blocksAt (t : Tree) (loc : Location) : Nat := ((t.get? loc).map fun u => u.stat.blocks).getD 0

theorem Distinct.names (h : (dir b es).Distinct) : (names es).Nodup := h [] b es rfl

theorem Distinct.get?_entry (h : (dir b es).Distinct) (he : e ∈ es) (loc : Location) :
    get? (dir b es) (e.1.val :: loc) = e.2.get? loc := by
  rw [get?, find_of_mem h.names he, Option.bind_some]

theorem Distinct.entry (h : (dir b es).Distinct) (he : e ∈ es) : e.2.Distinct := by
  intro loc b' es' hd
  exact h (e.1.val :: loc) b' es' ((h.get?_entry he loc).trans hd)

theorem mem_locations_leaf {t : Tree} (h : t.locations = [[]])
    (hleaf : ∀ n loc, t.get? (n :: loc) = none) : loc ∈ t.locations ↔ ∃ u, t.get? loc = some u := by
  rw [h, List.mem_singleton]
  cases loc with
  | nil => exact iff_of_true rfl ⟨t, by cases t <;> rfl⟩
  | cons n loc =>
    rw [hleaf]
    exact iff_of_false nofun nofun

theorem mem_locations {t : Tree} (h : t.Distinct) :
    loc ∈ t.locations ↔ ∃ u, t.get? loc = some u := by
  induction t using entries_induction generalizing loc with
  | file b => exact mem_locations_leaf rfl fun n loc => rfl
  | link b target => exact mem_locations_leaf rfl fun n loc => rfl
  | dir b es ih =>
    rw [locations, locationsIn_eq]
    cases loc with
    | nil => exact iff_of_true List.mem_cons_self ⟨_, rfl⟩
    | cons n loc =>
      simp only [List.mem_cons, reduceCtorEq, false_or, List.mem_flatMap, List.mem_map,
        List.cons.injEq]
      constructor
      · rintro ⟨e, he, l, hl, rfl, rfl⟩
        obtain ⟨u, hu⟩ := (ih e he (h.entry he)).1 hl
        exact ⟨u, (h.get?_entry he l).trans hu⟩
      · rintro ⟨u, hu⟩
        obtain ⟨e, he, hn, hu⟩ := exists_mem_of_get? hu
        exact ⟨e, he, loc, (ih e he (h.entry he)).2 ⟨u, hu⟩, hn, rfl⟩

theorem nodup_locations {t : Tree} (h : t.Distinct) : t.locations.Nodup := by
  induction t using entries_induction with
  | file b => exact List.nodup_singleton _
  | link b target => exact List.nodup_singleton _
  | dir b es ih =>
    rw [locations, locationsIn_eq, List.nodup_cons, List.nodup_flatMap]
    refine ⟨?_, ?_, ?_⟩
    · simp
    · intro e he
      exact (ih e he (h.entry he)).map (List.cons_injective)
    · -- locations below two entries differ in their first name
      refine (List.pairwise_map.1 h.names).imp ?_
      intro e e' hne
      refine List.disjoint_left.2 ?_
      intro l hl hl'
      obtain ⟨k, -, rfl⟩ := List.mem_map.1 hl
      obtain ⟨k', -, he⟩ := List.mem_map.1 hl'
      exact hne (List.cons.inj he).1.symm

theorem sum_blocksIn (es : List (FileName × Tree)) (f : Location → Nat)
    (h : ∀ e ∈ es, ((e.2.locations.map (e.1.val :: ·)).map f).sum = e.2.total) :
    ((locationsIn es).map f).sum = totals es := by
  induction es with
  | nil => rfl
  | cons e es ih =>
    rw [locationsIn, List.map_append, List.sum_append, totals, h e List.mem_cons_self,
      ih fun e' he => h e' (List.mem_cons_of_mem e he)]

theorem total_eq_sum {t : Tree} (h : t.Distinct) :
    t.total = (t.locations.map t.blocksAt).sum := by
  induction t using entries_induction with
  | file b => simp [total, locations, blocksAt, get?, stat]
  | link b target => simp [total, locations, blocksAt, get?, stat]
  | dir b es ih =>
    have hroot : blocksAt (dir b es) [] = b := rfl
    rw [total, locations, List.map_cons, List.sum_cons, hroot, sum_blocksIn]
    intro e he
    rw [ih e he (h.entry he), List.map_map]
    congr 1
    refine List.map_congr_left ?_
    intro l _
    rw [Function.comp_apply, blocksAt, h.get?_entry he, blocksAt]

mutual

/-- The same tree with other block counts. -/
def reblock (w : Location → Nat) : Tree → Tree
  | file _ => file (w [])
  | link _ target => link (w []) target
  | dir _ es => dir (w []) (reblockIn w es)

def reblockIn (w : Location → Nat) : List (FileName × Tree) → List (FileName × Tree)
  | [] => []
  | e :: es => (e.1, reblock (fun loc => w (e.1.val :: loc)) e.2) :: reblockIn w es

end

@[simp] theorem names_reblockIn (w : Location → Nat) (es : List (FileName × Tree)) :
    names (reblockIn w es) = names es := by
  induction es with
  | nil => rfl
  | cons e es ih =>
    rw [reblockIn]
    exact congrArg (e.1.val :: ·) ih

theorem find_reblockIn (w : Location → Nat) (es : List (FileName × Tree)) (n : List Char) :
    find (reblockIn w es) n = (find es n).map (reblock fun loc => w (n :: loc)) := by
  induction es with
  | nil => rfl
  | cons e es ih =>
    rw [reblockIn, find, find]
    split
    next h =>
      subst h
      rfl
    next => exact ih

theorem get?_reblock (w : Location → Nat) (t : Tree) (loc : Location) :
    (t.reblock w).get? loc = (t.get? loc).map (reblock fun l => w (loc ++ l)) := by
  induction loc generalizing t w with
  | nil => cases t <;> rfl
  | cons n loc ih =>
    cases t with
    | file b => rfl
    | link b target => rfl
    | dir b es =>
      rw [reblock, get?, get?, find_reblockIn]
      cases find es n with
      | none => rfl
      | some u => exact ih (fun l => w (n :: l)) u

theorem get?_reblock_dir {t : Tree} (w : Location → Nat) (h : t.get? loc = some (dir b es)) :
    (t.reblock w).get? loc = some (dir (w loc) (reblockIn (fun l => w (loc ++ l)) es)) := by
  rw [get?_reblock, h, Option.map_some, reblock, List.append_nil]

theorem exists_of_get?_reblock {t : Tree} {w : Location → Nat}
    (h : (t.reblock w).get? loc = some (dir b es)) :
    ∃ b' es', t.get? loc = some (dir b' es') ∧ names es = names es' := by
  rw [get?_reblock] at h
  obtain ⟨u, hu, h⟩ := Option.map_eq_some_iff.1 h
  cases u with
  | file b' => cases h
  | link b' target => cases h
  | dir b' es' =>
    cases h
    exact ⟨b', es', hu, names_reblockIn _ es'⟩

@[simp] theorem isDir_reblock {t : Tree} {w : Location → Nat} :
    (t.reblock w).IsDir loc ↔ t.IsDir loc := by
  constructor
  · rintro ⟨b, es, h⟩
    obtain ⟨b', es', h, -⟩ := exists_of_get?_reblock h
    exact ⟨b', es', h⟩
  · rintro ⟨b, es, h⟩
    exact ⟨_, _, get?_reblock_dir w h⟩

theorem Distinct.reblock {t : Tree} (h : t.Distinct) (w : Location → Nat) :
    (t.reblock w).Distinct := by
  intro loc b es hd
  obtain ⟨b', es', hd, hn⟩ := exists_of_get?_reblock hd
  rw [hn]
  exact h loc b' es' hd

theorem totals_reblockIn (w : Location → Nat) (es : List (FileName × Tree))
    (h : ∀ e ∈ es, ∀ w : Location → Nat, (e.2.reblock w).total = (e.2.locations.map w).sum) :
    totals (reblockIn w es) = ((locationsIn es).map w).sum := by
  induction es with
  | nil => rfl
  | cons e es ih =>
    rw [reblockIn, totals, locationsIn, List.map_append, List.sum_append, List.map_map,
      h e List.mem_cons_self, ih fun e' he => h e' (List.mem_cons_of_mem e he)]
    rfl

theorem total_reblock (w : Location → Nat) (t : Tree) :
    (t.reblock w).total = (t.locations.map w).sum := by
  induction t using entries_induction generalizing w with
  | file b => exact (List.sum_singleton).symm
  | link b target => exact (List.sum_singleton).symm
  | dir b es ih =>
    rw [reblock, total, locations, List.map_cons, List.sum_cons, totals_reblockIn w es ih]

end Tree
end Apue
