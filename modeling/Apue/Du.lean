import Apue.FileSystem

namespace Apue.Du
set_option autoImplicit true

/-- Why a call does not return: it ends the process, or it calls itself deeper than we look. -/
inductive Stop where
  | exit (status : Nat)
  | depth
  deriving DecidableEq

/-- The loop of str_ends_with with its index and the turns that are left. -/
def strEndsWithLoop (src suffix : List Char) : Nat → Nat → Bool
  | _, 0 => true
  | i, k + 1 =>
    if src[src.length - 1 - i]? ≠ suffix[suffix.length - 1 - i]? then false
    else strEndsWithLoop src suffix (i + 1) k

def strEndsWith (src suffix : List Char) : Bool :=
  if src.length < suffix.length then false else strEndsWithLoop src suffix 0 suffix.length

/-- Add up the results of the calls for a list of names, without those that are skipped. -/
def addAll (skip : List Char → Bool) (call : List Char → Except Stop UInt64) :
    UInt64 → List (List Char) → Except Stop UInt64
  | r, [] => .ok r
  | r, a :: l =>
    if skip a then addAll skip call r l
    else do
      let s ← call a
      addAll skip call (r + s) l

def blocksSize (st : Stat) : UInt64 := .ofNat (st.blocks * 512)

def isSpecial (name : List Char) : Bool := name == dot || name == dotdot

/-- The test of du_by_glob for a path that ends with /. or /.. -/
def endsSpecial (path : List Char) : Bool :=
  strEndsWith path ['/', '.'] || strEndsWith path ['/', '.', '.']

def du (fs : Fs) : Nat → List Char → Except Stop UInt64
  | 0, _ => .error .depth
  | fuel + 1, path =>
    match fs.lstat path with
    | none => .error (.exit 1)
    | some st =>
      let r := 0 + blocksSize st
      if !st.isDir then .ok r
      else
        match fs.opendir path with
        | none => .error (.exit 1)
        | some dir => addAll isSpecial (fun name => du fs fuel (path ++ '/' :: name)) r dir

def duByGlob (fs : Fs) : Nat → List Char → Except Stop UInt64
  | 0, _ => .error .depth
  | fuel + 1, path =>
    match fs.lstat path with
    | none => .error (.exit 1)
    | some st =>
      let r := 0 + blocksSize st
      if !st.isDir then .ok r
      else
        let g := fs.glob (path ++ ['/', '*']) ++ fs.glob (path ++ ['/', '.', '*'])
        addAll endsSpecial (duByGlob fs fuel) r g

/-- The call returns the value as soon as the recursion may be deep enough. -/
def Returns (call : Nat → Except Stop UInt64) (v : UInt64) : Prop :=
  ∃ k, ∀ fuel, k ≤ fuel → call fuel = .ok v

theorem Returns.unique (h : Returns f v) (h' : Returns f w) : v = w := by
  obtain ⟨k, hk⟩ := h
  obtain ⟨k', hk'⟩ := h'
  have hv := hk (max k k') (Nat.le_max_left _ _)
  rw [hk' (max k k') (Nat.le_max_right _ _)] at hv
  exact (Except.ok.inj hv).symm

theorem strEndsWithLoop_iff {src suffix : List Char} (h : i + k = suffix.length) :
    strEndsWithLoop src suffix i k = true ↔
      ∀ j, i ≤ j → j < suffix.length →
        src[src.length - 1 - j]? = suffix[suffix.length - 1 - j]? := by
  induction k generalizing i with
  | zero =>
    refine iff_of_true rfl fun j hi hj => ?_
    omega
  | succ k ih =>
    rw [strEndsWithLoop]
    split
    next hne =>
      refine iff_of_false (by decide) fun hall => hne ?_
      exact hall i (Nat.le_refl _) (by omega)
    next heq =>
      rw [ih (by omega)]
      constructor
      · intro hall j hi hj
        rcases Nat.eq_or_lt_of_le hi with rfl | hi
        · exact not_not.1 heq
        · exact hall j hi hj
      · intro hall j hi
        exact hall j (Nat.le_of_succ_le hi)

theorem strEndsWith_iff_suffix {src suffix : List Char} :
    strEndsWith src suffix = true ↔ suffix <:+ src := by
  rw [strEndsWith]
  split
  next hlt => exact iff_of_false (by decide) fun h => absurd h.length_le (Nat.not_le.2 hlt)
  next hle =>
    rw [strEndsWithLoop_iff (Nat.zero_add _)]
    constructor
    · intro hall
      have heq : suffix = src.drop (src.length - suffix.length) := by
        refine List.ext_getElem? fun i => ?_
        rw [List.getElem?_drop]
        by_cases hi : i < suffix.length
        · have h := hall (suffix.length - 1 - i) (Nat.zero_le _) (by omega)
          have hsrc : src.length - 1 - (suffix.length - 1 - i) =
            src.length - suffix.length + i := by omega
          have hsuf : suffix.length - 1 - (suffix.length - 1 - i) = i := by omega
          rw [hsrc, hsuf] at h
          exact h.symm
        · rw [List.getElem?_eq_none (by omega), List.getElem?_eq_none (by omega)]
      exact heq ▸ List.drop_suffix _ _
    · rintro ⟨p, rfl⟩ j - hj
      rw [List.getElem?_append_right (by rw [List.length_append]; omega)]
      congr 1
      rw [List.length_append]
      omega

theorem slash_suffix_iff {d e : List Char} (p : List Char) (hd : '/' ∉ d) (he : '/' ∉ e) :
    '/' :: d <:+ p ++ '/' :: e ↔ e = d := by
  constructor
  · rintro ⟨q, hq⟩
    have h := congrArg (List.splitOn '/') hq
    rw [Fs.splitOn_child q hd, Fs.splitOn_child p he] at h
    exact (List.append_singleton_inj.1 h).2.symm
  · rintro rfl
    exact List.suffix_append _ _

theorem endsSpecial_child {e : List Char} (p : List Char) (he : '/' ∉ e) :
    endsSpecial (p ++ '/' :: e) = isSpecial e := by
  have h : ∀ d, '/' ∉ d → strEndsWith (p ++ '/' :: e) ('/' :: d) = (e == d) := by
    intro d hd
    rw [Bool.eq_iff_iff, strEndsWith_iff_suffix, slash_suffix_iff p hd he, beq_iff_eq]
  rw [endsSpecial, isSpecial, ← h dot (by decide), ← h dotdot (by decide)]
  rfl

theorem addAll_ok {l : List (List Char)} {g : List Char → Nat}
    (h : ∀ a ∈ l, skip a = false → call a = .ok (.ofNat (g a))) (x : Nat) :
    addAll skip call (.ofNat x) l =
      .ok (.ofNat (x + ((l.filter fun a => !skip a).map g).sum)) := by
  induction l generalizing x with
  | nil => rfl
  | cons a l ih =>
    have hl : ∀ b ∈ l, skip b = false → call b = .ok (.ofNat (g b)) := fun b hb =>
      h b (List.mem_cons_of_mem _ hb)
    cases ha : skip a with
    | true => simp only [addAll, ha, if_true, ih hl, List.filter_cons, Bool.not_true]; rfl
    | false =>
      simp only [addAll, ha, h a List.mem_cons_self ha, List.filter_cons, Bool.not_false, if_true,
        List.map_cons, List.sum_cons, ← Nat.add_assoc]
      rw [← ih hl (x + g a), UInt64.ofNat_add]
      rfl

variable {fs : Fs} {loc : Location} {path : List Char}

def sizeOf (fs : Fs) (loc : Location) : Nat := ((fs.root.get? loc).map Tree.total).getD 0 * 512

def sizeAt (fs : Fs) (path : List Char) : Nat := ((fs.locate path).map (sizeOf fs)).getD 0

theorem lstat_eq (hp : fs.locate path = some loc) (ht : fs.root.get? loc = some t) :
    fs.lstat path = some t.stat := by
  rw [Fs.lstat, hp, Option.bind_some, ht, Option.map_some]

theorem sizeOf_eq (ht : fs.root.get? loc = some t) : sizeOf fs loc = t.total * 512 := by
  rw [sizeOf, ht, Option.map_some, Option.getD_some]

theorem sizeAt_eq (hp : fs.locate path = some loc) : sizeAt fs path = sizeOf fs loc := by
  rw [sizeAt, hp, Option.map_some, Option.getD_some]

theorem not_isSpecial (n : FileName) : isSpecial n.val = false := by
  simp [isSpecial, n.ne_dot, n.ne_dotdot]

theorem filter_readdir (hd : fs.root.get? loc = some (.dir b es)) :
    ((fs.readdir loc).filter fun e => !isSpecial e).Perm (Tree.names es) := by
  refine ((fs.readdir_perm hd).filter _).trans (List.Perm.of_eq ?_)
  have hnames : ∀ n ∈ Tree.names es, (!isSpecial n) = true := by
    intro n hn
    obtain ⟨m, -, rfl⟩ := List.mem_map.1 hn
    rw [not_isSpecial, Bool.not_false]
  exact List.filter_eq_self.2 hnames

theorem get?_entry (hd : fs.root.get? loc = some (.dir b es)) (he : e ∈ es) :
    fs.root.get? (loc ++ [e.1.val]) = some e.2 := by
  rw [Tree.get?_child hd, Tree.find_of_mem (fs.distinct loc b es hd) he]

theorem locate_entry (hp : fs.locate path = some loc)
    (hd : fs.root.get? loc = some (.dir b es)) (he : e ∈ es) :
    fs.locate (path ++ '/' :: e.1.val) = some (loc ++ [e.1.val]) ∧
      fs.root.get? (loc ++ [e.1.val]) = some e.2 :=
  ⟨Fs.locate_child hp hd (List.mem_map_of_mem he), get?_entry hd he⟩

theorem sum_sizeOf (hd : fs.root.get? loc = some (.dir b es)) :
    ((Tree.names es).map fun n => sizeOf fs (loc ++ [n])).sum = Tree.totals es * 512 := by
  have hmap : (Tree.names es).map (fun n => sizeOf fs (loc ++ [n])) =
      es.map fun e => e.2.total * 512 := by
    rw [Tree.names, List.map_map]
    apply List.map_congr_left
    intro e he
    exact sizeOf_eq (get?_entry hd he)
  rw [hmap, Tree.sum_total_mul]

theorem sum_sizeAt (hp : fs.locate path = some loc)
    (hd : fs.root.get? loc = some (.dir b es)) :
    ((Tree.names es).map fun n => sizeAt fs (path ++ '/' :: n)).sum = Tree.totals es * 512 := by
  rw [← sum_sizeOf hd]
  congr 1
  apply List.map_congr_left
  intro n hn
  exact sizeAt_eq (Fs.locate_child hp hd hn)

theorem du_eq (hp : fs.locate path = some loc) (ht : fs.root.get? loc = some t)
    (hf : t.height < fuel) : du fs fuel path = .ok (.ofNat (t.total * 512)) := by
  induction fuel generalizing t loc path with
  | zero => cases hf
  | succ fuel ih =>
    simp only [du, lstat_eq hp ht]
    cases t with
    | file b => simp [Tree.stat, blocksSize, Tree.total]
    | link b target => simp [Tree.stat, blocksSize, Tree.total]
    | dir b es =>
      have hopen : fs.opendir path = some (fs.readdir loc) := by
        obtain ⟨hne, hr⟩ := Fs.resolve_of_locate hp ⟨b, es, ht⟩
        rw [Fs.opendir, if_neg hne, hr, Option.bind_some, if_pos ⟨b, es, ht⟩]
      have hcalls : ∀ n ∈ fs.readdir loc, isSpecial n = false →
          du fs fuel (path ++ '/' :: n) = .ok (.ofNat (sizeAt fs (path ++ '/' :: n))) := by
        intro n hn hs
        have hmem := (filter_readdir ht).mem_iff.1 (List.mem_filter.2 ⟨hn, by rw [hs]; rfl⟩)
        obtain ⟨e, he, rfl⟩ := List.mem_map.1 hmem
        obtain ⟨hpath, hchild⟩ := locate_entry hp ht he
        have hlt := Tree.height_lt_of_mem he
        rw [Tree.height] at hf
        rw [sizeAt_eq hpath, sizeOf_eq hchild, ih hpath hchild (by omega)]
      simp only [hopen, Tree.stat, blocksSize, UInt64.zero_add]
      rw [if_neg (by simp), addAll_ok hcalls, ((filter_readdir ht).map _).sum_eq,
        sum_sizeAt hp ht, Tree.total, Nat.add_mul]

end Apue.Du
