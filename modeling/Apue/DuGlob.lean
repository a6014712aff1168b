import Apue.Du
import Mathlib.Algebra.BigOperators.Ring.List

namespace Apue.Du
set_option autoImplicit true

variable {fs : Fs} {loc : Location} {path : List Char}

/-- The paths for which du_by_glob calls itself: the entries of every directory that the path
matches as a pattern. -/
def globbed (fs : Fs) (path : List Char) : List (List Char) :=
  (fs.dirs (fs.start path) (path.splitOn '/')).flatMap fun r =>
    (fs.root.children r.2).map fun n => ['/'].intercalate r.1 ++ '/' :: n

/-- The two patterns, for the visible entries of one directory and for the hidden ones, give each
entry once. -/
theorem entries_perm (hd : fs.root.get? loc = some (.dir b es)) (p : List Char) :
    (((fs.candidates loc ['*']).map (fun e => p ++ '/' :: e) ++
      (fs.candidates loc ['.', '*']).map (fun e => p ++ '/' :: e)).filter
        fun q => !endsSpecial q).Perm ((Tree.names es).map fun n => p ++ '/' :: n) := by
  have hall : (fs.candidates loc ['*'] ++ fs.candidates loc ['.', '*']).Perm
      (fs.readdir loc) := by
    simp only [Fs.candidates, List.cons_ne_nil, if_false,
      funext Glob.fnmatch_star, funext Glob.fnmatch_period_star]
    exact List.perm_append_comm.trans (List.filter_append_perm _ _)
  have hskip : (fs.readdir loc).filter ((fun q => !endsSpecial q) ∘ fun e => p ++ '/' :: e) =
      (fs.readdir loc).filter fun e => !isSpecial e := by
    refine List.filter_congr fun e he => ?_
    exact congrArg not (endsSpecial_child p (Fs.ne_nil_of_readdir hd he).2)
  rw [← List.map_append, List.filter_map]
  refine List.Perm.map _ ((hall.filter _).trans ?_)
  rw [hskip]
  exact filter_readdir hd

theorem glob_kept_perm (hp : path ≠ []) :
    ((fs.glob (path ++ ['/', '*']) ++ fs.glob (path ++ ['/', '.', '*'])).filter
      fun q => !endsSpecial q).Perm (globbed fs path) := by
  have hglob := (fs.glob_perm hp (c := ['*']) (by decide)).append
    (fs.glob_perm hp (c := ['.', '*']) (by decide))
  refine ((hglob.trans (List.flatMap_append_perm _ _ _)).filter _).trans ?_
  rw [List.filter_flatMap]
  refine List.Perm.flatMap_left _ fun r hr => ?_
  obtain ⟨b, es, hd⟩ := Fs.isDir_of_mem_dirs (fs.isDir_start path) hr
  have hne : r.1 ≠ [] := Fs.ne_nil_of_mem_dirs (List.splitOn_ne_nil _ _) hr
  simp only [Fs.intercalate_concat hne, Tree.children_eq hd]
  exact entries_perm hd _

theorem ne_nil_of_locate (hp : fs.locate path = some loc) : path ≠ [] := by
  rintro rfl
  cases hp

theorem duByGlob_leaf (hp : fs.locate path = some loc) (ht : fs.root.get? loc = some t)
    (hs : t.stat = ⟨b, false⟩) : duByGlob fs (fuel + 1) path = .ok (.ofNat (b * 512)) := by
  simp only [duByGlob, lstat_eq hp ht, hs]
  simp [blocksSize]

theorem duByGlob_dir (hp : fs.locate path = some loc)
    (hd : fs.root.get? loc = some (.dir b es)) : duByGlob fs (fuel + 1) path =
      addAll endsSpecial (duByGlob fs fuel) (.ofNat (b * 512))
        (fs.glob (path ++ ['/', '*']) ++ fs.glob (path ++ ['/', '.', '*'])) := by
  simp only [duByGlob, lstat_eq hp hd, Tree.stat, blocksSize, UInt64.zero_add]
  exact if_neg (by simp)

theorem mem_globbed (hp : path ≠ []) (hq : endsSpecial q = false)
    (h : q ∈ fs.glob (path ++ ['/', '*']) ++ fs.glob (path ++ ['/', '.', '*'])) :
    q ∈ globbed fs path :=
  (glob_kept_perm hp).mem_iff.1 (List.mem_filter.2 ⟨h, by rw [hq]; rfl⟩)

theorem duByGlob_eq_sum (hp : fs.locate path = some loc)
    (hd : fs.root.get? loc = some (.dir b es))
    (hg : ∀ q ∈ globbed fs path, duByGlob fs fuel q = .ok (.ofNat (g q))) :
    duByGlob fs (fuel + 1) path =
      .ok (.ofNat (b * 512 + ((globbed fs path).map g).sum)) := by
  have hne := ne_nil_of_locate hp
  rw [duByGlob_dir hp hd, addAll_ok fun q hq hs => hg q (mem_globbed hne hs hq),
    ((glob_kept_perm hne).map g).sum_eq]

/-- The entries that those paths lead to. -/
def targets (fs : Fs) (path : List Char) : List Location :=
  (fs.dirs (fs.start path) (path.splitOn '/')).flatMap fun r =>
    (fs.root.children r.2).map fun n => r.2 ++ [n]

theorem locate_globbed (hp : path ≠ []) :
    (globbed fs path).map fs.locate = (targets fs path).map some := by
  rw [globbed, targets, List.map_flatMap, List.map_flatMap]
  apply List.flatMap_congr
  intro r hr
  rw [List.map_map, List.map_map]
  apply List.map_congr_left
  intro n hn
  exact Fs.locate_of_mem_dirs hp hr hn

theorem exists_target (hp : path ≠ []) (hq : q ∈ globbed fs path) :
    ∃ l ∈ targets fs path, fs.locate q = some l := by
  have hmem : fs.locate q ∈ (globbed fs path).map fs.locate := List.mem_map_of_mem hq
  rw [locate_globbed hp] at hmem
  obtain ⟨l, hl, he⟩ := List.mem_map.1 hmem
  exact ⟨l, hl, he.symm⟩

theorem exists_of_target (hl : l ∈ targets fs path) : ∃ t, fs.root.get? l = some t := by
  obtain ⟨r, hr, hl⟩ := List.mem_flatMap.1 hl
  obtain ⟨n, hn, rfl⟩ := List.mem_map.1 hl
  obtain ⟨b, es, hd⟩ := Fs.isDir_of_mem_dirs (fs.isDir_start path) hr
  rw [Tree.children_eq hd] at hn
  obtain ⟨t, ht⟩ := Tree.exists_find hn
  exact ⟨t, (Tree.get?_child hd n).trans ht⟩

theorem sum_sizeAt_globbed (hp : path ≠ []) :
    ((globbed fs path).map (sizeAt fs)).sum = ((targets fs path).map (sizeOf fs)).sum := by
  have hsize : sizeAt fs = (fun o => (o.map (sizeOf fs)).getD 0) ∘ fs.locate := rfl
  rw [hsize, ← List.map_map, locate_globbed hp, List.map_map]
  rfl

/-- The directories with entries that a path leads to as a pattern. -/
def matched (fs : Fs) (path : List Char) : List Location :=
  ((fs.dirs (fs.start path) (path.splitOn '/')).map Prod.snd).filter fun l =>
    fs.root.children l ≠ []

/-- As a pattern, a path to a directory leads to no other one with entries, and there once. -/
def OnlyItself (fs : Fs) (path : List Char) : Prop :=
  ∀ loc, fs.locate path = some loc → fs.root.IsDir loc →
    matched fs path = [loc].filter fun l => fs.root.children l ≠ []

inductive Called (fs : Fs) (path : List Char) : List Char → Prop
  | self : Called fs path path
  | child {p q : List Char} {l : Location} (hp : Called fs path p) (hl : fs.locate p = some l)
      (hd : fs.root.IsDir l) (hq : q ∈ globbed fs p) : Called fs path q

theorem Called.trans (hq : Called fs path q) (hr : Called fs q r) : Called fs path r := by
  induction hr with
  | self => exact hq
  | child hp hl hd hr ih => exact ih.child hl hd hr

theorem targets_eq_matched (fs : Fs) (path : List Char) : targets fs path =
    (matched fs path).flatMap fun l => (fs.root.children l).map fun n => l ++ [n] := by
  rw [matched, flatMap_filter, List.flatMap_map, targets]
  intro l hl
  have hnil : fs.root.children l = [] := by simpa using hl
  rw [hnil, List.map_nil]

theorem OnlyItself.targets_eq (h : OnlyItself fs path) (hp : fs.locate path = some loc)
    (hd : fs.root.get? loc = some (.dir b es)) :
    targets fs path = (Tree.names es).map fun n => loc ++ [n] := by
  rw [targets_eq_matched, h loc hp ⟨b, es, hd⟩, flatMap_filter, List.flatMap_singleton,
    Tree.children_eq hd]
  intro l hl
  have hnil : fs.root.children l = [] := by simpa using hl
  rw [hnil, List.map_nil]

theorem duByGlob_eq (h : ∀ q, Called fs path q → OnlyItself fs q)
    (hp : fs.locate path = some loc) (ht : fs.root.get? loc = some t) (hf : t.height < fuel) :
    duByGlob fs fuel path = .ok (.ofNat (t.total * 512)) := by
  induction fuel generalizing t loc path with
  | zero => cases hf
  | succ fuel ih =>
    cases t with
    | file b => exact duByGlob_leaf hp ht rfl
    | link b target => exact duByGlob_leaf hp ht rfl
    | dir b es =>
      have hne := ne_nil_of_locate hp
      have htargets := (h path .self).targets_eq hp ht
      have hcalls : ∀ q ∈ globbed fs path, duByGlob fs fuel q = .ok (.ofNat (sizeAt fs q)) := by
        intro q hq
        obtain ⟨l, hl, hlq⟩ := exists_target hne hq
        rw [htargets] at hl
        obtain ⟨n, hn, rfl⟩ := List.mem_map.1 hl
        obtain ⟨e, he, rfl⟩ := List.mem_map.1 hn
        have hchild := get?_entry ht he
        have hlt := Tree.height_lt_of_mem he
        rw [Tree.height] at hf
        have hcalled : Called fs path q := Called.self.child hp ⟨b, es, ht⟩ hq
        rw [sizeAt_eq hlq, sizeOf_eq hchild]
        exact ih (fun r hr => h r (hcalled.trans hr)) hlq hchild (by omega)
      have hsum : ((Tree.names es).map (sizeOf fs ∘ fun n => loc ++ [n])).sum =
          Tree.totals es * 512 := sum_sizeOf ht
      rw [duByGlob_eq_sum hp ht hcalls, sum_sizeAt_globbed hne, htargets, List.map_map, hsum,
        Tree.total, Nat.add_mul]

theorem onlyItself_of_literal (h : fs.Literal) (path : List Char) : OnlyItself fs path := by
  intro loc hp hd
  have hr := (Fs.resolve_of_locate hp hd).2
  rw [matched, h.dirs_eq hr (fs.isDir_start path) hd]
  rfl

def Agree (fs : Fs) (path : List Char) : Prop :=
  ∃ v, Returns (fun fuel => du fs fuel path) v ∧ Returns (fun fuel => duByGlob fs fuel path) v

theorem agree_iff (hp : fs.locate path = some loc) (ht : fs.root.get? loc = some t) :
    Agree fs path ↔ Returns (fun fuel => duByGlob fs fuel path) (.ofNat (t.total * 512)) := by
  have hdu : Returns (fun fuel => du fs fuel path) (.ofNat (t.total * 512)) :=
    ⟨t.height + 1, fun fuel hf => du_eq hp ht hf⟩
  constructor
  · rintro ⟨v, hv, hg⟩
    rwa [hdu.unique hv]
  · exact fun hg => ⟨_, hdu, hg⟩

theorem agree_of_onlyItself (h : ∀ q, Called fs path q → OnlyItself fs q)
    (hp : fs.locate path = some loc) (ht : fs.root.get? loc = some t) : Agree fs path :=
  (agree_iff hp ht).2 ⟨t.height + 1, fun _ hf => duByGlob_eq h hp ht hf⟩

theorem locate_root (fs : Fs) : fs.locate ['/'] = some [] := by
  have hsplit : ['/'].splitOn '/' = [[], []] := by decide
  have hstep := Fs.step_dot fs.isDir_root (.inl rfl)
  have henter := Fs.enter_dir hstep fs.isDir_root
  simp [Fs.locate, Fs.start, hsplit, Fs.resolve, henter, hstep]

section
variable (fs : Fs) (w : Location → Nat) (path : List Char)

@[simp] theorem globbed_reblock : globbed (fs.reblock w) path = globbed fs path := by
  simp only [globbed, Fs.dirs_reblock, Fs.children_reblock]
  rfl

@[simp] theorem targets_reblock : targets (fs.reblock w) path = targets fs path := by
  simp only [targets, Fs.dirs_reblock, Fs.children_reblock]
  rfl

theorem onlyItself_reblock : OnlyItself (fs.reblock w) path ↔ OnlyItself fs path := by
  simp only [OnlyItself, matched, Fs.locate_reblock, Fs.isDir_reblock, Fs.dirs_reblock,
    Fs.children_reblock]
  rfl

theorem called_of_reblock (h : Called (fs.reblock w) path q) : Called fs path q := by
  induction h with
  | self => exact .self
  | child hp hl hd hq ih =>
    rw [Fs.locate_reblock] at hl
    rw [globbed_reblock] at hq
    exact ih.child hl ((fs.isDir_reblock w).1 hd) hq

end

theorem exists_of_called (hp : (fs.lstat path).isSome) (hq : Called fs path q) :
    ∃ loc t, fs.locate q = some loc ∧ fs.root.get? loc = some t := by
  cases hq with
  | self =>
    obtain ⟨st, hst⟩ := Option.isSome_iff_exists.1 hp
    obtain ⟨t, ht, -⟩ := Option.map_eq_some_iff.1 hst
    obtain ⟨loc, hl, ht⟩ := Option.bind_eq_some_iff.1 ht
    exact ⟨loc, t, hl, ht⟩
  | child hp hl hd hq =>
    obtain ⟨l, hl, hlq⟩ := exists_target (ne_nil_of_locate hl) hq
    obtain ⟨t, ht⟩ := exists_of_target hl
    exact ⟨l, t, hlq, ht⟩

def one (x : Location) : Location → Nat := fun l => if l = x then 1 else 0

theorem sizeOf_one (ht : fs.root.get? loc = some t) (hx : fs.root.get? x = some u) :
    sizeOf (fs.reblock (one x)) loc = (if loc <+: x then 1 else 0) * 512 := by
  have hd : t.Distinct := by
    intro l b es h
    exact fs.distinct (loc ++ l) b es (by rw [Tree.get?_append, ht, Option.bind_some, h])
  have ht' := fs.get?_reblock (one x) loc
  rw [ht, Option.map_some] at ht'
  rw [sizeOf_eq ht', Tree.total_reblock]
  congr 1
  split
  next h =>
    obtain ⟨y, rfl⟩ := h
    have hy : y ∈ t.locations := by
      rw [Tree.get?_append, ht, Option.bind_some] at hx
      exact (Tree.mem_locations hd).2 ⟨u, hx⟩
    have hone : t.locations.map (fun l => one (loc ++ y) (loc ++ l)) =
        t.locations.map fun l => if l = y then 1 else 0 := by
      simp only [one, List.append_cancel_left_eq]
    have hcount := List.count_eq_one_of_mem (Tree.nodup_locations hd) hy
    rw [hone, sum_ite_eq_countP, ← hcount, List.count_eq_countP]
    exact List.countP_congr fun l _ => by simp
  next h =>
    apply List.sum_eq_zero
    intro k hk
    obtain ⟨l, -, rfl⟩ := List.mem_map.1 hk
    exact if_neg fun he => h ⟨l, he⟩

theorem exists_fuel {l : List (List Char)} {g : List Char → UInt64}
    (h : ∀ q ∈ l, Returns (fun fuel => duByGlob fs fuel q) (g q)) :
    ∃ k, ∀ fuel, k ≤ fuel → ∀ q ∈ l, duByGlob fs fuel q = .ok (g q) := by
  induction l with
  | nil => exact ⟨0, fun fuel _ q hq => by cases hq⟩
  | cons p l ih =>
    obtain ⟨k, hk⟩ := h p List.mem_cons_self
    obtain ⟨m, hm⟩ := ih fun q hq => h q (List.mem_cons_of_mem p hq)
    refine ⟨max k m, ?_⟩
    intro fuel hf q hq
    rcases List.mem_cons.1 hq with rfl | hq
    · exact hk fuel ((Nat.le_max_left k m).trans hf)
    · exact hm fuel ((Nat.le_max_right k m).trans hf) q hq

theorem returns_sum (h : ∀ q ∈ globbed fs path, Agree fs q) (hp : fs.locate path = some loc)
    (hd : fs.root.get? loc = some (.dir b es)) : Returns (fun fuel => duByGlob fs fuel path)
      (.ofNat (b * 512 + ((targets fs path).map (sizeOf fs)).sum)) := by
  have hne := ne_nil_of_locate hp
  have hret : ∀ q ∈ globbed fs path,
      Returns (fun fuel => duByGlob fs fuel q) (.ofNat (sizeAt fs q)) := by
    intro q hq
    obtain ⟨l, hl, hlq⟩ := exists_target hne hq
    obtain ⟨t, ht⟩ := exists_of_target hl
    rw [sizeAt_eq hlq, sizeOf_eq ht]
    exact (agree_iff hlq ht).1 (h q hq)
  obtain ⟨k, hk⟩ := exists_fuel hret
  refine ⟨k + 1, ?_⟩
  intro fuel hf
  obtain ⟨m, rfl⟩ := Nat.exists_eq_add_of_le' hf
  exact (duByGlob_eq_sum hp hd (hk (m + k) (Nat.le_add_left k m))).trans
    (by rw [sum_sizeAt_globbed hne])

theorem ofNat_mul_inj (hx : x < 2 ^ 32) (hy : y < 2 ^ 32)
    (h : UInt64.ofNat (x * 512) = UInt64.ofNat (y * 512)) : x = y := by
  have hnat := congrArg UInt64.toNat h
  rw [UInt64.toNat_ofNat', UInt64.toNat_ofNat', Nat.mod_eq_of_lt (by omega),
    Nat.mod_eq_of_lt (by omega)] at hnat
  omega

/-- How often du_by_glob counts a block that it comes to in at most one more call. -/
theorem count_targets (h : ∀ q ∈ globbed fs path, Agree (fs.reblock (one x)) q)
    (hself : Agree (fs.reblock (one x)) path) (hp : fs.locate path = some loc)
    (hd : fs.root.get? loc = some (.dir b es)) (hx : fs.root.get? x = some u)
    (hc : (targets fs path).length < 2 ^ 31) :
    one x loc + (targets fs path).countP (· <+: x) = if loc <+: x then 1 else 0 := by
  have hp' : (fs.reblock (one x)).locate path = some loc := by rwa [Fs.locate_reblock]
  have hd' : (fs.reblock (one x)).root.get? loc = some (.dir (one x loc) _) :=
    Tree.get?_reblock_dir (one x) hd
  rw [← globbed_reblock fs (one x) path] at h
  have hsum := returns_sum h hp' hd'
  have htotal := (agree_iff hp' hd').1 hself
  rw [← sizeOf_eq hd', sizeOf_one hd hx] at htotal
  have hsizes : ((targets (fs.reblock (one x)) path).map (sizeOf (fs.reblock (one x)))).sum =
      (targets fs path).countP (· <+: x) * 512 := by
    rw [targets_reblock, ← sum_ite_eq_countP, ← List.sum_map_mul_right]
    apply congrArg List.sum
    apply List.map_congr_left
    intro l hl
    obtain ⟨t, ht⟩ := exists_of_target hl
    exact sizeOf_one ht hx
  rw [hsizes, ← Nat.add_mul] at hsum
  have hle := List.countP_le_length (p := fun l => decide (l <+: x)) (l := targets fs path)
  apply ofNat_mul_inj _ _ (hsum.unique htotal)
  · have hone : one x loc ≤ 1 := by
      rw [one]
      split <;> omega
    omega
  · split <;> omega

section
variable {t : Tree} {T : List Location}

theorem get?_of_prefix (h : p <+: y) (hy : Tree.get? t y = some u) : ∃ v, t.get? p = some v := by
  obtain ⟨r, rfl⟩ := h
  rw [Tree.get?_append] at hy
  obtain ⟨v, hv, -⟩ := Option.bind_eq_some_iff.1 hy
  exact ⟨v, hv⟩

theorem eq_of_countP_one {p : α → Bool} {l : List α} (h : l.countP p = 1) (hx : x ∈ l)
    (hy : y ∈ l) (hpx : p x = true) (hpy : p y = true) : x = y := by
  rw [List.countP_eq_length_filter] at h
  obtain ⟨a, ha⟩ := List.length_eq_one_iff.1 h
  have hxa : x ∈ l.filter p := List.mem_filter.2 ⟨hx, hpx⟩
  have hya : y ∈ l.filter p := List.mem_filter.2 ⟨hy, hpy⟩
  rw [ha] at hxa hya
  exact (List.mem_singleton.1 hxa).trans (List.mem_singleton.1 hya).symm

/-- If each block below a directory is counted once and no other, then only its entries are. -/
theorem child_of_count (hT : ∀ y ∈ T, ∃ u, t.get? y = some u)
    (h : ∀ x u, t.get? x = some u →
      one x loc + T.countP (· <+: x) = if loc <+: x then 1 else 0) (hy : y ∈ T) :
    ∃ n, y = loc ++ [n] := by
  have hbelow (z : Location) (hz : z ∈ T) : loc <+: z ∧ loc ≠ z := by
    obtain ⟨u, hu⟩ := hT z hz
    have hcount := h z u hu
    have hpos : 0 < T.countP (· <+: z) :=
      List.countP_pos_iff.2 ⟨z, hz, decide_eq_true (List.prefix_refl z)⟩
    constructor
    · by_contra hn
      rw [if_neg hn] at hcount
      omega
    · rintro rfl
      rw [if_pos (List.prefix_refl loc), one, if_pos rfl] at hcount
      omega
  have honce {x : Location} {u : Tree} (hx : t.get? x = some u) (hl : loc <+: x) (hne : loc ≠ x) :
      T.countP (· <+: x) = 1 := by
    have hcount := h x u hx
    rwa [if_pos hl, one, if_neg hne, Nat.zero_add] at hcount
  obtain ⟨⟨r, rfl⟩, hne⟩ := hbelow y hy
  cases r with
  | nil => exact absurd (List.append_nil loc).symm hne
  | cons n r =>
    obtain ⟨u, hu⟩ := hT _ hy
    have hpre : loc ++ [n] <+: loc ++ n :: r := ⟨r, by simp⟩
    obtain ⟨v, hv⟩ := get?_of_prefix hpre hu
    -- the entry above is counted, and with it all that is below it
    have hentry := honce hv (List.prefix_append loc [n]) (by simp)
    obtain ⟨z, hz, hzn⟩ := List.countP_pos_iff.1 (hentry ▸ Nat.one_pos)
    have hzn : z <+: loc ++ [n] := of_decide_eq_true hzn
    have hzy := eq_of_countP_one (honce hu (List.prefix_append loc _) hne) hz hy
      (decide_eq_true (hzn.trans hpre)) (decide_eq_true (List.prefix_refl _))
    rw [hzy] at hzn
    exact ⟨n, hpre.eq_of_length_le hzn.length_le |>.symm⟩

end

theorem onlyItself_of_agree (hp : fs.locate path = some loc)
    (hd : fs.root.get? loc = some (.dir b es)) (hc : (targets fs path).length < 2 ^ 31)
    (h : ∀ q w, q = path ∨ q ∈ globbed fs path → Agree (fs.reblock w) q) :
    matched fs path = [loc].filter fun l => fs.root.children l ≠ [] := by
  have hcount : ∀ x u, fs.root.get? x = some u →
      one x loc + (targets fs path).countP (· <+: x) = if loc <+: x then 1 else 0 := by
    intro x u hx
    exact count_targets (fun q hq => h q _ (.inr hq)) (h path _ (.inl rfl)) hp hd hx hc
  have hchild {y : Location} : y ∈ targets fs path → ∃ n, y = loc ++ [n] :=
    child_of_count (fun y hy => exists_of_target hy) hcount
  have hloc : ∀ l ∈ matched fs path, l = loc := by
    intro l hl
    have hne : fs.root.children l ≠ [] := of_decide_eq_true (List.mem_filter.1 hl).2
    obtain ⟨n, hn⟩ := List.exists_mem_of_ne_nil _ hne
    have hmem : l ++ [n] ∈ targets fs path := by
      rw [targets_eq_matched]
      exact List.mem_flatMap.2 ⟨l, hl, List.mem_map_of_mem hn⟩
    obtain ⟨m, hm⟩ := hchild hmem
    exact (List.append_inj' hm rfl).1
  by_cases hnil : fs.root.children loc = []
  · rw [List.filter_cons_of_neg (by simp [hnil]), List.filter_nil, List.eq_nil_iff_forall_not_mem]
    intro l hl
    have hne : fs.root.children l ≠ [] := of_decide_eq_true (List.mem_filter.1 hl).2
    exact hne (hloc l hl ▸ hnil)
  · have hrep := List.eq_replicate_iff.2 ⟨rfl, hloc⟩
    obtain ⟨n, hn⟩ := List.exists_mem_of_ne_nil _ hnil
    rw [Tree.children_eq hd] at hn
    obtain ⟨u, hu⟩ := Tree.exists_find hn
    have hentry := hcount (loc ++ [n]) u ((Tree.get?_child hd n).trans hu)
    rw [if_pos (List.prefix_append loc [n]), one, if_neg (by simp), Nat.zero_add,
      targets_eq_matched, hrep, List.countP_flatMap, List.map_replicate,
      List.sum_replicate_nat] at hentry
    rw [List.filter_cons_of_pos (by simpa using hnil), List.filter_nil, hrep,
      Nat.eq_one_of_mul_eq_one_right hentry]
    rfl

def starName : FileName :=
  ⟨['*'], by decide, by decide, by decide, by decide, by decide⟩

def aName : FileName :=
  ⟨['a'], by decide, by decide, by decide, by decide, by decide⟩

def fileName : FileName :=
  ⟨['f'], by decide, by decide, by decide, by decide, by decide⟩

/-- A root with a directory * and a directory a, the latter with a file of one block. -/
def starTree : Tree :=
  .dir 0 [(starName, .dir 0 []), (aName, .dir 0 [(fileName, .file 1)])]

theorem starTree_distinct : starTree.Distinct := by
  apply Tree.distinct_dir (by decide)
  intro e he
  rcases List.mem_pair.1 he with rfl | rfl
  · exact Tree.distinct_dir List.nodup_nil nofun
  · apply Tree.distinct_dir
    · exact List.nodup_singleton _
    · intro e he
      cases List.mem_singleton.1 he
      exact Tree.distinct_file 1

def starFs : Fs := .ofRoot starTree ⟨_, _, rfl⟩ starTree_distinct

/-- Whatever the block counts, du_by_glob returns what du does just if each path, as a pattern,
leads to itself only. -/
theorem du_agree_iff (fs : Fs) (path : List Char) (hp : (fs.lstat path).isSome)
    (hc : ∀ q, Called fs path q → (globbed fs q).length < 2 ^ 31) :
    (∀ q w, Called fs path q → Agree (fs.reblock w) q) ↔
      ∀ q, Called fs path q → OnlyItself fs q := by
  constructor
  · intro h q hq loc hl hd
    obtain ⟨b, es, hdir⟩ := hd
    have hlen : (globbed fs q).length = (targets fs q).length := by
      rw [← List.length_map fs.locate, locate_globbed (ne_nil_of_locate hl), List.length_map]
    apply onlyItself_of_agree hl hdir (hlen ▸ hc q hq)
    rintro r w (rfl | hr)
    · exact h r w hq
    · exact h r w (hq.child hl ⟨b, es, hdir⟩ hr)
  · intro h q w hq
    obtain ⟨loc, t, hl, ht⟩ := exists_of_called hp hq
    have hl' : (fs.reblock w).locate q = some loc := by rwa [Fs.locate_reblock]
    have ht' := fs.get?_reblock w loc
    rw [ht, Option.map_some] at ht'
    refine agree_of_onlyItself ?_ hl' ht'
    intro r hr
    exact (onlyItself_reblock fs w r).2 (h r (hq.trans (called_of_reblock fs w q hr)))

theorem starFs_called (h : Called starFs ['/', 'a'] q) :
    q = ['/', 'a'] ∨ q = ['/', 'a', '/', 'f'] := by
  induction h with
  | self => exact .inl rfl
  | child hp hl hd hq ih =>
    rcases ih with rfl | rfl
    · exact .inr (List.mem_singleton.1 hq)
    · cases hl
      exact absurd hd (by decide)

/-- From the directory a the two agree, for all that * is beside it. -/
theorem du_agree_beside_star : (∀ q, Called starFs ['/', 'a'] q → OnlyItself starFs q) ∧
    ∀ q w, Called starFs ['/', 'a'] q → Agree (starFs.reblock w) q := by
  have hshort : ∀ q, Called starFs ['/', 'a'] q → (globbed starFs q).length < 2 ^ 31 := by
    intro q hq
    rcases starFs_called hq with rfl | rfl <;> decide
  have honly : ∀ q, Called starFs ['/', 'a'] q → OnlyItself starFs q := by
    intro q hq loc hl hd
    rcases starFs_called hq with rfl | rfl
    · cases hl
      rfl
    · cases hl
      exact absurd hd (by decide)
  exact ⟨honly, (du_agree_iff starFs ['/', 'a'] rfl hshort).2 honly⟩

/-- With directories * and a below the root, du_by_glob counts the file of a twice. -/
theorem star_counted_twice :
    Returns (fun fuel => du starFs fuel ['/']) 512 ∧
      Returns (fun fuel => duByGlob starFs fuel ['/']) 1024 := by
  constructor
  · exact ⟨3, fun fuel hf => du_eq (locate_root _) rfl hf⟩
  · refine ⟨3, ?_⟩
    intro fuel hf
    obtain ⟨k, rfl⟩ := Nat.exists_eq_add_of_le' hf
    rfl

end Apue.Du
