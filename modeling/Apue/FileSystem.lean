import Apue.FileTree
import Apue.Glob
import Apue.Lists

namespace Apue
set_option autoImplicit true

/-- A tree with a current directory, the order in which readdir lists each directory, and the
order in which glob sorts path names. -/
structure Fs where
  root : Tree
  cwd : Location
  readdir : Location → List (List Char)
  sort : List (List Char) → List (List Char)
  distinct : root.Distinct
  cwd_dir : root.IsDir cwd
  readdir_perm : ∀ {loc b es}, root.get? loc = some (.dir b es) →
    (readdir loc).Perm (dot :: dotdot :: Tree.names es)
  sort_perm : ∀ l, (sort l).Perm l

namespace Fs

def ofRoot (root : Tree) (hd : root.IsDir []) (hn : root.Distinct) : Fs where
  root := root
  cwd := []
  readdir loc := dot :: dotdot :: root.children loc
  sort := id
  distinct := hn
  cwd_dir := hd
  readdir_perm h := by rw [Tree.children_eq h]
  sort_perm l := List.Perm.refl l

/-- The file that a component of a path leads to from a directory. -/
def step (fs : Fs) (loc : Location) (c : List Char) : Option Location :=
  match fs.root.get? loc with
  | some (.dir _ es) =>
    if c = [] ∨ c = dot then some loc
    else if c = dotdot then some loc.dropLast
    else if (Tree.find es c).isSome then some (loc ++ [c])
    else none
  | _ => none

def follow (fs : Fs) (loc : Location) : Option Location :=
  match fs.root.get? loc with
  | some (.link _ target) => target
  | _ => some loc

def enter (fs : Fs) (loc : Location) (c : List Char) : Option Location :=
  (fs.step loc c).bind fs.follow

/-- Where components lead to with all links followed. -/
def resolve (fs : Fs) : Location → List (List Char) → Option Location
  | loc, [] => some loc
  | loc, c :: cs => (fs.enter loc c).bind fun l => fs.resolve l cs

def start (fs : Fs) (path : List Char) : Location :=
  if path.head? = some '/' then [] else fs.cwd

/-- Where a path leads to if it may end at a link. The empty path leads nowhere. -/
def locate (fs : Fs) (path : List Char) : Option Location :=
  let cs := path.splitOn '/'
  if path = [] then none
  else (fs.resolve (fs.start path) cs.dropLast).bind fun loc => fs.step loc (cs.getLastD [])

def lstat (fs : Fs) (path : List Char) : Option Stat :=
  ((fs.locate path).bind fs.root.get?).map Tree.stat

/-- The names that readdir gives one after the other. -/
def opendir (fs : Fs) (path : List Char) : Option (List (List Char)) :=
  (if path = [] then none else fs.resolve (fs.start path) (path.splitOn '/')).bind fun loc =>
    if fs.root.IsDir loc then some (fs.readdir loc) else none

/-- The entries of a directory that match a component of a pattern. -/
def candidates (fs : Fs) (loc : Location) (c : List Char) : List (List Char) :=
  if c = [] then [[]] else (fs.readdir loc).filter (Glob.fnmatch c)

/-- The directories that the components of a pattern lead to, each with the components of its
path. -/
def dirs (fs : Fs) : Location → List (List Char) → List (List (List Char) × Location)
  | loc, [] => [([], loc)]
  | loc, c :: cs => (fs.candidates loc c).flatMap fun e =>
    match fs.enter loc e with
    | none => []
    | some l => if fs.root.IsDir l then (fs.dirs l cs).map fun r => (e :: r.1, r.2) else []

def glob (fs : Fs) (pattern : List Char) : List (List Char) :=
  let cs := pattern.splitOn '/'
  fs.sort ((fs.dirs (fs.start pattern) cs.dropLast).flatMap fun r =>
    (fs.candidates r.2 (cs.getLastD [])).map fun e => ['/'].intercalate (r.1 ++ [e]))

variable {fs : Fs} {loc l : Location} {path : List Char}

theorem step_dot (h : fs.root.IsDir loc) (hc : c = [] ∨ c = dot) : fs.step loc c = some loc := by
  obtain ⟨b, es, h⟩ := h
  simp only [step, h, if_pos hc]

theorem step_name (h : fs.root.get? loc = some (.dir b es)) (hn : n ∈ Tree.names es) :
    fs.step loc n = some (loc ++ [n]) := by
  obtain ⟨m, hm, rfl⟩ := List.mem_map.1 hn
  obtain ⟨t, ht⟩ := Tree.exists_find hn
  have hdot : ¬(m.1.val = [] ∨ m.1.val = dot) := by
    rintro (he | he)
    · exact m.1.ne_nil he
    · exact m.1.ne_dot he
  simp only [step, h, if_neg hdot, if_neg m.1.ne_dotdot, ht, Option.isSome_some, if_true]

theorem step_cases (h : fs.step loc c = some l) : fs.root.IsDir loc ∧
    (c = [] ∧ l = loc ∨ c = dot ∧ l = loc ∨ c = dotdot ∧ l = loc.dropLast ∨
      ∃ b es t, fs.root.get? loc = some (.dir b es) ∧ Tree.find es c = some t ∧
        l = loc ++ [c]) := by
  rw [step] at h
  split at h
  next b es hd =>
    refine ⟨⟨b, es, hd⟩, ?_⟩
    split at h
    next hc =>
      cases h
      rcases hc with hc | hc
      · exact .inl ⟨hc, rfl⟩
      · exact .inr (.inl ⟨hc, rfl⟩)
    next =>
      split at h
      next hc =>
        cases h
        exact .inr (.inr (.inl ⟨hc, rfl⟩))
      next =>
        split at h
        next hf =>
          cases h
          obtain ⟨t, ht⟩ := Option.isSome_iff_exists.1 hf
          exact .inr (.inr (.inr ⟨b, es, t, hd, ht, rfl⟩))
        next => cases h
  next => cases h

theorem follow_dir (h : fs.root.IsDir loc) : fs.follow loc = some loc := by
  obtain ⟨b, es, h⟩ := h
  simp only [follow, h]

theorem enter_dir (hs : fs.step loc c = some l) (hl : fs.root.IsDir l) :
    fs.enter loc c = some l := by
  rw [enter, hs, Option.bind_some, follow_dir hl]

theorem isDir_of_enter (h : fs.enter loc c = some l) : fs.root.IsDir loc := by
  obtain ⟨m, hm, -⟩ := Option.bind_eq_some_iff.1 h
  exact (step_cases hm).1

theorem resolve_append (fs : Fs) (loc : Location) (p q : List (List Char)) :
    fs.resolve loc (p ++ q) = (fs.resolve loc p).bind fun l => fs.resolve l q := by
  induction p generalizing loc with
  | nil => rfl
  | cons c p ih =>
    simp only [List.cons_append, resolve]
    cases fs.enter loc c with
    | none => rfl
    | some l => exact ih l

theorem isDir_root (fs : Fs) : fs.root.IsDir [] := by
  by_cases h : fs.cwd = []
  · exact h ▸ fs.cwd_dir
  · exact Tree.IsDir.of_append fs.cwd_dir h

theorem isDir_start (fs : Fs) (path : List Char) : fs.root.IsDir (fs.start path) := by
  rw [start]
  split
  · exact fs.isDir_root
  · exact fs.cwd_dir

theorem start_append (hp : path ≠ []) (r : List Char) :
    fs.start (path ++ r) = fs.start path := by
  obtain ⟨c, path, rfl⟩ := List.exists_cons_of_ne_nil hp
  rfl

theorem splitOn_of_not_mem {n : List Char} (hn : '/' ∉ n) : n.splitOn '/' = [n] := by
  have h : (['/'].intercalate [n]).splitOn '/' = [n] :=
    List.splitOn_intercalate '/' (by simpa using hn) (List.cons_ne_nil _ _)
  rwa [List.intercalate_singleton] at h

theorem splitOn_child {n : List Char} (path : List Char) (hn : '/' ∉ n) :
    (path ++ '/' :: n).splitOn '/' = path.splitOn '/' ++ [n] := by
  rw [List.splitOn_append_cons_self, splitOn_of_not_mem hn]

theorem intercalate_concat {cs : List (List Char)} (h : cs ≠ []) (n : List Char) :
    ['/'].intercalate (cs ++ [n]) = ['/'].intercalate cs ++ '/' :: n := by
  induction cs with
  | nil => exact absurd rfl h
  | cons c cs ih =>
    by_cases hc : cs = []
    · subst hc
      simp [List.intercalate]
    · rw [List.cons_append, List.intercalate_cons_of_ne_nil (by simp),
        List.intercalate_cons_of_ne_nil hc, ih hc]
      simp

theorem locate_append (hp : path ≠ []) (hc : '/' ∉ c) : fs.locate (path ++ '/' :: c) =
    (fs.resolve (fs.start path) (path.splitOn '/')).bind fun loc => fs.step loc c := by
  have hne : path ++ '/' :: c ≠ [] := by simp
  rw [locate, if_neg hne, start_append hp, splitOn_child path hc, List.dropLast_concat,
    List.getLastD_concat]

theorem resolve_of_locate (hp : fs.locate path = some loc) (hd : fs.root.IsDir loc) :
    path ≠ [] ∧ fs.resolve (fs.start path) (path.splitOn '/') = some loc := by
  rw [locate] at hp
  split at hp
  next => cases hp
  next hne =>
    obtain ⟨l, hl, hs⟩ := Option.bind_eq_some_iff.1 hp
    refine ⟨hne, ?_⟩
    have hsplit : (path.splitOn '/').dropLast ++ [(path.splitOn '/').getLastD []] =
        path.splitOn '/' := by
      rw [List.getLastD_eq_getLast?, List.getLast?_eq_some_getLast (List.splitOn_ne_nil '/' path)]
      exact List.dropLast_append_getLast _
    rw [← hsplit, resolve_append, hl, Option.bind_some, resolve, enter_dir hs hd]
    rfl

theorem locate_step (hp : fs.locate path = some loc) (hs : fs.step loc c = some l)
    (hc : '/' ∉ c) : fs.locate (path ++ '/' :: c) = some l := by
  obtain ⟨hne, hr⟩ := resolve_of_locate hp (step_cases hs).1
  rw [locate_append hne hc, hr, Option.bind_some, hs]

theorem no_slash_of_mem (hn : n ∈ Tree.names es) : '/' ∉ n := by
  obtain ⟨m, -, rfl⟩ := List.mem_map.1 hn
  exact m.1.no_slash

theorem locate_child (hp : fs.locate path = some loc)
    (hd : fs.root.get? loc = some (.dir b es)) (hn : n ∈ Tree.names es) :
    fs.locate (path ++ '/' :: n) = some (loc ++ [n]) :=
  locate_step hp (step_name hd hn) (no_slash_of_mem hn)

theorem mem_dirs_cons {r : List (List Char) × Location} : r ∈ fs.dirs loc (c :: cs) ↔
    ∃ e ∈ fs.candidates loc c, ∃ l, fs.enter loc e = some l ∧ fs.root.IsDir l ∧
      ∃ q ∈ fs.dirs l cs, r = (e :: q.1, q.2) := by
  rw [dirs, List.mem_flatMap]
  refine exists_congr fun e => and_congr_right fun _ => ?_
  cases fs.enter loc e with
  | none => simp
  | some l =>
    by_cases hl : fs.root.IsDir l
    · simp [hl, eq_comm]
    · simp [hl]

theorem length_of_mem_dirs {r : List (List Char) × Location} (h : r ∈ fs.dirs loc cs) :
    r.1.length = cs.length := by
  induction cs generalizing loc r with
  | nil => cases List.mem_singleton.1 h; rfl
  | cons c cs ih =>
    obtain ⟨e, -, l, -, -, q, hq, rfl⟩ := mem_dirs_cons.1 h
    exact congrArg Nat.succ (ih hq)

theorem isDir_of_mem_dirs {r : List (List Char) × Location} (hd : fs.root.IsDir loc)
    (h : r ∈ fs.dirs loc cs) : fs.root.IsDir r.2 := by
  induction cs generalizing loc r with
  | nil => cases List.mem_singleton.1 h; exact hd
  | cons c cs ih =>
    obtain ⟨e, -, l, -, hl, q, hq, rfl⟩ := mem_dirs_cons.1 h
    exact ih (r := q) hl hq

theorem ne_nil_of_readdir (hd : fs.root.get? loc = some (.dir b es)) (he : e ∈ fs.readdir loc) :
    e ≠ [] ∧ '/' ∉ e := by
  rcases List.mem_cons.1 ((fs.readdir_perm hd).mem_iff.1 he) with rfl | he
  · decide
  · rcases List.mem_cons.1 he with rfl | he
    · decide
    · obtain ⟨m, -, rfl⟩ := List.mem_map.1 he
      exact ⟨m.1.ne_nil, m.1.no_slash⟩

theorem resolve_of_mem_dirs {r : List (List Char) × Location} (h : r ∈ fs.dirs loc cs) :
    fs.resolve loc r.1 = some r.2 := by
  induction cs generalizing loc r with
  | nil => cases List.mem_singleton.1 h; rfl
  | cons c cs ih =>
    obtain ⟨e, -, l, hl, -, q, hq, rfl⟩ := mem_dirs_cons.1 h
    rw [resolve, hl]
    exact ih hq

theorem mem_candidates (hd : fs.root.get? loc = some (.dir b es))
    (he : e ∈ fs.candidates loc c) : (e = [] ↔ c = []) ∧ '/' ∉ e := by
  rw [candidates] at he
  split at he
  next hc =>
    cases List.mem_singleton.1 he
    exact ⟨iff_of_true rfl hc, List.not_mem_nil⟩
  next hc =>
    obtain ⟨hne, hs⟩ := ne_nil_of_readdir hd (List.mem_filter.1 he).1
    exact ⟨iff_of_false hne hc, hs⟩

theorem no_slash_of_mem_dirs {r : List (List Char) × Location} (hd : fs.root.IsDir loc)
    (h : r ∈ fs.dirs loc cs) : ∀ c ∈ r.1, '/' ∉ c := by
  induction cs generalizing loc r with
  | nil =>
    cases List.mem_singleton.1 h
    exact fun c hc => (by cases hc)
  | cons c cs ih =>
    obtain ⟨e, he, l, -, hl, q, hq, rfl⟩ := mem_dirs_cons.1 h
    obtain ⟨b, es, hd⟩ := hd
    exact List.forall_mem_cons.2 ⟨(mem_candidates hd he).2, ih hl hq⟩

theorem ne_nil_of_mem_dirs {r : List (List Char) × Location} (hcs : cs ≠ [])
    (h : r ∈ fs.dirs loc cs) : r.1 ≠ [] := by
  intro hnil
  have hlen := length_of_mem_dirs h
  rw [hnil] at hlen
  exact hcs (List.eq_nil_of_length_eq_zero hlen.symm)

theorem start_of_mem_dirs {r : List (List Char) × Location} (hp : path ≠ [])
    (h : r ∈ fs.dirs (fs.start path) (path.splitOn '/')) :
    ['/'].intercalate r.1 ≠ [] ∧ fs.start (['/'].intercalate r.1) = fs.start path := by
  have hdir := fs.isDir_start path
  obtain ⟨x, path, rfl⟩ := List.exists_cons_of_ne_nil hp
  by_cases hx : x = '/'
  · subst hx
    have hsplit : ('/' :: path).splitOn '/' = [] :: path.splitOn '/' :=
      List.splitOn_append_cons_self [] path
    rw [hsplit] at h
    obtain ⟨e, he, l, -, -, q, hq, rfl⟩ := mem_dirs_cons.1 h
    cases List.mem_singleton.1 he
    rw [List.intercalate_cons_of_ne_nil (ne_nil_of_mem_dirs (List.splitOn_ne_nil _ _) hq)]
    exact ⟨List.cons_ne_nil _ _, rfl⟩
  · obtain ⟨c, cs, hcs⟩ := List.exists_cons_of_ne_nil (List.splitOn_ne_nil '/' path)
    have hsplit : (x :: path).splitOn '/' = (x :: c) :: cs := by
      rw [List.splitOn, List.splitOnP_cons_eq_if_modifyHead, if_neg (by simpa using hx)]
      exact congrArg _ hcs
    rw [hsplit] at h
    obtain ⟨e, he, l, -, -, q, -, rfl⟩ := mem_dirs_cons.1 h
    obtain ⟨b, es, hd⟩ := hdir
    obtain ⟨hne, hslash⟩ := mem_candidates hd he
    obtain ⟨y, e, rfl⟩ := List.exists_cons_of_ne_nil (mt hne.1 (List.cons_ne_nil x c))
    have hhead : (['/'].intercalate ((y :: e) :: q.1)).head? = some y := by
      cases q.1 <;> rfl
    have hy : y ≠ '/' := fun hy => hslash (hy ▸ List.mem_cons_self)
    constructor
    · intro hnil
      rw [hnil] at hhead
      cases hhead
    · rw [start, start, hhead, if_neg (by simpa using hy), if_neg (by simpa using hx)]

/-- An entry of a directory that a pattern leads to, by the path that glob gives. -/
theorem locate_of_mem_dirs {r : List (List Char) × Location} (hp : path ≠ [])
    (h : r ∈ fs.dirs (fs.start path) (path.splitOn '/')) (hn : n ∈ fs.root.children r.2) :
    fs.locate (['/'].intercalate r.1 ++ '/' :: n) = some (r.2 ++ [n]) := by
  obtain ⟨hne, hstart⟩ := start_of_mem_dirs hp h
  obtain ⟨b, es, hd⟩ := isDir_of_mem_dirs (fs.isDir_start path) h
  rw [Tree.children_eq hd] at hn
  have hsplit := List.splitOn_intercalate '/' (no_slash_of_mem_dirs (fs.isDir_start path) h)
    (ne_nil_of_mem_dirs (List.splitOn_ne_nil _ _) h)
  rw [locate_append hne (no_slash_of_mem hn), hstart, hsplit, resolve_of_mem_dirs h,
    Option.bind_some, step_name hd hn]

theorem nodup_readdir (hd : fs.root.get? loc = some (.dir b es)) : (fs.readdir loc).Nodup := by
  rw [(fs.readdir_perm hd).nodup_iff, List.nodup_cons, List.nodup_cons]
  refine ⟨?_, ?_, fs.distinct loc b es hd⟩
  · rw [List.mem_cons, not_or]
    refine ⟨by decide, fun h => ?_⟩
    obtain ⟨m, -, hm⟩ := List.mem_map.1 h
    exact m.1.ne_dot hm
  · intro h
    obtain ⟨m, -, hm⟩ := List.mem_map.1 h
    exact m.1.ne_dotdot hm

/-- An entry of a directory that is a directory or a link to one. -/
def Leads (fs : Fs) (loc : Location) (e : List Char) : Prop :=
  ∃ l, fs.follow (loc ++ [e]) = some l ∧ fs.root.IsDir l

theorem entry_cases (hd : fs.root.get? loc = some (.dir b es)) (he : e ∈ fs.readdir loc)
    (hs : fs.enter loc e = some l) (hl : fs.root.IsDir l) :
    e = dot ∨ e = dotdot ∨ fs.Leads loc e := by
  rcases List.mem_cons.1 ((fs.readdir_perm hd).mem_iff.1 he) with he | he
  · exact .inl he
  · rcases List.mem_cons.1 he with he | he
    · exact .inr (.inl he)
    · rw [enter, step_name hd he] at hs
      exact .inr (.inr ⟨l, hs, hl⟩)

theorem glob_perm (fs : Fs) (hp : path ≠ []) {c : List Char} (hc : '/' ∉ c) :
    (fs.glob (path ++ '/' :: c)).Perm ((fs.dirs (fs.start path) (path.splitOn '/')).flatMap
      fun r => (fs.candidates r.2 c).map fun e => ['/'].intercalate (r.1 ++ [e])) := by
  rw [glob, splitOn_child path hc, start_append hp, List.dropLast_concat, List.getLastD_concat]
  exact fs.sort_perm _

/-- Read as a pattern, the name of each directory or link matches itself, no sibling and neither of
the dots. -/
def Literal (fs : Fs) : Prop := ∀ loc n, fs.Leads loc n → ∀ e,
  e = dot ∨ e = dotdot ∨ fs.Leads loc e → (Glob.fnmatch n e = true ↔ n = e)

theorem fnmatch_dots (h : c = dot ∨ c = dotdot) : Glob.fnmatch c e = true ↔ c = e := by
  refine Glob.fnmatch_plain fun x hx => ?_
  have hdot : x = '.' := by
    rcases h with rfl | rfl <;> simpa [dot, dotdot] using hx
  rw [hdot]
  rfl

theorem mem_readdir_dots (hd : fs.root.get? loc = some (.dir b es)) (h : c = dot ∨ c = dotdot) :
    c ∈ fs.readdir loc := by
  rw [(fs.readdir_perm hd).mem_iff]
  rcases h with rfl | rfl
  · exact List.mem_cons_self
  · exact List.mem_cons_of_mem _ List.mem_cons_self

theorem Literal.fnmatch_iff (h : fs.Literal) (hd : fs.root.get? loc = some (.dir b es))
    (hs : fs.enter loc c = some l) (hl : fs.root.IsDir l) (hc : c ≠ []) : c ∈ fs.readdir loc ∧
    ∀ e, e = dot ∨ e = dotdot ∨ fs.Leads loc e → (Glob.fnmatch c e = true ↔ c = e) := by
  obtain ⟨m, hm, hf⟩ := Option.bind_eq_some_iff.1 hs
  obtain ⟨-, h0 | ⟨rfl, -⟩ | ⟨rfl, -⟩ | ⟨b', es', t, hd', ht, rfl⟩⟩ := step_cases hm
  · exact absurd h0.1 hc
  · exact ⟨mem_readdir_dots hd (.inl rfl), fun e _ => fnmatch_dots (.inl rfl)⟩
  · exact ⟨mem_readdir_dots hd (.inr rfl), fun e _ => fnmatch_dots (.inr rfl)⟩
  · cases hd.symm.trans hd'
    obtain ⟨n, hn, rfl, -⟩ := Tree.exists_mem_of_find ht
    refine ⟨(fs.readdir_perm hd).mem_iff.2 ?_, h loc n.1.val ⟨l, hf, hl⟩⟩
    exact List.mem_cons_of_mem _ (List.mem_cons_of_mem _ (List.mem_map_of_mem hn))

theorem Literal.dirs_eq (h : fs.Literal) (hr : fs.resolve loc cs = some l)
    (hloc : fs.root.IsDir loc) (hl : fs.root.IsDir l) : fs.dirs loc cs = [(cs, l)] := by
  induction cs generalizing loc with
  | nil => cases hr; rfl
  | cons c cs ih =>
    obtain ⟨m, hs, hr⟩ := Option.bind_eq_some_iff.1 hr
    have hm : fs.root.IsDir m := by
      cases cs with
      | nil => cases hr; exact hl
      | cons d cs =>
        obtain ⟨k, hk, -⟩ := Option.bind_eq_some_iff.1 hr
        exact isDir_of_enter hk
    have hval : (match fs.enter loc c with
        | none => []
        | some l => if fs.root.IsDir l then (fs.dirs l cs).map fun r => (c :: r.1, r.2) else []) =
        [(c :: cs, l)] := by
      simp only [hs, if_pos hm, ih hr hm, List.map_cons, List.map_nil]
    rw [dirs, candidates]
    split
    next hc =>
      subst hc
      rw [List.flatMap_singleton, hval]
    next hc =>
      obtain ⟨b, es, hd⟩ := hloc
      obtain ⟨hmem, hiff⟩ := h.fnmatch_iff hd hs hm hc
      have hself : Glob.fnmatch c c = true := (hiff c (entry_cases hd hmem hs hm)).2 rfl
      rw [flatMap_eq_of_unique ((nodup_readdir hd).filter _) (List.mem_filter.2 ⟨hmem, hself⟩),
        hval]
      intro e he hne
      obtain ⟨he, hmatch⟩ := List.mem_filter.1 he
      cases hse : fs.enter loc e with
      | none => rfl
      | some k =>
        refine if_neg fun hk => hne ?_
        exact ((hiff e (entry_cases hd he hse hk)).1 hmatch).symm

theorem literal_of_plain (h : ∀ loc ∈ fs.root.locations, ∀ n ∈ loc, ∀ c ∈ n,
    Glob.special c = false) : fs.Literal := by
  rintro loc n ⟨l, hf, hl⟩ e -
  have hentry : ∃ t, fs.root.get? (loc ++ [n]) = some t := by
    cases hg : fs.root.get? (loc ++ [n]) with
    | some t => exact ⟨t, rfl⟩
    | none =>
      simp only [follow, hg, Option.some.injEq] at hf
      obtain ⟨b, es, hd⟩ := hl
      rw [← hf, hg] at hd
      cases hd
  have hmem := (Tree.mem_locations fs.distinct).2 hentry
  exact Glob.fnmatch_plain (h _ hmem n List.mem_concat_self)

section
variable (fs : Fs) (w : Location → Nat)

def reblock : Fs where
  root := fs.root.reblock w
  cwd := fs.cwd
  readdir := fs.readdir
  sort := fs.sort
  distinct := fs.distinct.reblock w
  cwd_dir := Tree.isDir_reblock.2 fs.cwd_dir
  readdir_perm h := by
    obtain ⟨b', es', h, hn⟩ := Tree.exists_of_get?_reblock h
    rw [hn]
    exact fs.readdir_perm h
  sort_perm := fs.sort_perm

theorem get?_reblock (loc : Location) : (fs.reblock w).root.get? loc =
    (fs.root.get? loc).map (Tree.reblock fun l => w (loc ++ l)) :=
  Tree.get?_reblock w fs.root loc

@[simp] theorem isDir_reblock : (fs.reblock w).root.IsDir loc ↔ fs.root.IsDir loc :=
  Tree.isDir_reblock

@[simp] theorem children_reblock (loc : Location) :
    (fs.reblock w).root.children loc = fs.root.children loc := by
  rw [Tree.children, Tree.children, get?_reblock]
  cases fs.root.get? loc with
  | none => rfl
  | some t =>
    cases t with
    | file b => rfl
    | link b target => rfl
    | dir b es => exact Tree.names_reblockIn _ es

@[simp] theorem step_reblock (loc : Location) (c : List Char) :
    (fs.reblock w).step loc c = fs.step loc c := by
  rw [step, step, get?_reblock]
  cases fs.root.get? loc with
  | none => rfl
  | some t =>
    cases t with
    | file b => rfl
    | link b target => rfl
    | dir b es => simp only [Option.map_some, Tree.reblock, Tree.find_reblockIn, Option.isSome_map]

@[simp] theorem follow_reblock (loc : Location) : (fs.reblock w).follow loc = fs.follow loc := by
  rw [follow, follow, get?_reblock]
  cases fs.root.get? loc with
  | none => rfl
  | some t => cases t <;> rfl

@[simp] theorem enter_reblock (loc : Location) (c : List Char) :
    (fs.reblock w).enter loc c = fs.enter loc c := by
  rw [enter, enter, step_reblock]
  exact congrArg _ (funext (follow_reblock fs w))

@[simp] theorem resolve_reblock (loc : Location) (cs : List (List Char)) :
    (fs.reblock w).resolve loc cs = fs.resolve loc cs := by
  induction cs generalizing loc with
  | nil => rfl
  | cons c cs ih => simp only [resolve, enter_reblock, ih]

@[simp] theorem locate_reblock (path : List Char) :
    (fs.reblock w).locate path = fs.locate path := by
  simp only [locate, resolve_reblock, step_reblock]
  rfl

@[simp] theorem dirs_reblock (loc : Location) (cs : List (List Char)) :
    (fs.reblock w).dirs loc cs = fs.dirs loc cs := by
  induction cs generalizing loc with
  | nil => rfl
  | cons c cs ih =>
    simp only [dirs, enter_reblock, isDir_reblock, ih]
    rfl

end

end Fs
end Apue
