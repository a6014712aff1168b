import Apue.DuHeap

namespace Apue
set_option autoImplicit true

namespace Fs

variable {fs : Fs} {loc : Location}

theorem nul_notMem_candidates (hd : fs.root.IsDir loc) (he : e ∈ fs.candidates loc c) :
    nul ∉ e := by
  rw [candidates] at he
  split at he
  · cases List.mem_singleton.mp he
    exact List.not_mem_nil
  · exact nul_notMem_readdir hd (List.mem_filter.mp he).1

theorem nul_notMem_dirs {r : List (List Char) × Location} (hd : fs.root.IsDir loc)
    (h : r ∈ fs.dirs loc cs) : ∀ e ∈ r.1, nul ∉ e := by
  induction cs generalizing loc r with
  | nil =>
    cases List.mem_singleton.mp h
    exact fun e he => absurd he List.not_mem_nil
  | cons c cs ih =>
    obtain ⟨e, he, l, -, hl, q, hq, rfl⟩ := mem_dirs_cons.mp h
    intro d hmem
    rcases List.mem_cons.mp hmem with rfl | hmem
    · exact nul_notMem_candidates hd he
    · exact ih hl hq d hmem

theorem nul_notMem_intercalate {l : List (List Char)} (h : ∀ e ∈ l, nul ∉ e) :
    nul ∉ ['/'].intercalate l := by
  induction l with
  | nil => exact List.not_mem_nil
  | cons e l ih =>
    have he := h e List.mem_cons_self
    by_cases hl : l = []
    · subst hl
      rwa [List.intercalate_singleton]
    · rw [List.intercalate_cons_of_ne_nil hl, List.mem_append, List.mem_append, not_or, not_or]
      exact ⟨⟨he, by decide⟩, ih fun d hd => h d (List.mem_cons_of_mem e hd)⟩

theorem nul_notMem_glob (hq : q ∈ fs.glob pattern) : nul ∉ q := by
  rw [glob, (fs.sort_perm _).mem_iff] at hq
  obtain ⟨r, hr, hq⟩ := List.mem_flatMap.mp hq
  obtain ⟨e, he, rfl⟩ := List.mem_map.mp hq
  have hstart := fs.isDir_start pattern
  refine nul_notMem_intercalate fun d hd => ?_
  rcases List.mem_append.mp hd with hd | hd
  · exact nul_notMem_dirs hstart hr d hd
  · cases List.mem_singleton.mp hd
    exact nul_notMem_candidates (isDir_of_mem_dirs hstart hr) he

end Fs

namespace Du.Pointer

/-- malloc(len + size), strcpy(pattern, path) and strcpy(pattern + len, suffix): the content of
pattern. -/
def newPattern (mem : Leftover Char) (path : List Char) (size : Nat) (suffix : List Char) :
    Except Fault (List Char) := do
  let len ← CharPtr.strlen ⟨path, 0⟩
  let pattern ← strcpy path (mem.block (len + size)) 0
  strcpy suffix pattern len

/-- glob(pattern, flags, NULL, &g), where GLOB_APPEND keeps what g.gl_pathv has: a new string for
each path name that matches. -/
def glob (fs : Fs) (pattern : Nat) (pathv : List Nat) (h : Heap (List Char)) :
    Except Fault (List Nat × Heap (List Char)) := do
  let array ← h.load pattern
  let text ← cString array
  let new := h.mallocAll ((fs.glob text).map (· ++ [nul]))
  return (pathv ++ new.1, new.2)

/-- The call of glob for one of the patterns of du_by_glob, from malloc to free. -/
def globChildren (fs : Fs) (mem : Leftover Char) (path size : Nat) (suffix : List Char)
    (pathv : List Nat) (h : Heap (List Char)) : Except Fault (List Nat × Heap (List Char)) := do
  let array ← h.load path
  let block ← newPattern mem array size suffix
  let (pathv, h') ← glob fs h.next pathv (h.malloc block)
  return (pathv, ← h'.free h.next)

/-- The loop of du_by_glob over g.gl_pathv. -/
def paths (call : Nat → Store → Except Abort (UInt64 × Store)) :
    UInt64 → Store → List Nat → Except Abort (UInt64 × Store)
  | r, s, [] => .ok (r, s)
  | r, s, p :: ps => do
    let array ← run (s.heap.load p)
    let special ← run (endsSpecial ⟨array, 0⟩)
    if special then paths call r s ps
    else
      let (v, s) ← call p s
      paths call (r + v) s ps

/-- du_by_glob with the patterns that it builds, and the path names that it gets, on the heap. -/
def duByGlob (fs : Fs) (mem : Leftover Char) : Nat → Nat → Store → Except Abort (UInt64 × Store)
  | 0, _, _ => .error (.stop .depth)
  | fuel + 1, p, s => do
    let array ← run (s.heap.load p)
    let path ← run (cString array)
    match fs.lstat path with
    | none => .error (.stop (.exit 1))
    | some st =>
      let r := 0 + blocksSize st
      if !st.isDir then .ok (r, s)
      else
        let (g, heap) ← run (globChildren fs mem p 3 ['/', '*', nul] [] s.heap)
        let (g, heap) ← run (globChildren fs mem p 4 ['/', '.', '*', nul] g heap)
        let (r, s) ← paths (duByGlob fs mem fuel) r { s with heap := heap } g
        -- globfree
        let heap ← run (s.heap.freeAll g)
        .ok (r, { s with heap := heap })

theorem newPattern_eq (mem : Leftover Char) {path suffix : List Char} (hp : nul ∉ path)
    (hs : nul ∉ suffix) (rest : List Char) :
    newPattern mem (path ++ nul :: rest) (suffix.length + 1) (suffix ++ [nul]) =
      .ok (path ++ suffix ++ [nul]) := by
  have hlen := mem.length_block (path.length + (suffix.length + 1))
  generalize hb : mem.block (path.length + (suffix.length + 1)) = b at hlen
  have hlen0 : CharPtr.strlen ⟨path ++ nul :: rest, 0⟩ = .ok path.length :=
    StoredString.strlen_ptr ⟨[], path, rest, hp⟩
  have hfirst := strcpy_block hp rest (b := b) (by omega)
  have hold : (nul :: b.drop (path.length + 1)).length = suffix.length + 1 := by
    rw [List.length_cons, List.length_drop]
    omega
  have hsecond := strcpy_eq hs [] path [] hold
  rw [List.append_nil] at hsecond
  rw [newPattern, hlen0, ok_bind, hb, hfirst, ok_bind, hsecond, List.append_assoc]

def Strings (own : List (Nat × List Char)) (qs : List (List Char)) : Prop :=
  own.map Prod.snd = qs.map (· ++ [nul])

theorem Strings.nil : Strings [] [] := rfl

section
variable {fs : Fs} {base h : Heap (List Char)} {own : List (Nat × List Char)}
  {path suffix : List Char} {qs : List (List Char)}

theorem globChildren_owned (fs : Fs) (mem : Leftover Char) (ho : base.Owned h own)
    (hqs : Strings own qs) (hp : nul ∉ path) (hs : nul ∉ suffix)
    (hlive : base.Live p (path ++ nul :: rest)) :
    ∃ h' own', globChildren fs mem p (suffix.length + 1) (suffix ++ [nul])
        (own.map Prod.fst) h = .ok (own'.map Prod.fst, h') ∧
      base.Owned h' own' ∧ Strings own' (qs ++ fs.glob (path ++ suffix)) := by
  have htext : cString (path ++ suffix ++ [nul]) = .ok (path ++ suffix) := by
    refine cString_nul ?_ []
    rw [List.mem_append, not_or]
    exact ⟨hp, hs⟩
  generalize hblock : path ++ suffix ++ [nul] = block at htext
  generalize hnames : (fs.glob (path ++ suffix)).map (· ++ [nul]) = names
  obtain ⟨h', hfree, hleft⟩ := ((ho.malloc block).mallocAll names).free
  have hlen := (h.malloc block).length_mallocAll names
  refine ⟨h', own ++ ((h.malloc block).mallocAll names).1.zip names, ?_, hleft, ?_⟩
  · rw [globChildren, (ho.live_base hlive).load, ok_bind, newPattern_eq mem hp hs rest, ok_bind,
      hblock, glob, h.live_malloc_self.load, ok_bind, htext, ok_bind, hnames, List.map_append,
      List.map_fst_zip (Nat.le_of_eq hlen)]
    simp only [pure_bind, hfree, ok_bind]
    rfl
  · rw [Strings, List.map_append, List.map_append, hqs, hnames,
      List.map_snd_zip (Nat.le_of_eq hlen.symm)]

theorem paths_computes {s : Store} {call : Nat → Store → Except Abort (UInt64 × Store)}
    {plain : List Char → Except Stop UInt64}
    (hcall : ∀ p s q rest, nul ∉ q → s.heap.Live p (q ++ nul :: rest) →
      Computes (call p s) (plain q) s)
    (hqs : Strings own qs) (hlive : ∀ x ∈ own, s.heap.Live x.1 x.2) (hnul : ∀ q ∈ qs, nul ∉ q)
    (r : UInt64) :
    Computes (paths call r s (own.map Prod.fst)) (addAll Du.endsSpecial plain r qs) s := by
  induction qs generalizing r s own with
  | nil =>
    cases List.map_eq_nil_iff.mp hqs
    exact ⟨0, by rw [s.spent_zero]; rfl⟩
  | cons q qs ih =>
    obtain ⟨x, own, rfl, hx, hqs⟩ := List.map_eq_cons_iff.mp hqs
    have hq : nul ∉ q := hnul q List.mem_cons_self
    have hfirst := hlive x List.mem_cons_self
    rw [hx] at hfirst
    have hothers : ∀ y ∈ own, s.heap.Live y.1 y.2 := fun y hy =>
      hlive y (List.mem_cons_of_mem x hy)
    have hnul' : ∀ q ∈ qs, nul ∉ q := fun q hq => hnul q (List.mem_cons_of_mem _ hq)
    have hspecial : endsSpecial ⟨q ++ [nul], 0⟩ = .ok (Du.endsSpecial q) :=
      endsSpecial_eq ⟨[], q, [], hq⟩
    rw [List.map_cons, paths, addAll, hfirst.load, run, ok_bind, hspecial, run, ok_bind]
    split
    · exact ih hqs hothers hnul' r
    · have hnew := hcall x.1 s q [] hq hfirst
      cases hv : plain q with
      | error e =>
        rw [hv] at hnew
        simp only [Computes] at hnew
        rw [hnew]
        exact rfl
      | ok v =>
        rw [hv] at hnew
        obtain ⟨k, hk⟩ := hnew
        rw [hk, ok_bind]
        exact (ih hqs (fun y hy => Heap.live_spent.mpr (hothers y hy)) hnul' (r + v)).of_spent

/-- globfree frees the path names that are left, whatever the calls have allocated and freed. -/
theorem Computes.globfree {s : Store} {x : Except Abort (UInt64 × Store)}
    (ho : s.heap.Owned h own) (hx : Computes x y { s with heap := h }) :
    Computes (do
      let (r, s) ← x
      let heap ← run (s.heap.freeAll (own.map Prod.fst))
      .ok (r, { s with heap := heap })) y s := by
  cases y with
  | error e =>
    simp only [Computes] at hx
    rw [hx]
    exact rfl
  | ok v =>
    obtain ⟨k, hk⟩ := hx
    obtain ⟨j, hj⟩ := (ho.spent k).freeAll
    refine ⟨j, ?_⟩
    rw [hk, ok_bind]
    simp only [Store.spent, hj, run, ok_bind]

end

theorem duByGlob_computes (fs : Fs) (mem : Leftover Char) (fuel : Nat) {s : Store}
    (hp : nul ∉ path) (hlive : s.heap.Live p (path ++ nul :: rest)) :
    Computes (duByGlob fs mem fuel p s) (Du.duByGlob fs fuel path) s := by
  induction fuel generalizing p s path rest with
  | zero => rfl
  | succ fuel ih =>
    rw [duByGlob, Du.duByGlob, hlive.load, run, ok_bind, cString_nul hp, run, ok_bind]
    cases hst : fs.lstat path with
    | none => exact rfl
    | some st =>
      simp only
      split
      · exact ⟨0, by rw [s.spent_zero]⟩
      · obtain ⟨h₁, own₁, hglob₁, ho₁, hq₁⟩ := globChildren_owned fs mem
          (Heap.Owned.refl s.heap) (Strings.nil) hp (by decide : nul ∉ ['/', '*']) hlive
        obtain ⟨h₂, own₂, hglob₂, ho₂, hq₂⟩ := globChildren_owned fs mem
          ho₁ hq₁ hp (by decide : nul ∉ ['/', '.', '*']) hlive
        have hnul : ∀ q ∈ [] ++ fs.glob (path ++ ['/', '*']) ++ fs.glob (path ++ ['/', '.', '*']),
            nul ∉ q := by
          intro q hq
          rcases List.mem_append.mp hq with hq | hq
          · exact Fs.nul_notMem_glob hq
          · exact Fs.nul_notMem_glob hq
        have hloop := paths_computes (s := { s with heap := h₂ }) (fun p s q rest hq hl => ih hq hl)
          hq₂ (fun x hx => (ho₂.live x hx).2) hnul (0 + blocksSize st)
        have hfree := hloop.globfree ho₂
        simp only [List.map_nil, List.length_cons, List.length_nil, List.cons_append,
          List.nil_append] at hglob₁ hglob₂ hfree
        simp only [hglob₁, hglob₂, run, ok_bind]
        exact hfree

/-- du_by_glob in memory computes what it computes on strings, and frees all that it allocates. -/
theorem du_by_glob_in_memory (fs : Fs) (mem : Leftover Char) (fuel : Nat) {s : Store}
    (hp : nul ∉ path) (hlive : s.heap.Live p (path ++ nul :: rest)) :
    (∀ v, Du.duByGlob fs fuel path = .ok v →
      ∃ k, duByGlob fs mem fuel p s = .ok (v, s.spent k)) ∧
    (∀ e, Du.duByGlob fs fuel path = .error e → duByGlob fs mem fuel p s = .error (.stop e)) ∧
    ((∀ q, Called fs path q → OnlyItself fs q) → ∀ loc t, fs.locate path = some loc →
      fs.root.get? loc = some t → t.height < fuel →
      ∃ v j k, du fs mem fuel p s = .ok (v, s.spent j) ∧
        duByGlob fs mem fuel p s = .ok (v, s.spent k)) := by
  have h := duByGlob_computes fs mem fuel hp hlive
  have hdu := du_computes fs mem fuel hp hlive
  refine ⟨?_, ?_, ?_⟩
  · intro v hv
    rwa [hv] at h
  · intro e he
    rwa [he] at h
  · intro honly loc t hloc ht hfuel
    rw [duByGlob_eq honly hloc ht hfuel] at h
    rw [du_eq hloc ht hfuel] at hdu
    obtain ⟨k, hk⟩ := h
    obtain ⟨j, hj⟩ := hdu
    exact ⟨_, j, k, hj, hk⟩

def nestedFs : Fs :=
  .ofRoot (.dir 0 [(fileName, .dir 0 [(fileName, .file 1)])]) ⟨_, _, rfl⟩ (by
    apply Tree.distinct_dir
    · exact List.nodup_singleton _
    · intro e he
      cases List.mem_singleton.1 he
      apply Tree.distinct_dir
      · exact List.nodup_singleton _
      · intro e he
        cases List.mem_singleton.1 he
        exact Tree.distinct_file 1)

theorem nestedFs_literal : nestedFs.Literal := by
  apply Fs.literal_of_plain
  have hloc : nestedFs.root.locations = [[], [['f']], [['f'], ['f']]] := rfl
  rw [hloc]
  simp [Glob.special]

theorem du_by_glob_in_memory_nested : rootArgument.heap.Live 0 (['/'] ++ nul :: []) ∧
    (∀ q, Called nestedFs ['/'] q → OnlyItself nestedFs q) ∧
    ∃ v j k, du nestedFs slashes 3 0 rootArgument = .ok (v, rootArgument.spent j) ∧
      duByGlob nestedFs slashes 3 0 rootArgument = .ok (v, rootArgument.spent k) := by
  have hlive : rootArgument.heap.Live 0 (['/'] ++ nul :: []) := rfl
  have honly : ∀ q, Called nestedFs ['/'] q → OnlyItself nestedFs q := fun q _ =>
    onlyItself_of_literal nestedFs_literal q
  obtain ⟨-, -, h⟩ := du_by_glob_in_memory nestedFs slashes 3 (by decide) hlive
  exact ⟨hlive, honly, h honly [] _ (locate_root _) rfl (by decide)⟩

end Du.Pointer

end Apue
