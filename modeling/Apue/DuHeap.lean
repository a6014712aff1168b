import Apue.DuDots
import Apue.DuTotal
import Apue.HeapOwned
import Apue.StrCopy

namespace Apue
set_option autoImplicit true

theorem Fs.nul_notMem_readdir {fs : Fs} {loc : Location} (hd : fs.root.IsDir loc)
    (hn : n ∈ fs.readdir loc) : nul ∉ n := by
  obtain ⟨b, es, hd⟩ := hd
  rcases List.mem_cons.mp ((fs.readdir_perm hd).mem_iff.mp hn) with rfl | hn
  · decide
  · rcases List.mem_cons.mp hn with rfl | hn
    · decide
    · obtain ⟨m, -, rfl⟩ := List.mem_map.mp hn
      exact m.1.no_nul

namespace Du.Pointer

/-- Why a call does not return: the process ends, or it leaves the defined part of the language. -/
inductive Abort where
  | stop (s : Stop)
  | fault (f : Fault)
  deriving DecidableEq

def run : Except Fault α → Except Abort α
  | .ok a => .ok a
  | .error f => .error (.fault f)

/-- The heap and the number of directory streams that are open. -/
structure Store where
  heap : Heap (List Char)
  dirs : Nat

/-- malloc(len0 + len1 + 2), the two calls of strcpy and the slash in between: the content of
new_path. -/
def newPath (mem : Leftover Char) (path name : List Char) : Except Fault (List Char) := do
  let len0 ← CharPtr.strlen ⟨path, 0⟩
  let len1 ← CharPtr.strlen ⟨name, 0⟩
  let new ← strcpy path (mem.block (len0 + len1 + 2)) 0
  let new ← modifyAt new len0 fun _ => '/'
  strcpy name new (len0 + 1)

/-- The loop of du over the entries of a directory, for the pointer path. -/
def entries (mem : Leftover Char) (path : Nat)
    (call : Nat → Store → Except Abort (UInt64 × Store)) :
    UInt64 → Store → List (List Char) → Except Abort (UInt64 × Store)
  | r, s, [] => .ok (r, s)
  | r, s, name :: names => do
    let special ← run (isSpecial ⟨name ++ [nul], 0⟩)
    if special then entries mem path call r s names
    else
      let array ← run (s.heap.load path)
      let block ← run (newPath mem array (name ++ [nul]))
      let new := s.heap.next
      let (v, s) ← call new { s with heap := s.heap.malloc block }
      let heap ← run (s.heap.free new)
      entries mem path call (r + v) { s with heap := heap } names

def du (fs : Fs) (mem : Leftover Char) : Nat → Nat → Store → Except Abort (UInt64 × Store)
  | 0, _, _ => .error (.stop .depth)
  | fuel + 1, p, s => do
    let array ← run (s.heap.load p)
    let path ← run (cString array)
    match fs.lstat path with
    | none => .error (.stop (.exit 1))
    | some st =>
      let r := 0 + blocksSize st
      if !st.isDir then .ok (r, s)
      else
        match fs.opendir path with
        | none => .error (.stop (.exit 1))
        | some dir =>
          let (r, s) ← entries mem p (du fs mem fuel) r { s with dirs := s.dirs + 1 } dir
          -- closedir
          .ok (r, { s with dirs := s.dirs - 1 })

/-- The store with `k` more blocks, all of them freed. -/
def Store.spent (s : Store) (k : Nat) : Store := { s with heap := s.heap.spent k }

theorem Store.spent_spent (s : Store) (j k : Nat) : (s.spent j).spent k = s.spent (j + k) := by
  simp only [spent, Heap.spent_spent]

theorem Store.spent_zero (s : Store) : s.spent 0 = s := by
  simp only [spent, Heap.spent, List.replicate_zero, List.append_nil]

/-- A block that has been allocated after the others is freed again, whatever was allocated and
freed in between. -/
theorem Store.free_spent (s : Store) (b : List Char) (k : Nat) :
    ∃ j, ((s.heap.malloc b).spent k).free s.heap.next = .ok (s.heap.spent j) := by
  obtain ⟨h, hfree, ho⟩ := ((Heap.Owned.refl s.heap).malloc b |>.spent k).free
  obtain ⟨j, rfl⟩ := ho.eq_spent
  exact ⟨j, hfree⟩

theorem strcpy_block {path b : List Char} (hp : nul ∉ path) (rest : List Char)
    (hb : path.length < b.length) :
    strcpy (path ++ nul :: rest) b 0 = .ok (path ++ nul :: b.drop (path.length + 1)) := by
  have htake : (b.take (path.length + 1)).length = path.length + 1 := by
    rw [List.length_take]
    omega
  have hcopy := strcpy_eq hp rest [] (b.drop (path.length + 1)) htake
  rwa [List.take_append_drop] at hcopy

theorem newPath_eq (mem : Leftover Char) {path name : List Char} (hp : nul ∉ path)
    (hn : nul ∉ name) (rest : List Char) :
    newPath mem (path ++ nul :: rest) (name ++ [nul]) = .ok (path ++ '/' :: name ++ [nul]) := by
  have hlen := mem.length_block (path.length + name.length + 2)
  generalize hb : mem.block (path.length + name.length + 2) = b at hlen
  have hlen0 : CharPtr.strlen ⟨path ++ nul :: rest, 0⟩ = .ok path.length :=
    StoredString.strlen_ptr ⟨[], path, rest, hp⟩
  have hlen1 : CharPtr.strlen ⟨name ++ [nul], 0⟩ = .ok name.length :=
    StoredString.strlen_ptr ⟨[], name, [], hn⟩
  -- the path and the place of the slash, then the name and its NUL
  have hfirst := strcpy_block hp rest (b := b) (by omega)
  have hslash : modifyAt (path ++ nul :: b.drop (path.length + 1)) path.length (fun _ => '/') =
      .ok (path ++ '/' :: b.drop (path.length + 1)) := by
    rw [modifyAt_of_lt (by simp), modify_append_cons]
  have hsecond : strcpy (name ++ [nul]) (path ++ '/' :: b.drop (path.length + 1))
      (path.length + 1) = .ok (path ++ '/' :: name ++ [nul]) := by
    have hdrop : (b.drop (path.length + 1)).length = name.length + 1 := by
      rw [List.length_drop]
      omega
    have hcopy := strcpy_eq hn [] (path ++ ['/']) [] hdrop
    simpa using hcopy
  rw [newPath, hlen0, ok_bind, hlen1, ok_bind, hb, hfirst, ok_bind, hslash, ok_bind, hsecond]

/-- The call returns what the model on strings computes, and leaves no block and no directory
behind. -/
def Computes (x : Except Abort (UInt64 × Store)) (y : Except Stop UInt64) (s : Store) : Prop :=
  match y with
  | .ok v => ∃ k, x = .ok (v, s.spent k)
  | .error e => x = .error (.stop e)

theorem Computes.of_spent {s : Store} (h : Computes x y (s.spent j)) : Computes x y s := by
  cases y with
  | error e => exact h
  | ok v =>
    obtain ⟨k, hk⟩ := h
    exact ⟨j + k, by rw [hk, s.spent_spent]⟩

theorem entries_computes (mem : Leftover Char) {call : Nat → Store → Except Abort (UInt64 × Store)}
    {plain : List Char → Except Stop UInt64} {names : List (List Char)} {path : List Char}
    (hcall : ∀ p s q rest, nul ∉ q → s.heap.Live p (q ++ nul :: rest) →
      Computes (call p s) (plain q) s)
    (hp : nul ∉ path) (hlive : s.heap.Live p (path ++ nul :: rest))
    (hnames : ∀ n ∈ names, nul ∉ n) (r : UInt64) :
    Computes (entries mem p call r s names)
      (addAll Du.isSpecial (fun name => plain (path ++ '/' :: name)) r names) s := by
  induction names generalizing r s with
  | nil => exact ⟨0, by rw [s.spent_zero]; rfl⟩
  | cons name names ih =>
    have hn : nul ∉ name := hnames name List.mem_cons_self
    have hnames' : ∀ n ∈ names, nul ∉ n := fun n hm => hnames n (List.mem_cons_of_mem name hm)
    have hspecial : isSpecial ⟨name ++ [nul], 0⟩ = .ok (Du.isSpecial name) :=
      isSpecial_eq ⟨[], name, [], hn⟩
    rw [entries, addAll, hspecial, run, ok_bind]
    split
    · exact ih hlive hnames' r
    · have hchild : nul ∉ path ++ '/' :: name := by
        rw [List.mem_append, List.mem_cons, not_or, not_or]
        exact ⟨hp, by decide, hn⟩
      have hnew := hcall s.heap.next
        { s with heap := s.heap.malloc (path ++ '/' :: name ++ [nul]) } _ [] hchild
        (s.heap.live_malloc_self)
      rw [hlive.load, run, ok_bind, newPath_eq mem hp hn rest, run, ok_bind]
      cases hv : plain (path ++ '/' :: name) with
      | error e =>
        rw [hv] at hnew
        simp only [Computes] at hnew
        simp only [hnew]
        exact rfl
      | ok v =>
        rw [hv] at hnew
        obtain ⟨k, hk⟩ := hnew
        obtain ⟨j, hj⟩ := s.free_spent (path ++ '/' :: name ++ [nul]) k
        simp only [hk, ok_bind, Store.spent, hj, run]
        exact (ih (Heap.live_spent.mpr hlive) hnames' (r + v)).of_spent

theorem Computes.closedir {s : Store} {x : Except Abort (UInt64 × Store)}
    (h : Computes x y { s with dirs := s.dirs + 1 }) :
    Computes (do let (r, s) ← x; .ok (r, { s with dirs := s.dirs - 1 })) y s := by
  cases y with
  | error e =>
    simp only [Computes] at h
    rw [h]
    rfl
  | ok v =>
    obtain ⟨k, hk⟩ := h
    exact ⟨k, by rw [hk]; rfl⟩

theorem nul_notMem_of_opendir {fs : Fs} (h : fs.opendir path = some dir) (hn : n ∈ dir) :
    nul ∉ n := by
  rw [Fs.opendir] at h
  obtain ⟨loc, -, h⟩ := Option.bind_eq_some_iff.mp h
  split at h
  · rename_i hdir
    cases h
    exact Fs.nul_notMem_readdir hdir hn
  · cases h

theorem du_computes (fs : Fs) (mem : Leftover Char) (fuel : Nat) {s : Store} (hp : nul ∉ path)
    (hlive : s.heap.Live p (path ++ nul :: rest)) :
    Computes (du fs mem fuel p s) (Du.du fs fuel path) s := by
  induction fuel generalizing p s path rest with
  | zero => rfl
  | succ fuel ih =>
    rw [du, Du.du, hlive.load, run, ok_bind, cString_nul hp, run, ok_bind]
    cases hst : fs.lstat path with
    | none => exact rfl
    | some st =>
      simp only
      split
      · exact ⟨0, by rw [s.spent_zero]⟩
      · cases hdir : fs.opendir path with
        | none => exact rfl
        | some dir =>
          have hloop := entries_computes mem (s := { s with dirs := s.dirs + 1 })
            (fun p s q rest hq hl => ih hq hl) hp hlive (fun n hn => nul_notMem_of_opendir hdir hn)
            (0 + blocksSize st)
          exact hloop.closedir

/-- du in memory computes what it computes on strings, closes what it opens and frees what it
allocates. -/
theorem du_in_memory (fs : Fs) (mem : Leftover Char) (fuel : Nat) {s : Store} (hp : nul ∉ path)
    (hlive : s.heap.Live p (path ++ nul :: rest)) :
    (∀ v, Du.du fs fuel path = .ok v → ∃ k, du fs mem fuel p s = .ok (v, s.spent k)) ∧
    (∀ e, Du.du fs fuel path = .error e → du fs mem fuel p s = .error (.stop e)) ∧
    ∀ loc t, fs.locate path = some loc → fs.root.get? loc = some t → t.height < fuel →
      ∃ k, du fs mem fuel p s = .ok (.ofNat (t.total * 512), s.spent k) := by
  have h := du_computes fs mem fuel hp hlive
  have hok : ∀ v, Du.du fs fuel path = .ok v → ∃ k, du fs mem fuel p s = .ok (v, s.spent k) := by
    intro v hv
    rwa [hv] at h
  refine ⟨hok, ?_, ?_⟩
  · intro e he
    rwa [he] at h
  · intro loc t hloc ht hfuel
    exact hok _ (du_eq hloc ht hfuel)

def rootArgument : Store := ⟨⟨[some ['/', nul]]⟩, 0⟩

/-- Blocks that hold no NUL when malloc returns them. -/
def slashes : Leftover Char := ⟨fun n => List.replicate n '/', fun _ => List.length_replicate⟩

theorem du_in_memory_root : rootArgument.heap.Live 0 (['/'] ++ nul :: []) ∧
    ∃ k, du (oneFileFs 3) slashes 5 0 rootArgument = .ok (5632, rootArgument.spent k) := by
  have hlive : rootArgument.heap.Live 0 (['/'] ++ nul :: []) := rfl
  obtain ⟨-, -, h⟩ := du_in_memory (oneFileFs 3) slashes 5 (by decide) hlive
  exact ⟨hlive, h [] (oneFile 3) (locate_root _) rfl (by decide)⟩

end Du.Pointer

end Apue
