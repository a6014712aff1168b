import Apue.Decimal
import Apue.DuGlobHeap
import Mathlib.Data.Nat.Log

namespace Apue.Du
set_option autoImplicit true

/-- The conversion from uint64_t to double: numbers of 53 bits are kept, and larger ones are rounded
in one direction or the other. -/
structure Conversion where
  toDouble : UInt64 → ℚ
  exact : ∀ n, n.toNat < 2 ^ 53 → toDouble n = n.toNat
  mono : ∀ m n, m ≤ n → toDouble m ≤ toDouble n

/-- The nearest number of hundredths, the even one of two that are as near. -/
def hundredths (d : ℚ) : Nat :=
  if 100 * d - ⌊100 * d⌋₊ < 1 / 2 ∨ 100 * d - ⌊100 * d⌋₊ = 1 / 2 ∧ ⌊100 * d⌋₊ % 2 = 0 then
    ⌊100 * d⌋₊
  else ⌊100 * d⌋₊ + 1

/-- The text of %.2f for a number that is not negative. -/
def fixed (d : ℚ) : List Char :=
  decimal (hundredths d / 100 : Nat) ++
    ['.', Nat.digitChar (hundredths d / 10 % 10), Nat.digitChar (hundredths d % 10)]

structure Screen where
  stdout : List Char
  stderr : List Char

namespace Pointer

abbrev Program := ExceptT Abort (StateM Screen)

def call (x : Except Abort α) : Program α := fun o => (x, o)

def printf (text : List Char) : Program Unit :=
  fun o => (.ok (), { o with stdout := o.stdout ++ text })

def eprintf (text : List Char) : Program Unit :=
  fun o => (.ok (), { o with stderr := o.stderr ++ text })

def usage (name : List Char) : List Char :=
  "print directory/file disk usage recursively\nUsage: ".toList ++ name ++
    " filename/dirname\n".toList

/-- getenv("DU_BY_GLOB") != NULL && strcmp(getenv("DU_BY_GLOB"), "1") -/
def byGlob : Option StoredString → Except Fault Bool
  | none => .ok false
  | some v => do
    let k ← v.ptr.strcmp (StoredString.literal ['1'] (by decide)).ptr
    return k != 0

def modeLine (glob : Bool) : List Char :=
  if glob then "du by glob\n".toList else "du by readdir\n".toList

def resultLine (d : ℚ) (letter : Char) : List Char :=
  "du = ".toList ++ fixed d ++ [letter, '\n']

/-- What du and du_by_glob write by perror is left out. Dividing by a power of two is exact for a
double. -/
def main (fs : Fs) (mem : Leftover Char) (fuel : Nat) (conv : Conversion)
    (env : Option StoredString) (name : Nat) (args : List Nat) (s : Store) : Program Nat :=
  match args with
  | [] => do
    let array ← call (run (s.heap.load name))
    let text ← call (run (cString array))
    eprintf (usage text)
    throw (.stop (.exit 1))
  | path :: _ => do
    let glob ← call (run (byGlob env))
    printf (modeLine glob)
    let r ← call (if glob then duByGlob fs mem fuel path s else du fs mem fuel path s)
    let shown := scale (conv.toDouble r.1) 0
    let letter ← call (run (unitLetter shown.2))
    printf (resultLine shown.1 letter)
    return 0

end Pointer

theorem hundredths_near {d : ℚ} (h : 0 ≤ d) : |(hundredths d : ℚ) / 100 - d| ≤ 1 / 200 := by
  have hle := Nat.floor_le (mul_nonneg (by norm_num : (0 : ℚ) ≤ 100) h)
  have hlt := Nat.lt_floor_add_one (100 * d)
  rw [abs_le, hundredths]
  split
  next hlow =>
    have hhalf : 100 * d - ⌊100 * d⌋₊ ≤ 1 / 2 := by
      rcases hlow with hlow | ⟨hlow, -⟩
      · exact hlow.le
      · exact hlow.le
    constructor <;> linarith
  next hhigh =>
    have hhalf : 1 / 2 ≤ 100 * d - ⌊100 * d⌋₊ := not_lt.mp fun hlow => hhigh (.inl hlow)
    push_cast
    constructor <;> linarith

theorem scale_mul (d : ℚ) (unit : Nat) :
    (scale d unit).1 * 1024 ^ (scale d unit).2 = d * 1024 ^ unit := by
  fun_induction scale d unit with
  | case1 d unit h ih => rw [ih, pow_succ]; ring
  | case2 d unit h => rfl

theorem scale_eq (d : ℚ) : (scale d 0).1 = d / 1024 ^ (scale d 0).2 := by
  have h := scale_mul d 0
  rw [pow_zero, mul_one] at h
  rw [eq_div_iff (by positivity), h]

theorem unitLetter_of_lt {unit : Nat} (h : unit < 5) :
    ∃ c, units[unit]? = some c ∧ unitLetter unit = .ok c := by
  have hlt : unit < units.length := h
  refine ⟨units[unit], List.getElem?_eq_getElem hlt, ?_⟩
  rw [unitLetter, List.getElem?_eq_getElem hlt]

theorem unitLetter_of_ge {unit : Nat} (h : 5 ≤ unit) : unitLetter unit = .error .bounds := by
  rw [unitLetter, List.getElem?_eq_none h]

namespace Conversion

variable (conv : Conversion) {total : UInt64}

/-- As 1000 times 1024^4 has 50 bits, no rounding hides whether a total is larger. -/
theorem unit_lt_five_iff :
    (scale (conv.toDouble total) 0).2 < 5 ↔ total.toNat ≤ 1000 * 1024 ^ 4 := by
  have hscale := scale_le_iff (conv.toDouble total) 0 4
  rw [Nat.zero_add] at hscale
  rw [Nat.lt_succ_iff, hscale]
  constructor
  · intro hle
    by_contra hgt
    have hnext : (1000 * 1024 ^ 4 + 1 : UInt64) ≤ total := by
      rw [UInt64.le_iff_toNat_le]
      exact Nat.not_le.mp hgt
    have hmono := conv.mono _ _ hnext
    rw [conv.exact _ (by decide)] at hmono
    have hvalue : ((1000 * 1024 ^ 4 + 1 : UInt64).toNat : ℚ) = 1000 * 1024 ^ 4 + 1 := by
      norm_cast
    linarith
  · intro hle
    rw [conv.exact _ (by omega)]
    exact_mod_cast hle

end Conversion

/-- A number without what lies behind its first 53 bits. -/
def truncate (n : Nat) : Nat := n / 2 ^ (Nat.log 2 n - 52) * 2 ^ (Nat.log 2 n - 52)

theorem truncate_of_lt (h : n < 2 ^ 53) : truncate n = n := by
  have hlog : Nat.log 2 n ≤ 52 := Nat.lt_succ_iff.mp (Nat.log_lt_of_lt_pow' (by decide) h)
  rw [truncate, Nat.sub_eq_zero_of_le hlog, pow_zero, Nat.div_one, Nat.mul_one]

theorem pow_log_le_truncate (h : n ≠ 0) : 2 ^ Nat.log 2 n ≤ truncate n := by
  have hpow : 2 ^ (Nat.log 2 n - (Nat.log 2 n - 52)) * 2 ^ (Nat.log 2 n - 52) =
      2 ^ Nat.log 2 n := by
    rw [← pow_add, Nat.sub_add_cancel (Nat.sub_le _ _)]
  have hdiv := (Nat.le_div_iff_mul_le (Nat.two_pow_pos _)).mpr
    (hpow.trans_le (Nat.pow_log_le_self 2 h))
  exact hpow.symm.trans_le (Nat.mul_le_mul_right _ hdiv)

theorem truncate_mono (h : m ≤ n) : truncate m ≤ truncate n := by
  rcases (Nat.log_mono_right h : Nat.log 2 m ≤ Nat.log 2 n).eq_or_lt with heq | hlt
  · rw [truncate, truncate, heq]
    exact Nat.mul_le_mul_right _ (Nat.div_le_div_right h)
  · -- a power of two lies between the numbers, and between what is left of them
    have hn : n ≠ 0 := by
      rintro rfl
      exact Nat.not_lt_zero _ (hlt.trans_eq (Nat.log_zero_right 2))
    calc truncate m ≤ m := Nat.div_mul_le_self _ _
      _ ≤ 2 ^ (Nat.log 2 m + 1) := (Nat.lt_pow_succ_log_self (by decide) m).le
      _ ≤ 2 ^ Nat.log 2 n := Nat.pow_le_pow_right (by decide) hlt
      _ ≤ truncate n := pow_log_le_truncate hn

def towardZero : Conversion where
  toDouble n := truncate n.toNat
  exact n h := by rw [truncate_of_lt h]
  mono m n h := by exact_mod_cast truncate_mono (UInt64.le_iff_toNat_le.mp h)

/-- The unit is the first one that leaves at most 1000, and the two digits behind the point are the
nearest. -/
structure Shown (total : UInt64) (unit : Nat) (letter : Char) : Prop where
  least : ∀ k, unit ≤ k ↔ total.toNat ≤ 1000 * 1024 ^ k
  letter_eq : units[unit]? = some letter
  near : |(hundredths (total.toNat / 1024 ^ unit) : ℚ) / 100 - total.toNat / 1024 ^ unit| ≤ 1 / 200

namespace Pointer

theorem call_ok_bind (a : α) (f : α → Program β) (o : Screen) : (call (.ok a) >>= f) o = f a o :=
  rfl

theorem call_error_bind (e : Abort) (f : α → Program β) (o : Screen) :
    (call (.error e) >>= f) o = (.error e, o) := rfl

theorem printf_bind (text : List Char) (f : Unit → Program β) (o : Screen) :
    (printf text >>= f) o = f () { o with stdout := o.stdout ++ text } := rfl

/-- DU_BY_GLOB asks for du_by_glob with any value other than 1. -/
def wantsGlob (env : Option StoredString) : Bool := env.any fun v => v.chars ≠ ['1']

theorem byGlob_eq (env : Option StoredString) : byGlob env = .ok (wantsGlob env) := by
  cases env with
  | none => rfl
  | some v =>
    obtain ⟨k, hk, hzero⟩ := v.strcmp_ptr (.literal ['1'] (by decide))
    rw [byGlob, hk, ok_bind, wantsGlob, Option.any_some]
    refine congrArg Except.ok ?_
    rw [Bool.eq_iff_iff, bne_iff_ne, decide_eq_true_eq, ne_eq, hzero]
    rfl

section
variable {fs : Fs} {mem : Leftover Char} {conv : Conversion} {s : Store}
  {env : Option StoredString} {o : Screen}

theorem main_error (h : (if wantsGlob env then duByGlob fs mem fuel p s
      else du fs mem fuel p s) = .error e) :
    main fs mem fuel conv env name (p :: args) s o =
      (.error e, { o with stdout := o.stdout ++ modeLine (wantsGlob env) }) := by
  rw [main, byGlob_eq, run, call_ok_bind, printf_bind, h, call_error_bind]

theorem main_ok (h : (if wantsGlob env then duByGlob fs mem fuel p s
      else du fs mem fuel p s) = .ok (total, s')) :
    (total.toNat ≤ 1000 * 1024 ^ 4 → ∃ unit letter, Shown total unit letter ∧
      main fs mem fuel conv env name (p :: args) s o = (.ok 0, { o with
        stdout := o.stdout ++ modeLine (wantsGlob env) ++
          resultLine (total.toNat / 1024 ^ unit) letter })) ∧
    (1000 * 1024 ^ 4 < total.toNat →
      main fs mem fuel conv env name (p :: args) s o = (.error (.fault .bounds), { o with
        stdout := o.stdout ++ modeLine (wantsGlob env) })) := by
  rw [main, byGlob_eq, run, call_ok_bind, printf_bind, h, call_ok_bind]
  constructor
  · intro hle
    obtain ⟨letter, hletter, hread⟩ := unitLetter_of_lt (conv.unit_lt_five_iff.mpr hle)
    have hexact := conv.exact total (by omega)
    rw [hexact] at hletter hread
    refine ⟨_, letter, ⟨?_, hletter, hundredths_near (by positivity)⟩, ?_⟩
    · exact fun k => unitOf_le_iff total k
    · simp only [hexact]
      rw [hread, run, call_ok_bind, printf_bind, scale_eq]
      rfl
  · intro hlt
    have hge := mt conv.unit_lt_five_iff.mp (Nat.not_le.mpr hlt)
    simp only
    rw [unitLetter_of_ge (Nat.not_lt.mp hge), run, call_error_bind]

end

/-- What the traversal that DU_BY_GLOB chooses computes on strings. -/
def chosen (fs : Fs) (fuel : Nat) (env : Option StoredString) (path : List Char) :
    Except Stop UInt64 :=
  if wantsGlob env then Du.duByGlob fs fuel path else Du.du fs fuel path

theorem chosen_computes (fs : Fs) (mem : Leftover Char) (fuel : Nat) (env : Option StoredString)
    {s : Store} (hp : nul ∉ path) (hlive : s.heap.Live p (path ++ nul :: rest)) :
    Computes (if wantsGlob env then duByGlob fs mem fuel p s else du fs mem fuel p s)
      (chosen fs fuel env path) s := by
  rw [chosen]
  split
  · exact duByGlob_computes fs mem fuel hp hlive
  · exact du_computes fs mem fuel hp hlive

/-- Beyond 1000 times 1024^4 bytes the program reads the letter of its unit behind the end of the
string. -/
theorem du_main (fs : Fs) (mem : Leftover Char) (fuel : Nat) (conv : Conversion)
    (env : Option StoredString) (name : Nat) (args : List Nat) {s : Store} (o : Screen)
    (hp : nul ∉ path) (hlive : s.heap.Live p (path ++ nul :: rest)) :
    (∀ text behind, nul ∉ text → s.heap.Live name (text ++ nul :: behind) →
      main fs mem fuel conv env name [] s o =
        (.error (.stop (.exit 1)), { o with stderr := o.stderr ++ usage text })) ∧
    (fs.lstat path = none → chosen fs (fuel + 1) env path = .error (.exit 1)) ∧
    (∀ loc t, fs.locate path = some loc → fs.root.get? loc = some t → t.height < fuel →
      (wantsGlob env = true → ∀ q, Called fs path q → OnlyItself fs q) →
      chosen fs fuel env path = .ok (.ofNat (t.total * 512))) ∧
    (∀ e, chosen fs fuel env path = .error e → main fs mem fuel conv env name (p :: args) s o =
      (.error (.stop e), { o with stdout := o.stdout ++ modeLine (wantsGlob env) })) ∧
    ∀ total, chosen fs fuel env path = .ok total →
      (total.toNat ≤ 1000 * 1024 ^ 4 → ∃ unit letter, Shown total unit letter ∧
        main fs mem fuel conv env name (p :: args) s o = (.ok 0, { o with
          stdout := o.stdout ++ modeLine (wantsGlob env) ++
            resultLine (total.toNat / 1024 ^ unit) letter })) ∧
      (1000 * 1024 ^ 4 < total.toNat →
        main fs mem fuel conv env name (p :: args) s o = (.error (.fault .bounds), { o with
          stdout := o.stdout ++ modeLine (wantsGlob env) })) := by
  have hmem := chosen_computes fs mem fuel env hp hlive
  refine ⟨?_, ?_, ?_, ?_, ?_⟩
  · intro text behind htext hname
    rw [main, hname.load, run, call_ok_bind, cString_nul htext, run, call_ok_bind]
    rfl
  · intro hnone
    simp only [chosen, Du.du, Du.duByGlob, hnone, ite_self]
  · intro loc t hloc ht hfuel honly
    rw [chosen]
    split
    next hg => exact duByGlob_eq (honly hg) hloc ht hfuel
    next => exact du_eq hloc ht hfuel
  · intro e he
    rw [he] at hmem
    exact main_error hmem
  · intro total htotal
    rw [htotal] at hmem
    obtain ⟨k, hk⟩ := hmem
    exact main_ok hk

def zero : StoredString := .literal ['0'] (by decide)

theorem oneFileFs_literal (blocks : Nat) : (oneFileFs blocks).Literal := by
  apply Fs.literal_of_plain
  have hloc : (oneFileFs blocks).root.locations = [[], [['f']]] := rfl
  rw [hloc]
  simp [Glob.special]

theorem du_main_zero : ∃ unit letter, Shown 5632 unit letter ∧
    main (oneFileFs 3) slashes 5 towardZero (some zero) 0 [0] rootArgument ⟨[], []⟩ = (.ok 0,
      ⟨"du by glob\n".toList ++ resultLine (5632 / 1024 ^ unit) letter, []⟩) := by
  have hlive : rootArgument.heap.Live 0 (['/'] ++ nul :: []) := rfl
  have honly : ∀ q, Called (oneFileFs 3) ['/'] q → OnlyItself (oneFileFs 3) q := fun q _ =>
    onlyItself_of_literal (oneFileFs_literal 3) q
  obtain ⟨-, -, hsize, -, h⟩ := du_main (oneFileFs 3) slashes 5 towardZero (some zero) 0 []
    ⟨[], []⟩ (by decide) hlive
  have htotal := hsize [] (oneFile 3) (locate_root _) rfl (by decide) fun _ => honly
  exact (h 5632 htotal).1 (by decide)

end Pointer

end Apue.Du
