import Apue.Memory
import Mathlib.Data.List.DropRight
import Mathlib.Data.List.Infix

namespace Apue.ValidatePasswd
set_option autoImplicit true

open scoped List

structure CStr where
  chars : List Char
  no_nul : nul ∉ chars

/-- for (int j = 0; j < n; j++) r[j] = s[j]; -/
def copyPrefix (s : List Char) (n j : Nat) (r : List Char) : Except Fault (List Char) :=
  if j < n then
    match (s ++ [nul])[j]? with
    | none => .error .bounds
    | some c =>
      match modifyAt r j fun _ => c with
      | .error e => .error e
      | .ok r => copyPrefix s n (j + 1) r
  else .ok r
termination_by n - j

/-- if (*cur == '$') cnt++; -/
def countDollar (c : Char) (cnt : Int) : Except Fault Int :=
  if c = '$' then addInt cnt 1 else .ok cnt

/-- The loop of `get_salt` from `cur` on. A NULL is returned as `none`, a pointer as the block
that it points to. -/
def getSaltLoop (mem : Leftover Char) (s : List Char) :
    List Char → Int → Int → Except Fault (Option (List Char))
  | [], _, _ => .ok none
  | c :: cur, cnt, i => do
    let cnt ← countDollar c cnt
    if cnt = 3 then
      let size ← addInt i 2
      let n ← addInt i 1
      let r ← copyPrefix s n.toNat 0 (mem.block size.toNat)
      return some r
    else
      let i ← addInt i 1
      getSaltLoop mem s cur cnt i

def getSalt (mem : Leftover Char) (s : CStr) : Except Fault (Option (List Char)) :=
  getSaltLoop mem s.chars s.chars 0 0

/-- `p` is the shortest prefix of `s` that contains three '$'. -/
structure SaltOf (p s : List Char) : Prop where
  isPrefix : p <+: s
  three : 3 ≤ p.count '$'
  least : ∀ q, q <+: s → 3 ≤ q.count '$' → p <+: q

theorem SaltOf.unique (h : SaltOf p s) (h' : SaltOf q s) : p = q :=
  (h.least q h'.isPrefix h'.three).eq_of_length_le (h'.least p h.isPrefix h.three).length_le

theorem SaltOf.of_two (h : mid.count '$' = 2) : SaltOf (mid ++ ['$']) (mid ++ '$' :: rest) where
  isPrefix := ⟨rest, by simp⟩
  three := by simp [h]
  least := by
    intro q hq h3
    have hp : mid ++ ['$'] <+: mid ++ '$' :: rest := ⟨rest, by simp⟩
    rcases List.prefix_or_prefix_of_prefix hp hq with hpq | hqp
    · exact hpq
    · rcases List.prefix_concat_iff.1 hqp with rfl | hqm
      · exact List.prefix_refl _
      · have hle := hqm.sublist.count_le '$'
        omega

theorem exists_third {s : List Char} (h : k < s.count '$') :
    ∃ mid rest, mid.count '$' = k ∧ s = mid ++ '$' :: rest := by
  induction s generalizing k with
  | nil => cases h
  | cons c s ih =>
    by_cases hc : c = '$'
    · subst hc
      rw [List.count_cons_self] at h
      cases k with
      | zero => exact ⟨[], s, rfl, rfl⟩
      | succ k =>
        obtain ⟨mid, rest, hm, rfl⟩ := ih (Nat.lt_of_succ_lt_succ h)
        exact ⟨'$' :: mid, rest, by rw [List.count_cons_self, hm], rfl⟩
    · rw [List.count_cons_of_ne hc] at h
      obtain ⟨mid, rest, hm, rfl⟩ := ih h
      exact ⟨c :: mid, rest, by rw [List.count_cons_of_ne hc, hm], rfl⟩

theorem SaltOf.exists_two (h : SaltOf p s) :
    ∃ mid rest, mid.count '$' = 2 ∧ p = mid ++ ['$'] ∧ s = mid ++ '$' :: rest := by
  have h3 : 2 < s.count '$' := h.three.trans (h.isPrefix.sublist.count_le '$')
  obtain ⟨mid, rest, hm, rfl⟩ := exists_third h3
  exact ⟨mid, rest, hm, h.unique (.of_two hm), rfl⟩

theorem exists_saltOf {s : List Char} (h : 3 ≤ s.count '$') : ∃ p, SaltOf p s := by
  obtain ⟨mid, rest, hm, rfl⟩ := exists_third h
  exact ⟨_, .of_two hm⟩

theorem take_modify_succ {s r : List Char} (hs : j < s.length) (hr : j < r.length)
    (hd : r.take j = s.take j) :
    (r.modify j fun _ => s[j]).take (j + 1) = s.take (j + 1) := by
  have hlen : (s.take (j + 1)).length = j + 1 := List.length_take_of_le hs
  rw [List.modify_eq_take_cons_drop hr, hd, List.append_cons, List.take_append_getElem hs,
    List.take_left' hlen]

theorem copyPrefix_eq {s r : List Char} (hs : n ≤ s.length) (hr : n ≤ r.length) (hj : j ≤ n)
    (hd : r.take j = s.take j) : copyPrefix s n j r = .ok (s.take n ++ r.drop n) := by
  induction hk : n - j generalizing j r with
  | zero =>
    obtain rfl : j = n := by omega
    rw [copyPrefix, if_neg (Nat.lt_irrefl j), ← hd, List.take_append_drop]
  | succ k ih =>
    have hlt : j < n := by omega
    have hjs : j < s.length := by omega
    have hjr : j < r.length := by omega
    have hget : (s ++ [nul])[j]? = some s[j] := by
      rw [List.getElem?_append_left hjs, List.getElem?_eq_getElem hjs]
    rw [copyPrefix, if_pos hlt, hget]
    simp only [modifyAt_of_lt hjr]
    rw [ih (by rw [List.length_modify]; exact hr) hlt (take_modify_succ hjs hjr hd) (by omega),
      List.drop_modify_of_lt _ _ _ _ hlt]

def counted (c : Char) (cnt : Int) : Int := if c = '$' then cnt + 1 else cnt

theorem counted_eq (c : Char) (cnt : Int) (l : List Char) :
    counted c cnt + l.count '$' = cnt + (c :: l).count '$' := by
  rw [counted]
  split
  · next hc =>
    rw [hc, List.count_cons_self]
    omega
  · next hc => rw [List.count_cons_of_ne hc]

theorem le_counted (c : Char) (cnt : Int) : cnt ≤ counted c cnt := by
  rw [counted]
  split <;> omega

theorem countDollar_ok {cnt : Int} (h0 : 0 ≤ cnt) (h : counted c cnt ≤ 3) :
    countDollar c cnt = .ok (counted c cnt) := by
  rw [counted] at h ⊢
  rw [countDollar]
  split
  · next hc =>
    rw [if_pos hc] at h
    exact addInt_of_nonneg (by omega) (Int.le_trans h (by decide))
  · rfl

theorem getSaltLoop_next (mem : Leftover Char) (s cur : List Char) (i : Int) {cnt : Int}
    (h0 : 0 ≤ cnt) (h : counted c cnt < 3) :
    getSaltLoop mem s (c :: cur) cnt i =
      addInt i 1 >>= getSaltLoop mem s cur (counted c cnt) := by
  rw [getSaltLoop, countDollar_ok h0 (Int.le_of_lt h), ok_bind, if_neg (Int.ne_of_lt h)]

theorem addInt_one {i : Nat} (h : (i : Int) + 1 ≤ intMax) :
    addInt i 1 = .ok ((i + 1 : Nat) : Int) :=
  addInt_of_nonneg (Int.natCast_nonneg (i + 1)) h

theorem addInt_two {i : Nat} (h : (i : Int) + 2 ≤ intMax) :
    addInt i 2 = .ok ((i + 2 : Nat) : Int) :=
  addInt_of_nonneg (Int.natCast_nonneg (i + 2)) h

def saltBlock (mem : Leftover Char) (p : List Char) : List Char :=
  p ++ (mem.block (p.length + 1)).drop p.length

theorem getSaltLoop_found (mem : Leftover Char) (done rest : List Char) :
    getSaltLoop mem (done ++ '$' :: rest) ('$' :: rest) 2 done.length =
      if (done.length : Int) + 2 ≤ intMax then .ok (some (saltBlock mem (done ++ ['$'])))
      else .error .overflow := by
  have hcnt : countDollar '$' 2 = .ok 3 := rfl
  rw [getSaltLoop, hcnt, ok_bind, if_pos rfl]
  by_cases hov : (done.length : Int) + 2 ≤ intMax
  · have hcopy : copyPrefix (done ++ '$' :: rest) (done.length + 1) 0
        (mem.block (done.length + 2)) = .ok (saltBlock mem (done ++ ['$'])) := by
      have htake : (done ++ '$' :: rest).take (done.length + 1) = done ++ ['$'] := by
        rw [List.append_cons, List.take_left' (by simp)]
      have hle : done.length + 1 ≤ (done ++ '$' :: rest).length := by simp
      have hroom : done.length + 1 ≤ (mem.block (done.length + 2)).length := by
        rw [mem.length_block]
        omega
      rw [copyPrefix_eq hle hroom (Nat.zero_le _) (by rw [List.take_zero, List.take_zero]),
        htake, saltBlock, List.length_append, List.length_singleton]
    rw [if_pos hov, addInt_two hov, ok_bind, addInt_one (by omega), ok_bind, Int.toNat_natCast,
      Int.toNat_natCast, hcopy]
    rfl
  · rw [if_neg hov, addInt_overflow hov]
    rfl

/-- With fewer than three '$' the loop gets to the NUL, unless its counter overflows. -/
theorem getSaltLoop_none (mem : Leftover Char) (s : List Char) {cur : List Char} {cnt i : Int}
    (h0 : 0 ≤ cnt) (hc : cnt + cur.count '$' < 3) (hi : 0 ≤ i) (hm : i ≤ intMax) :
    getSaltLoop mem s cur cnt i =
      if i + cur.length ≤ intMax then .ok none else .error .overflow := by
  induction cur generalizing cnt i with
  | nil => simp [getSaltLoop, hm]
  | cons c cur ih =>
    rw [← counted_eq] at hc
    rw [getSaltLoop_next mem s cur i h0 (by omega), List.length_cons]
    by_cases hov : i + 1 ≤ intMax
    · rw [addInt_of_nonneg (by omega) hov, ok_bind,
        ih (Int.le_trans h0 (le_counted c cnt)) hc (by omega) hov]
      congr 2
      omega
    · rw [if_neg (by omega), addInt_overflow hov]
      rfl

theorem getSaltLoop_some (mem : Leftover Char) {done mid rest : List Char}
    (hc : done.count '$' + mid.count '$' = 2) :
    getSaltLoop mem (done ++ (mid ++ '$' :: rest)) (mid ++ '$' :: rest) (done.count '$')
        done.length =
      if (done.length : Int) + mid.length + 2 ≤ intMax then
        .ok (some (saltBlock mem (done ++ (mid ++ ['$']))))
      else .error .overflow := by
  induction mid generalizing done with
  | nil =>
    have h2 : done.count '$' = 2 := hc
    rw [h2]
    simpa using getSaltLoop_found mem done rest
  | cons c mid ih =>
    have hstep : counted c (done.count '$') = ((done ++ [c]).count '$' : Nat) := by
      have h := counted_eq c (done.count '$') []
      rw [List.count_nil] at h
      rw [List.count_append]
      omega
    have hc' : (done ++ [c]).count '$' + mid.count '$' = 2 := by
      rw [← hc, List.count_append, Nat.add_assoc, ← List.count_append, List.singleton_append]
    rw [List.cons_append, getSaltLoop_next mem _ _ _ (Int.natCast_nonneg _) (by omega), hstep,
      List.length_cons]
    by_cases hov : (done.length : Int) + 1 ≤ intMax
    · have hrest := ih hc'
      rw [List.append_assoc, List.append_assoc, List.singleton_append, List.singleton_append,
        List.length_append, List.length_singleton] at hrest
      rw [addInt_one hov, ok_bind, hrest]
      congr 2
      omega
    · rw [if_neg (by omega), addInt_overflow hov]
      rfl

theorem getSalt_none (mem : Leftover Char) {s : CStr} (h : s.chars.count '$' < 3) :
    getSalt mem s =
      if (s.chars.length : Int) ≤ intMax then .ok none else .error .overflow := by
  rw [getSalt, getSaltLoop_none mem _ (Int.le_refl 0) (by omega) (Int.le_refl 0) (by decide),
    Int.zero_add]

theorem getSalt_some (mem : Leftover Char) {s : CStr} (h : SaltOf p s.chars) :
    getSalt mem s =
      if (p.length : Int) + 1 ≤ intMax then .ok (some (saltBlock mem p))
      else .error .overflow := by
  obtain ⟨mid, rest, hm, rfl, hs⟩ := h.exists_two
  have h2 : ([] : List Char).count '$' + mid.count '$' = 2 := by rw [hm]; rfl
  have hloop := @getSaltLoop_some mem [] mid rest h2
  rw [getSalt, hs]
  refine hloop.trans ?_
  rw [List.length_append, List.length_singleton, List.nil_append, List.length_nil]
  congr 2
  omega

/-- The byte behind the copied prefix, which `get_salt` does not write. -/
def behind (mem : Leftover Char) (p : List Char) : Option Char :=
  (mem.block (p.length + 1))[p.length]?

theorem exists_behind (mem : Leftover Char) (p : List Char) :
    ∃ x, behind mem p = some x ∧ saltBlock mem p = p ++ [x] := by
  have hlen := mem.length_block (p.length + 1)
  have hlt : p.length < (mem.block (p.length + 1)).length := by omega
  refine ⟨_, List.getElem?_eq_getElem hlt, ?_⟩
  rw [saltBlock, List.drop_eq_getElem_cons hlt, List.drop_of_length_le hlen.le]

theorem cString_saltBlock (mem : Leftover Char) (h : nul ∉ p) :
    cString (saltBlock mem p) = if behind mem p = some nul then .ok p else .error .bounds := by
  obtain ⟨x, hx, hb⟩ := exists_behind mem p
  rw [hb, hx, cString_append h]
  by_cases hn : x = nul
  · simp [hn, cString, Except.map]
  · simp [hn, cString, Except.map]

theorem SaltOf.no_nul {s : CStr} (h : SaltOf p s.chars) : nul ∉ p :=
  fun hm => s.no_nul (h.isPrefix.sublist.mem hm)

theorem SaltOf.three_le (h : SaltOf p s) : 3 ≤ s.count '$' :=
  h.three.trans (h.isPrefix.sublist.count_le '$')

/-- The result is NULL for fewer than three '$', and otherwise points to the shortest prefix with
three, its NUL within the block. -/
def SaltIsString (mem : Leftover Char) (s : CStr) : Prop :=
  (getSalt mem s = .ok none ↔ s.chars.count '$' < 3) ∧
    (3 ≤ s.chars.count '$' → ∃ p r, SaltOf p s.chars ∧ getSalt mem s = .ok (some r) ∧
      r.length = p.length + 1 ∧ cString r = .ok p)

/-- The length is an int, and the block happens to have a NUL behind the prefix `p`. -/
def Terminated (mem : Leftover Char) (p : List Char) : Prop :=
  (p.length : Int) + 1 ≤ intMax ∧ behind mem p = some nul

theorem SaltOf.terminated {s : CStr} (h : SaltOf p s.chars) (hr : getSalt mem s = .ok (some r))
    (ht : cString r = .ok t) : Terminated mem p ∧ t = p := by
  rw [getSalt_some mem h] at hr
  split at hr
  · next hlen =>
    cases hr
    rw [cString_saltBlock mem h.no_nul] at ht
    split at ht
    · next hb => exact ⟨⟨hlen, hb⟩, (Except.ok.inj ht).symm⟩
    · cases ht
  · cases hr

theorem saltIsString_of_lt (mem : Leftover Char) {s : CStr} (h : s.chars.count '$' < 3) :
    SaltIsString mem s ↔ (s.chars.length : Int) ≤ intMax := by
  rw [SaltIsString, getSalt_none mem h]
  constructor
  · rintro ⟨hn, -⟩
    by_contra hlen
    rw [if_neg hlen] at hn
    cases hn.2 h
  · intro hlen
    rw [if_pos hlen]
    exact ⟨iff_of_true rfl h, fun h3 => absurd h (Nat.not_lt.2 h3)⟩

theorem saltIsString_of_saltOf (mem : Leftover Char) {s : CStr} (h : SaltOf p s.chars) :
    SaltIsString mem s ↔ Terminated mem p := by
  have h3 := h.three_le
  constructor
  · rintro ⟨-, hs⟩
    obtain ⟨q, r, hq, hr, -, hstr⟩ := hs h3
    exact (h.terminated hr hstr).1
  · rintro ⟨hlen, hb⟩
    have hr := (getSalt_some mem h).trans (if_pos hlen)
    obtain ⟨x, -, hblock⟩ := exists_behind mem p
    refine ⟨?_, fun _ => ⟨p, _, h, hr, ?_, ?_⟩⟩
    · rw [hr]
      exact iff_of_false nofun (Nat.not_lt.2 h3)
    · rw [hblock, List.length_append, List.length_singleton]
    · rw [cString_saltBlock mem h.no_nul, if_pos hb]

/-- `get_salt` writes no NUL, so that its result is a string only where one stood before. -/
theorem getSalt_string_iff (mem : Leftover Char) (s : CStr) :
    SaltIsString mem s ↔
      (s.chars.count '$' < 3 → (s.chars.length : Int) ≤ intMax) ∧
        ∀ p, SaltOf p s.chars → Terminated mem p := by
  by_cases h : s.chars.count '$' < 3
  · rw [saltIsString_of_lt mem h]
    constructor
    · intro hlen
      exact ⟨fun _ => hlen, fun p hp => absurd h (Nat.not_lt.2 hp.three_le)⟩
    · rintro ⟨hlen, -⟩
      exact hlen h
  · obtain ⟨p, hp⟩ := exists_saltOf (Nat.not_lt.1 h)
    rw [saltIsString_of_saltOf mem hp]
    constructor
    · intro ht
      exact ⟨fun hlt => absurd hlt h, fun q hq => hp.unique hq ▸ ht⟩
    · rintro ⟨-, hall⟩
      exact hall p hp

def filled (x : Char) : Leftover Char :=
  ⟨fun n => List.replicate n x, fun _ => List.length_replicate⟩

def shortField : CStr := ⟨['$', '1', '$', 'a', '$'], by decide⟩

theorem getSalt_unterminated :
    ∃ r, getSalt (filled 'X') shortField = .ok (some r) ∧ r = shortField.chars ++ ['X'] ∧
      cString r = .error .bounds := by
  have hp : SaltOf (['$', '1', '$', 'a'] ++ ['$']) (['$', '1', '$', 'a'] ++ '$' :: []) :=
    .of_two rfl
  exact ⟨_, (getSalt_some (filled 'X') (s := shortField) hp).trans (if_pos (by decide)), rfl, rfl⟩

/-- The part of its second argument that crypt reads: in the modular form, all up to the last '$'
before the digest. -/
structure Setting where
  part : List Char → List Char
  modular : ∀ u digest, (u ++ ['$']).head? = some '$' → '$' ∉ digest →
    part (u ++ '$' :: digest) = u ++ ['$']

/-- A crypt whose result depends on the setting part only, `none` when it fails. -/
structure Crypt (S : Setting) where
  hash : List Char → List Char → Option (List Char)
  hash_congr : ∀ pw s t, S.part s = S.part t → hash pw s = hash pw t

inductive Verdict where
  | success
  | failed
  deriving DecidableEq, Repr

/-- The end of `main`, from `get_salt` on. -/
def validate (crypt : Crypt S) (mem : Leftover Char) (field : CStr) (passwd : List Char) :
    Except Fault Verdict := do
  match ← getSalt mem field with
  | none => .error .null
  | some r =>
    let salt ← cString r
    match crypt.hash passwd salt with
    | none => .error .null
    | some crypted => return if crypted = field.chars then .success else .failed

/-- `main` accepts just the password that crypt maps to the field, and calls crypt with a
string. -/
def Validates (crypt : Crypt S) (mem : Leftover Char) (field : CStr) (passwd : List Char) : Prop :=
  (validate crypt mem field passwd = .ok .success ↔
      crypt.hash passwd field.chars = some field.chars) ∧
    getSalt mem field ≠ .ok none

theorem validate_success {crypt : Crypt S}
    (h : validate crypt mem field passwd = .ok .success) :
    ∃ r salt, getSalt mem field = .ok (some r) ∧ cString r = .ok salt ∧
      crypt.hash passwd salt = some field.chars := by
  obtain ⟨salt, hsalt, h⟩ := bind_ok h
  cases salt with
  | none => cases h
  | some r =>
    obtain ⟨s, hs, h⟩ := bind_ok h
    refine ⟨r, s, hsalt, hs, ?_⟩
    cases hh : crypt.hash passwd s with
    | none =>
      rw [hh] at h
      cases h
    | some crypted =>
      simp only [hh] at h
      split at h
      · next he => rw [he]
      · cases h

theorem validate_terminated (crypt : Crypt S) {field : CStr} (passwd : List Char)
    (hp : SaltOf p field.chars) (ht : Terminated mem p) :
    validate crypt mem field passwd = .ok .success ↔
      crypt.hash passwd p = some field.chars := by
  have hr := (getSalt_some mem hp).trans (if_pos ht.1)
  have hs := (cString_saltBlock mem hp.no_nul).trans (if_pos ht.2)
  rw [validate, hr, ok_bind]
  simp only [hs, ok_bind]
  cases hh : crypt.hash passwd p with
  | none => simp
  | some crypted =>
    by_cases he : crypted = field.chars
    · simp [he, pure, Except.pure]
    · simp [he, pure, Except.pure]

theorem exists_last {l : List Char} (h : c ∈ l) : ∃ u v, l = u ++ c :: v ∧ c ∉ v := by
  obtain ⟨as, bs, he, hn⟩ := List.eq_append_cons_of_mem (List.mem_reverse.2 h)
  refine ⟨bs.reverse, as.reverse, ?_, by simpa using hn⟩
  rw [← List.reverse_inj, he]
  simp

/-- In a string of the modular form, the prefix with three '$' is the setting just where there is
no fourth '$'. -/
theorem Setting.part_eq_iff (S : Setting) (hh : h.head? = some '$') (hp : SaltOf p h) :
    S.part p = S.part h ↔ h.count '$' = 3 := by
  obtain ⟨mid, rest, hm, rfl, rfl⟩ := hp.exists_two
  have hhead : ∀ l, (mid ++ '$' :: l).head? = some '$' := by
    intro l
    cases mid with
    | nil => rfl
    | cons c mid => exact hh
  have hpart : S.part (mid ++ ['$']) = mid ++ ['$'] :=
    S.modular mid [] (hhead []) List.not_mem_nil
  have hcount : (mid ++ '$' :: rest).count '$' = 3 ↔ '$' ∉ rest := by
    rw [List.count_append, List.count_cons_self, hm, ← List.count_eq_zero]
    omega
  rw [hpart, hcount]
  constructor
  · intro he hmem
    obtain ⟨u, v, rfl, hv⟩ := exists_last hmem
    have hlong := S.modular (mid ++ '$' :: u) v (by simpa using hhead (u ++ ['$'])) hv
    rw [List.append_assoc, List.cons_append] at hlong
    rw [hlong] at he
    have hlen := congrArg List.length he
    simp at hlen
  · intro hn
    exact (S.modular mid rest (hhead []) hn).symm

def Crypt.only (S : Setting) (field : List Char) : Crypt S where
  hash _ s := if S.part s = S.part field then some field else none
  hash_congr _ s t h := by rw [h]

theorem validates_iff_part (S : Setting) (mem : Leftover Char) (field : CStr) :
    (∀ (crypt : Crypt S) passwd, Validates crypt mem field passwd) ↔
      ∃ p, SaltOf p field.chars ∧ Terminated mem p ∧ S.part p = S.part field.chars := by
  constructor
  · intro hall
    have hown : (Crypt.only S field.chars).hash [] field.chars = some field.chars := if_pos rfl
    obtain ⟨r, salt, hr, hs, hh⟩ := validate_success ((hall (.only S field.chars) []).1.2 hown)
    by_cases hc : field.chars.count '$' < 3
    · rw [getSalt_none mem hc] at hr
      split at hr <;> cases hr
    · obtain ⟨p, hp⟩ := exists_saltOf (Nat.not_lt.1 hc)
      obtain ⟨ht, rfl⟩ := hp.terminated hr hs
      refine ⟨salt, hp, ht, ?_⟩
      by_contra hne
      cases (if_neg hne).symm.trans hh
  · rintro ⟨p, hp, ht, hpart⟩ crypt passwd
    constructor
    · rw [validate_terminated crypt passwd hp ht, crypt.hash_congr passwd p _ hpart]
    · rw [getSalt_some mem hp, if_pos ht.1]
      nofun

/-- `main` agrees with crypt on the modular form just where the field has three '$', provided that
the salt is terminated. -/
theorem validates_iff (S : Setting) (mem : Leftover Char) (field : CStr) :
    (∀ (crypt : Crypt S) passwd, Validates crypt mem field passwd) ↔
      ∃ p, SaltOf p field.chars ∧ Terminated mem p ∧
        if field.chars.head? = some '$' then field.chars.count '$' = 3
        else S.part p = S.part field.chars := by
  rw [validates_iff_part]
  constructor
  · rintro ⟨p, hp, ht, hpart⟩
    refine ⟨p, hp, ht, ?_⟩
    split
    · next hh => exact (S.part_eq_iff hh hp).1 hpart
    · exact hpart
  · rintro ⟨p, hp, ht, hpart⟩
    refine ⟨p, hp, ht, ?_⟩
    split at hpart
    · next hh => exact (S.part_eq_iff hh hp).2 hpart
    · exact hpart

def lastDollar : Setting where
  part s := s.rdropWhile (· ≠ '$')
  modular := by
    intro u digest _ hd
    induction digest using List.reverseRecOn with
    | nil => exact List.rdropWhile_concat_neg _ _ _ (by decide)
    | append_singleton digest c ih =>
      have hc : c ≠ '$' := fun he => hd (by simp [he])
      rw [← List.cons_append, ← List.append_assoc,
        List.rdropWhile_concat_pos _ _ _ (by simpa using hc)]
      exact ih fun hm => hd (List.mem_append_left _ hm)

def roundsField : CStr := ⟨"$6$rounds=5000$salt$digest".toList, by decide⟩

def roundsCrypt : Crypt lastDollar where
  hash passwd s :=
    if passwd = ['p'] ∧ lastDollar.part s = "$6$rounds=5000$salt$".toList then
      some roundsField.chars
    else some ['*', '0']
  hash_congr _ s t h := by rw [h]

/-- The right password is rejected, and a field without '$' leads to crypt with NULL. -/
theorem rounds_rejected :
    roundsCrypt.hash ['p'] roundsField.chars = some roundsField.chars ∧
      validate roundsCrypt (filled nul) roundsField ['p'] = .ok .failed ∧
      getSalt (filled nul) ⟨['!'], by decide⟩ = .ok none := by
  have hp : SaltOf ("$6$rounds=5000".toList ++ ['$']) roundsField.chars := .of_two rfl
  have hr := (getSalt_some (filled nul) hp).trans (if_pos (by decide))
  have hs := (cString_saltBlock (filled nul) hp.no_nul).trans (if_pos rfl)
  refine ⟨by decide, ?_, rfl⟩
  rw [validate, hr, ok_bind]
  simp only [hs, ok_bind]
  decide

end Apue.ValidatePasswd
