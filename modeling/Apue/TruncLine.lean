import Apue.CharStream
import Apue.Memory

namespace Apue.TruncLn10
set_option autoImplicit true

def bufSize : Nat := 256

/-- The bytes that `read` puts into buf, which ends the loop only with no byte. -/
structure Chunk where
  bytes : List UInt8
  pos : 0 < bytes.length
  le : bytes.length ≤ bufSize

structure Pass where
  line : Int
  tmp : List UInt8

/-- if (line != 10) fputc(buf[p], tmp); if (buf[p] == '\n') line++; -/
def Pass.byte (s : Pass) (b : UInt8) : Except Fault Pass :=
  let c := toChar b.toNat
  let tmp := if s.line ≠ 10 then fputc c s.tmp else s.tmp
  if c = 10 then do
    let line ← addInt s.line 1
    return ⟨line, tmp⟩
  else .ok ⟨s.line, tmp⟩

def Pass.chunk (s : Pass) (c : Chunk) : Except Fault Pass := c.bytes.foldlM Pass.byte s

def filterPass (chunks : List Chunk) : Except Fault Pass := chunks.foldlM Pass.chunk ⟨1, []⟩

/-- The file after the program, when its reads return `chunks` and no call fails. -/
def truncLn10 (chunks : List Chunk) : Except Fault (List UInt8) := do
  let s ← filterPass chunks
  return copyChars s.tmp []

def content (chunks : List Chunk) : List UInt8 := chunks.flatMap Chunk.bytes

/-- What the loop keeps of the bytes that follow, `line` being the number of their first line. -/
def kept (line : Int) : List UInt8 → List UInt8
  | [] => []
  | b :: l => (if line = 10 then [] else [b]) ++ kept (if b = 10 then line + 1 else line) l

theorem toChar_eq_nl {b : UInt8} : toChar b.toNat = 10 ↔ b = 10 := by
  have hb := b.toNat_lt
  rw [← UInt8.toNat_inj]
  simp only [toChar, UInt8.toNat_ofNat]
  omega

theorem Pass.byte_ok (s : Pass) (b : UInt8) (h0 : 0 ≤ s.line)
    (h1 : b = 10 → s.line + 1 ≤ intMax) :
    s.byte b = .ok ⟨if b = 10 then s.line + 1 else s.line,
      s.tmp ++ if s.line = 10 then [] else [b]⟩ := by
  have htmp : (if s.line ≠ 10 then fputc (toChar b.toNat) s.tmp else s.tmp) =
      s.tmp ++ if s.line = 10 then [] else [b] := by
    by_cases h : s.line = 10
    · simp [h]
    · simp [h, fputc_toChar]
  simp only [Pass.byte, htmp, toChar_eq_nl]
  by_cases hb : b = 10
  · rw [if_pos hb, if_pos hb, addInt_of_nonneg (by omega) (h1 hb)]
    rfl
  · rw [if_neg hb, if_neg hb]

/-- The line number is an int, so what the loop does is defined up to 2^31 - 2 newlines. -/
theorem Pass.bytes_ok (s : Pass) (l : List UInt8) (h0 : 0 ≤ s.line)
    (h1 : s.line + l.count 10 ≤ intMax) :
    l.foldlM Pass.byte s = .ok ⟨s.line + l.count 10, s.tmp ++ kept s.line l⟩ := by
  induction l generalizing s with
  | nil => simp [kept, pure, Except.pure]
  | cons b l ih =>
    rw [List.foldlM_cons, kept]
    by_cases hb : b = 10
    · subst hb
      rw [List.count_cons_self, Int.natCast_succ] at h1 ⊢
      have hstep := s.byte_ok 10 h0 (fun _ => by omega)
      rw [if_pos rfl] at hstep ⊢
      have hrest := ih ⟨s.line + 1, s.tmp ++ if s.line = 10 then [] else [10]⟩
        (show 0 ≤ s.line + 1 by omega) (show s.line + 1 + l.count 10 ≤ intMax by omega)
      have hline : s.line + 1 + l.count 10 = s.line + (l.count 10 + 1) := by omega
      rw [hstep, ok_bind, hrest, List.append_assoc, hline]
    · rw [List.count_cons_of_ne hb] at h1 ⊢
      have hstep := s.byte_ok b h0 (fun he => absurd he hb)
      rw [if_neg hb] at hstep ⊢
      have hrest := ih ⟨s.line, s.tmp ++ if s.line = 10 then [] else [b]⟩ h0 h1
      rw [hstep, ok_bind, hrest, List.append_assoc]

theorem filterPass_eq (chunks : List Chunk) :
    filterPass chunks = (content chunks).foldlM Pass.byte ⟨1, []⟩ := by
  rw [filterPass]
  generalize (⟨1, []⟩ : Pass) = s
  induction chunks generalizing s with
  | nil => rfl
  | cons c cs ih =>
    rw [List.foldlM_cons, content, List.flatMap_cons, List.foldlM_append]
    exact congrArg (Pass.chunk s c >>= ·) (funext fun s' => ih s')

theorem kept_eq_self {line : Int} (h : 10 < line) (l : List UInt8) : kept line l = l := by
  induction l generalizing line with
  | nil => rfl
  | cons b l ih =>
    have hne : line ≠ 10 := by omega
    rw [kept, if_neg hne, ih (by split <;> omega)]
    rfl

theorem kept_eq_withoutLine (n : Nat) (h : n ≤ 9) (l : List UInt8) :
    kept (10 - n) l = withoutLine 10 (n + 1) l := by
  induction l generalizing n with
  | nil => simp [kept, withoutLine, linesOf]
  | cons b l ih =>
    cases n with
    | zero =>
      have ih0 : kept 10 l = withoutLine 10 1 l := ih 0 (Nat.zero_le 9)
      change kept 10 (b :: l) = withoutLine 10 1 (b :: l)
      rw [kept, if_pos rfl, List.nil_append]
      by_cases hb : b = 10
      · subst hb
        rw [withoutLine_one_nl, if_pos rfl]
        exact kept_eq_self (by decide) l
      · rw [withoutLine_one_cons l hb, if_neg hb, ih0]
    | succ n =>
      have hne : ((10 : Int) - (n + 1 : Nat)) ≠ 10 := by omega
      by_cases hb : b = 10
      · subst hb
        have hl : ((10 : Int) - (n + 1 : Nat)) + 1 = 10 - n := by omega
        rw [withoutLine_succ_nl, kept, if_neg hne, if_pos rfl, hl, ih n (by omega)]
        rfl
      · rw [withoutLine_succ_cons n l hb, kept, if_neg hne, if_neg hb, ih (n + 1) h]
        rfl

theorem filterPass_ok (chunks : List Chunk) (h : (content chunks).count 10 < 2147483647) :
    filterPass chunks =
      .ok ⟨1 + (content chunks).count 10, withoutLine 10 10 (content chunks)⟩ := by
  have hmax : (⟨1, []⟩ : Pass).line + (content chunks).count 10 ≤ intMax := by
    simp only [intMax]
    omega
  have hpass := Pass.bytes_ok ⟨1, []⟩ (content chunks) (by decide) hmax
  rw [filterPass_eq, hpass, List.nil_append, ← kept_eq_withoutLine 9 (Nat.le_refl 9)]
  rfl

/-- The filter drops the tenth line and nothing else, and where the chunks end is of no
account. -/
theorem filterPass_withoutLine (chunks : List Chunk)
    (h : (content chunks).count 10 < 2147483647) :
    (∃ s, filterPass chunks = .ok s ∧ s.tmp = withoutLine 10 10 (content chunks)) ∧
      ∀ chunks', content chunks' = content chunks → filterPass chunks' = filterPass chunks := by
  refine ⟨⟨_, filterPass_ok chunks h, rfl⟩, ?_⟩
  intro chunks' he
  rw [filterPass_eq, filterPass_eq, he]

def tenthLineHead : Chunk := ⟨List.replicate 9 10 ++ [97], by decide, by decide⟩

def tenthLineTail : Chunk := ⟨[255, 10, 98], by decide, by decide⟩

theorem filterPass_withoutLine_split :
    (content [tenthLineHead, tenthLineTail]).count 10 < 2147483647 ∧
      ∃ s, filterPass [tenthLineHead, tenthLineTail] = .ok s ∧
        s.tmp = List.replicate 9 10 ++ [98] := by
  have hc : (content [tenthLineHead, tenthLineTail]).count 10 < 2147483647 := by decide
  obtain ⟨⟨s, hs, ht⟩, -⟩ := filterPass_withoutLine [tenthLineHead, tenthLineTail] hc
  exact ⟨hc, s, hs, ht.trans (by decide)⟩

theorem truncLn10_eq (chunks : List Chunk) (h : (content chunks).count 10 < 2147483647) :
    truncLn10 chunks = .ok (copyChars (withoutLine 10 10 (content chunks)) []) := by
  rw [truncLn10, filterPass_ok chunks h, ok_bind]
  rfl

/-- The tenth line is removed just where no other line has a byte 0xff, which ends the copy back. -/
theorem truncLn10_iff (chunks : List Chunk) (h : (content chunks).count 10 < 2147483647) :
    (truncLn10 chunks = .ok (withoutLine 10 10 (content chunks)) ∧
      ((linesOf 10 (content chunks)).length < 10 → truncLn10 chunks = .ok (content chunks))) ↔
    255 ∉ withoutLine 10 10 (content chunks) := by
  rw [truncLn10_eq chunks h]
  constructor
  · rintro ⟨he, -⟩
    exact copyChars_eq_self_iff.1 (Except.ok.inj he)
  · intro hn
    rw [copyChars_eq_self_iff.2 hn]
    exact ⟨rfl, fun hl => congrArg Except.ok (withoutLine_of_length_lt hl)⟩

def elevenLines : Chunk := ⟨List.replicate 9 10 ++ [97, 255, 10, 98], by decide, by decide⟩

theorem truncLn10_iff_eleven_lines :
    (content [elevenLines]).count 10 < 2147483647 ∧
      255 ∉ withoutLine 10 10 (content [elevenLines]) ∧
      truncLn10 [elevenLines] = .ok (withoutLine 10 10 (content [elevenLines])) := by
  have hn : 255 ∉ withoutLine 10 10 (content [elevenLines]) := by decide
  exact ⟨by decide, hn, ((truncLn10_iff [elevenLines] (by decide)).2 hn).1⟩

def oneLine : Chunk := ⟨[97, 255, 98], by decide, by decide⟩

theorem truncLn10_cuts :
    truncLn10 [oneLine] = .ok [97] ∧
      withoutLine 10 10 (content [oneLine]) = [97, 255, 98] := by
  refine ⟨?_, by decide⟩
  rw [truncLn10_eq _ (by decide), copyChars_eq]
  rfl

end Apue.TruncLn10
