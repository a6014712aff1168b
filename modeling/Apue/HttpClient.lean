import Apue.Lists
import Mathlib.Data.List.DropRight
import Mathlib.Data.List.Infix

namespace Apue.HttpClient
set_option autoImplicit true

open scoped List

def CR : UInt8 := 13
def LF : UInt8 := 10

/-- The locals of the receive loop of `download`, and the bytes `fputc` has put into `out`. -/
structure Receiver where
  status : Nat
  body : Bool
  out : List UInt8
  deriving Repr, DecidableEq

def Receiver.start : Receiver := { status := 0, body := false, out := [] }

/-- One turn of `while ((c = fgetc(fp)) != EOF)`. -/
def Receiver.receive (r : Receiver) (c : UInt8) : Receiver :=
  let status := if c = CR ∧ r.status = 0 then 1 else r.status
  let status := if c = LF ∧ status = 1 then 2 else status
  let status := if c = CR ∧ status = 2 then 3 else status
  if c = LF ∧ status = 3 then
    -- `continue`: the byte is not written
    { r with status := status, body := true }
  else
    { status := if c ≠ CR ∧ c ≠ LF then 0 else status
      body := r.body
      out := if r.body then r.out ++ [c] else r.out }

def receiveAll (stream : List UInt8) : Receiver := stream.foldl Receiver.receive .start

/-- The content of the output file once the server has closed the connection. -/
def download (stream : List UInt8) : List UInt8 := (receiveAll stream).out

/-- What follows the first occurrence of `pat` in a list, nothing when there is none. -/
def afterFirst [DecidableEq α] (pat : List α) : List α → List α
  | [] => []
  | c :: s => if pat <+: c :: s then (c :: s).drop pat.length else afterFirst pat s

def blankLine : List UInt8 := [CR, LF, CR, LF]

/-- The unbroken run of CR and LF bytes at the end of `u`. -/
def crlfRun (u : List UInt8) : List UInt8 := u.rtakeWhile fun c => c = CR ∨ c = LF

/-- `u` ends in an LF, and the run of CR and LF bytes before it contains CR, LF, CR in this
order. -/
def HeaderEnd (u : List UInt8) : Prop := ∃ v, u = v ++ [LF] ∧ [CR, LF, CR] <+ crlfRun v

/-- With a blank line only one LF looks like a header end; without one nothing but LF bytes follows
such an LF. -/
def Intact (s : List UInt8) : Prop :=
  if blankLine <:+: s then
    ∀ u v, u <+: s → v <+: s → HeaderEnd u → HeaderEnd v → u = v
  else ∀ u v, s = u ++ v → HeaderEnd u → ∀ c ∈ v, c = LF

@[simp] theorem receiveAll_concat (u : List UInt8) (c : UInt8) :
    receiveAll (u ++ [c]) = (receiveAll u).receive c := by
  simp [receiveAll]

theorem afterFirst_of_not_infix [DecidableEq α] {pat s : List α} (h : ¬pat <:+: s) :
    afterFirst pat s = [] := by
  induction s with
  | nil => rfl
  | cons c s ih =>
    have hp : ¬pat <+: c :: s := fun hp => h hp.isInfix
    rw [afterFirst, if_neg hp]
    exact ih fun hi => h (hi.trans (List.suffix_cons c s).isInfix)

theorem afterFirst_of_infix [DecidableEq α] {pat s : List α} (h : pat <:+: s) :
    ∃ front, s = front ++ pat ++ afterFirst pat s := by
  induction s with
  | nil => exact ⟨[], by simpa [afterFirst] using h⟩
  | cons c s ih =>
    by_cases hp : pat <+: c :: s
    · obtain ⟨t, ht⟩ := hp
      refine ⟨[], ?_⟩
      rw [afterFirst, if_pos ⟨t, ht⟩, ← ht]
      simp
    · rw [afterFirst, if_neg hp]
      obtain ⟨front, hf⟩ := ih ((List.infix_cons_iff.mp h).resolve_left hp)
      exact ⟨c :: front, by rw [List.cons_append, List.cons_append, ← hf]⟩

theorem crlfRun_concat (u : List UInt8) (c : UInt8) :
    crlfRun (u ++ [c]) = if c = CR ∨ c = LF then crlfRun u ++ [c] else [] := by
  simp [crlfRun, List.rtakeWhile_concat]

/-- How much of CR, LF, CR the bytes of `run` contain, as `status` counts it. -/
structure Progress (status : Nat) (run : List UInt8) : Prop where
  le : status ≤ 3
  cr : 1 ≤ status ↔ [CR] <+ run
  crlf : 2 ≤ status ↔ [CR, LF] <+ run
  crlfcr : 3 ≤ status ↔ [CR, LF, CR] <+ run

theorem Progress.zero : Progress 0 [] := by
  constructor <;> simp

theorem CR_ne_LF : CR ≠ LF := by decide

theorem Receiver.receive_cr (r : Receiver) : (r.receive CR).status =
    if r.status = 0 then 1 else if r.status = 2 then 3 else r.status := by
  simp only [receive, CR_ne_LF, true_and, false_and, if_false, ne_eq, not_true_eq_false]
  split
  · rfl
  · rfl

theorem Receiver.receive_lf (r : Receiver) : (r.receive LF).status =
    if r.status = 1 then 2 else r.status := by
  simp only [receive, CR_ne_LF.symm, true_and, false_and, if_false, ne_eq, not_true_eq_false,
    and_false]
  split
  · rfl
  · split <;> rfl

theorem Receiver.receive_other (r : Receiver) (h : ¬(c = CR ∨ c = LF)) :
    (r.receive c).status = 0 := by
  obtain ⟨hcr, hlf⟩ := not_or.mp h
  simp [receive, hcr, hlf]

theorem Progress.receive {r : Receiver} (h : Progress r.status run) (hc : c = CR ∨ c = LF) :
    Progress (r.receive c).status (run ++ [c]) := by
  obtain ⟨hle, h1, h2, h3⟩ := h
  have e1 := @concat_sublist_concat _ CR c [] run
  have e2 := @concat_sublist_concat _ LF c [CR] run
  have e3 := @concat_sublist_concat _ CR c [CR, LF] run
  simp only [List.nil_append, List.cons_append, List.nil_sublist, and_true] at e1 e2 e3
  rw [← h1] at e1
  rw [← h2, ← h1] at e2
  rw [← h3, ← h2] at e3
  rcases hc with rfl | rfl
  · simp only [CR_ne_LF.symm, false_and, or_false, or_true, true_and] at e1 e2 e3
    rw [r.receive_cr]
    exact {
      le := by split_ifs <;> omega
      cr := by simp only [e1, iff_true]; split_ifs <;> omega
      crlf := by simp only [e2]; split_ifs <;> omega
      crlfcr := by simp only [e3]; split_ifs <;> omega }
  · simp only [CR_ne_LF, false_and, or_false, true_and] at e1 e2 e3
    rw [r.receive_lf]
    exact {
      le := by split_ifs <;> omega
      cr := by simp only [e1]; split_ifs <;> omega
      crlf := by simp only [e2]; split_ifs <;> omega
      crlfcr := by simp only [e3]; split_ifs <;> omega }

theorem progress (u : List UInt8) : Progress (receiveAll u).status (crlfRun u) := by
  induction u using List.reverseRecOn with
  | nil => exact Progress.zero
  | append_singleton u c ih =>
    rw [receiveAll_concat, crlfRun_concat]
    split
    · next hc => exact ih.receive hc
    · next hc =>
      rw [Receiver.receive_other _ hc]
      exact Progress.zero

theorem headerEnd_concat (u : List UInt8) (c : UInt8) :
    HeaderEnd (u ++ [c]) ↔ c = LF ∧ (receiveAll u).status = 3 := by
  have hp := progress u
  have hs : (receiveAll u).status = 3 ↔ [CR, LF, CR] <+ crlfRun u := by
    rw [← hp.crlfcr]
    exact ⟨fun h => h.ge, fun h => Nat.le_antisymm hp.le h⟩
  rw [hs]
  constructor
  · rintro ⟨v, he, hv⟩
    obtain ⟨rfl, hc⟩ := List.append_inj' he rfl
    exact ⟨List.singleton_inj.mp hc, hv⟩
  · rintro ⟨rfl, hv⟩
    exact ⟨u, rfl, hv⟩

theorem not_headerEnd_nil : ¬HeaderEnd [] := by
  rintro ⟨v, he, -⟩
  simp at he

theorem receive_headerEnd (h : HeaderEnd (u ++ [c])) :
    receiveAll (u ++ [c]) = { receiveAll u with body := true } := by
  obtain ⟨rfl, hs⟩ := (headerEnd_concat u c).mp h
  have hne : LF ≠ CR := by decide
  simp [Receiver.receive, hs, hne]

theorem receive_not_headerEnd (h : ¬HeaderEnd (u ++ [c])) :
    (receiveAll (u ++ [c])).body = (receiveAll u).body ∧
    (receiveAll (u ++ [c])).out =
      if (receiveAll u).body then (receiveAll u).out ++ [c] else (receiveAll u).out := by
  rw [headerEnd_concat] at h
  have hne : CR ≠ LF := by decide
  simp only [receiveAll_concat, Receiver.receive]
  grind

theorem receive_header (h : ∀ w, w <+: u → ¬HeaderEnd w) :
    (receiveAll u).body = false ∧ (receiveAll u).out = [] := by
  induction u using List.reverseRecOn with
  | nil => exact ⟨rfl, rfl⟩
  | append_singleton u c ih =>
    obtain ⟨hb, ho⟩ := ih fun w hw => h w (hw.trans (List.prefix_append u [c]))
    obtain ⟨hb', ho'⟩ := receive_not_headerEnd (h _ (List.prefix_refl _))
    rw [hb'] at *
    rw [ho', hb, ho]
    exact ⟨rfl, rfl⟩

/-- `p` is the part of a stream up to its first header end. -/
structure FirstEnd (p : List UInt8) : Prop where
  isEnd : HeaderEnd p
  first : ∀ w, w <+: p → HeaderEnd w → w = p

theorem exists_firstEnd (hu : u <+: s) (h : HeaderEnd u) : ∃ p, p <+: s ∧ FirstEnd p := by
  induction s using List.reverseRecOn generalizing u with
  | nil => exact absurd (List.prefix_nil.mp hu ▸ h) not_headerEnd_nil
  | append_singleton s c ih =>
    by_cases hs : ∃ w, w <+: s ∧ HeaderEnd w
    · obtain ⟨w, hw, he⟩ := hs
      obtain ⟨p, hp, hf⟩ := ih hw he
      exact ⟨p, hp.trans (List.prefix_append s [c]), hf⟩
    · have hn : ∀ w, w <+: s ++ [c] → HeaderEnd w → w = s ++ [c] := by
        intro w hw he
        exact (List.prefix_concat_iff.mp hw).resolve_right fun hw => hs ⟨w, hw, he⟩
      exact ⟨s ++ [c], List.prefix_refl _, hn u hu h ▸ h, hn⟩

theorem FirstEnd.opens (h : FirstEnd p) :
    (receiveAll p).body = true ∧ (receiveAll p).out = [] := by
  obtain ⟨u, rfl, -⟩ := h.isEnd
  have hn : ∀ w, w <+: u → ¬HeaderEnd w := by
    intro w hw he
    have hl := hw.length_le
    rw [h.first w (hw.trans (List.prefix_append u [LF])) he, List.length_append] at hl
    exact absurd hl (Nat.not_succ_le_self _)
  rw [receive_headerEnd h.isEnd]
  exact ⟨rfl, (receive_header hn).2⟩

structure Copied (p v out : List UInt8) : Prop where
  sub : out <+ v
  others : out.filter (· ≠ LF) = v.filter (· ≠ LF)
  whole : out = v ↔ ∀ w, w <+: v → w ≠ [] → ¬HeaderEnd (p ++ w)

theorem Copied.drop (h : Copied p v out) (he : HeaderEnd (p ++ (v ++ [LF]))) :
    Copied p (v ++ [LF]) out where
  sub := h.sub.trans (List.sublist_append_left v [LF])
  others := by simpa using h.others
  whole := by
    constructor
    · intro ho
      have hl := h.sub.length_le
      rw [ho, List.length_append] at hl
      exact absurd hl (Nat.not_succ_le_self _)
    · intro hn
      exact absurd he (hn _ (List.prefix_refl _) (by simp))

theorem Copied.keep (h : Copied p v out) (he : ¬HeaderEnd (p ++ (v ++ [c]))) :
    Copied p (v ++ [c]) (out ++ [c]) where
  sub := h.sub.append_right [c]
  others := by rw [List.filter_append, List.filter_append, h.others]
  whole := by
    rw [List.append_left_inj, h.whole]
    constructor
    · intro hn w hw hw0
      rcases List.prefix_concat_iff.mp hw with rfl | hw
      · exact he
      · exact hn w hw hw0
    · intro hn w hw
      exact hn w (hw.trans (List.prefix_append v [c]))

theorem FirstEnd.copied (h : FirstEnd p) (v : List UInt8) :
    (receiveAll (p ++ v)).body = true ∧
      Copied p v (receiveAll (p ++ v)).out := by
  induction v using List.reverseRecOn with
  | nil =>
    rw [List.append_nil, h.opens.1, h.opens.2]
    exact ⟨rfl, .refl _, rfl, by simp⟩
  | append_singleton v c ih =>
    obtain ⟨hb, hc⟩ := ih
    by_cases he : HeaderEnd (p ++ (v ++ [c]))
    · rw [← List.append_assoc] at he ⊢
      obtain ⟨rfl, -⟩ := (headerEnd_concat _ _).mp he
      rw [receive_headerEnd he]
      exact ⟨rfl, hc.drop (List.append_assoc p v [LF] ▸ he)⟩
    · have hk := hc.keep he
      rw [← List.append_assoc] at he ⊢
      obtain ⟨hb', ho'⟩ := receive_not_headerEnd he
      rw [hb', ho', hb, if_pos rfl]
      exact ⟨rfl, hk⟩

/-- A run of LF bytes after a header end is swallowed whole. -/
theorem HeaderEnd.swallows (h : HeaderEnd p) (hv : ∀ c ∈ v, c = LF) :
    HeaderEnd (p ++ v) ∧ (receiveAll (p ++ v)).out = (receiveAll p).out := by
  induction v using List.reverseRecOn with
  | nil => simpa using h
  | append_singleton v c ih =>
    obtain ⟨hend, ho⟩ := ih fun x hx => hv x (List.mem_append_left [c] hx)
    obtain rfl : c = LF := hv c (by simp)
    have hs : (receiveAll (p ++ v)).status = 3 := by
      have ⟨u, hu, _⟩ := hend
      rw [hu] at hend ⊢
      rw [receive_headerEnd hend]
      exact ((headerEnd_concat u LF).mp hend).2
    have hend' : HeaderEnd (p ++ v ++ [LF]) := (headerEnd_concat _ _).mpr ⟨rfl, hs⟩
    rw [← List.append_assoc]
    refine ⟨hend', ?_⟩
    rw [receive_headerEnd hend', ho]

theorem headerEnd_blankLine (front : List UInt8) : HeaderEnd (front ++ blankLine) := by
  refine ⟨front ++ [CR, LF, CR], by simp [blankLine], ?_⟩
  have hcr : crlfRun (front ++ [CR, LF, CR]) = crlfRun front ++ [CR] ++ [LF] ++ [CR] := by
    rw [show front ++ [CR, LF, CR] = front ++ [CR] ++ [LF] ++ [CR] by simp]
    rw [crlfRun_concat, crlfRun_concat, crlfRun_concat]
    simp
  rw [hcr]
  simp

/-- Between an earlier header end and the end of a blank line stands one of its CR bytes. -/
theorem HeaderEnd.cr_between (h : HeaderEnd p) (he : p ++ w = front ++ blankLine) (hw : w ≠ []) :
    CR ∈ w := by
  obtain ⟨u, rfl, -⟩ := h
  rw [show front ++ blankLine = front ++ [CR, LF] ++ [CR] ++ [LF] by simp [blankLine]] at he
  obtain ⟨w', x, rfl⟩ := (List.eq_nil_or_concat' w).resolve_left hw
  rw [← List.append_assoc] at he
  have hcr := (List.append_inj' he rfl).1
  rcases List.eq_nil_or_concat' w' with rfl | ⟨w'', y, rfl⟩
  · -- the header end would be the CR before the last LF
    rw [List.append_nil] at hcr
    exact absurd (List.append_inj' hcr rfl).2 (by decide)
  · rw [← List.append_assoc] at hcr
    rw [(List.append_inj' hcr rfl).2]
    simp

theorem FirstEnd.le (hp : FirstEnd p) (hps : p <+: s) (hus : u <+: s) (hu : HeaderEnd u) :
    p <+: u := by
  rcases List.prefix_or_prefix_of_prefix hps hus with h | h
  · exact h
  · exact (hp.first u h hu) ▸ List.prefix_refl _

theorem FirstEnd.only_iff (hp : FirstEnd p) :
    (∀ w, w <+: v → w ≠ [] → ¬HeaderEnd (p ++ w)) ↔
      ∀ u u', u <+: p ++ v → u' <+: p ++ v → HeaderEnd u → HeaderEnd u' → u = u' := by
  have hps := List.prefix_append p v
  constructor
  · intro hn
    have honly : ∀ u, u <+: p ++ v → HeaderEnd u → u = p := by
      intro u hu he
      obtain ⟨w, rfl⟩ := hp.le hps hu he
      by_contra hw
      exact hn w ((List.prefix_append_right_inj p).mp hu) (fun h => hw (by simp [h])) he
    intro u u' hu hu' he he'
    rw [honly u hu he, honly u' hu' he']
  · intro hall w hw hw0 he
    have heq := hall p (p ++ w) hps ((List.prefix_append_right_inj p).mpr hw) hp.isEnd he
    exact hw0 (List.self_eq_append_right.mp heq)

theorem download_blankLine (h : blankLine <:+: s) :
    download s = afterFirst blankLine s ↔ Intact s := by
  rw [Intact, if_pos h]
  obtain ⟨front, hs⟩ := afterFirst_of_infix h
  generalize afterFirst blankLine s = t at hs ⊢
  have hq : front ++ blankLine <+: s := ⟨t, hs.symm⟩
  have hend := headerEnd_blankLine front
  obtain ⟨p, hps, hp⟩ := exists_firstEnd hq hend
  obtain ⟨w, hw⟩ := hp.le hps hq hend
  rw [← hw, List.append_assoc] at hs
  subst hs
  obtain ⟨-, hc⟩ := hp.copied (w ++ t)
  rw [← hp.only_iff, ← hc.whole, download]
  by_cases hw0 : w = []
  · rw [hw0, List.nil_append]
  · have hne : (receiveAll (p ++ (w ++ t))).out ≠ t := by
      intro ho
      have hf := hc.others
      rw [ho, List.filter_append, List.self_eq_append_left, List.filter_eq_nil_iff] at hf
      exact absurd (hf CR (hp.isEnd.cr_between hw hw0)) (by decide)
    have hne' : (receiveAll (p ++ (w ++ t))).out ≠ w ++ t := by
      intro ho
      exact hc.whole.mp ho w (List.prefix_append w t) hw0 (hw ▸ hend)
    exact iff_of_false hne hne'

theorem download_noBlankLine (h : ¬blankLine <:+: s) :
    download s = afterFirst blankLine s ↔ Intact s := by
  rw [Intact, if_neg h, afterFirst_of_not_infix h]
  constructor
  · rintro ho u v rfl hu
    obtain ⟨p, hps, hp⟩ := exists_firstEnd (List.prefix_append u v) hu
    obtain ⟨w, rfl⟩ := hp.le hps (List.prefix_append u v) hu
    rw [List.append_assoc] at ho
    have hf := (hp.copied (w ++ v)).2.others
    rw [← download, ho, eq_comm, List.filter_nil, List.filter_eq_nil_iff] at hf
    intro c hcv
    simpa using hf c (List.mem_append_right w hcv)
  · intro hall
    by_cases hex : ∃ u, u <+: s ∧ HeaderEnd u
    · obtain ⟨u, hu, he⟩ := hex
      obtain ⟨p, ⟨v, rfl⟩, hp⟩ := exists_firstEnd hu he
      exact (hp.isEnd.swallows (hall p v rfl hp.isEnd)).2.trans hp.opens.2
    · exact (receive_header fun w hw he => hex ⟨w, hw, he⟩).2

theorem download_correct_iff (s : List UInt8) :
    download s = afterFirst blankLine s ↔ Intact s := by
  by_cases h : blankLine <:+: s
  · exact download_blankLine h
  · exact download_noBlankLine h

theorem download_drops_leading_lf :
    download (blankLine ++ [LF, 65]) ≠ afterFirst blankLine (blankLine ++ [LF, 65]) := by
  decide

/-- The bytes CR and LF stand only in pairs CR LF. -/
inductive CrLfPairs : List UInt8 → Prop where
  | nil : CrLfPairs []
  | pair : CrLfPairs s → CrLfPairs (CR :: LF :: s)
  | other : c ≠ CR → c ≠ LF → CrLfPairs s → CrLfPairs (c :: s)

theorem CrLfPairs.after_cr (h : CrLfPairs s) (hs : s = u ++ CR :: v) : ∃ v', v = LF :: v' := by
  induction h generalizing u with
  | nil => cases u <;> cases hs
  | @pair s _ ih =>
    match u with
    | [] => exact ⟨s, ((List.cons.inj hs).2).symm⟩
    | [x] => exact absurd (List.cons.inj (List.cons.inj hs).2).1 CR_ne_LF.symm
    | x :: y :: u => exact ih (List.cons.inj (List.cons.inj hs).2).2
  | other hcr _ _ ih =>
    cases u with
    | nil => exact absurd (List.cons.inj hs).1 hcr
    | cons x u => exact ih (List.cons.inj hs).2

theorem CrLfPairs.before_lf (h : CrLfPairs s) (hs : s = u ++ LF :: v) :
    ∃ u', u = u' ++ [CR] := by
  induction h generalizing u with
  | nil => cases u <;> cases hs
  | pair _ ih =>
    match u with
    | [] => exact absurd (List.cons.inj hs).1 CR_ne_LF
    | [x] => exact ⟨[], congrArg (· :: []) (List.cons.inj hs).1.symm⟩
    | x :: y :: u =>
      obtain ⟨u', rfl⟩ := ih (List.cons.inj (List.cons.inj hs).2).2
      exact ⟨x :: y :: u', rfl⟩
  | other _ hlf _ ih =>
    cases u with
    | nil => exact absurd (List.cons.inj hs).1 hlf
    | cons x u =>
      obtain ⟨u', rfl⟩ := ih (List.cons.inj hs).2
      exact ⟨x :: u', rfl⟩

theorem CrLfPairs.headerEnd (h : CrLfPairs s) (hw : w <+: s) (he : HeaderEnd w) :
    blankLine <:+ w := by
  obtain ⟨t, rfl⟩ := hw
  obtain ⟨v, rfl, hsub⟩ := he
  obtain ⟨v₁, rfl⟩ := h.before_lf (u := v) (v := t) (by simp)
  -- the run before the last CR is not empty
  have hne : crlfRun v₁ ≠ [] := by
    intro hn
    rw [crlfRun_concat, if_pos (.inl rfl), hn] at hsub
    exact absurd hsub.length_le (by decide)
  obtain ⟨v₂, c, rfl⟩ : ∃ v₂ c, v₁ = v₂ ++ [c] := by
    rcases List.eq_nil_or_concat' v₁ with rfl | hv
    · exact absurd rfl hne
    · exact hv
  rw [crlfRun_concat] at hne
  have hc : c = LF := by
    by_contra hlf
    have hcr : c = CR := by
      by_contra hcr
      exact hne (if_neg (not_or.2 ⟨hcr, hlf⟩))
    subst hcr
    obtain ⟨v', hv⟩ := h.after_cr (u := v₂) (v := CR :: LF :: t) (by simp)
    exact CR_ne_LF (List.cons.inj hv).1
  subst hc
  obtain ⟨v₃, rfl⟩ := h.before_lf (u := v₂) (v := CR :: LF :: t) (by simp)
  exact ⟨v₃, by simp [blankLine]⟩

theorem CrLfPairs.firstEnd (h : CrLfPairs (front ++ blankLine))
    (hfirst : ¬blankLine <:+: front ++ [CR, LF, CR]) : FirstEnd (front ++ blankLine) := by
  refine ⟨headerEnd_blankLine front, ?_⟩
  intro w hw he
  rw [show front ++ blankLine = front ++ [CR, LF, CR] ++ [LF] by simp [blankLine]] at hw h ⊢
  refine (List.prefix_concat_iff.1 hw).resolve_right ?_
  intro hw'
  exact hfirst ((h.headerEnd hw he).isInfix.trans hw'.isInfix)

theorem FirstEnd.body_iff (h : FirstEnd p) (hps : p <+: s) (hus : u <+: s) :
    (receiveAll u).body = true ↔ p <+: u := by
  constructor
  · intro hb
    by_contra hn
    have hnone : ∀ w, w <+: u → ¬HeaderEnd w := fun w hw he =>
      hn ((h.le hps (hw.trans hus) he).trans hw)
    rw [(receive_header hnone).1] at hb
    cases hb
  · rintro ⟨v, rfl⟩
    exact (h.copied v).1

theorem FirstEnd.silent (h : FirstEnd p) (hu : u <+: p) : (receiveAll u).out = [] := by
  by_cases he : u = p
  · rw [he]
    exact h.opens.2
  · refine (receive_header ?_).2
    intro w hw hw'
    have hwp := h.first w (hw.trans hu) hw'
    exact he (hu.eq_of_length_le (hwp ▸ hw).length_le)

/-- The body starts with the last LF of the first blank line; without a blank line it never
starts. -/
theorem body_starts_at_blankLine (s : List UInt8) :
    (∀ front rest, s = front ++ blankLine ++ rest → ¬blankLine <:+: front ++ [CR, LF, CR] →
      CrLfPairs (front ++ blankLine) →
      (∀ u, u <+: s → ((receiveAll u).body = true ↔ front ++ blankLine <+: u)) ∧
        ∀ u, u <+: front ++ blankLine → (receiveAll u).out = []) ∧
    (¬blankLine <:+: s → CrLfPairs s → ∀ u, u <+: s → (receiveAll u).body = false) := by
  constructor
  · intro front rest hs hfirst hpairs
    have hend := hpairs.firstEnd hfirst
    exact ⟨fun u hu => hend.body_iff ⟨rest, hs.symm⟩ hu, fun u hu => hend.silent hu⟩
  · intro hnone hpairs u hu
    refine (receive_header ?_).1
    intro w hw he
    have hws := hw.trans hu
    exact hnone ((hpairs.headerEnd hws he).isInfix.trans hws.isInfix)

theorem body_starts_at_blankLine_one_byte :
    CrLfPairs ([65] ++ blankLine) ∧ (receiveAll ([65] ++ blankLine)).body = true ∧
      (receiveAll ([65] ++ blankLine)).out = [] := by
  have hpairs : CrLfPairs ([65] ++ blankLine) :=
    .other (by decide) (by decide) (.pair (.pair .nil))
  obtain ⟨hbody, hout⟩ := (body_starts_at_blankLine ([65] ++ blankLine ++ [66])).1 [65] [66] rfl
    (by decide) hpairs
  exact ⟨hpairs, (hbody _ (List.prefix_append _ _)).2 (List.prefix_refl _),
    hout _ (List.prefix_refl _)⟩

end Apue.HttpClient
