import Apue.Reachability

namespace Apue.AlarmCat
set_option autoImplicit true

open scoped List

def cps : Nat := 10

/-- Where main of `signal/cat.c` stands: at pause, in it, or at alarm(1). -/
inductive Pc where
  | pause
  | asleep
  | rearm
  deriving DecidableEq, Repr

/-- The last four fields are history: the bytes read, the alarms, whether one was missed, and
whether fputc has failed. -/
structure State where
  rest : List UInt8
  out : List UInt8
  sent : Nat
  armed : Bool
  pc : Pc
  exited : Option Nat
  taken : List UInt8
  ticks : Nat
  missed : Bool
  dropped : Bool

/-- A byte of buf with whether fputc takes it. -/
abbrev Put := UInt8 × Bool

def written (l : List Put) : List UInt8 := (l.filter Prod.snd).map Prod.fst

def State.copied (s : State) (l : List Put) (n : Nat) : State :=
  { s with
    rest := s.rest.drop l.length
    taken := s.taken ++ l.map Prod.fst
    out := s.out ++ written l
    sent := n
    dropped := s.dropped || l.any (!·.2) }

/-- A call of fputc or exit may write any part of the buffer. -/
def State.Flushed (s : State) (l : List Put) (n : Nat) : Prop :=
  s.sent ≤ n ∧ n ≤ (s.out ++ written l).length

inductive Handle : State → State → Prop where
  /-- read fails with EINTR -/
  | interrupted : Handle s s
  | readError : s.Flushed [] n → Handle s { s with sent := n, exited := some 0 }
  /-- a byte that fputc refuses with EINTR is skipped -/
  | copy : l.length ≤ cps → l.map Prod.fst <+: s.rest → (l = [] → s.rest = []) →
      s.Flushed l n → Handle s (s.copied l n)
  /-- fputc fails otherwise after `l`, and the rest of what has been read is lost -/
  | putError : (l ++ lost).length ≤ cps → (l ++ lost).map Prod.fst <+: s.rest → lost ≠ [] →
      (∀ x ∈ lost, x.2 = false) → s.Flushed (l ++ lost) n →
      Handle s { s.copied (l ++ lost) n with exited := some 1 }

inductive Step : State → State → Prop where
  | pause : s.exited = none → s.pc = .pause → Step s { s with pc := .asleep }
  | alarm : s.exited = none → s.pc = .rearm → Step s { s with pc := .pause, armed := true }
  /-- SIGALRM: the handler runs, and a pause is over. -/
  | tick : s.exited = none → s.armed = true →
      Handle { s with armed := false, ticks := s.ticks + 1
                      pc := if s.pc = .asleep then .rearm else s.pc
                      missed := s.missed || s.pc ≠ .asleep } t →
      Step s t

/-- main after its first alarm(1). -/
def system (content : List UInt8) : System State where
  init s := s = ⟨content, [], 0, true, .pause, none, [], 0, false, false⟩
  step := Step

theorem written_sublist (l : List Put) : written l <+ l.map Prod.fst :=
  List.filter_sublist.map Prod.fst

theorem written_of_all (l : List Put) (h : l.any (!·.2) = false) : written l = l.map Prod.fst := by
  rw [written, List.filter_eq_self.mpr]
  intro x hx
  have hx := List.any_eq_false.mp h x hx
  simpa using hx

structure Copied (content : List UInt8) (s : State) : Prop where
  split : s.taken ++ s.rest = content
  rate : s.taken.length ≤ cps * s.ticks
  sub : s.out <+ s.taken
  whole : s.dropped = false → s.out = s.taken
  sent : s.sent ≤ s.out.length

theorem Copied.copied (h : Copied content s) (hpre : l.map Prod.fst <+: s.rest)
    (hrate : s.taken.length + l.length ≤ cps * s.ticks) (hn : s.Flushed l n) :
    Copied content (s.copied l n) := by
  obtain ⟨r, hr⟩ := hpre
  refine ⟨?_, ?_, h.sub.append (written_sublist l), ?_, hn.2⟩
  · have hdrop : s.rest.drop l.length = r := by
      have hlen : l.length = (l.map Prod.fst).length := (List.length_map _).symm
      rw [← hr, hlen, List.drop_left]
    simp only [State.copied]
    rw [hdrop, List.append_assoc, hr]
    exact h.split
  · simp only [State.copied, List.length_append, List.length_map]
    exact hrate
  · intro hd
    simp only [State.copied, Bool.or_eq_false_iff] at hd ⊢
    rw [h.whole hd.1, written_of_all l hd.2]

theorem Handle.copied (hst : Handle s t) (h : Copied content s)
    (hrate : s.taken.length + cps ≤ cps * s.ticks) : Copied content t := by
  cases hst with
  | interrupted => exact h
  | readError hn =>
    have hle : _ ≤ (s.out ++ []).length := hn.2
    rw [List.append_nil] at hle
    exact { h with sent := hle }
  | copy hlen hpre _ hn => exact h.copied hpre (by omega) hn
  | putError hlen hpre _ _ hn =>
    have hc := h.copied hpre (by omega) hn
    exact { hc with }

theorem Handle.frame (h : Handle s t) : t.armed = s.armed ∧ t.pc = s.pc ∧ t.missed = s.missed := by
  cases h with
  | _ => exact ⟨rfl, rfl, rfl⟩

/-- An alarm that finds main in pause is set again, and the first one that does not is the last. -/
structure Armed (s : State) : Prop where
  kept : s.missed = false → (s.armed = true ↔ s.pc ≠ .rearm)
  lost : s.missed = true → s.armed = false ∧ s.pc ≠ .rearm

theorem Step.armed (hst : Step s t) (h : Armed s) : Armed t := by
  obtain ⟨hkept, hlost⟩ := h
  cases hst with
  | pause _ hp =>
    have hne : s.pc ≠ .rearm := by
      rw [hp]
      decide
    exact ⟨fun hm => iff_of_true ((hkept hm).mpr hne) (fun hc => by cases hc),
      fun hm => ⟨(hlost hm).1, fun hc => by cases hc⟩⟩
  | alarm _ hp =>
    have hm : s.missed = false := Bool.eq_false_iff.mpr fun hm => (hlost hm).2 hp
    refine ⟨fun _ => iff_of_true rfl (fun hc => by cases hc), fun hm' => ?_⟩
    cases hm.symm.trans hm'
  | tick _ ha hh =>
    obtain ⟨harm, hpc, hmiss⟩ := hh.frame
    have hm : s.missed = false :=
      Bool.eq_false_iff.mpr fun hm => by cases ha.symm.trans (hlost hm).1
    have hne := (hkept hm).mp ha
    simp only [hm, Bool.false_or] at harm hpc hmiss
    by_cases hp : s.pc = .asleep
    · rw [if_pos hp] at hpc
      refine ⟨fun _ => by simp [harm, hpc], fun hm' => ?_⟩
      simp [hmiss, hp] at hm'
    · rw [if_neg hp] at hpc
      refine ⟨fun hm' => ?_, fun _ => ⟨harm, hpc ▸ hne⟩⟩
      simp [hmiss, hp] at hm'

theorem inv_of_reachable (h : (system content).Reachable s) : Copied content s ∧ Armed s := by
  refine h.invariant (P := fun s => Copied content s ∧ Armed s) ?_ ?_
  · rintro s rfl
    exact ⟨⟨rfl, Nat.zero_le _, .refl _, fun _ => rfl, Nat.zero_le _⟩,
      ⟨fun _ => by simp, fun hm => by cases hm⟩⟩
  · intro s t _ hi hst
    refine ⟨?_, hst.armed hi.2⟩
    have hc := hi.1
    cases hst with
    | pause => exact { hc with }
    | alarm => exact { hc with }
    | tick _ _ hh =>
      have hrate := hc.rate
      refine hh.copied { hc with rate := ?_ } ?_
      · simp only [Nat.mul_succ]
        omega
      · simp only [Nat.mul_succ]
        omega

theorem Armed.silent (h : Armed s) (hm : s.missed = true) (hst : Relation.ReflTransGen Step s t) :
    (t.out = s.out ∧ t.sent = s.sent) ∧ Armed t ∧ t.missed = true := by
  induction hst with
  | refl => exact ⟨⟨rfl, rfl⟩, h, hm⟩
  | tail _ hst ih =>
    obtain ⟨hout, ha, hmiss⟩ := ih
    refine ⟨?_, hst.armed ha, ?_⟩
    · cases hst with
      | pause => exact hout
      | alarm => exact hout
      | tick _ harm => cases harm.symm.trans (ha.lost hmiss).1
    · cases hst with
      | pause => exact hmiss
      | alarm => exact hmiss
      | tick _ harm => cases harm.symm.trans (ha.lost hmiss).1

end Apue.AlarmCat
