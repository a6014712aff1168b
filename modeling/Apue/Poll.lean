import Apue.PipeCopy

namespace Apue.Adio.Poll
set_option autoImplicit true

/-- The flags of `revents` that the copiers know. -/
structure Events where
  pollIn : Bool
  pollOut : Bool
  pollErr : Bool
  pollHup : Bool
  deriving Repr, DecidableEq

def Events.quiet : Events where
  pollIn := false
  pollOut := false
  pollErr := false
  pollHup := false

/-- `polls[2 * i].revents` and `polls[2 * i + 1].revents`. -/
structure Revents where
  src : Events
  dst : Events
  deriving Repr, DecidableEq

def serve (r : Revents) (io : Io) : Service Pipe IoCall :=
  Tests.serve
    { srcExcept := r.src.pollErr, srcReady := r.src.pollIn
      dstExcept := r.dst.pollErr, dstReady := r.dst.pollOut } io

theorem serve_proper (r : Revents) (io : Io) : Proper (serve r io) := Tests.serve_proper _ io

/-- `poll.c`: `main` gives up after `limits` turns. -/
def program (n : Nat) : Program (Fin n → Revents) n where
  limit := some 20
  waits _ r := ∃ i, (r i).src ≠ .quiet ∨ (r i).dst ≠ .quiet
  visits r io := everyone fun i => serve (r i) (io i)
  nodup _ := everyone_nodup _
  proper := by
    intro r io i
    rw [serviceOf_everyone]
    exact serve_proper (r i) (io i)

/-- A `read` that is not the last one. -/
structure Piece extends Chunk where
  ne : bytes ≠ []

/-- What the `k`th `read` gets of a source that arrives in `pieces`. -/
def arriving (pieces : List Piece) (k : Nat) : Chunk :=
  match pieces[k]? with
  | some piece => piece.toChunk
  | none => ⟨[], Nat.zero_le _⟩

def joined (pieces : List Piece) : List UInt8 := pieces.flatMap (·.bytes)

def readsFrom (fd : Nat) : IoCall → Bool
  | .read fd' _ => fd' = fd
  | .write _ _ _ => false

def reads (fd : Nat) (calls : List IoCall) : Nat := calls.countP (readsFrom fd)

/-- A kernel that reports no error, delivers every source piece by piece and takes every `write`
whole. -/
def Clean (pieces : Nat → List Piece) (calls : List IoCall) : IoCall → Prop
  | .read fd (some bs) => bs = (arriving (pieces fd) (reads fd calls)).bytes
  | .write _ len (some bs) => bs.length = len
  | .read _ none | .write _ _ none => False

/-- How far the reports have taken a pipe: what it waits for and how many pieces are to come. -/
inductive Stage where
  | reading (left : Nat)
  | writing (left : Nat)
  | done
  | failed
  deriving Repr, DecidableEq

def Stage.read : (left : Nat) → Stage
  | 0 => .done
  | k + 1 => .writing k

def Stage.advance (s : Stage) (r : Revents) : Stage :=
  match s with
  | .reading k =>
    if r.src.pollErr then .failed else if r.src.pollIn then .read k else .reading k
  | .writing k =>
    if r.dst.pollErr then .failed else if r.dst.pollOut then .reading k else .writing k
  | .done => .done
  | .failed => .failed

/-- The reports see a source of `k` pieces to its end, or a descriptor fail while the pipe waits for
it. -/
def SeenThrough (k : Nat) (rs : List Revents) : Prop :=
  rs.foldl Stage.advance (.reading k) = .done ∨ rs.foldl Stage.advance (.reading k) = .failed
  deriving Decidable

theorem joined_take_succ (pieces : List Piece) (k : Nat) :
    joined (pieces.take (k + 1)) = joined (pieces.take k) ++ (arriving pieces k).bytes := by
  rw [List.take_add_one, joined, List.flatMap_append, arriving]
  cases pieces[k]? <;> simp [joined]

theorem joined_take_prefix (pieces : List Piece) (k : Nat) :
    joined (pieces.take k) <+: joined pieces := by
  refine ⟨joined (pieces.drop k), ?_⟩
  rw [joined, joined, joined, ← List.flatMap_append, List.take_append_drop]

theorem arriving_eq_nil {pieces : List Piece} (h : (arriving pieces k).bytes = []) :
    pieces.length ≤ k := by
  rw [arriving] at h
  cases hp : pieces[k]? with
  | none => exact List.getElem?_eq_none_iff.mp hp
  | some piece =>
    rw [hp] at h
    exact absurd h piece.ne

theorem arriving_last {pieces : List Piece} (h : pieces.length ≤ k) :
    (arriving pieces k).bytes = [] := by
  rw [arriving, List.getElem?_eq_none h]

theorem reads_concat (fd : Nat) (calls : List IoCall) (c : IoCall) :
    reads fd (calls ++ [c]) = reads fd calls + if readsFrom fd c then 1 else 0 := by
  simp [reads, List.countP_append, List.countP_singleton]

theorem reads_filter {p : Pipe} (h : fd = p.src ∨ fd = p.dst) (calls : List IoCall) :
    reads fd (calls.filter p.owns) = reads fd calls := by
  rw [reads, reads, List.countP_filter]
  congr 1
  funext c
  cases c with
  | read fd' ret =>
    by_cases hfd : fd' = fd
    · simp [readsFrom, Pipe.owns, IoCall.fd, hfd, h]
    · simp [readsFrom, hfd]
  | write => rfl

theorem Clean.separate (pieces : Nat → List Piece) : Separate (Clean pieces) := by
  intro p calls c hc h
  cases c with
  | read fd ret =>
    cases ret with
    | none => exact h
    | some bs =>
      have hfd : fd = p.src ∨ fd = p.dst := of_decide_eq_true hc
      simpa only [Clean, reads_filter hfd] using h
  | write fd len ret => cases ret <;> exact h

/-- The state of a pipe at a stage, when `got` of its `all` pieces have been read. -/
def Stage.Fits (p : Pipe) (got all : Nat) : Stage → Prop
  | .reading k => p.state = .read ∧ got + k = all
  | .writing k => p.state = .write ∧ got + k = all
  | .done => p.state = .eof
  | .failed => p.state = .err

/-- A pipe of a clean run is at the stage that the reports say, with the copy in order. -/
structure Follows (pieces : Nat → List Piece) (p : Pipe) (calls : List IoCall)
    (stage : Stage) : Prop where
  copying : Copying (fun fd => joined (pieces fd)) p calls
  arrived : consumed p.src calls = joined ((pieces p.src).take (reads p.src calls))
  fits : stage.Fits p (reads p.src calls) (pieces p.src).length
  len : p.state = .write → 0 ≤ p.len

theorem Follows.init (pieces : Nat → List Piece) (p : Pipe) (src dst : Nat) :
    Follows pieces (pipeInit p src dst) [] (.reading (pieces src).length) where
  copying := .init _ p src dst
  arrived := rfl
  fits := ⟨rfl, Nat.zero_add _⟩
  len := by simp [pipeInit]

theorem Follows.except (h : Follows pieces p calls stage) :
    Follows pieces { p with state := .err } calls .failed :=
  ⟨h.copying.except, h.arrived, rfl, by simp⟩

theorem Clean.admissible {pieces : Nat → List Piece}
    (ha : consumed fd calls = joined ((pieces fd).take (reads fd calls)))
    (hc : Clean pieces calls (.read fd ret)) :
    Admissible (fun fd => joined (pieces fd)) calls (.read fd ret) := by
  cases ret with
  | none => trivial
  | some bs =>
    change bs = _ at hc
    subst hc
    constructor
    · rw [ha, ← joined_take_succ]
      exact joined_take_prefix _ _
    · intro hnil
      rw [ha, List.take_of_length_le (arriving_eq_nil hnil)]

theorem Clean.arrived {pieces : Nat → List Piece}
    (ha : consumed fd calls = joined ((pieces fd).take (reads fd calls)))
    (hc : Clean pieces calls (.read fd ret)) :
    consumed fd (calls ++ [.read fd ret]) =
      joined ((pieces fd).take (reads fd (calls ++ [.read fd ret]))) := by
  cases ret with
  | none => exact hc.elim
  | some bs =>
    have hr : readsFrom fd (.read fd (some bs)) = true := decide_eq_true rfl
    rw [consumed_concat, reads_concat, if_pos hr, joined_take_succ, ← ha, ← hc, IoCall.got,
      if_pos rfl]

theorem Follows.afterRead (h : Follows pieces p calls (.reading k))
    (hc : Clean pieces calls (.read p.src io.readRet)) :
    Follows pieces (p.afterRead io) (calls ++ [.read p.src io.readRet]) (.read k) := by
  obtain ⟨hp, hk⟩ := h.fits
  have hfits : (Stage.read k).Fits (p.afterRead io)
      (reads p.src (calls ++ [.read p.src io.readRet])) (pieces p.src).length ∧
      ((p.afterRead io).state = .write → 0 ≤ (p.afterRead io).len) := by
    cases hrd : io.rd with
    | none =>
      rw [Io.readRet, hrd] at hc
      exact hc.elim
    | some c =>
      have hret : io.readRet = some c.bytes := by rw [Io.readRet, hrd, Option.map_some]
      rw [hret] at hc ⊢
      change c.bytes = _ at hc
      have hr : readsFrom p.src (.read p.src (some c.bytes)) = true := decide_eq_true rfl
      rw [reads_concat, if_pos hr]
      cases k with
      | zero =>
        rw [Pipe.afterRead_eof hrd (hc.trans (arriving_last hk.ge))]
        exact ⟨rfl, by simp⟩
      | succ k =>
        have hne : c.bytes ≠ [] := by
          intro hnil
          have := arriving_eq_nil (hc.symm.trans hnil)
          omega
        rw [Pipe.afterRead_data hrd hne]
        exact ⟨⟨rfl, by omega⟩, fun _ => Int.natCast_nonneg _⟩
  refine ⟨h.copying.afterRead hp (hc.admissible h.arrived), ?_, ?_, hfits.2⟩
  · rw [p.afterRead_src]
    exact hc.arrived h.arrived
  · rw [p.afterRead_src]
    exact hfits.1

theorem Follows.afterWrite (h : Follows pieces p calls (.writing k))
    (hc : Clean pieces calls (.write p.dst p.len (io.writeRet p.buf))) :
    Follows pieces (p.afterWrite io) (calls ++ [.write p.dst p.len (io.writeRet p.buf)])
      (.reading k) := by
  obtain ⟨hp, hk⟩ := h.fits
  have hfull : ssize (io.writeRet p.buf) = p.len := by
    cases hret : io.writeRet p.buf with
    | none =>
      rw [hret] at hc
      exact hc.elim
    | some bs =>
      rw [hret] at hc
      exact hc
  have hdone : p.off + ssize (io.writeRet p.buf) = p.len := by
    rw [(h.copying.write hp).1, Int.zero_add, hfull]
  refine ⟨h.copying.afterWrite hp hfull, ?_, ?_, ?_⟩
  · rw [p.afterWrite_src, reads_concat, consumed_concat]
    exact (List.append_nil _).trans h.arrived
  · rw [p.afterWrite_src, reads_concat, Pipe.afterWrite_done hdone]
    exact ⟨rfl, hk⟩
  · simp [Pipe.afterWrite_done hdone]

theorem Follows.serve (h : Follows pieces p calls stage)
    (hc : ∀ c ∈ (serve r io p).2, Clean pieces calls c) :
    Follows pieces (serve r io p).1 (calls ++ (serve r io p).2.toList) (stage.advance r) := by
  cases stage with
  | reading k =>
    have hp := h.fits.1
    simp only [Poll.serve, Tests.serve, hp, Stage.advance] at hc ⊢
    split
    · simpa using h.except
    · next he =>
      cases hin : r.src.pollIn with
      | false => simpa using h
      | true =>
        simp only [he, hin] at hc
        exact h.afterRead (hc _ rfl)
  | writing k =>
    have hp := h.fits.1
    simp only [Poll.serve, Tests.serve, hp, Stage.advance] at hc ⊢
    split
    · simpa using h.except
    · next he =>
      cases hout : r.dst.pollOut with
      | false => simpa using h
      | true =>
        simp only [he, hout] at hc
        exact h.afterWrite (hc _ rfl)
  | done =>
    have hp : p.state = .eof := h.fits
    simpa only [Poll.serve, Tests.serve, hp, Stage.advance, Option.toList_none,
      List.append_nil] using h
  | failed =>
    have hp : p.state = .err := h.fits
    simpa only [Poll.serve, Tests.serve, hp, Stage.advance, Option.toList_none,
      List.append_nil] using h

theorem visits_service (r : Fin n → Revents) (io : Fin n → Io) (i : Fin n) :
    serviceOf ((program n).visits r io) i = serve (r i) (io i) :=
  serviceOf_everyone _ i

theorem follows {m : Machine (Fin n → Revents) n}
    (h : ((program n).main (Clean pieces)).Reachable m) (i : Fin n) :
    Follows pieces (m.pipes i) (m.callsOf i)
      ((m.reports.map (· i)).foldl Stage.advance
        (.reading (pieces (m.pipes i).src).length)) := by
  apply Program.pipe_invariant (I := fun p calls rs => Follows pieces p calls
    ((rs.map (· i)).foldl Stage.advance (.reading (pieces p.src).length))) h
    (Clean.separate pieces) i
  · exact Follows.init pieces
  · intro p calls rs r io hI hc
    rw [visits_service] at hc ⊢
    rw [(serve_proper (r i) (io i)).src p, List.map_append, List.foldl_append]
    exact hI.serve hc

theorem Stage.Fits.finished_iff {stage : Stage} (h : stage.Fits p got all) :
    p.Finished ↔ stage = .done ∨ stage = .failed := by
  cases stage with
  | reading => simp [Pipe.Finished, h.1]
  | writing => simp [Pipe.Finished, h.1]
  | done =>
    have hp : p.state = .eof := h
    simp [Pipe.Finished, hp]
  | failed =>
    have hp : p.state = .err := h
    simp [Pipe.Finished, hp]

theorem finished_iff {m : Machine (Fin n → Revents) n}
    (h : ((program n).main (Clean pieces)).Reachable m) (i : Fin n) :
    (m.pipes i).Finished ↔
      SeenThrough (pieces (m.pipes i).src).length (m.reports.map (· i)) :=
  (follows h i).fits.finished_iff

theorem foldl_advance_done (rs : List Revents) : rs.foldl Stage.advance .done = .done := by
  induction rs with
  | nil => rfl
  | cons r rs ih => exact ih

theorem foldl_advance_failed (rs : List Revents) : rs.foldl Stage.advance .failed = .failed := by
  induction rs with
  | nil => rfl
  | cons r rs ih => exact ih

theorem SeenThrough.mono (h : SeenThrough k rs) (hp : rs <+: rs') : SeenThrough k rs' := by
  obtain ⟨t, rfl⟩ := hp
  rw [SeenThrough, List.foldl_append]
  rcases h with h | h
  · exact .inl (h ▸ foldl_advance_done t)
  · exact .inr (h ▸ foldl_advance_failed t)

/-- Every pipe is finished, and those at the end of their file have copied all of it. -/
def Complete (pieces : Nat → List Piece) (m : Machine (Fin n → Revents) n) : Prop :=
  (∀ i, (m.pipes i).Finished) ∧ ∀ i, (m.pipes i).state = .eof →
    written (m.pipes i).dst m.calls = joined (pieces (m.pipes i).src)

def cleanIo (pieces : Nat → List Piece) (m : Machine R n) (i : Fin n) : Io where
  rd := some (arriving (pieces (m.pipes i).src) (reads (m.pipes i).src m.calls))
  wr := some (m.pipes i).len.toNat
  past _ := 0

theorem clean_push {m : Machine (Fin n → Revents) n}
    (h : ((program n).main (Clean pieces)).Reachable m) (he : m.exit = none)
    (hr : (program n).waits m.pipes r) :
    ((program n).main (Clean pieces)).Reachable
      (m.push (program n) r (cleanIo pieces m)) := by
  refine h.step (.push he hr ?_)
  intro c hc
  obtain ⟨i, hi⟩ := mem_round ((program n).nodup hr) hc
  rw [visits_service] at hi
  have hs : Serves (cleanIo pieces m i) (m.pipes i)
      (serve (r i) (cleanIo pieces m i) (m.pipes i)) := Tests.serves _ _ _
  generalize serve (r i) (cleanIo pieces m i) (m.pipes i) = out at hs hi
  cases hs with
  | idle => cases hi
  | except => cases hi
  | read =>
    cases hi
    rfl
  | write hp =>
    cases hi
    have hsz := (cleanIo pieces m i).ssize_writeRet (m.pipes i).buf rfl
    exact hsz.trans (Int.toNat_of_nonneg ((follows h i).len hp))

def ready : Revents where
  src := { pollIn := true, pollOut := false, pollErr := false, pollHup := false }
  dst := { pollIn := false, pollOut := true, pollErr := false, pollHup := false }

theorem ready_push {pieces : Nat → List Piece} {m : Machine (Fin 1 → Revents) 1}
    (h : ((program 1).main (Clean pieces)).Reachable m) (he : m.exit = none)
    (hr : m.reports = List.replicate k fun _ => ready) (hsrc : (m.pipes 0).src = 3) :
    ∃ t : Machine (Fin 1 → Revents) 1, ((program 1).main (Clean pieces)).Reachable t ∧
      t.exit = (if SeenThrough (pieces 3).length (List.replicate (k + 1) ready) ∨ 20 = k + 1
        then some 0 else none) ∧
      t.reports = List.replicate (k + 1) (fun _ => ready) ∧ (t.pipes 0).src = 3 := by
  have hw : (program 1).waits m.pipes fun _ => ready := ⟨0, .inl (by decide)⟩
  have ht := clean_push h he hw
  have hrt : m.reports ++ [fun _ => ready] = List.replicate (k + 1) fun _ => ready := by
    rw [hr, List.replicate_succ']
  have hsrct : ((m.push (program 1) (fun _ => ready) (cleanIo pieces m)).pipes 0).src = 3 := by
    rw [Machine.push_src hw, hsrc]
  have hseen := finished_iff ht 0
  rw [hsrct, show (m.push (program 1) _ _).reports = _ from hrt, List.map_replicate] at hseen
  refine ⟨_, ht, ?_, hrt, hsrct⟩
  rw [Machine.push_exit]
  apply if_congr (or_congr ?_ ?_) rfl rfl
  · exact Fin.forall_fin_one.trans hseen
  · rw [hr, List.length_replicate]
    exact Option.some_inj

/-- While a source that is always ready is not seen through, `main` goes on to its limit. -/
theorem ready_run (pieces : Nat → List Piece) (hk : k < 20)
    (hopen : ∀ j ≤ k, ¬SeenThrough (pieces 3).length (List.replicate j ready)) :
    ∃ m : Machine (Fin 1 → Revents) 1, ((program 1).main (Clean pieces)).Reachable m ∧
      m.exit = none ∧ m.reports = List.replicate k (fun _ => ready) ∧ (m.pipes 0).src = 3 := by
  induction k with
  | zero => exact ⟨opened _ 1, .init (opened_started (by decide)), rfl, rfl, rfl⟩
  | succ k ih =>
    obtain ⟨m, h, he, hr, hsrc⟩ := ih (by omega) fun j hj => hopen j (by omega)
    obtain ⟨t, ht, het, hrt, hsrct⟩ := ready_push h he hr hsrc
    refine ⟨t, ht, het.trans (if_neg ?_), hrt, hsrct⟩
    rintro (hseen | hlim)
    · exact hopen (k + 1) (Nat.le_refl _) hseen
    · omega

def oneByte (_ : Nat) : List Piece := [⟨⟨[7], by decide⟩, by decide⟩]

/-- A clean run that exits with 0 is complete just when the first 20 reports of `poll` see every
pipe through. -/
theorem success_complete_iff (pieces : Nat → List Piece) {m : Machine (Fin n → Revents) n}
    (h : ((program n).main (Clean pieces)).Reachable m) (he : m.exit = some 0)
    {rs : List (Fin n → Revents)} (hrs : m.reports <+: rs) :
    Complete pieces m ↔
      ∀ i, SeenThrough (pieces (m.pipes i).src).length ((rs.take 20).map (· i)) := by
  have hle : m.reports.length ≤ 20 := ((program n).turns_le rfl (by decide) h).1
  have htake : m.reports <+: rs.take 20 := List.prefix_take_iff.mpr ⟨hrs, hle⟩
  have hall : (∀ i, (m.pipes i).Finished) ↔
      ∀ i, SeenThrough (pieces (m.pipes i).src).length ((rs.take 20).map (· i)) := by
    constructor
    · intro hf i
      exact ((finished_iff h i).mp (hf i)).mono (htake.map _)
    · intro hs
      rcases (program n).exit_zero h he with hf | hlim
      · exact hf
      · intro i
        have hlen : m.reports.length = (rs.take 20).length := by
          have h20 : 20 = m.reports.length := Option.some.inj hlim
          have hge := hrs.length_le
          rw [List.length_take]
          omega
        rw [finished_iff h i, htake.eq_of_length hlen]
        exact hs i
  constructor
  · intro hc
    exact hall.mp hc.1
  · intro hs
    refine ⟨hall.mpr hs, fun i heof => ?_⟩
    rw [← m.written_callsOf]
    exact (follows h i).copying.eof heof

/-- One byte takes a read, a write and the read that finds the end. -/
theorem success_complete_byte : ∃ m : Machine (Fin 1 → Revents) 1,
    ((program 1).main (Clean oneByte)).Reachable m ∧ m.exit = some 0 ∧ Complete oneByte m := by
  have hopen : ∀ j ≤ 2, ¬SeenThrough (oneByte 3).length (List.replicate j ready) := by decide
  have hseen : SeenThrough (oneByte 3).length (List.replicate 3 ready) := by decide
  obtain ⟨m, h, he, hr, hsrc⟩ := ready_run oneByte (by decide) hopen
  obtain ⟨t, ht, het, hrt, hsrct⟩ := ready_push h he hr hsrc
  have het : t.exit = some 0 := het.trans (if_pos (.inl hseen))
  refine ⟨t, ht, het, (success_complete_iff oneByte ht het (List.prefix_refl _)).mpr fun i => ?_⟩
  rw [Fin.fin_one_eq_zero i, hsrct, hrt]
  decide

/-- Eleven bytes that arrive one by one take more than 20 turns. -/
theorem limits_truncate :
    ∃ (pieces : Nat → List Piece) (m : Machine (Fin 1 → Revents) 1),
      ((program 1).main (Clean pieces)).Reachable m ∧ m.exit = some 0 ∧
        ¬Complete pieces m := by
  let pieces : Nat → List Piece := fun _ => List.replicate 11 ⟨⟨[7], by decide⟩, by decide⟩
  have hopen : ∀ j ≤ 20, ¬SeenThrough (pieces 3).length (List.replicate j ready) := by decide
  obtain ⟨m, h, he, hr, hsrc⟩ := ready_run pieces (k := 19) (by decide) fun j hj =>
    hopen j (by omega)
  obtain ⟨t, ht, het, hrt, hsrct⟩ := ready_push h he hr hsrc
  refine ⟨pieces, t, ht, het.trans (if_pos (.inr rfl)), fun hc => ?_⟩
  have hseen := (finished_iff ht 0).mp (hc.1 0)
  rw [hrt, hsrct, List.map_replicate] at hseen
  exact hopen 20 (Nat.le_refl 20) hseen

/-- The turns that a stage needs to the end of the file. -/
def Stage.turns : Stage → Nat
  | .reading k => 2 * k + 1
  | .writing k => 2 * k + 2
  | .done | .failed => 0

theorem Stage.turns_advance (s : Stage) (r : Revents) :
    s.turns ≤ (s.advance r).turns + 1 ∨ s.advance r = .failed := by
  cases s with
  | reading k =>
    simp only [advance]
    split
    · exact .inr rfl
    · left
      split
      · cases k with
        | zero => exact Nat.le_refl 1
        | succ k => exact Nat.le_refl (2 * (k + 1) + 1)
      · exact Nat.le_succ _
  | writing k =>
    simp only [advance]
    split
    · exact .inr rfl
    · left
      split
      · exact Nat.le_refl (2 * k + 2)
      · exact Nat.le_succ _
  | done => exact .inl (Nat.zero_le _)
  | failed => exact .inl (Nat.zero_le _)

theorem turns_le_length {s : Stage} {rs : List Revents}
    (h : rs.foldl Stage.advance s = .done) : s.turns ≤ rs.length := by
  induction rs generalizing s with
  | nil =>
    change s = .done at h
    rw [h]
    exact Nat.le_refl 0
  | cons r rs ih =>
    rcases s.turns_advance r with hs | hs
    · exact hs.trans (Nat.succ_le_succ (ih h))
    · rw [List.foldl_cons, hs, foldl_advance_failed] at h
      cases h

theorem joined_length_le (pieces : List Piece) :
    (joined pieces).length ≤ pieces.length * bufSize := by
  induction pieces with
  | nil => exact Nat.zero_le _
  | cons piece pieces ih =>
    have hle := piece.le
    rw [joined] at ih ⊢
    rw [List.flatMap_cons, List.length_append, List.length_cons, Nat.succ_mul]
    omega

theorem eof_length_le {m : Machine (Fin n → Revents) n}
    (h : ((program n).main (Clean pieces)).Reachable m) (i : Fin n)
    (he : (m.pipes i).state = .eof) :
    (joined (pieces (m.pipes i).src)).length ≤ 9 * bufSize := by
  have hfits := (follows h i).fits
  have hdone : (m.reports.map (· i)).foldl Stage.advance
      (.reading (pieces (m.pipes i).src).length) = .done := by
    rcases hfits.finished_iff.mp (.inl he) with hd | hf
    · exact hd
    · rw [hf] at hfits
      cases he.symm.trans hfits
  have hturns := turns_le_length hdone
  have h20 : m.reports.length ≤ 20 := ((program n).turns_le rfl (by decide) h).1
  have hk : (pieces (m.pipes i).src).length ≤ 9 := by
    rw [List.length_map, Stage.turns] at hturns
    omega
  exact (joined_length_le _).trans (Nat.mul_le_mul_right bufSize hk)

end Apue.Adio.Poll
