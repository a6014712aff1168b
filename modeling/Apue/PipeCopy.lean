import Apue.Pipe

namespace Apue.Adio
set_option autoImplicit true

/-- A `write` that returns just the count it was asked for. -/
def IoCall.Full : IoCall → Prop
  | .read _ _ => True
  | .write _ len ret => ssize ret = len

theorem consumed_concat (fd : Nat) (calls : List IoCall) (c : IoCall) :
    consumed fd (calls ++ [c]) = consumed fd calls ++ c.got fd := by
  simp [consumed]

theorem written_concat (fd : Nat) (calls : List IoCall) (c : IoCall) :
    written fd (calls ++ [c]) = written fd calls ++ c.put fd := by
  simp [written]

theorem Buf.store_take (b : Buf) (c : Chunk) :
    (b.store c).bytes.take c.bytes.length = c.bytes :=
  List.take_left

theorem Io.writeRet_eq (io : Io) (b : Buf) (hw : io.wr = some n) (hn : n ≤ bufSize) :
    io.writeRet b = some (b.bytes.take n) := by
  simp [writeRet, hw, Nat.sub_eq_zero_of_le hn]

theorem Io.ssize_writeRet (io : Io) (b : Buf) (hw : io.wr = some n) :
    ssize (io.writeRet b) = n := by
  have hl : (b.bytes.take n ++ (List.range (n - bufSize)).map io.past).length = n := by
    rw [List.length_append, List.length_take, b.size, List.length_map, List.length_range]
    omega
  rw [writeRet, hw, Option.map_some, ssize, hl]

theorem Separate.and {ok : List IoCall → IoCall → Prop} (h : Separate ok) (q : IoCall → Prop) :
    Separate fun calls c => ok calls c ∧ q c :=
  fun p calls c hc ho => ⟨h p calls c hc ho.1, ho.2⟩

/-- Where a pipe stands in copying `content`, given the calls on its descriptors. -/
structure Copying (content : Nat → List UInt8) (p : Pipe) (calls : List IoCall) : Prop where
  taken : consumed p.src calls <+: content p.src
  read : p.state = .read → written p.dst calls = consumed p.src calls
  write : p.state = .write → p.off = 0 ∧
    (p.len = -1 ∧ written p.dst calls = consumed p.src calls ∨
      ∃ k ≤ bufSize, p.len = k ∧
        written p.dst calls ++ p.buf.bytes.take k = consumed p.src calls)
  eof : p.state = .eof → written p.dst calls = content p.src
  given : written p.dst calls <+: content p.src

theorem Copying.reading (hp : p.state = .read) (ht : consumed p.src calls <+: content p.src)
    (heq : written p.dst calls = consumed p.src calls) : Copying content p calls where
  taken := ht
  read _ := heq
  write := by simp [hp]
  eof := by simp [hp]
  given := heq ▸ ht

theorem Copying.ended (hp : p.state = .eof) (ht : consumed p.src calls <+: content p.src)
    (heq : written p.dst calls = content p.src) : Copying content p calls where
  taken := ht
  read := by simp [hp]
  write := by simp [hp]
  eof _ := heq
  given := by rw [heq]

theorem Copying.init (content : Nat → List UInt8) (p : Pipe) (src dst : Nat) :
    Copying content (pipeInit p src dst) [] :=
  .reading rfl List.nil_prefix rfl

theorem Copying.except (h : Copying content p calls) :
    Copying content { p with state := .err } calls where
  taken := h.taken
  read := by simp
  write := by simp
  eof := by simp
  given := h.given

theorem Copying.afterRead (h : Copying content p calls) (hp : p.state = .read)
    (hc : Admissible content calls (.read p.src io.readRet)) :
    Copying content (p.afterRead io) (calls ++ [.read p.src io.readRet]) := by
  have hw : written p.dst (calls ++ [.read p.src io.readRet]) = written p.dst calls := by
    rw [written_concat]
    exact List.append_nil _
  have heq := h.read hp
  cases hrd : io.rd with
  | none =>
    -- `len` becomes -1 and nothing has been moved
    have hret : io.readRet = none := by rw [Io.readRet, hrd, Option.map_none]
    have hcons : consumed p.src (calls ++ [.read p.src io.readRet]) = consumed p.src calls := by
      rw [consumed_concat, hret]
      exact List.append_nil _
    rw [Pipe.afterRead_fail hrd]
    exact {
      taken := by rw [hcons]; exact h.taken
      read := by simp
      write := fun _ => ⟨rfl, .inl ⟨rfl, by rw [hcons, hw, heq]⟩⟩
      eof := by simp
      given := by rw [hw]; exact h.given }
  | some c =>
    have hret : io.readRet = some c.bytes := by rw [Io.readRet, hrd, Option.map_some]
    rw [hret] at hc hw ⊢
    have hcons : consumed p.src (calls ++ [.read p.src (some c.bytes)]) =
        consumed p.src calls ++ c.bytes := by
      rw [consumed_concat, IoCall.got, if_pos rfl]
    have htaken : consumed p.src (calls ++ [.read p.src (some c.bytes)]) <+: content p.src := by
      rw [hcons]
      exact hc.1
    by_cases hb : c.bytes = []
    · rw [Pipe.afterRead_eof hrd hb]
      exact .ended rfl htaken (by rw [hw, heq, hc.2 hb])
    · rw [Pipe.afterRead_data hrd hb]
      exact {
        taken := htaken
        read := by simp
        write := fun _ =>
          ⟨rfl, .inr ⟨c.bytes.length, c.le, rfl, by rw [hcons, hw, heq, Buf.store_take]⟩⟩
        eof := by simp
        given := by rw [hw]; exact h.given }

theorem Copying.afterWrite (h : Copying content p calls) (hp : p.state = .write)
    (hfull : IoCall.Full (.write p.dst p.len (io.writeRet p.buf))) :
    Copying content (p.afterWrite io) (calls ++ [.write p.dst p.len (io.writeRet p.buf)]) := by
  obtain ⟨hoff, hlen⟩ := h.write hp
  have hcons : consumed p.src (calls ++ [.write p.dst p.len (io.writeRet p.buf)]) =
      consumed p.src calls := by
    rw [consumed_concat]
    exact List.append_nil _
  have hw : written p.dst (calls ++ [.write p.dst p.len (io.writeRet p.buf)]) =
      consumed p.src calls := by
    rw [written_concat]
    change ssize (io.writeRet p.buf) = p.len at hfull
    cases hwr : io.wr with
    | none =>
      have hret : io.writeRet p.buf = none := by rw [Io.writeRet, hwr, Option.map_none]
      rw [hret] at hfull ⊢
      obtain ⟨-, heq⟩ | ⟨k, -, hk, -⟩ := hlen
      · rw [← heq]
        exact List.append_nil _
      · rw [← hfull] at hk
        exact absurd hk (by simp [ssize])
    | some m =>
      rw [Io.ssize_writeRet io p.buf hwr] at hfull
      obtain ⟨hneg, -⟩ | ⟨k, hle, hk, heq⟩ := hlen
      · rw [hneg] at hfull
        exact absurd hfull (by simp)
      · obtain rfl : m = k := Int.ofNat_inj.mp (hfull.trans hk)
        rw [Io.writeRet_eq io p.buf hwr hle, IoCall.put, if_pos rfl, heq]
  have hdone : p.off + ssize (io.writeRet p.buf) = p.len := by
    rw [hoff, Int.zero_add]
    exact hfull
  rw [Pipe.afterWrite_done hdone]
  exact .reading rfl (by rw [hcons]; exact h.taken) (hw.trans hcons.symm)

theorem Copying.serve (h : Copying content p calls) (hs : Serves io p out)
    (hc : ∀ c ∈ out.2, Admissible content calls c ∧ c.Full) :
    Copying content out.1 (calls ++ out.2.toList) := by
  cases hs with
  | idle => simpa using h
  | except => simpa using h.except
  | read hp => exact h.afterRead hp (hc _ rfl).1
  | write hp => exact h.afterWrite hp (hc _ rfl).2

end Apue.Adio
