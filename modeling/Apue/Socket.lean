import Mathlib.Algebra.Group.Action.Defs
import Mathlib.Algebra.Order.BigOperators.Group.List
import Mathlib.Algebra.Order.Ring.Nat
import Mathlib.Data.List.Forall2
import Apue.Memory

namespace Apue.Socket
set_option autoImplicit true

def nameSize : Nat := 16

def msgSize : Nat := nameSize + 4 + 4

/-- The memory of a struct msg_st: name, then math and chinese in network byte order. -/
structure Msg where
  bytes : List UInt8
  size : bytes.length = msgSize
  deriving DecidableEq

/-- What read or recvfrom leaves in msg: the bytes received, and behind them the old ones. -/
def Msg.fill (m : Msg) (data : List UInt8) : Msg where
  bytes := data.take msgSize ++ m.bytes.drop data.length
  size := by
    have hm := m.size
    rw [List.length_append, List.length_take, List.length_drop]
    omega

/-- A call that fails leaves msg as it is. -/
def Msg.receive (m : Msg) : Option (List UInt8) → Msg
  | none => m
  | some data => m.fill data

def ntohl (l : List UInt8) : Nat := l.foldl (fun n b => 256 * n + b.toNat) 0

/-- %d prints an unsigned value as an int. -/
def asInt (n : Nat) : Int := if n < 2147483648 then n else n - 4294967296

structure Line where
  name : List UInt8
  math : Int
  chinese : Int
  deriving DecidableEq

/-- %s goes on over the end of name, up to the first NUL. Where msg has none it leaves msg. -/
def Msg.line (m : Msg) : Except Fault Line :=
  if 0 ∈ m.bytes then
    .ok ⟨m.bytes.takeWhile (· ≠ 0), asInt (ntohl ((m.bytes.drop nameSize).take 4)),
      asInt (ntohl (m.bytes.drop (nameSize + 4)))⟩
  else .error .bounds

/-- The client's message: strcpy leaves the rest of name as it was. -/
def Msg.client (rest : List UInt8) (h : rest.length = 12) : Msg :=
  ⟨[115, 97, 108, 0] ++ rest ++ [0, 0, 0, 100] ++ [0, 0, 0, 100], by
    simp only [List.length_append, List.length_cons, List.length_nil, h]
    rfl⟩

def Msg.ending (b : UInt8) : Msg := ⟨List.replicate 23 0 ++ [b], by simp [msgSize, nameSize]⟩

theorem Msg.fill_of_le (m : Msg) (h : msgSize ≤ data.length) :
    (m.fill data).bytes = data.take msgSize := by
  have hm := m.size
  change data.take msgSize ++ m.bytes.drop data.length = data.take msgSize
  rw [List.drop_eq_nil_of_le (by omega), List.append_nil]

theorem Msg.fill_bytes (m m' : Msg) : m.fill m'.bytes = m' := by
  obtain ⟨l, hl⟩ := m'
  rw [Msg.mk.injEq, m.fill_of_le (Nat.le_of_eq hl.symm), List.take_of_length_le (Nat.le_of_eq hl)]

theorem Msg.line_ok {m : Msg} (h : 0 ∈ m.bytes) : ∃ l, m.line = .ok l :=
  ⟨_, if_pos h⟩

theorem Msg.line_error {m : Msg} (h : 0 ∉ m.bytes) : m.line = .error .bounds := if_neg h

theorem Msg.line_chinese {m : Msg} (h : m.line = .ok l) :
    l.chinese = asInt (ntohl (m.bytes.drop (nameSize + 4))) := by
  unfold Msg.line at h
  split at h
  · cases h
    rfl
  · cases h

theorem ntohl_append (l : List UInt8) (b : UInt8) : ntohl (l ++ [b]) = 256 * ntohl l + b.toNat := by
  rw [ntohl, List.foldl_append]
  rfl

namespace Tcp

inductive Output where
  | message (l : Line)
  | closed
  deriving DecidableEq

/-- The server's loop on the results of its calls of read, none for -1. The message is printed
before the result is looked at. -/
def server (msg : Msg) : List (Option (List UInt8)) → Except Fault (List Output)
  | [] => .ok []
  | r :: rs => do
    let line ← (msg.receive r).line
    if r = some [] then .ok [.message line, .closed]
    else do
      let out ← server (msg.receive r) rs
      return .message line :: out

/-- A way in which the stream of the messages sent can come out of the calls of read. -/
structure Segments (sent : List Msg) (pieces : List (List UInt8)) : Prop where
  stream : pieces.flatten = (sent.map Msg.bytes).flatten
  positive : ∀ p ∈ pieces, p ≠ []
  fits : ∀ p ∈ pieces, p.length ≤ msgSize

def reads (pieces : List (List UInt8)) : List (Option (List UInt8)) := pieces.map some ++ [some []]

/-- The server's output, if it prints each of the messages sent once and then stops. -/
def Framed (sent : List Msg) (out : List Output) : Prop :=
  ∃ lines, List.Forall₂ (fun m l => m.line = .ok l) sent lines ∧
    out = lines.map .message ++ [.closed]

theorem server_length {msg : Msg} (hne : ∀ p ∈ pieces, p ≠ [])
    (h : server msg (reads pieces) = .ok out) : out.length = pieces.length + 2 := by
  induction pieces generalizing msg out with
  | nil =>
    obtain ⟨line, -, h⟩ := bind_ok h
    cases h
    rfl
  | cons p ps ih =>
    obtain ⟨line, -, h⟩ := bind_ok h
    rw [if_neg (by simp [hne p List.mem_cons_self])] at h
    obtain ⟨rest, hr, h⟩ := bind_ok h
    cases h
    rw [List.length_cons, ih (fun q hq => hne q (List.mem_cons_of_mem p hq)) hr, List.length_cons]

theorem stream_length (sent : List Msg) :
    (sent.map Msg.bytes).flatten.length = sent.length * msgSize := by
  have hsum := List.sum_eq_card_nsmul ((sent.map Msg.bytes).map List.length) msgSize (by
    intro n hn
    simp only [List.mem_map] at hn
    obtain ⟨_, ⟨m, -, rfl⟩, rfl⟩ := hn
    exact m.size)
  rw [List.length_map, List.length_map, smul_eq_mul] at hsum
  rw [List.length_flatten, hsum]

theorem Segments.length_le (h : Segments sent pieces) : sent.length ≤ pieces.length := by
  have hle := List.sum_le_card_nsmul (pieces.map List.length) msgSize (by
    intro n hn
    obtain ⟨p, hp, rfl⟩ := List.mem_map.1 hn
    exact h.fits p hp)
  rw [← List.length_flatten, h.stream, stream_length, List.length_map, smul_eq_mul] at hle
  exact Nat.le_of_mul_le_mul_right hle (by decide)

/-- Whatever is sent, and however the stream is split, the server prints a message too many: it
prints once more when read returns 0. -/
theorem never_framed (msg : Msg) (h : Segments sent pieces) :
    ¬ ∃ out, server msg (reads pieces) = .ok out ∧ Framed sent out := by
  rintro ⟨_, hout, lines, hlines, rfl⟩
  have hlen := server_length h.positive hout
  have hsent := h.length_le
  rw [List.length_append, List.length_map, ← hlines.length_eq, List.length_singleton] at hlen
  omega

theorem never_framed_client :
    ¬ ∃ out, server (.ending 0) (reads [(Msg.client (List.replicate 12 7) rfl).bytes]) = .ok out ∧
      Framed [Msg.client (List.replicate 12 7) rfl] out :=
  never_framed (.ending 0) ⟨rfl, by decide, by decide⟩

theorem one_message_printed_twice :
    server (.ending 0) (reads [(Msg.client (List.replicate 12 7) rfl).bytes]) =
        .ok [.message ⟨[115, 97, 108], 100, 100⟩, .message ⟨[115, 97, 108], 100, 100⟩, .closed] ∧
      ¬ Framed [Msg.client (List.replicate 12 7) rfl]
        [.message ⟨[115, 97, 108], 100, 100⟩, .message ⟨[115, 97, 108], 100, 100⟩, .closed] := by
  refine ⟨by decide, ?_⟩
  rintro ⟨lines, hlines, he⟩
  have hlen := congrArg List.length he
  rw [List.length_append, List.length_map, ← hlines.length_eq] at hlen
  cases hlen

/-- Where every read returns one whole message, the messages are printed in order, and then the
last one again. -/
theorem server_aligned {msg : Msg} (hm : msg.line = .ok l)
    (h : List.Forall₂ (fun m l => m.line = .ok l) sent lines) :
    server msg (reads (sent.map Msg.bytes)) =
      .ok (lines.map .message ++ [.message (lines.getLastD l), .closed]) := by
  induction h generalizing msg l with
  | nil =>
    have hfill : msg.receive (some []) = msg := by
      simp [Msg.receive, Msg.fill]
    simp only [reads, List.map_nil, List.nil_append, server, hfill, hm, ok_bind, if_true]
    rfl
  | @cons m k ms ks hk _ ih =>
    have hne : some m.bytes ≠ some [] := by
      intro he
      have hsize := m.size
      rw [Option.some.inj he] at hsize
      cases hsize
    have hfill : msg.receive (some m.bytes) = m := msg.fill_bytes m
    have htail := ih hk
    simp only [reads, List.map_cons, List.cons_append, server, hfill, hk, ok_bind, if_neg hne]
    rw [reads] at htail
    rw [htail, ok_bind, List.getLastD_cons]
    rfl

end Tcp

namespace Udp

/-- The server's loop on the results of recvfrom, none for -1. -/
def server (msg : Msg) : List (Option (List UInt8)) → Except Fault (List Line)
  | [] => .ok []
  | r :: rs => do
    let line ← (msg.receive r).line
    let out ← server (msg.receive r) rs
    return line :: out

/-- The line printed for the datagram d does not depend on what msg held at first, nor on what was
received before. -/
def Independent (d : List UInt8) : Prop :=
  ∃ line, ∀ msg hist out, server msg hist = .ok out →
    server msg (hist ++ [some d]) = .ok (out ++ [line])

theorem server_append (msg : Msg) (hist : List (Option (List UInt8)))
    (h : server msg hist = .ok out) (r : Option (List UInt8)) :
    server msg (hist ++ [r]) = do
      let line ← ((hist.foldl Msg.receive msg).receive r).line
      return out ++ [line] := by
  induction hist generalizing msg out with
  | nil =>
    cases h
    rfl
  | cons q qs ih =>
    obtain ⟨line, hl, h⟩ := bind_ok h
    obtain ⟨rest, hr, h⟩ := bind_ok h
    cases h
    have hrest := ih (msg.receive q) hr
    simp only [List.cons_append, server, hl, ok_bind, hrest, List.foldl_cons, bind_assoc]
    cases ((qs.foldl Msg.receive (msg.receive q)).receive r).line <;> rfl

theorem ending_line (b : UInt8) : ∃ l, (Msg.ending b).line = .ok l :=
  Msg.line_ok (List.mem_append_left _ (List.mem_replicate.2 ⟨by decide, rfl⟩))

/-- A shorter datagram leaves the last byte of msg. -/
theorem fill_ending (h : d.length < msgSize) (b : UInt8) :
    ((Msg.ending b).fill d).bytes = d ++ List.replicate (23 - d.length) 0 ++ [b] := by
  have hlt : d.length ≤ 23 := Nat.le_of_lt_succ h
  change d.take msgSize ++ (List.replicate 23 0 ++ [b]).drop d.length = _
  rw [List.take_of_length_le (Nat.le_of_lt h), List.drop_append_of_le_length (by simpa using hlt),
    List.drop_replicate, List.append_assoc]

theorem asInt_ne (k : Nat) : asInt (256 * k + 0) ≠ asInt (256 * k + 1) := by
  unfold asInt
  split <;> split <;> omega

theorem Independent.line (h : Independent d) :
    ∃ l, ∀ m : Msg, (∃ k, m.line = .ok k) → (m.fill d).line = .ok l := by
  obtain ⟨l, hl⟩ := h
  refine ⟨l, ?_⟩
  rintro m ⟨k, hk⟩
  have hfirst : server m [some m.bytes] = .ok [k] := by
    simp only [server, Msg.receive, m.fill_bytes, hk, ok_bind]
    rfl
  have hlast := hl m [some m.bytes] [k] hfirst
  rw [server_append m _ hfirst] at hlast
  simp only [List.foldl_cons, List.foldl_nil, Msg.receive, m.fill_bytes] at hlast
  obtain ⟨l', hl', he⟩ := bind_ok hlast
  cases he
  exact hl'

/-- What is printed for a datagram depends on the datagram alone exactly when it fills msg and
ends the name by a NUL. -/
theorem independent_iff (d : List UInt8) :
    Independent d ↔ msgSize ≤ d.length ∧ 0 ∈ d.take msgSize := by
  constructor
  · intro h
    obtain ⟨l, hl⟩ := h.line
    have hlen : msgSize ≤ d.length := by
      by_contra hlt
      have hlt := Nat.lt_of_not_le hlt
      have h0 := Msg.line_chinese (hl _ (ending_line 0))
      have h1 := Msg.line_chinese (hl _ (ending_line 1))
      have hdrop : nameSize + 4 ≤ (d ++ List.replicate (23 - d.length) (0 : UInt8)).length := by
        have hm : msgSize = 24 := rfl
        have hn : nameSize = 16 := rfl
        rw [List.length_append, List.length_replicate]
        omega
      rw [fill_ending hlt, List.drop_append_of_le_length hdrop, ntohl_append] at h0 h1
      exact asInt_ne _ (h0.symm.trans h1)
    refine ⟨hlen, ?_⟩
    by_contra hmem
    have hline := hl _ (ending_line 0)
    rw [Msg.line_error] at hline
    · cases hline
    · rw [Msg.fill_of_le _ hlen]
      exact hmem
  · rintro ⟨hlen, hmem⟩
    obtain ⟨l, hl⟩ := Msg.line_ok (m := (Msg.ending 0).fill d)
      (by rw [Msg.fill_of_le _ hlen]; exact hmem)
    refine ⟨l, fun msg hist out hout => ?_⟩
    have hfill : (hist.foldl Msg.receive msg).receive (some d) = (Msg.ending 0).fill d := by
      rw [Msg.receive, Msg.mk.injEq, Msg.fill_of_le _ hlen, Msg.fill_of_le _ hlen]
    rw [server_append msg hist hout, hfill, hl]
    rfl

/-- A datagram that holds only a name is printed with the marks of the sender before. -/
theorem short_datagram_leaks :
    server (.ending 0) [some (List.replicate 23 0 ++ [90]), some [115, 97, 108, 0]] =
        .ok [⟨[], 0, 90⟩, ⟨[115, 97, 108], 0, 90⟩] ∧
      server (.ending 0) [some (List.replicate 23 0 ++ [60]), some [115, 97, 108, 0]] =
        .ok [⟨[], 0, 60⟩, ⟨[115, 97, 108], 0, 60⟩] ∧
      ¬ Independent [115, 97, 108, 0] := by
  refine ⟨by decide, by decide, ?_⟩
  rintro ⟨line, hline⟩
  have h90 := hline (.ending 0) [some (List.replicate 23 0 ++ [90])] [⟨[], 0, 90⟩] (by decide)
  have h60 := hline (.ending 0) [some (List.replicate 23 0 ++ [60])] [⟨[], 0, 60⟩] (by decide)
  cases h90
  cases h60

end Udp

end Apue.Socket
