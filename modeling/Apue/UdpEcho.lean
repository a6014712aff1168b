import Apue.LineBuffer
import Apue.UdpNetwork

namespace Apue.UdpEcho
set_option autoImplicit true

def message : List UInt8 := [104, 101, 108, 108, 111, 32, 115, 111, 99, 107, 101, 116, 10]

/-- The block that main of `udp_echo.c` receives datagrams in: one byte more than it lets recvfrom
write. -/
structure Buffer where
  bytes : List UInt8
  size : bytes.length = message.length + 1

def Buffer.last (b : Buffer) : UInt8 := b.bytes.get ⟨message.length, by rw [b.size]; decide⟩

/-- recvfrom(sd, buf, strlen(MESSAGE), ..), which cuts longer datagrams. -/
def Buffer.fill (b : Buffer) (d : List UInt8) : Buffer where
  bytes := d.take message.length ++ b.bytes.drop (min message.length d.length)
  size := by
    rw [List.length_append, List.length_take, List.length_drop, b.size]
    omega

/-- `early`: recvfrom has failed before the first datagram came, which main does not notice. -/
structure Echo where
  flying : List (List UInt8)
  received : List (List UInt8)
  buf : Buffer
  out : List (List UInt8)
  early : Bool
  fault : Option Fault

/-- The line for a datagram, without the address of its sender. -/
def Echo.print (s : Echo) : Echo :=
  match cBytes s.buf.bytes with
  | .ok l => { s with out := s.out ++ [l] }
  | .error e => { s with fault := some e }

def Echo.receive (s : Echo) (d : List UInt8) : Echo :=
  print { s with flying := s.flying.erase d, received := d :: s.received, buf := s.buf.fill d }

/-- The thread of try_echo sends to the port that main listens on, and so may others. -/
inductive Echo.Step (others : Set (List UInt8)) : Echo → Echo → Prop where
  | tryEcho : Step others s { s with flying := message :: s.flying }
  | other : d ∈ others → Step others s { s with flying := d :: s.flying }
  | carry : Carries s.flying l → Step others s { s with flying := l }
  | receive : s.fault = none → d ∈ s.flying → Step others s (s.receive d)
  | interrupted : s.fault = none →
      Step others s (print { s with early := s.early || s.received.isEmpty })

def echo (others : Set (List UInt8)) (block : Buffer) : System Echo where
  init s := s = ⟨[], [], block, [], false, none⟩
  step := Echo.Step others

namespace Buffer

theorem getElem?_last (b : Buffer) : b.bytes[message.length]? = some b.last :=
  List.getElem?_eq_getElem _

theorem eq_append_last (b : Buffer) : b.bytes = b.bytes.take message.length ++ [b.last] := by
  have hlt : message.length < b.bytes.length := by
    rw [b.size]
    exact Nat.lt_succ_self _
  rw [last, List.get_eq_getElem, List.take_append_getElem hlt, ← b.size, List.take_length]

theorem getElem?_fill (b : Buffer) (d : List UInt8) (i : Nat) : (b.fill d).bytes[i]? =
    if i < min message.length d.length then d[i]? else b.bytes[i]? := by
  rw [fill, List.getElem?_append, List.length_take]
  split
  · next hi => rw [List.getElem?_take_of_lt (Nat.lt_min.mp hi).1]
  · next hi => rw [List.getElem?_drop, Nat.add_sub_cancel' (Nat.le_of_not_lt hi)]

theorem last_fill (b : Buffer) (d : List UInt8) : (b.fill d).last = b.last := by
  have hge : ¬message.length < min message.length d.length := by
    rw [Nat.lt_min, not_and]
    exact fun h => absurd h (Nat.lt_irrefl _)
  have hsome := (b.fill d).getElem?_last
  rw [getElem?_fill, if_neg hge, b.getElem?_last] at hsome
  exact (Option.some.inj hsome).symm

theorem fill_message (b : Buffer) : (b.fill message).bytes = message ++ [b.last] := by
  have happ := (b.fill message).eq_append_last
  rw [last_fill] at happ
  rw [happ, fill, List.take_left' (by rw [List.length_take, Nat.min_self]), List.take_length]

theorem cBytes_of_last (b : Buffer) (h : b.last = 0) :
    cBytes b.bytes = .ok ((b.bytes.take message.length).takeWhile (· ≠ 0)) := by
  have happ := b.eq_append_last
  rw [h] at happ
  rw [happ, cBytes_append]
  congr 2
  rw [List.take_left' (by rw [List.length_take, b.size]; rfl)]

end Buffer

/-- The string of a whole message ends with the byte behind it, or not at all. -/
theorem cBytes_message (z : UInt8) : cBytes (message ++ [z]) =
    if z = 0 then .ok message else .error .bounds := by
  split
  · next h =>
    rw [h, cBytes_append]
    rfl
  · next h =>
    have hnot : 0 ∉ message ++ [z] := by
      rw [List.mem_append, List.mem_singleton, not_or]
      exact ⟨by decide, Ne.symm h⟩
    rw [cBytes, if_neg hnot]

theorem getElem?_of_cBytes {b l : List UInt8} {i : Nat} (h : cBytes b = .ok l)
    (hi : l[i]? = some c) : b[i]? = some c := by
  rw [cBytes] at h
  split at h
  · cases h
    have hlt := (List.getElem?_eq_some_iff.mp hi).1
    rw [← List.takeWhile_append_dropWhile (p := (· ≠ 0)) (l := b), List.getElem?_append_left hlt]
    exact hi
  · cases h

/-- Each byte comes from the same place of a received datagram or of the block that malloc
returned. -/
def Comes (block : Buffer) (received : List (List UInt8)) (l : List UInt8) : Prop :=
  ∀ (i : Nat) c, l[i]? = some c → (∃ d ∈ received, d[i]? = some c) ∨ block.bytes[i]? = some c

theorem Comes.cons (h : Comes block received l) (d : List UInt8) :
    Comes block (d :: received) l := by
  intro i c hi
  rcases h i c hi with ⟨e, he, hc⟩ | hc
  · exact .inl ⟨e, List.mem_cons_of_mem d he, hc⟩
  · exact .inr hc

theorem Comes.fill {b : Buffer} (h : Comes block received b.bytes) (d : List UInt8) :
    Comes block (d :: received) (b.fill d).bytes := by
  intro i c hi
  rw [b.getElem?_fill] at hi
  split at hi
  · exact .inl ⟨d, List.mem_cons_self, hi⟩
  · exact h.cons d i c hi

structure Echo.Inv (others : Set (List UInt8)) (block : Buffer) (s : Echo) : Prop where
  flying : ∀ d ∈ s.flying, d = message ∨ d ∈ others
  last : s.buf.last = block.last
  bytes : Comes block s.received s.buf.bytes
  out : ∀ l ∈ s.out, Comes block s.received l ∧ (block.last = 0 → l.length ≤ message.length)
  fault : block.last = 0 → s.fault = none
  alone : others = ∅ → s.early = false → (∀ l ∈ s.out, l = message) ∧
    (block.last ≠ 0 → s.out = []) ∧ (s.received ≠ [] → s.buf.bytes = message ++ [block.last])

namespace Echo.Inv

variable {others : Set (List UInt8)} {block : Buffer} {s : Echo}

theorem print (h : s.Inv others block) (hne : s.early = false → s.received ≠ []) :
    s.print.Inv others block := by
  unfold Echo.print
  split
  · next l hl =>
    refine ⟨h.flying, h.last, h.bytes, ?_, h.fault, ?_⟩
    · intro k hk
      rcases List.mem_append.mp hk with hk | hk
      · exact h.out k hk
      · cases List.mem_singleton.mp hk
        refine ⟨fun i c hi => h.bytes i c (getElem?_of_cBytes hl hi), fun hlast => ?_⟩
        rw [s.buf.cBytes_of_last (h.last.trans hlast)] at hl
        cases hl
        exact (List.takeWhile_sublist _).length_le.trans (List.length_take_le _ _)
    · intro ho he
      obtain ⟨hout, hlast, hbuf⟩ := h.alone ho he
      rw [hbuf (hne he), cBytes_message] at hl
      split at hl
      · next hz =>
        cases hl
        refine ⟨?_, fun hz' => absurd hz hz', hbuf⟩
        intro k hk
        rcases List.mem_append.mp hk with hk | hk
        · exact hout k hk
        · exact List.mem_singleton.mp hk
      · cases hl
  · next e hl =>
    refine ⟨h.flying, h.last, h.bytes, h.out, ?_, h.alone⟩
    intro hlast
    rw [s.buf.cBytes_of_last (h.last.trans hlast)] at hl
    cases hl

theorem receive (h : s.Inv others block) (hd : d ∈ s.flying) : (s.receive d).Inv others block := by
  refine print ⟨?_, ?_, h.bytes.fill d, ?_, h.fault, ?_⟩ (fun _ => List.cons_ne_nil _ _)
  · exact fun e he => h.flying e (List.mem_of_mem_erase he)
  · exact (s.buf.last_fill d).trans h.last
  · exact fun l hl => ⟨(h.out l hl).1.cons d, (h.out l hl).2⟩
  · intro ho he
    obtain ⟨hout, hlast, -⟩ := h.alone ho he
    refine ⟨hout, hlast, fun _ => ?_⟩
    rcases h.flying d hd with rfl | hd
    · rw [s.buf.fill_message, h.last]
    · rw [ho] at hd
      cases hd

theorem step (h : s.Inv others block) (hst : Echo.Step others s t) : t.Inv others block := by
  cases hst with
  | tryEcho =>
    refine ⟨fun d hd => ?_, h.last, h.bytes, h.out, h.fault, h.alone⟩
    rcases List.mem_cons.mp hd with rfl | hd
    · exact .inl rfl
    · exact h.flying d hd
  | other ho =>
    refine ⟨fun d hd => ?_, h.last, h.bytes, h.out, h.fault, h.alone⟩
    rcases List.mem_cons.mp hd with rfl | hd
    · exact .inr ho
    · exact h.flying d hd
  | carry hc =>
    exact ⟨fun d hd => h.flying d (hc.mem hd), h.last, h.bytes, h.out, h.fault, h.alone⟩
  | receive _ hd => exact h.receive hd
  | interrupted =>
    refine print ⟨h.flying, h.last, h.bytes, h.out, h.fault, fun ho he => ?_⟩ (fun he => ?_)
    · exact h.alone ho (Bool.or_eq_false_iff.mp he).1
    · have hempty := (Bool.or_eq_false_iff.mp he).2
      simpa using hempty

theorem of_reachable (h : (echo others block).Reachable s) : s.Inv others block := by
  refine h.invariant ?_ (fun _ _ _ hi hst => hi.step hst)
  rintro s rfl
  refine ⟨?_, rfl, fun i c hi => .inr hi, ?_, fun _ => rfl, fun _ _ => ⟨?_, fun _ => rfl, ?_⟩⟩
  · simp
  · simp
  · simp
  · simp

end Echo.Inv

/-- Only a NUL that malloc has left in the last byte keeps main from reading behind the block. -/
theorem echo_prints (h : (echo others block).Reachable s) :
    (block.last = 0 → s.fault = none ∧ ∀ l ∈ s.out, l.length ≤ message.length) ∧
    (block.last ≠ 0 → (s.receive message).fault = some .bounds) ∧
    (∀ l ∈ s.out, Comes block s.received l) ∧
    (others = ∅ → s.early = false →
      (∀ l ∈ s.out, l = message) ∧ (block.last ≠ 0 → s.out = [])) := by
  have hi := Echo.Inv.of_reachable h
  refine ⟨?_, ?_, ?_, ?_⟩
  · exact fun hlast => ⟨hi.fault hlast, fun l hl => (hi.out l hl).2 hlast⟩
  · intro hlast
    rw [Echo.receive, Echo.print, s.buf.fill_message, hi.last, cBytes_message, if_neg hlast]
  · exact fun l hl => (hi.out l hl).1
  · exact fun ho he => ⟨(hi.alone ho he).1, (hi.alone ho he).2.1⟩

theorem echo_prints_other : ∃ s, (echo {[120]} ⟨List.replicate 14 0, rfl⟩).Reachable s ∧
    s.out = [message, 120 :: message.drop 1] ∧ s.fault = none := by
  have h0 : (echo {[120]} ⟨List.replicate 14 0, rfl⟩).Reachable
      ⟨[], [], ⟨List.replicate 14 0, rfl⟩, [], false, none⟩ := .init rfl
  have h1 := (h0.step .tryEcho).step (.receive rfl List.mem_cons_self)
  have h2 := (h1.step (.other (Set.mem_singleton _))).step (.receive rfl List.mem_cons_self)
  exact ⟨_, h2, by decide, ((echo_prints h2).1 (by decide)).1⟩

end Apue.UdpEcho
