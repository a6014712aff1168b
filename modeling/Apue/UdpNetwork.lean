import Apue.Reachability
import Apue.Socket

namespace Apue
set_option autoImplicit true

/-- What a network does with the datagrams on their way. Their order says nothing: any of them may
be the next to arrive. -/
inductive Carries [DecidableEq δ] : List δ → List δ → Prop where
  | lose : d ∈ l → Carries l (l.erase d)
  | duplicate : d ∈ l → Carries l (d :: l)

theorem Carries.mem [DecidableEq δ] {l k : List δ} (h : Carries l k) (hd : d ∈ k) : d ∈ l := by
  cases h with
  | lose => exact List.mem_of_mem_erase hd
  | duplicate hm =>
    rcases List.mem_cons.mp hd with rfl | hd
    · exact hm
    · exact hd

namespace Socket

def htonl (n : Nat) : List UInt8 :=
  [UInt8.ofNat (n / 16777216), UInt8.ofNat (n / 65536), UInt8.ofNat (n / 256), UInt8.ofNat n]

theorem ntohl_htonl (h : n < 4294967296) : ntohl (htonl n) = n := by
  simp only [ntohl, htonl, List.foldl_cons, List.foldl_nil, UInt8.toNat_ofNat']
  omega

/-- What a client puts into a struct msg_st: a name that leaves room for its NUL and two numbers of
32 bits. -/
structure Record where
  name : List UInt8
  math : Nat
  chinese : Nat
  short : name.length < nameSize
  no_nul : 0 ∉ name
  math_lt : math < 4294967296
  chinese_lt : chinese < 4294967296

def Record.line (r : Record) : Line := ⟨r.name, asInt r.math, asInt r.chinese⟩

/-- The member name after strcpy, over what was on the stack before. -/
def Record.nameBytes (r : Record) (stack : List UInt8) : List UInt8 :=
  r.name ++ 0 :: stack.drop (r.name.length + 1)

theorem Record.nameBytes_length (r : Record) (h : stack.length = nameSize) :
    (r.nameBytes stack).length = nameSize := by
  have hs := r.short
  rw [nameBytes, List.length_append, List.length_cons, List.length_drop]
  omega

def Record.encode (r : Record) (stack : List UInt8) (h : stack.length = nameSize) : Msg where
  bytes := r.nameBytes stack ++ (htonl r.math ++ htonl r.chinese)
  size := by
    rw [List.length_append, r.nameBytes_length h]
    rfl

theorem Record.line_encode (r : Record) (h : stack.length = nameSize) :
    (r.encode stack h).line = .ok r.line := by
  have hname := r.nameBytes_length h
  have hmem : (0 : UInt8) ∈ (r.encode stack h).bytes := by
    refine List.mem_append_left _ ?_
    exact List.mem_append_right _ List.mem_cons_self
  have htake : (r.encode stack h).bytes.takeWhile (· ≠ 0) = r.name := by
    have hne : ∀ b ∈ r.name, decide (b ≠ 0) = true := by
      intro b hb
      refine decide_eq_true ?_
      rintro rfl
      exact r.no_nul hb
    simp only [encode, nameBytes, List.append_assoc]
    rw [List.takeWhile_append_of_pos hne, List.cons_append,
      List.takeWhile_cons_of_neg (by decide), List.append_nil]
  have hmath : ((r.encode stack h).bytes.drop nameSize).take 4 = htonl r.math := by
    rw [encode, List.drop_append_of_le_length (Nat.le_of_eq hname.symm),
      List.drop_eq_nil_of_le (Nat.le_of_eq hname)]
    rfl
  have hchinese : (r.encode stack h).bytes.drop (nameSize + 4) = htonl r.chinese := by
    rw [← List.drop_drop, encode, List.drop_append_of_le_length (Nat.le_of_eq hname.symm),
      List.drop_eq_nil_of_le (Nat.le_of_eq hname)]
    rfl
  rw [Msg.line, if_pos hmem, htake, hmath, hchinese, ntohl_htonl r.math_lt,
    ntohl_htonl r.chinese_lt]
  rfl

namespace Udp

/-- A client: its record, and what its stack held in the place of name. -/
structure Client where
  record : Record
  stack : List UInt8
  size : stack.length = nameSize

def Client.datagram (c : Client) : List UInt8 := (c.record.encode c.stack c.size).bytes

/-- The datagrams on their way, the server's msg and its output. `early` tells whether recvfrom has
failed before the first datagram came. -/
structure Network where
  flying : List (List UInt8)
  msg : Msg
  out : List Line
  early : Bool
  fault : Option Fault

/-- One turn of the server's loop after msg has been received. -/
def Network.print (s : Network) (m : Msg) : Network :=
  match m.line with
  | .ok l => { s with msg := m, out := s.out ++ [l] }
  | .error e => { s with msg := m, fault := some e }

inductive Network.Step (clients : ι → Client) : Network → Network → Prop where
  | send (i : ι) : Step clients s { s with flying := (clients i).datagram :: s.flying }
  | carry : Carries s.flying l → Step clients s { s with flying := l }
  | receive : s.fault = none → d ∈ s.flying →
      Step clients s (print { s with flying := s.flying.erase d } (s.msg.fill d))
  | interrupted : s.fault = none →
      Step clients s (print { s with early := s.early || s.out.isEmpty } s.msg)

/-- What the server prints comes from the clients. -/
structure Genuine (clients : ι → Client) (s : Network) : Prop where
  flying : ∀ d ∈ s.flying, ∃ i, d = (clients i).datagram
  sound : s.early = false → s.fault = none ∧ (∀ l ∈ s.out, ∃ i, l = (clients i).record.line) ∧
    (s.out ≠ [] → ∃ i, s.msg.line = .ok (clients i).record.line)

theorem Genuine.print {clients : ι → Client} {s : Network} {m : Msg}
    (hf : ∀ d ∈ s.flying, ∃ i, d = (clients i).datagram)
    (hs : s.early = false → s.fault = none ∧ ∀ l ∈ s.out, ∃ i, l = (clients i).record.line)
    (hm : s.early = false → ∃ i, m.line = .ok (clients i).record.line) :
    Genuine clients (s.print m) := by
  unfold Network.print
  split
  · next l hl =>
    refine ⟨hf, fun he => ⟨(hs he).1, ?_, fun _ => ?_⟩⟩
    · intro k hk
      rcases List.mem_append.mp hk with hk | hk
      · exact (hs he).2 k hk
      · cases List.mem_singleton.mp hk
        obtain ⟨i, hi⟩ := hm he
        cases hl.symm.trans hi
        exact ⟨i, rfl⟩
    · exact hm he
  · next e hl =>
    refine ⟨hf, fun he => ?_⟩
    obtain ⟨i, hi⟩ := hm he
    cases hl.symm.trans hi

theorem Genuine.step (h : Genuine clients s) (hst : Network.Step clients s t) :
    Genuine clients t := by
  cases hst with
  | send i =>
    refine ⟨fun d hd => ?_, h.sound⟩
    rcases List.mem_cons.mp hd with rfl | hd
    · exact ⟨i, rfl⟩
    · exact h.flying d hd
  | carry hc => exact ⟨fun d hd => h.flying d (hc.mem hd), h.sound⟩
  | receive hf hd =>
    obtain ⟨i, rfl⟩ := h.flying _ hd
    refine .print (fun d hd => h.flying d (List.mem_of_mem_erase hd))
      (fun he => ⟨(h.sound he).1, (h.sound he).2.1⟩) (fun _ => ⟨i, ?_⟩)
    rw [Client.datagram, Msg.fill_bytes, Record.line_encode]
  | interrupted hf =>
    refine .print h.flying (fun he => ?_) (fun he => ?_)
    · have hs := h.sound (Bool.or_eq_false_iff.mp he).1
      exact ⟨hs.1, hs.2.1⟩
    · obtain ⟨he, hne⟩ := Bool.or_eq_false_iff.mp he
      exact (h.sound he).2.2 (by simpa using hne)

end Udp

end Socket

end Apue
