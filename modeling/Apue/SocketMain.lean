import Apue.OptionLocals
import Apue.Socket

namespace Apue.Socket
set_option autoImplicit true
open Getopt OptionLocals

open scoped List

namespace Tcp

/-- The optstring "sch:". -/
def grammar : Grammar where
  ordering := .permute
  short := ['s', 'c', 'h', ':']
  long := []
  no_dash := by decide

def switch : Switch where
  copies := ['h']
  flags := ['s', 'c']
  disjoint := by simp

/-- What main of `socket_tcp.c` goes on with. -/
inductive Role where
  | usage
  | server
  | client (host : Word)
  deriving DecidableEq, Repr

/-- main with the arguments behind argv[0], up to the first use of host in client. -/
def main (mem : Leftover Char) (args : List Word) : Except Fault Role :=
  if args = [] then .ok .usage
  else do
    let l ← switch.loop mem .start (grammar.scan none args)
    if l.flag 's' then return .server
    else
      match l.value 'h' with
      -- inet_pton(AF_INET, NULL, ..)
      | none => .error .null
      | some host => return .client (← cString host)

/-- What the options ask for: -s, and the argument of -h. -/
def role (s : Bool) (host : Option Word) : Except Fault Role :=
  match s, host with
  | true, _ => .ok .server
  | false, none => .error .null
  | false, some host => .ok (.client host)

end Tcp

namespace Udp

/-- The optstring "sch:i:". -/
def grammar : Grammar where
  ordering := .permute
  short := ['s', 'c', 'h', ':', 'i', ':']
  long := []
  no_dash := by decide

def switch : Switch where
  copies := ['h', 'i']
  flags := ['s', 'c']
  disjoint := by simp

/-- What main of `socket_udp.c` goes on with, with the multicast group and its interface. -/
inductive Role where
  | usage
  /-- exit(1) for a multicast group without an interface -/
  | noIface
  | server (group : Option (Word × Word))
  | client (host : Word) (group : Option (Word × Word))
  deriving DecidableEq, Repr

def anyHost : Word := ['0', '.', '0', '.', '0', '.', '0']

/-- strncmp(host, "224", 3) == 0 on the string with its NUL. -/
def isMulticast (host : List Char) : Bool := host.take 3 = ['2', '2', '4']

/-- The part of server and client that joins a multicast group: none where it exits. -/
def joinGroup (host : List Char) (iface : Option (List Char)) :
    Except Fault (Option (Option (Word × Word))) :=
  if isMulticast host then
    match iface with
    | none => .ok none
    | some iface => do return some (some (← cString host, ← cString iface))
  else .ok (some none)

def startServer (host iface : Option (List Char)) : Except Fault Role := do
  match ← joinGroup (host.getD (anyHost ++ [nul])) iface with
  | none => return .noIface
  | some group => return .server group

def startClient (host iface : Option (List Char)) : Except Fault Role :=
  match host with
  -- strncmp(NULL, "224", 3)
  | none => .error .null
  | some host => do
    match ← joinGroup host iface with
    | none => return .noIface
    | some group => return .client (← cString host) group

def main (mem : Leftover Char) (args : List Word) : Except Fault Role :=
  if args = [] then .ok .usage
  else do
    let l ← switch.loop mem .start (grammar.scan none args)
    if l.flag 's' then startServer (l.value 'h') (l.value 'i')
    else startClient (l.value 'h') (l.value 'i')

/-- The group that a host stands for, and its interface: none where it has no interface. -/
def groupOf (host : Word) (iface : Option Word) : Option (Option (Word × Word)) :=
  if ['2', '2', '4'].isPrefixOf host then iface.map fun i => some (host, i) else some none

/-- What the options ask for: -s, and the arguments of -h and -i. -/
def role (s : Bool) (host iface : Option Word) : Except Fault Role :=
  match s, host with
  | true, host => .ok ((groupOf (host.getD anyHost) iface).elim .noIface .server)
  | false, none => .error .null
  | false, some host => .ok ((groupOf host iface).elim .noIface (.client host))

theorem isMulticast_iff (host : Word) :
    isMulticast (host ++ [nul]) = ['2', '2', '4'].isPrefixOf host := by
  rw [isMulticast, Bool.eq_iff_iff, decide_eq_true_iff, List.isPrefixOf_iff_prefix]
  have hne : ['2', '2', '4'] ≠ host ++ [nul] := by
    intro h
    have hlast := congrArg List.getLast? h
    rw [List.getLast?_concat] at hlast
    cases hlast
  calc (host ++ [nul]).take 3 = ['2', '2', '4']
    _ ↔ ['2', '2', '4'] <+: host ++ [nul] := eq_comm.trans List.prefix_iff_eq_take.symm
    _ ↔ ['2', '2', '4'] <+: host := by rw [List.prefix_concat_iff, or_iff_right hne]

theorem joinGroup_eq {host : Word} {iface : Option Word} (hhost : nul ∉ host)
    (hiface : ∀ i ∈ iface, nul ∉ i) :
    joinGroup (host ++ [nul]) (iface.map (· ++ [nul])) = .ok (groupOf host iface) := by
  unfold joinGroup groupOf
  rw [isMulticast_iff]
  split
  · cases iface with
    | none => rfl
    | some i =>
      simp only [Option.map_some, cString_nul hhost, cString_nul (hiface i rfl), ok_bind]
      rfl
  · rfl

theorem startServer_eq {host iface : Option Word} (hhost : ∀ h ∈ host, nul ∉ h)
    (hiface : ∀ i ∈ iface, nul ∉ i) :
    startServer (host.map (· ++ [nul])) (iface.map (· ++ [nul])) = role true host iface := by
  have hget : (host.map (· ++ [nul])).getD (anyHost ++ [nul]) = host.getD anyHost ++ [nul] := by
    cases host with
    | none => rfl
    | some h => rfl
  have hnul : nul ∉ host.getD anyHost := by
    cases host with
    | none => decide
    | some h => exact hhost h rfl
  rw [startServer, hget, joinGroup_eq hnul hiface, ok_bind, role]
  cases groupOf (host.getD anyHost) iface with
  | none => rfl
  | some group => rfl

theorem startClient_eq {host iface : Option Word} (hhost : ∀ h ∈ host, nul ∉ h)
    (hiface : ∀ i ∈ iface, nul ∉ i) :
    startClient (host.map (· ++ [nul])) (iface.map (· ++ [nul])) = role false host iface := by
  cases host with
  | none => rfl
  | some h =>
    rw [Option.map_some, startClient, joinGroup_eq (hhost h rfl) hiface, ok_bind,
      cString_nul (hhost h rfl), role]
    cases groupOf h iface with
    | none => rfl
    | some group => rfl

end Udp

theorem Tcp.main_eq (mem : Leftover Char) (hne : args ≠ []) (hargs : ∀ w ∈ args, nul ∉ w) :
    Tcp.main mem args = Tcp.role ((Tcp.grammar.scan none args).any (·.names 's'))
      (lastValue 'h' (Tcp.grammar.scan none args)) := by
  have hcopies : ∀ c ∈ Tcp.switch.copies, takesArg Tcp.grammar.short c = some true := by
    simp [Tcp.switch, Tcp.grammar, takesArg]
  obtain ⟨l, hloop, hvalue, hflag⟩ := Tcp.switch.parse_eq Tcp.grammar mem hcopies hargs
  rw [Tcp.main, if_neg hne, hloop, ok_bind, hflag 's' (by decide), hvalue 'h' (by decide)]
  cases (Tcp.grammar.scan none args).any (·.names 's') with
  | true => rfl
  | false =>
    cases hh : lastValue 'h' (Tcp.grammar.scan none args) with
    | none => rfl
    | some host =>
      simp only [Option.map_some, cString_nul (nul_notMem_lastValue hargs hh), ok_bind]
      rfl

theorem Udp.main_eq (mem : Leftover Char) (hne : args ≠ []) (hargs : ∀ w ∈ args, nul ∉ w) :
    Udp.main mem args = Udp.role ((Udp.grammar.scan none args).any (·.names 's'))
      (lastValue 'h' (Udp.grammar.scan none args))
      (lastValue 'i' (Udp.grammar.scan none args)) := by
  have hcopies : ∀ c ∈ Udp.switch.copies, takesArg Udp.grammar.short c = some true := by
    simp [Udp.switch, Udp.grammar, takesArg]
  obtain ⟨l, hloop, hvalue, hflag⟩ := Udp.switch.parse_eq Udp.grammar mem hcopies hargs
  have hiface : ∀ i ∈ lastValue 'i' (Udp.grammar.scan none args), nul ∉ i :=
    fun i hi => nul_notMem_lastValue hargs hi
  have hhost : ∀ h ∈ lastValue 'h' (Udp.grammar.scan none args), nul ∉ h :=
    fun h hh => nul_notMem_lastValue hargs hh
  rw [Udp.main, if_neg hne, hloop, ok_bind, hflag 's' (by decide), hvalue 'h' (by decide),
    hvalue 'i' (by decide), Udp.startServer_eq hhost hiface, Udp.startClient_eq hhost hiface]
  cases (Udp.grammar.scan none args).any (·.names 's') with
  | true => rfl
  | false => rfl

end Apue.Socket
