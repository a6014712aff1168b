import Apue.Decimal
import Apue.HttpClient
import Apue.OptionLocals

namespace Apue.HttpClient
set_option autoImplicit true
open Getopt OptionLocals

open scoped List

/-- The results of fprintf, fflush, fputc and fclose are ignored: they only decide what of the
request and the body gets through. -/
structure Env where
  socket : Bool
  inetPton : Word → Option UInt32
  connects : UInt32 → Nat → Bool
  fdopen : Bool
  sends : List Char → List Char
  sends_prefix : ∀ text, sends text <+: text
  /-- What fgetc gives until its EOF, which is the end of the reply or an error. -/
  reply : UInt32 → Nat → List Char → List UInt8
  opens : Word → Bool
  stores : List UInt8 → List UInt8
  stores_sublist : ∀ body, stores body <+ body

/-- The calls that are looked at succeed. -/
structure Env.Serves (env : Env) (host : Word) (addr : UInt32) (port : Nat) (file : Word) :
    Prop where
  socket : env.socket = true
  inetPton : env.inetPton host = some addr
  connects : env.connects addr port = true
  fdopen : env.fdopen = true
  opens : env.opens file = true

/-- A run that has come to its exit, with the request and where it went, and the output file. -/
structure Run where
  status : Nat
  usage : Bool
  request : Option (UInt32 × Nat × List Char)
  file : Option (Word × List UInt8)

/-- The argument of htons is a uint16_t. -/
def portOf (port : Int) : Nat := (port % 65536).toNat

def requestText (uri : Word) : List Char :=
  "GET ".toList ++ uri ++ " HTTP/1.0\r\n\r\n".toList

/-- download on the strings that its pointers lead to, up to the exit in it. -/
def runDownload (env : Env) (host : List Char) (port : Int) (uri outPath : List Char) :
    Except Fault Run :=
  if !env.socket then .ok ⟨1, false, none, none⟩
  else do
    let host ← cString host
    match env.inetPton host with
    | none => return ⟨1, false, none, none⟩
    | some addr =>
      if !env.connects addr (portOf port) then return ⟨1, false, none, none⟩
      else if !env.fdopen then return ⟨1, false, none, none⟩
      else
        let uri ← cString uri
        let sent := env.sends (requestText uri)
        let outPath ← cString outPath
        if !env.opens outPath then return ⟨1, false, some (addr, portOf port, sent), none⟩
        else
          let stream := env.reply addr (portOf port) sent
          return ⟨0, false, some (addr, portOf port, sent),
            some (outPath, env.stores (download stream))⟩

/-- The optstring "h:p:u:o:". -/
def grammar : Grammar where
  ordering := .permute
  short := ['h', ':', 'p', ':', 'u', ':', 'o', ':']
  long := []
  no_dash := by decide

def switch : Switch where
  copies := ['h', 'p', 'u', 'o']
  flags := []
  disjoint _ _ := List.not_mem_nil

/-- main with the arguments behind argv[0]. -/
def main (env : Env) (mem : Leftover Char) (args : List Word) : Except Fault Run :=
  if args = [] then .ok ⟨0, true, none, none⟩
  else do
    let l ← switch.loop mem .start (grammar.scan none args)
    match l.value 'h', l.value 'p', l.value 'u', l.value 'o' with
    | some host, some port, some uri, some file =>
      let port ← atoi port
      runDownload env host port uri file
    | _, _, _, _ => return ⟨1, true, none, none⟩

theorem main_eq (env : Env) (mem : Leftover Char) (hne : args ≠ [])
    (hargs : ∀ w ∈ args, nul ∉ w) :
    main env mem args =
      match lastValue 'h' (grammar.scan none args), lastValue 'p' (grammar.scan none args),
        lastValue 'u' (grammar.scan none args), lastValue 'o' (grammar.scan none args) with
      | some host, some port, some uri, some file => do
        let port ← atoi (port ++ [nul])
        runDownload env (host ++ [nul]) port (uri ++ [nul]) (file ++ [nul])
      | _, _, _, _ => .ok ⟨1, true, none, none⟩ := by
  have hcopies : ∀ c ∈ switch.copies, takesArg grammar.short c = some true := by
    simp [switch, grammar, takesArg]
  obtain ⟨l, hloop, hvalue, -⟩ := switch.parse_eq grammar mem hcopies hargs
  rw [main, if_neg hne, hloop, ok_bind, hvalue 'h' (by decide), hvalue 'p' (by decide),
    hvalue 'u' (by decide), hvalue 'o' (by decide)]
  generalize lastValue 'h' (grammar.scan none args) = host
  generalize lastValue 'p' (grammar.scan none args) = port
  generalize lastValue 'u' (grammar.scan none args) = uri
  generalize lastValue 'o' (grammar.scan none args) = file
  cases host <;> cases port <;> cases uri <;> cases file <;> rfl

end Apue.HttpClient
