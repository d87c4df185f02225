import FlowGraph.Invocation
import FlowGraph.Sample

/-!
# Command line

Arguments choose a sample program, the constant that one of the samples returns, and the values
to run on. How they are written is left to a reader of arguments: it gives the settings to run with,
or it ends the program at once, as it does for arguments that cannot be used. Without values, the
first line of the standard input supplies them. `CommandLine.respond` is the whole program behind
the reader: what it prints, what it logs and its exit status.
-/

namespace FlowGraph

namespace CommandLine

structure Settings where
  sample : Sample
  constant : Word
  values : List Word
deriving DecidableEq, Repr

/-- What some of the arguments have settled. -/
structure Draft where
  sample : Option Sample := none
  constant : Option Word := none
  values : List Word := []
deriving DecidableEq, Repr

/-- Options left out get their defaults. -/
def Draft.settings (d : Draft) : Settings where
  sample := d.sample.getD .constant
  constant := d.constant.getD 777
  values := d.values

/-- What the arguments come to. -/
inductive Reading where
  | run (s : Settings)
  /-- The program ends with this status and standard output, and logs nothing. -/
  | exit (status : UInt8) (output : String)
deriving DecidableEq, Repr

/-- The bytes up to and including the first newline. -/
def firstLine : List UInt8 → List UInt8
  | [] => []
  | b :: bs => if b = 10 then [b] else b :: firstLine bs

/-- The first line of the input as text, if it is valid UTF-8. -/
def readLine (input : List UInt8) : Except Failure String :=
  match String.fromUTF8? (firstLine input).toByteArray with
  | some line => .ok line
  | none => .error .unreadable

/-- Runs the chosen sample on the positional values, or on the first line of the input if there
are none. -/
def execute (s : Settings) (input : List UInt8) (v : Verbosity) (fuel : Nat) : Option Report :=
  let P := s.sample.program s.constant
  if s.values = [] then
    match readLine input with
    | .ok line => P.runLine v fuel line
    | .error f => some ⟨.error f, []⟩
  else P.runValues v fuel s.values

structure Response where
  status : UInt8
  output : String
  log : List Event
deriving DecidableEq, Repr

/-- The response to a run: the result on standard output and status 0, or no output, a logged
failure and status 1. -/
def Response.ofReport (s : Settings) (v : Verbosity) (r : Report) : Response :=
  let P := s.sample.program s.constant
  let log := v.keep [.launched s.sample.title P.inputs] ++ r.log
  match r.outcome with
  | .ok w => ⟨0, w.text ++ "\n", log⟩
  | .error f => ⟨1, "", log ++ v.keep [.failed f.message]⟩

/-- The response to arguments, read by `read`, and standard input. -/
def respond (read : List String → Reading) (args : List String) (input : List UInt8)
    (v : Verbosity) (fuel : Nat) : Option Response :=
  match read args with
  | .run s => (execute s input v fuel).map (.ofReport s v)
  | .exit status output => some ⟨status, output, []⟩

end CommandLine

end FlowGraph
