import FlowGraph.Arguments

/-!
# The executable

Reads the arguments, the environment and, when there are no values among the arguments, one line
of the standard input; prints the result on the standard output and the log on the standard
error.
-/

namespace FlowGraph

/-- No run goes through this many blocks. -/
def blockLimit : Nat := 1 <<< 62

partial def readLineBytes (h : IO.FS.Stream) (bytes : Array UInt8) : IO (List UInt8) := do
  match (← h.read 1).toList with
  | [] => return bytes.toList
  | b :: _ => if b = 10 then return (bytes.push b).toList else readLineBytes h (bytes.push b)

/-- The bytes that the arguments make the program read. -/
def inputFor (args : List String) : IO (List UInt8) := do
  match CommandLine.readArguments args with
  | .run s => if s.values.isEmpty then readLineBytes (← IO.getStdin) #[] else return []
  | .exit _ _ => return []

def verbosity : IO Verbosity := do
  let name := (← IO.getEnv "BLOCKCRAB_LOG").getD "info"
  return (Verbosity.ofName? name).getD .off

end FlowGraph

open FlowGraph in
def main (args : List String) : IO UInt32 := do
  let input ← inputFor args
  match CommandLine.respond CommandLine.readArguments args input (← verbosity) blockLimit with
  | none => return 1
  | some r =>
    for e in r.log do
      IO.eprintln e.line
    IO.print r.output
    return r.status.toUInt32
