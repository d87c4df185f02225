import FlowGraph.Machine
import FlowGraph.Text.Blank

/-!
# Invocation with positional values

A program is invoked with a list of words, bound to its declared inputs in order, or with a line
of text that holds such a list. Values beyond the inputs are dropped and missing ones leave their
inputs unbound; a difference in number is only reported.
-/

namespace FlowGraph

/-- Why an invocation gives no result. -/
inductive Failure where
  /-- A word of the line is not the numeral of a machine word. -/
  | badNumeral (token : String) (reason : Numeral.Malformed)
  | execution (f : Fault)
  | unreadable
deriving DecidableEq, Repr

namespace Failure

def context : Failure → String
  | badNumeral token _ => "Invalid integer argument '" ++ token ++ "'"
  | execution _ => "Program execution failed"
  | unreadable => "Failed to read input values"

def cause : Failure → String
  | badNumeral _ reason => reason.message
  | execution f => f.message
  | unreadable => "stream did not contain valid UTF-8"

def message (f : Failure) : String :=
  f.context ++ ": " ++ f.cause

end Failure

/-- Reads numerals in order, up to the first that is malformed. -/
def readNumerals : List String → Except Failure (List Word)
  | [] => .ok []
  | token :: tokens =>
    match Numeral.read token with
    | .error reason => .error (.badNumeral token reason)
    | .ok w => (readNumerals tokens).map (w :: ·)

def readValues (line : String) : Except Failure (List Word) :=
  readNumerals (words line)

structure Report where
  outcome : Except Failure Word
  log : List Event

namespace Program

/-- The store that binds the declared inputs to values in order, as far as both go. -/
def bind (P : Program) (values : List Word) : Store :=
  .ofList (P.inputs.zip values)

/-- The event that reports a difference in number between inputs and values. -/
def countCheck (P : Program) (values : List Word) : List Event :=
  if P.inputs.length = values.length then []
  else [.countMismatch P.inputs.length values.length]

/-- Runs a program on positional values. -/
def runValues (P : Program) (v : Verbosity) (fuel : Nat) (values : List Word) : Option Report := do
  let r ← P.run v fuel (P.bind values)
  let log := v.keep (P.countCheck values) ++ r.log
  match r.outcome with
  | .ok w => return ⟨.ok w, log ++ v.keep [.concluded w]⟩
  | .error f => return ⟨.error (.execution f), log⟩

def runLine (P : Program) (v : Verbosity) (fuel : Nat) (line : String) : Option Report :=
  match readValues line with
  | .ok values => P.runValues v fuel values
  | .error f => some ⟨.error f, []⟩

end Program

end FlowGraph
