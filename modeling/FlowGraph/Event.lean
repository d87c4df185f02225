import FlowGraph.Block
import FlowGraph.Eval
import FlowGraph.Text.Terminal

/-!
# Events

What a run reports while it goes on. Every event has a level, a source and a text. How much of
it is recorded is a `Verbosity`: nothing, or everything up to some level.
-/

namespace FlowGraph

/-- How much an event matters, from the most severe level to the most detailed one. -/
inductive Level where
  | error
  | warn
  | info
  | debug
  | trace
deriving DecidableEq, Repr

namespace Level

/-- The more detailed the level, the higher its rank. -/
def rank : Level → Nat
  | error => 0
  | warn => 1
  | info => 2
  | debug => 3
  | trace => 4

def text : Level → String
  | error => "ERROR"
  | warn => "WARN"
  | info => "INFO"
  | debug => "DEBUG"
  | trace => "TRACE"

end Level

inductive Verbosity where
  | off
  | upTo (l : Level)
deriving DecidableEq, Repr

namespace Verbosity

def admits : Verbosity → Level → Bool
  | off, _ => false
  | upTo l, k => k.rank ≤ l.rank

def ofName? : String → Option Verbosity
  | "off" => some off
  | "error" => some (upTo .error)
  | "warn" => some (upTo .warn)
  | "info" => some (upTo .info)
  | "debug" => some (upTo .debug)
  | "trace" => some (upTo .trace)
  | _ => none

end Verbosity

inductive Event where
  /-- A named program with these inputs is about to run. -/
  | launched (title : String) (inputs : List Var)
  /-- The number of values differs from the number of declared inputs. -/
  | countMismatch (declared supplied : Nat)
  /-- A run starts at the block `entry` with this many bound variables. -/
  | started (entry : Label) (bound : Nat)
  | entered (block : Label)
  /-- An operator has been applied. -/
  | reduced (r : Reduction)
  /-- A variable is about to be bound. -/
  | assigned (x : Var) (w : Word)
  /-- A jump is about to be carried out. -/
  | jumping (j : Jump)
  /-- A block returned, with the counter of blocks at this value. -/
  | returned (w : Word) (steps : UInt64)
  /-- A run on positional values has this result. -/
  | concluded (w : Word)
  /-- No result was reached, for this reason. -/
  | failed (reason : String)
deriving DecidableEq, Repr

namespace Event

/-- The level of an event. -/
def level : Event → Level
  | failed _ => .error
  | countMismatch _ _ => .warn
  | launched _ _ | started _ _ | returned _ _ | concluded _ => .info
  | entered _ | assigned _ _ | jumping _ => .debug
  | reduced _ => .trace

/-- The part of the program that an event is attributed to in a log line. -/
def source : Event → String
  | launched _ _ | failed _ => "blockcrab"
  | countMismatch _ _ | concluded _ => "blockcrab::runner"
  | started _ _ | entered _ | assigned _ _ | jumping _ | returned _ _ =>
    "blockcrab::interpreter::block"
  | reduced _ => "blockcrab::interpreter::expr"

/-- The list of inputs as it stands in the text of `launched`. -/
def inputList (inputs : List Var) : String :=
  "[" ++ String.intercalate ", " (inputs.map fun x => "Var(\"" ++ x.name ++ "\")") ++ "]"

def message : Event → String
  | launched title inputs => "Running " ++ title ++ " program with inputs " ++ inputList inputs
  | countMismatch n m =>
    "Program declares " ++ Numeral.write n ++ " inputs but " ++ Numeral.write m ++
      " values were supplied"
  | started l n =>
    "Starting interpretation at block " ++ l.render ++ " with " ++ Numeral.write n ++
      " bound variables"
  | entered l => "Executing block " ++ l.render
  | reduced r => r.text
  | assigned x w => "Assigning " ++ w.text ++ " to " ++ x.name
  | jumping j => "Executing jump: " ++ j.text
  | returned w n =>
    "Program returned " ++ w.text ++ " after executing " ++ Numeral.write n.toNat ++ " blocks"
  | concluded w => "Program result: " ++ w.text
  | failed reason => "Interpretation failed: " ++ reason

/-- An event as one line of a log, safe to show on a terminal. -/
def line (e : Event) : String :=
  e.level.text ++ " " ++ e.source ++ ": " ++ Terminal.escape e.message

end Event

def Verbosity.keep (v : Verbosity) (es : List Event) : List Event :=
  es.filter fun e => v.admits e.level

end FlowGraph
