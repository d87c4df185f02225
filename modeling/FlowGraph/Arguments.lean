import FlowGraph.CommandLine

/-!
# Arguments of the executable

The reader of arguments that the executable uses. Arguments are taken from left to right, and the
first that cannot be used, or that asks for information, ends the reading.
-/

namespace FlowGraph

namespace CommandLine

inductive Setting where
  | program
  | constant
deriving DecidableEq, Repr

/-- What a single argument is, seen by itself. -/
inductive Argument where
  /-- The end of the options: everything after it is a value. -/
  | terminator
  /-- An option with the value attached to it, if any. -/
  | setting (o : Setting) (attached : Option String)
  | version
  | help
  /-- A value, be it positional or of the option before it. -/
  | value (text : String)
  /-- Anything else that starts like an option. -/
  | unknown
deriving DecidableEq, Repr

namespace Argument

/-- Splits a long option at its first equality sign. -/
def splitLong (cs : List Char) : String × Option String :=
  match cs.dropWhile (· != '=') with
  | [] => (String.ofList cs, none)
  | _ :: rest => (String.ofList (cs.takeWhile (· != '=')), some (String.ofList rest))

/-- A long option, given by what follows the two dashes. -/
def ofLong (cs : List Char) : Argument :=
  match splitLong cs with
  | ("program", attached) => setting .program attached
  | ("constant", attached) => setting .constant attached
  | ("version", none) => version
  | ("help", none) => help
  | _ => unknown

def attachedShort : List Char → Option String
  | [] => none
  | '=' :: cs => some (String.ofList cs)
  | cs => some (String.ofList cs)

/-- A one-letter option, given by its letter and what follows it. -/
def ofShort : Char → List Char → Argument
  | 'p', cs => setting .program (attachedShort cs)
  | 'V', _ => version
  | 'h', _ => help
  | _, _ => unknown

/-- Classifies the characters of an argument. A dash followed by digits only is a negative
number, hence a value; so is a lone dash. -/
def ofChars : List Char → Argument
  | ['-', '-'] => terminator
  | '-' :: '-' :: cs => ofLong cs
  | '-' :: c :: cs =>
    if (c :: cs).all Char.isDigit then value (String.ofList ('-' :: c :: cs)) else ofShort c cs
  | cs => value (String.ofList cs)

def ofString (s : String) : Argument :=
  ofChars s.toList

end Argument

namespace Draft

/-- Sets an option to what a text says. An option is not set a second time. -/
def set (d : Draft) (o : Setting) (text : String) : Option Draft :=
  match o with
  | .program =>
    match d.sample with
    | some _ => none
    | none => (Sample.ofName? text).map fun p => { d with sample := some p }
  | .constant =>
    match d.constant with
    | some _ => none
    | none => (Numeral.read text).toOption.map fun w => { d with constant := some w }

def add (d : Draft) (text : String) : Option Draft :=
  (Numeral.read text).toOption.map fun w => { d with values := d.values ++ [w] }

def addAll (d : Draft) : List String → Option Draft
  | [] => some d
  | text :: texts => (d.add text).bind fun d => d.addAll texts

end Draft

namespace Reading

/-- The end of the program because of its arguments. -/
def misuse : Reading :=
  exit 2 ""

def version : Reading :=
  exit 0 "blockcrab 0.0.1\n"

/-- The text of the help is left out. -/
def help : Reading :=
  exit 0 ""

end Reading

/-- Reads the remaining arguments. An option without an attached value takes the next argument,
which has to be a value. -/
def readFrom (d : Draft) : List String → Reading
  | [] => .run d.settings
  | arg :: args =>
    match Argument.ofString arg with
    | .terminator =>
      match d.addAll args with
      | some d => .run d.settings
      | none => .misuse
    | .version => .version
    | .help => .help
    | .unknown => .misuse
    | .value text =>
      match d.add text with
      | some d => readFrom d args
      | none => .misuse
    | .setting o (some text) =>
      match d.set o text with
      | some d => readFrom d args
      | none => .misuse
    | .setting o none =>
      match args with
      | [] => .misuse
      | next :: args =>
        match Argument.ofString next with
        | .value text =>
          match d.set o text with
          | some d => readFrom d args
          | none => .misuse
        | _ => .misuse

def readArguments (args : List String) : Reading :=
  readFrom {} args

end CommandLine

end FlowGraph
