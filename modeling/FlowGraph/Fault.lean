import FlowGraph.Name
import FlowGraph.Operator
import FlowGraph.Value

/-!
# Faults

The causes that end a run without a result, each with what it concerns. `Fault.message` holds the
wording of all of them.
-/

namespace FlowGraph

/-- Why a run ends without a result. -/
inductive Fault where
  /-- No block carries the label that a jump selects. -/
  | undefinedLabel (l : Label)
  /-- A variable is read before it is bound. -/
  | unboundVariable (x : Var)
  | boolAssignment (x : Var)
  /-- A branch is steered by a value of this kind. -/
  | nonBoolCondition (k : Kind)
  /-- A value of this kind is returned. -/
  | nonIntReturn (k : Kind)
  /-- An operator is applied to values of these kinds, not both integers. -/
  | nonIntOperands (o : Operator) (l r : Kind)
  | unsupportedOperation (symbol : String)
  /-- An operator is applied to a number of arguments other than two. -/
  | argumentCount (symbol : String) (found : Nat)
  | divisionByZero
  | overflow (a : Arithmetic) (l r : Word)
  /-- A machine that failed earlier is run again. -/
  | noReturn
deriving DecidableEq, Repr

namespace Fault

/-- The text of a fault. Names stand in it as they are, between back quotes. -/
def message : Fault → String
  | undefinedLabel l => "undefined label `" ++ l.render ++ "`"
  | unboundVariable x => "unbound variable read: `" ++ x.name ++ "`"
  | boolAssignment x => "boolean value cannot be stored in variable `" ++ x.name ++ "`"
  | nonBoolCondition k => "branch condition must be boolean, found " ++ k.text
  | nonIntReturn k => "return value must be integer, found " ++ k.text
  | nonIntOperands o l r =>
    "operands of `" ++ o.symbol ++ "` must be integers, found " ++ l.text ++ " and " ++ r.text
  | unsupportedOperation s => "unsupported operation `" ++ s ++ "`"
  | argumentCount s n =>
    "operation `" ++ s ++ "` must have exactly two arguments, found " ++ Numeral.write n
  | divisionByZero => "division by zero"
  | overflow a l r =>
    "integer overflow in `" ++ l.text ++ " " ++ a.symbol ++ " " ++ r.text ++ "`"
  | noReturn => "program terminated without reaching a return"

end Fault

end FlowGraph
