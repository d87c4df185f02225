import FlowGraph.Text.Numeral

/-!
# Values

Evaluating an expression gives an integer or a boolean. Only integers are stored or returned;
booleans come from comparisons and steer branches.
-/

namespace FlowGraph

inductive Kind where
  | int
  | bool
deriving DecidableEq, Repr

def Kind.text : Kind → String
  | int => "int"
  | bool => "bool"

/-- What an expression evaluates to. -/
inductive Value where
  | int (w : Word)
  | bool (b : Bool)
deriving DecidableEq, Repr

namespace Value

def kind : Value → Kind
  | int _ => .int
  | bool _ => .bool

def int? : Value → Option Word
  | int w => some w
  | bool _ => none

def bool? : Value → Option Bool
  | int _ => none
  | bool b => some b

/-- An integer is written in decimal, a boolean as `true` or `false`. -/
def text : Value → String
  | int w => w.text
  | bool true => "true"
  | bool false => "false"

@[simp] theorem kind_int (w : Word) : (int w).kind = .int := rfl

@[simp] theorem kind_bool (b : Bool) : (bool b).kind = .bool := rfl

@[simp] theorem int?_int (w : Word) : (int w).int? = some w := rfl

@[simp] theorem int?_bool (b : Bool) : (bool b).int? = none := rfl

@[simp] theorem bool?_int (w : Word) : (int w).bool? = none := rfl

@[simp] theorem bool?_bool (b : Bool) : (bool b).bool? = some b := rfl

end Value

end FlowGraph
