import FlowGraph.Expr

/-!
# Blocks

A block runs its assignments in order and leaves through one jump: to a label, to one of two
labels, or out of the program with a result.
-/

namespace FlowGraph

structure Assignment where
  target : Var
  value : Expr
deriving DecidableEq, Repr

def Assignment.text (a : Assignment) : String :=
  a.target.name ++ " := " ++ a.value.text

/-- How control leaves a block. -/
inductive Jump where
  /-- To the block with this label. -/
  | goto (l : Label)
  /-- To `yes` if the condition is true and to `no` if it is false. -/
  | branch (condition : Expr) (yes no : Label)
  /-- Out of the program, with the value of the expression as the result. -/
  | ret (e : Expr)
deriving DecidableEq, Repr

namespace Jump

def text : Jump → String
  | goto l => "goto " ++ l.render
  | branch c yes no => "if " ++ c.text ++ " goto " ++ yes.render ++ " else goto " ++ no.render
  | ret e => "return " ++ e.text

def targets : Jump → List Label
  | goto l => [l]
  | branch _ yes no => [yes, no]
  | ret _ => []

def operand? : Jump → Option Expr
  | goto _ => none
  | branch c _ _ => some c
  | ret e => some e

end Jump

/-- Assignments followed by a jump, under a label. -/
structure Block where
  label : Label
  assigns : List Assignment
  jump : Jump
deriving DecidableEq, Repr

end FlowGraph
