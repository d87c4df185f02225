import FlowGraph.Expr
import FlowGraph.Store

/-!
# Evaluation

An expression is evaluated against a store, which it never changes. The number of arguments is
checked first, then the left argument is evaluated, then the right one, and only then is the
operator symbol looked up; the first fault met this way is the result. Arithmetic is exact: an
integer that is no word is a fault, and a zero divisor is reported as such.

`Expr.trace` lists the applications that succeed during an evaluation, inner ones first.
-/

namespace FlowGraph

namespace Arithmetic

/-- The word that an operation gives, none if the result is no word. -/
def checked : Arithmetic → Word → Word → Option Word
  | add, l, r => Word.ofInt? (l.toInt + r.toInt)
  | sub, l, r => Word.ofInt? (l.toInt - r.toInt)
  | mul, l, r => Word.ofInt? (l.toInt * r.toInt)
  | div, l, r => if r = 0 then none else Word.ofInt? (l.toInt.tdiv r.toInt)

def apply (a : Arithmetic) (l r : Word) : Except Fault Word :=
  if a = .div ∧ r = 0 then .error .divisionByZero
  else
    match a.checked l r with
    | some w => .ok w
    | none => .error (.overflow a l r)

end Arithmetic

namespace Operator

def applyWords (l r : Word) : Operator → Except Fault Value
  | compare c => .ok (.bool (c.test l r))
  | arith a => (a.apply l r).map .int

/-- Applies an operator to two values, which have to be integers. -/
def apply (o : Operator) : Value → Value → Except Fault Value
  | .int l, .int r => o.applyWords l r
  | l, r => .error (.nonIntOperands o l.kind r.kind)

def resolve (symbol : String) : Except Fault Operator :=
  match ofSymbol? symbol with
  | some o => .ok o
  | none => .error (.unsupportedOperation symbol)

end Operator

structure Reduction where
  left : Value
  op : Operator
  right : Value
  result : Value
deriving DecidableEq, Repr

namespace Reduction

def text (r : Reduction) : String :=
  r.left.text ++ " " ++ r.op.symbol ++ " " ++ r.right.text ++ " = " ++ r.result.text

/-- The reduction of two arguments with these outcomes, none if a fault stands in the way. -/
def ofOutcomes (symbol : String) : Except Fault Value → Except Fault Value → List Reduction
  | .ok l, .ok r =>
    match Operator.ofSymbol? symbol with
    | none => []
    | some o =>
      match o.apply l r with
      | .ok v => [⟨l, o, r, v⟩]
      | .error _ => []
  | _, _ => []

end Reduction

namespace Expr

/-- The value of an expression in a store, or the first fault met on the way. -/
def eval (s : Store) : Expr → Except Fault Value
  | const w => .ok (.int w)
  | var x => (s.read x).map .int
  | app symbol [l, r] => do
    let lv ← l.eval s
    let rv ← r.eval s
    let o ← Operator.resolve symbol
    o.apply lv rv
  | app symbol args => .error (.argumentCount symbol args.length)

/-- The reductions performed by an evaluation, in order, up to its first fault. -/
def trace (s : Store) : Expr → List Reduction
  | app symbol [l, r] =>
    l.trace s ++ (if (l.eval s).isOk then r.trace s else []) ++
      Reduction.ofOutcomes symbol (l.eval s) (r.eval s)
  | _ => []

@[simp] theorem eval_const (s : Store) (w : Word) : (const w).eval s = .ok (.int w) := rfl

@[simp] theorem eval_var (s : Store) (x : Var) : (var x).eval s = (s.read x).map .int := rfl

theorem eval_binary (s : Store) (symbol : String) (l r : Expr) :
    (binary symbol l r).eval s =
      l.eval s >>= fun lv => r.eval s >>= fun rv =>
        Operator.resolve symbol >>= fun o => o.apply lv rv := rfl

/-- Without exactly two arguments nothing is evaluated. -/
theorem eval_app (s : Store) (symbol : String) {args : List Expr} (h : args.length ≠ 2) :
    (app symbol args).eval s = .error (.argumentCount symbol args.length) := by
  match args, h with
  | [], _ => rfl
  | [_], _ => rfl
  | _ :: _ :: _ :: _, _ => rfl

theorem trace_app (s : Store) (symbol : String) {args : List Expr} (h : args.length ≠ 2) :
    (app symbol args).trace s = [] := by
  match args, h with
  | [], _ => rfl
  | [_], _ => rfl
  | _ :: _ :: _ :: _, _ => rfl

end Expr

end FlowGraph
