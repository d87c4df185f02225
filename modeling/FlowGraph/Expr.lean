import FlowGraph.Name

/-!
# Expressions

An expression is a constant, a variable or the application of an operator symbol to a list of
arguments. Neither the symbol nor the number of arguments is restricted here: evaluation decides
what they mean. Two arguments are written in infix form between parentheses, any other number
as a call.
-/

namespace FlowGraph

inductive Expr where
  | const (w : Word)
  | var (x : Var)
  | app (symbol : String) (args : List Expr)
deriving Repr

namespace Expr

instance : Inhabited Expr := ⟨const 0⟩

/-- The application of an operator symbol to two arguments. -/
@[match_pattern] abbrev binary (symbol : String) (l r : Expr) : Expr :=
  app symbol [l, r]

mutual

/-- Equality of expressions is decided along their structure. -/
def decEq : (e f : Expr) → Decidable (e = f)
  | const v, const w =>
    if h : v = w then isTrue (h ▸ rfl) else isFalse fun e => h (by cases e; rfl)
  | var x, var y =>
    if h : x = y then isTrue (h ▸ rfl) else isFalse fun e => h (by cases e; rfl)
  | app s as, app t bs =>
    if h : s = t then
      match decEqList as bs with
      | isTrue hs => isTrue (h ▸ hs ▸ rfl)
      | isFalse hs => isFalse fun e => hs (by cases e; rfl)
    else isFalse fun e => h (by cases e; rfl)
  | const _, var _ | const _, app _ _ | var _, const _ | var _, app _ _ | app _ _, const _
  | app _ _, var _ => isFalse nofun

def decEqList : (es fs : List Expr) → Decidable (es = fs)
  | [], [] => isTrue rfl
  | e :: es, f :: fs =>
    match decEq e f with
    | isTrue h =>
      match decEqList es fs with
      | isTrue hs => isTrue (h ▸ hs ▸ rfl)
      | isFalse hs => isFalse fun h => hs (by cases h; rfl)
    | isFalse h => isFalse fun hs => h (by cases hs; rfl)
  | [], _ :: _ | _ :: _, [] => isFalse nofun

end

instance : DecidableEq Expr := decEq

mutual

def text : Expr → String
  | const w => w.text
  | var x => x.name
  | app s [l, r] => "(" ++ l.text ++ " " ++ s ++ " " ++ r.text ++ ")"
  | app s args => s ++ "(" ++ textList args ++ ")"

def textList : List Expr → String
  | [] => ""
  | [e] => e.text
  | e :: es => e.text ++ ", " ++ textList es

end

end Expr

end FlowGraph
