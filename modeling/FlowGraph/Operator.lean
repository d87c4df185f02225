import FlowGraph.Word

/-!
# Operators

Five comparisons and four arithmetic operations, each known by its symbol. An expression carries
the symbol as written; `Operator.ofSymbol?` finds the operator when the expression is evaluated.
-/

namespace FlowGraph

inductive Comparison where
  | eq
  | lt
  | le
  | gt
  | ge
deriving DecidableEq, Repr

inductive Arithmetic where
  | add
  | sub
  | mul
  | div
deriving DecidableEq, Repr

inductive Operator where
  | compare (c : Comparison)
  | arith (a : Arithmetic)
deriving DecidableEq, Repr

namespace Comparison

def symbol : Comparison → String
  | eq => "="
  | lt => "<"
  | le => "<="
  | gt => ">"
  | ge => ">="

/-- Whether the comparison holds between two words. -/
def test : Comparison → Word → Word → Bool
  | eq, l, r => l == r
  | lt, l, r => decide (l < r)
  | le, l, r => decide (l ≤ r)
  | gt, l, r => decide (r < l)
  | ge, l, r => decide (r ≤ l)

def Holds : Comparison → Int → Int → Prop
  | eq, l, r => l = r
  | lt, l, r => l < r
  | le, l, r => l ≤ r
  | gt, l, r => r < l
  | ge, l, r => r ≤ l

instance (c : Comparison) (l r : Int) : Decidable (c.Holds l r) :=
  match c with
  | eq => inferInstanceAs (Decidable (l = r))
  | lt => inferInstanceAs (Decidable (l < r))
  | le => inferInstanceAs (Decidable (l ≤ r))
  | gt => inferInstanceAs (Decidable (r < l))
  | ge => inferInstanceAs (Decidable (r ≤ l))

/-- Words compare as the integers they stand for. -/
theorem test_iff (c : Comparison) (l r : Word) :
    c.test l r = true ↔ c.Holds l.toInt r.toInt := by
  cases c <;> simp [test, Holds, Int64.lt_iff_toInt_lt, Int64.le_iff_toInt_le, Int64.toInt_inj]

end Comparison

namespace Arithmetic

def symbol : Arithmetic → String
  | add => "+"
  | sub => "-"
  | mul => "*"
  | div => "/"

end Arithmetic

namespace Operator

def symbol : Operator → String
  | compare c => c.symbol
  | arith a => a.symbol

def ofSymbol? : String → Option Operator
  | "=" => some (compare .eq)
  | "<" => some (compare .lt)
  | "<=" => some (compare .le)
  | ">" => some (compare .gt)
  | ">=" => some (compare .ge)
  | "+" => some (arith .add)
  | "-" => some (arith .sub)
  | "*" => some (arith .mul)
  | "/" => some (arith .div)
  | _ => none

@[simp] theorem ofSymbol?_symbol (o : Operator) : ofSymbol? o.symbol = some o := by
  rcases o with c | a
  · cases c <;> rfl
  · cases a <;> rfl

theorem ofSymbol?_eq_some_iff {s : String} {o : Operator} :
    ofSymbol? s = some o ↔ s = o.symbol := by
  constructor
  · unfold ofSymbol?
    split <;> rintro ⟨⟩ <;> rfl
  · rintro rfl
    exact ofSymbol?_symbol o

end Operator

end FlowGraph
