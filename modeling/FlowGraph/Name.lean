import FlowGraph.Text.Numeral
import Std.Data.TreeMap

/-!
# Variables and labels

A variable is known by its name, which may be any text. A block is known by its label, a number
or a text: the number `1` and the text `1` are written alike and are different labels. Both types
carry a lawful order, so that they can be keys of a search tree.
-/

namespace FlowGraph

/-- A variable, known by its name. -/
structure Var where
  name : String
deriving DecidableEq, Repr

namespace Var

instance : Coe String Var := ⟨Var.mk⟩

/-- Variables are ordered by the code points of their names. -/
instance : Ord Var := ⟨compareOn Var.name⟩

instance : Std.TransOrd Var :=
  inferInstanceAs (Std.TransCmp (compareOn Var.name))

instance : Std.LawfulEqOrd Var where
  eq_of_compare {x y} h := by
    cases x
    cases y
    exact congrArg Var.mk (Std.LawfulEqOrd.eq_of_compare h)

end Var

/-- The label of a block, opaque apart from equality. -/
inductive Label where
  | num (n : Word)
  | text (s : String)
deriving DecidableEq, Repr

namespace Label

/-- The text of a label, the same for a number and for its decimal text. -/
def render : Label → String
  | num n => n.text
  | text s => s

/-- Numbers come before texts. -/
def order : Label → Label → Ordering
  | num m, num n => compare m n
  | num _, text _ => .lt
  | text _, num _ => .gt
  | text s, text t => compare s t

instance : Ord Label := ⟨order⟩

theorem compare_eq_order (a b : Label) : compare a b = order a b := rfl

instance : Std.TransOrd Label where
  eq_swap {a b} := by
    cases a <;> cases b <;> simp only [compare_eq_order, order, Ordering.swap] <;>
      exact Std.OrientedOrd.eq_swap
  isLE_trans {a b c} hab hbc := by
    cases a <;> cases b <;> cases c <;> simp_all [compare_eq_order, order] <;>
      exact Std.TransOrd.isLE_trans hab hbc

instance : Std.LawfulEqOrd Label where
  eq_of_compare {a b} h := by
    cases a <;> cases b <;> simp_all [compare_eq_order, order]

end Label

end FlowGraph
