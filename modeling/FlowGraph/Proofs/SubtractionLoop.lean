import FlowGraph.Proofs.Route
import FlowGraph.Sample

/-!
# The subtraction loop

The sample for the greatest common divisor goes round a loop: it tests whether its two variables
are equal and, if they are not, subtracts the smaller from the larger. This file follows one round
of the loop, whichever variable is the larger one.
-/

namespace FlowGraph

namespace Euclid

/-- Leaves the loop if the two variables are equal. -/
def test : Block :=
  ⟨.num 1, [], .branch (.binary "=" (.var "x") (.var "y")) (.num 7) (.num 2)⟩

def order : Block :=
  ⟨.num 2, [], .branch (.binary "<" (.var "x") (.var "y")) (.num 5) (.num 3)⟩

/-- Subtracts `b` from `a` and goes back to the test. -/
def subtract (l : Label) (a b : Var) : Block :=
  ⟨l, [⟨a, .binary "-" (.var a) (.var b)⟩], .goto (.num 1)⟩

def last : Block :=
  ⟨.num 7, [], .ret (.var "x")⟩

lemma blocks_eq : Program.euclid.blocks =
    [test, order, subtract (.num 3) "x" "y", subtract (.num 5) "y" "x", last] := rfl

lemma start_eq (s : Store) : Machine.start .euclid s = ⟨s, .pending test, 0⟩ := rfl

/-- The two variables, in either order. -/
inductive Sides : Var → Var → Prop
  | xy : Sides "x" "y"
  | yx : Sides "y" "x"

variable {s : Store} {a b : Var} {m n w x y : Word} {k : Nat}

lemma Sides.symm (h : Sides a b) : Sides b a := by
  cases h with
  | xy => exact .yx
  | yx => exact .xy

lemma Sides.ne (h : Sides a b) : a ≠ b := by
  cases h <;> decide

lemma step_test_eq (hx : s.get? "x" = some x) (hy : s.get? "y" = some x) :
    Machine.step .euclid ⟨s, .pending test, k⟩ = ⟨s, .pending last, k + 1⟩ := by
  have hc : Evaluates s (.binary "=" (.var "x") (.var "y")) (.ok (.bool true)) :=
    .compare .eq (.bound hx) (.bound hy) (by simp [Comparison.Holds])
  exact step_eq_pending (.nil s) (.yes hc) (by simp [blocks_eq])

lemma step_last (hx : s.get? "x" = some x) :
    Machine.step .euclid ⟨s, .pending last, k⟩ = ⟨s, .returned x, k + 1⟩ := by
  have hl : Leaves .euclid s last.jump (.ok (.halt x)) := .halt (.bound hx)
  exact step_eq_of_exec (exec_eq_ok_iff.mpr ⟨.nil s, leaves_iff.mp hl⟩)

lemma step_test_ne (h : Sides a b) (ha : s.get? a = some m) (hb : s.get? b = some n)
    (hlt : n.toInt < m.toInt) :
    Machine.step .euclid ⟨s, .pending test, k⟩ = ⟨s, .pending order, k + 1⟩ := by
  have hc : Evaluates s (.binary "=" (.var "x") (.var "y")) (.ok (.bool false)) := by
    cases h with
    | xy => exact .compare .eq (.bound ha) (.bound hb) (by simp [Comparison.Holds]; omega)
    | yx => exact .compare .eq (.bound hb) (.bound ha) (by simp [Comparison.Holds]; omega)
  exact step_eq_pending (.nil s) (.no hc) (by simp [blocks_eq])

/-- The larger variable is the one that is reduced. -/
lemma step_order (h : Sides a b) (ha : s.get? a = some m) (hb : s.get? b = some n)
    (hlt : n.toInt < m.toInt) :
    ∃ l, Machine.step .euclid ⟨s, .pending order, k⟩ = ⟨s, .pending (subtract l a b), k + 1⟩ := by
  cases h with
  | xy =>
    have hc : Evaluates s (.binary "<" (.var "x") (.var "y")) (.ok (.bool false)) :=
      .compare .lt (.bound ha) (.bound hb) (by simp [Comparison.Holds]; omega)
    exact ⟨.num 3, step_eq_pending (.nil s) (.no hc) (by simp [blocks_eq])⟩
  | yx =>
    have hc : Evaluates s (.binary "<" (.var "x") (.var "y")) (.ok (.bool true)) :=
      .compare .lt (.bound hb) (.bound ha) (by simp [Comparison.Holds]; omega)
    exact ⟨.num 5, step_eq_pending (.nil s) (.yes hc) (by simp [blocks_eq])⟩

lemma step_subtract {l : Label} (ha : s.get? a = some m) (hb : s.get? b = some n)
    (hw : w.toInt = m.toInt - n.toInt) :
    Machine.step .euclid ⟨s, .pending (subtract l a b), k⟩ =
      ⟨s.assign a w, .pending test, k + 1⟩ := by
  have he : Evaluates s (.binary "-" (.var a) (.var b)) (.ok (.int w)) :=
    .exact .sub (.bound ha) (.bound hb) (by simp) hw
  exact step_eq_pending (.cons he.eval_eq (.nil _)) (.goto _) (by simp [blocks_eq])

lemma step_subtract_overflow {l : Label} (ha : s.get? a = some m) (hb : s.get? b = some n)
    (hw : ¬ Word.Representable (m.toInt - n.toInt)) :
    Machine.step .euclid ⟨s, .pending (subtract l a b), k⟩ =
      ⟨s, .failed (.overflow .sub m n), k + 1⟩ := by
  have he : Evaluates s (.binary "-" (.var a) (.var b)) (.error (.overflow .sub m n)) :=
    .overflow .sub (.bound ha) (.bound hb) (by simp) hw
  have hexec : Assignment.execAll s (subtract l a b).assigns = (s, some (.overflow .sub m n)) := by
    rw [execAll_eq_some_iff]
    exact ⟨0, _, rfl, .nil s, assigns_iff.mp (.fault he)⟩
  have hfail : (Program.euclid).exec (subtract l a b) s = ⟨s, .error (.overflow .sub m n)⟩ :=
    exec_eq_error_iff.mpr (failsAt_assign_or_jump.mpr (.inl hexec))
  exact step_eq_of_exec hfail

/-- Test and comparison lead to the subtraction from the larger variable. -/
lemma route_subtract (h : Sides a b) (ha : s.get? a = some m) (hb : s.get? b = some n)
    (hlt : n.toInt < m.toInt) :
    ∃ vs l, vs.length = 2 ∧
      Route .euclid ⟨s, .pending test, k⟩ vs ⟨s, .pending (subtract l a b), k + 2⟩ := by
  obtain ⟨l, ho⟩ := step_order (k := k + 1) h ha hb hlt
  have ht := step_test_ne (k := k) h ha hb hlt
  refine ⟨[⟨test, s⟩, ⟨order, s⟩], l, rfl, .cons ?_⟩
  rw [ht]
  apply Route.cons
  rw [ho]
  exact .nil _

/-- One round of the loop, as long as the difference is a word. -/
lemma route_round (h : Sides a b) (ha : s.get? a = some m) (hb : s.get? b = some n)
    (hlt : n.toInt < m.toInt) (hw : w.toInt = m.toInt - n.toInt) :
    ∃ vs, vs.length = 3 ∧
      Route .euclid ⟨s, .pending test, k⟩ vs ⟨s.assign a w, .pending test, k + 3⟩ := by
  obtain ⟨vs, l, hlen, hr⟩ := route_subtract (k := k) h ha hb hlt
  have hlast := Route.single .euclid s (subtract l a b) (k + 2)
  rw [step_subtract ha hb hw] at hlast
  exact ⟨vs ++ [⟨subtract l a b, s⟩], by simp [hlen], hr.append hlast⟩

lemma route_overflow (h : Sides a b) (ha : s.get? a = some m) (hb : s.get? b = some n)
    (hlt : n.toInt < m.toInt) (hw : ¬ Word.Representable (m.toInt - n.toInt)) :
    ∃ vs, Route .euclid ⟨s, .pending test, k⟩ vs ⟨s, .failed (.overflow .sub m n), k + 3⟩ := by
  obtain ⟨vs, l, -, hr⟩ := route_subtract (k := k) h ha hb hlt
  have hlast := Route.single .euclid s (subtract l a b) (k + 2)
  rw [step_subtract_overflow ha hb hw] at hlast
  exact ⟨_, hr.append hlast⟩

lemma route_equal (hx : s.get? "x" = some x) (hy : s.get? "y" = some x) :
    ∃ vs, vs.length = 2 ∧ Route .euclid ⟨s, .pending test, k⟩ vs ⟨s, .returned x, k + 2⟩ := by
  refine ⟨[⟨test, s⟩, ⟨last, s⟩], rfl, .cons ?_⟩
  rw [step_test_eq hx hy]
  apply Route.cons
  rw [step_last hx]
  exact .nil _

end Euclid

end FlowGraph
