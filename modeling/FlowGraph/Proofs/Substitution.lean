import FlowGraph.Proofs.Statement
import FlowGraph.Sample

/-!
# Assignment as substitution

To assign an integer to a variable and to put an expression with that value in its place come to the
same thing. This file proves it for expressions, whatever their values and faults, and for the last
assignment of a block, which can be left out if its expression is put into the jump.
-/

namespace FlowGraph

namespace Expr

mutual

/-- The expression with `d` in place of every read of `x`. -/
def subst : Expr → Var → Expr → Expr
  | const w, _, _ => const w
  | var y, x, d => if y = x then d else var y
  | app symbol args, x, d => app symbol (substList args x d)

def substList : List Expr → Var → Expr → List Expr
  | [], _, _ => []
  | e :: es, x, d => e.subst x d :: substList es x d

end

section
variable {x : Var} {d : Expr}

lemma length_substList (es : List Expr) : (substList es x d).length = es.length := by
  induction es with
  | nil => rfl
  | cons e es ih => rw [substList, List.length_cons, List.length_cons, ih]

lemma subst_var_self : (var x).subst x d = d := by
  rw [subst, if_pos rfl]

lemma subst_var_of_ne {y : Var} (h : y ≠ x) : (var y).subst x d = var y := by
  rw [subst, if_neg h]

lemma subst_binary (symbol : String) (l r : Expr) :
    (binary symbol l r).subst x d = binary symbol (l.subst x d) (r.subst x d) := by
  simp only [subst, substList]

/-- The value of a variable is read in the one expression and computed in the other, each time that
it is needed. Nothing else can differ: the arguments of an application are counted before they are
evaluated, and their number stays the same. -/
theorem eval_subst {s : Store} {w : Word} (hd : d.eval s = .ok (.int w)) (e : Expr) :
    (e.subst x d).eval s = e.eval (s.assign x w) := by
  induction e using Expr.eval.induct with
  | case1 v => rw [subst, eval_const, eval_const]
  | case2 y =>
    by_cases hy : y = x
    · subst hy
      have hread : (s.assign y w).read y = .ok w :=
        Store.read_eq_ok_iff.mpr (Store.get?_assign_self s y w)
      rw [subst_var_self, hd, eval_var, hread]
      rfl
    · have hread : (s.assign x w).read y = s.read y := by
        rw [Store.read, Store.read, Store.get?_assign_of_ne s w (Ne.symm hy)]
      rw [subst_var_of_ne hy, eval_var, eval_var, hread]
  | case3 symbol l r ihl ihr => rw [subst_binary, eval_binary, eval_binary, ihl, ihr]
  | case4 symbol args h =>
    have hn : args.length ≠ 2 := length_ne_two h
    have hs : (substList args x d).length ≠ 2 := by rwa [length_substList]
    rw [subst, eval_app s symbol hs, eval_app _ symbol hn, length_substList]

end

end Expr

/-- The jump with `d` in place of every read of `x`. -/
def Jump.subst : Jump → Var → Expr → Jump
  | goto l, _, _ => goto l
  | branch c yes no, x, d => branch (c.subst x d) yes no
  | ret e, x, d => ret (e.subst x d)

section
variable {P : Program} {x : Var} {d : Expr} {s : Store} {w : Word}

lemma follow_subst (hd : d.eval s = .ok (.int w)) (j : Jump) :
    P.follow s (j.subst x d) = P.follow (s.assign x w) j := by
  cases j with
  | goto l => rfl
  | branch c yes no => rw [Jump.subst, Program.follow, Program.follow, Expr.eval_subst hd]
  | ret e => rw [Jump.subst, Program.follow, Program.follow, Expr.eval_subst hd]

/-- The last assignment of a block is performed if the ones before it are and its expression has an
integer value. -/
lemma execAll_concat {t : Store} {as : List Assignment}
    (has : Assignment.execAll s as = (t, none)) (hd : d.eval t = .ok (.int w)) :
    Assignment.execAll s (as ++ [⟨x, d⟩]) = (t.assign x w, none) := by
  have hw : (⟨x, d⟩ : Assignment).word t = .ok w := word_eq_ok_iff.mpr hd
  rw [execAll_append, has]
  simp only [Assignment.execAll, hw]

/-- Either an assignment before the last one fails, and the jump is not reached, or the jump is
followed in stores that differ in `x` alone. -/
lemma exec_concat {as : List Assignment}
    (hd : ∀ t, Performed s as t → ∃ w, d.eval t = .ok (.int w)) (l : Label) (j : Jump) :
    ∃ t o, P.exec ⟨l, as, j.subst x d⟩ s = ⟨t, o⟩ ∧
      (P.exec ⟨l, as ++ [⟨x, d⟩], j⟩ s = ⟨t, o⟩ ∨
        ∃ w, P.exec ⟨l, as ++ [⟨x, d⟩], j⟩ s = ⟨t.assign x w, o⟩) := by
  rcases has : Assignment.execAll s as with ⟨t, _ | f⟩
  · obtain ⟨w, hw⟩ := hd t (execAll_eq_none_iff.mp has)
    refine ⟨t, _, exec_of_execAll_none has, .inr ⟨w, ?_⟩⟩
    rw [exec_of_execAll_none (execAll_concat has hw), follow_subst hw]
  · refine ⟨t, _, exec_of_execAll_some has, .inl (exec_of_execAll_some ?_)⟩
    rw [execAll_append, has]

end

/-- An expression has the same outcome in a store where `x` is bound to the value of `d` as with
`d`, or with the constant of that value, in place of `x`. A block that ends with the assignment of
`d` to `x` goes on as it does without this assignment and with `d` for `x` in its jump, provided
that `d` has an integer value where it is evaluated; the stores that are left differ in `x` at
most. -/
theorem assign_eq_subst (P : Program) (x : Var) (d : Expr) :
    (∀ s w, d.eval s = .ok (.int w) → ∀ e : Expr,
      e.eval (s.assign x w) = (e.subst x d).eval s ∧
        e.eval (s.assign x w) = (e.subst x (.const w)).eval s) ∧
    ∀ (l : Label) (as : List Assignment) (j : Jump) (s : Store),
      (∀ t, Performed s as t → ∃ w, d.eval t = .ok (.int w)) →
      (P.exec ⟨l, as, j.subst x d⟩ s).result = (P.exec ⟨l, as ++ [⟨x, d⟩], j⟩ s).result ∧
        ∀ y, y ≠ x → (P.exec ⟨l, as, j.subst x d⟩ s).store.get? y =
          (P.exec ⟨l, as ++ [⟨x, d⟩], j⟩ s).store.get? y := by
  refine ⟨?_, ?_⟩
  · intro s w hd e
    exact ⟨(Expr.eval_subst hd e).symm, (Expr.eval_subst (Expr.eval_const s w) e).symm⟩
  · intro l as j s hd
    obtain ⟨t, o, hdrop, hkeep⟩ := exec_concat (P := P) (x := x) hd l j
    rcases hkeep with hkeep | ⟨w, hkeep⟩
    · rw [hdrop, hkeep]
      exact ⟨rfl, fun _ _ => rfl⟩
    · rw [hdrop, hkeep]
      exact ⟨rfl, fun y hy => (Store.get?_assign_of_ne t w (Ne.symm hy)).symm⟩

/-- The countdown may test `n - 1` in place of counting down first, and the fault of an unbound
variable is the same whether `n - 1` is assigned to `n` or put in its place. -/
theorem countdown_assign_eq_subst :
    let d : Expr := .binary "-" (.var "n") (.const 1)
    let e : Expr := .binary "*" (.var "n") (.binary "/" (.var "m") (.var "n"))
    let s := Store.ofList [("n", 5), ("acc", 0)]
    let as : List Assignment := [⟨"acc", .binary "+" (.var "acc") (.const 1)⟩]
    let j : Jump := .branch (.binary "<=" (.var "n") (.const 4)) (.text "exit") (.text "body")
    let P := Program.countdown
    d.eval s = .ok (.int 4) ∧
      (e.eval (s.assign "n" 4) = (e.subst "n" d).eval s ∧
        e.eval (s.assign "n" 4) = (e.subst "n" (.const 4)).eval s) ∧
      e.eval (s.assign "n" 4) = .error (.unboundVariable "m") ∧
      (∀ t, Performed s as t → ∃ w, d.eval t = .ok (.int w)) ∧
      (P.exec ⟨.num 0, as, j.subst "n" d⟩ s).result =
        (P.exec ⟨.num 0, as ++ [⟨"n", d⟩], j⟩ s).result ∧
      ∀ y : Var, y ≠ "n" → (P.exec ⟨.num 0, as, j.subst "n" d⟩ s).store.get? y =
        (P.exec ⟨.num 0, as ++ [⟨"n", d⟩], j⟩ s).store.get? y := by
  intro d e s as j P
  have hvalue : d.eval s = .ok (.int 4) := rfl
  have hfault : e.eval (s.assign "n" 4) = .error (.unboundVariable "m") := rfl
  have hreached : ∀ t, Performed s as t → ∃ w, d.eval t = .ok (.int w) := by
    intro t ht
    have hp : Performed s as (s.assign "acc" 1) := .cons rfl (.nil _)
    rw [ht.unique hp]
    exact ⟨4, rfl⟩
  obtain ⟨hexpr, hblock⟩ := assign_eq_subst P "n" d
  exact ⟨hvalue, hexpr s 4 hvalue e, hfault, hreached, hblock (.num 0) as j s hreached⟩

end FlowGraph
