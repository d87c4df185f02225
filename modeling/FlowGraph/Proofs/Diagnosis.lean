import FlowGraph.Proofs.Route
import FlowGraph.Sample
import Mathlib.Algebra.Group.Int.Defs

/-!
# What a fault says

A fault carries what it concerns: a label, a variable, the kinds of values, two operands. This file
spells out what each fault says about the statement that failed, its store and the program, and
shows that what a failing run reports is so.
-/

namespace FlowGraph

namespace Expr

/-- One expression is the other, or stands in it at any depth. -/
inductive Subterm : Expr → Expr → Prop
  | refl (e : Expr) : Subterm e e
  | arg {e a : Expr} {symbol : String} {args : List Expr} (ha : a ∈ args) (h : Subterm e a) :
      Subterm e (.app symbol args)

/-- In `e`, `symbol` is applied to two arguments, which have the values `u` and `v`. -/
def Applies (s : Store) (e : Expr) (symbol : String) (u v : Value) : Prop :=
  ∃ l r, (binary symbol l r).Subterm e ∧ l.eval s = .ok u ∧ r.eval s = .ok v

lemma Applies.arg {s : Store} {a : Expr} {symbol op : String} {args : List Expr} {u v : Value}
    (ha : a ∈ args) (h : a.Applies s op u v) : (app symbol args).Applies s op u v := by
  obtain ⟨l, r, hsub, hl, hr⟩ := h
  exact ⟨l, r, .arg ha hsub, hl, hr⟩

end Expr

namespace Fault

def HoldsIn (s : Store) (e : Expr) : Fault → Prop
  | unboundVariable x => s.get? x = none ∧ x ∈ e.vars
  | nonIntOperands o j k =>
    ∃ u v, e.Applies s o.name u v ∧ u.kind = j ∧ v.kind = k ∧ (j = .bool ∨ k = .bool)
  | unsupportedOperation symbol =>
    (∀ o : Operator, o.name ≠ symbol) ∧ ∃ u v, e.Applies s symbol u v
  | argumentCount symbol n =>
    n ≠ 2 ∧ ∃ args, (Expr.app symbol args).Subterm e ∧ args.length = n
  | divisionByZero => ∃ i, e.Applies s "/" (.int i) (.int 0)
  | overflow a i j =>
    e.Applies s a.name (.int i) (.int j) ∧
      ¬ (-2 ^ 63 ≤ a.exact i.toInt j.toInt ∧ a.exact i.toInt j.toInt ≤ 2 ^ 63 - 1)
  | _ => False

/-- What a fault says about a statement that fails in a store. -/
def HoldsOf (P : Program) (t : Store) (st : Statement) : Fault → Prop
  | undefinedLabel l => (∀ b ∈ P.blocks, b.label ≠ l) ∧ ∃ j, st = .jump j ∧ Selects t j l
  | boolAssignment x => ∃ e b, st = .assign ⟨x, e⟩ ∧ e.eval t = .ok (.bool b)
  | nonBoolCondition k =>
    k = .int ∧ ∃ c yes no w, st = .jump (.branch c yes no) ∧ c.eval t = .ok (.int w)
  | nonIntReturn k => k = .bool ∧ ∃ e b, st = .jump (.ret e) ∧ e.eval t = .ok (.bool b)
  | noReturn => False
  | f => ∃ e, st.expr? = some e ∧ f.HoldsIn t e

lemma HoldsIn.arg {s : Store} {a : Expr} {symbol : String} {args : List Expr} {f : Fault}
    (ha : a ∈ args) (h : f.HoldsIn s a) : f.HoldsIn s (.app symbol args) := by
  cases f with
  | unboundVariable x =>
    refine ⟨h.1, ?_⟩
    rw [Expr.vars, Expr.mem_varsList_iff]
    exact ⟨a, ha, h.2⟩
  | nonIntOperands o j k =>
    obtain ⟨u, v, happ, hk⟩ := h
    exact ⟨u, v, happ.arg ha, hk⟩
  | unsupportedOperation op =>
    obtain ⟨ho, u, v, happ⟩ := h
    exact ⟨ho, u, v, happ.arg ha⟩
  | argumentCount op n =>
    obtain ⟨hn, bs, hsub, hlen⟩ := h
    exact ⟨hn, bs, .arg ha hsub, hlen⟩
  | divisionByZero =>
    obtain ⟨i, happ⟩ := h
    exact ⟨i, happ.arg ha⟩
  | overflow op i j => exact ⟨h.1.arg ha, h.2⟩
  | undefinedLabel | boolAssignment | nonBoolCondition | nonIntReturn | noReturn => exact h.elim

lemma HoldsIn.holdsOf {P : Program} {t : Store} {st : Statement} {e : Expr} {f : Fault}
    (he : st.expr? = some e) (h : f.HoldsIn t e) : f.HoldsOf P t st := by
  cases f with
  | undefinedLabel | boolAssignment | nonBoolCondition | nonIntReturn | noReturn => exact h.elim
  | _ => exact ⟨e, he, h⟩

end Fault

lemma Word.representable_iff {n : Int} : Word.Representable n ↔ -2 ^ 63 ≤ n ∧ n ≤ 2 ^ 63 - 1 :=
  Iff.rfl

/-- The fault of an expression holds in it. The induction is on the rules; a fault that comes from
an argument holds in the argument. -/
theorem Evaluates.holdsIn {s : Store} {e : Expr} {f : Fault} (h : Evaluates s e (.error f)) :
    f.HoldsIn s e := by
  generalize ho : Except.error f = o at h
  induction h with
  | const | bound | compare | exact => cases ho
  | unbound hx =>
    cases ho
    exact ⟨hx, by simp⟩
  | arity hn =>
    cases ho
    exact ⟨hn, _, .refl _, rfl⟩
  | left _ ih => exact (ih ho).arg (by simp)
  | right _ _ _ ih => exact (ih ho).arg (by simp)
  | unsupported hl hr hop =>
    cases ho
    exact ⟨hop, _, _, _, _, .refl _, hl.eval_eq, hr.eval_eq⟩
  | nonInt o hl hr hk =>
    cases ho
    exact ⟨_, _, ⟨_, _, .refl _, hl.eval_eq, hr.eval_eq⟩, rfl, rfl, hk⟩
  | zeroDivisor hl hr =>
    cases ho
    exact ⟨_, _, _, .refl _, hl.eval_eq, hr.eval_eq⟩
  | overflow a hl hr hz hw =>
    cases ho
    rw [Word.representable_iff] at hw
    exact ⟨⟨_, _, .refl _, hl.eval_eq, hr.eval_eq⟩, hw⟩

theorem Statement.Fails.holdsOf {P : Program} {t : Store} {st : Statement} {f : Fault}
    (h : st.Fails P t f) : f.HoldsOf P t st := by
  cases st with
  | assign a =>
    cases assigns_iff.mpr h with
    | bool he => exact ⟨a.value, _, rfl, he.eval_eq⟩
    | fault he => exact he.holdsIn.holdsOf rfl
  | jump j =>
    cases leaves_iff.mpr h with
    | undefined hs hb => exact ⟨hb, j, rfl, hs⟩
    | nonBool he => exact ⟨rfl, _, _, _, _, rfl, he.eval_eq⟩
    | nonInt he => exact ⟨rfl, _, _, rfl, he.eval_eq⟩
    | condition he => exact he.holdsIn.holdsOf rfl
    | operand he => exact he.holdsIn.holdsOf rfl

/-- A run that fails does so at a statement of the block it enters last, and what its fault says
about that statement and the program holds in the final store. -/
theorem failing_run_diagnosis {P : Program} {v : Verbosity} {fuel : Nat} {s : Store} {r : Run}
    {f : Fault} (h : P.run v fuel s = some r) (hf : r.outcome = .error f) :
    ∃ vs b t i st, Route P (.start P s) (vs ++ [⟨b, t⟩]) r.machine ∧
      b.FailsAt P t r.machine.store i f ∧ b.statements[i]? = some st ∧
      f.HoldsOf P r.machine.store st := by
  obtain ⟨vs, b, t, -, hr, hn, ho⟩ := Program.run_exists_last h
  rw [hf, outcome?_after_eq_error_iff] at ho
  obtain ⟨i, hi⟩ := exists_failsAt ho
  rw [hn, step_pending] at hr ⊢
  obtain ⟨st, hst, hfails⟩ := hi.fails
  exact ⟨vs, b, t, i, st, hr, hi, hst, hfails.holdsOf⟩

/-- From the least integer and one, the greatest common divisor overflows in its first subtraction,
which stands in the third block that is entered. -/
theorem euclid_overflow_diagnosis :
    let s := Store.ofList [("x", -9223372036854775808), ("y", 1)]
    ∃ r, Program.euclid.run .off 3 s = some r ∧
      r.outcome = .error (.overflow .sub 1 (-9223372036854775808)) ∧
      ∃ vs b t i st, Route .euclid (.start .euclid s) (vs ++ [⟨b, t⟩]) r.machine ∧
        b.FailsAt .euclid t r.machine.store i (.overflow .sub 1 (-9223372036854775808)) ∧
        b.statements[i]? = some st ∧
        (Fault.overflow .sub 1 (-9223372036854775808)).HoldsOf .euclid r.machine.store st := by
  intro s
  obtain ⟨r, h, hf⟩ : ∃ r, Program.euclid.run .off 3 s = some r ∧
    r.outcome = .error (.overflow .sub 1 (-9223372036854775808)) := ⟨_, rfl, rfl⟩
  exact ⟨r, h, hf, failing_run_diagnosis h hf⟩

end FlowGraph
