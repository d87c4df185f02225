import FlowGraph.Execution
import FlowGraph.Proofs.Evaluation

/-!
# Linear code of expressions

An expression is written out as a list of instructions for a machine with a stack of values: both
arguments of an operator come before the operator, the left one first, and an application to any
number of arguments but two is a single instruction that fails. This file shows that running the
code gives what evaluating the expression gives, in value, in the first fault and in every event.
-/

namespace FlowGraph

inductive Instruction where
  | push (w : Word)
  | load (x : Var)
  /-- Takes two values from the stack, the right argument first, and puts the result there. -/
  | apply (symbol : String)
  | fail (symbol : String) (count : Nat)
deriving DecidableEq, Repr

/-- The linear code of an expression. -/
def Expr.code : Expr → List Instruction
  | const w => [.push w]
  | var x => [.load x]
  | app symbol [l, r] => l.code ++ r.code ++ [.apply symbol]
  | app symbol args => [.fail symbol args.length]

/-- Two integers under an operator: the divisor is looked at before the range of the result. -/
def Operator.reduceWords (i j : Word) : Operator → Except Fault Reduction
  | compare c => .ok ⟨.int i, compare c, .int j, .bool (decide (c.Holds i.toInt j.toInt))⟩
  | arith a =>
    if a = .div ∧ j = 0 then .error .divisionByZero
    else if Word.Representable (a.exact i.toInt j.toInt) then
      .ok ⟨.int i, arith a, .int j, .int (Int64.ofInt (a.exact i.toInt j.toInt))⟩
    else .error (.overflow a i j)

def Operator.all : List Operator :=
  [compare .eq, compare .lt, compare .le, compare .gt, compare .ge,
    arith .add, arith .sub, arith .mul, arith .div]

/-- Two values under an operator symbol: the symbol is looked at first, then the kinds. -/
def Reduction.ofValues (symbol : String) (u v : Value) : Except Fault Reduction :=
  match Operator.all.find? fun o => o.name == symbol with
  | none => .error (.unsupportedOperation symbol)
  | some o =>
    match u, v with
    | .int i, .int j => o.reduceWords i j
    | _, _ => .error (.nonIntOperands o u.kind v.kind)

namespace StackMachine

/-- What code leaves: the values on the stack, the last one first, or the fault that stopped it, and
the events up to there. -/
structure Finish where
  result : Except Fault (List Value)
  log : List Event

/-- An instruction changes the stack and may emit events, or it fails. There is no answer if the
stack holds too few values for it. -/
def step (s : Store) : Instruction → List Value → Option (Except Fault (List Value × List Event))
  | .push w, stack => some (.ok (.int w :: stack, []))
  | .load x, stack =>
    match s.get? x with
    | some w => some (.ok (.int w :: stack, []))
    | none => some (.error (.unboundVariable x))
  | .apply symbol, v :: u :: stack =>
    match Reduction.ofValues symbol u v with
    | .ok r => some (.ok (r.result :: stack, [.reduced r]))
    | .error f => some (.error f)
  | .apply _, _ => none
  | .fail symbol count, _ => some (.error (.argumentCount symbol count))

def Finish.after (log : List Event) (r : Finish) : Finish :=
  { r with log := log ++ r.log }

/-- Runs code from left to right, up to the first instruction that fails. -/
def run (s : Store) : List Instruction → List Value → Option Finish
  | [], stack => some ⟨.ok stack, []⟩
  | i :: is, stack =>
    match step s i stack with
    | none => none
    | some (.error f) => some ⟨.error f, []⟩
    | some (.ok (stack, log)) => (run s is stack).map (.after log)

end StackMachine

lemma Operator.reduceWords_eq (o : Operator) (i j : Word) :
    o.reduceWords i j = (o.applyWords i j).map fun w => ⟨.int i, o, .int j, w⟩ := by
  cases o with
  | compare c =>
    have hc : decide (c.Holds i.toInt j.toInt) = c.test i j := by
      rw [Bool.eq_iff_iff, decide_eq_true_eq, Comparison.test_iff]
    rw [reduceWords, hc]
    rfl
  | arith a =>
    rw [reduceWords, applyWords]
    by_cases hz : a = .div ∧ j = 0
    · rw [if_pos hz, Arithmetic.apply, if_pos hz]
      rfl
    · rw [if_neg hz]
      by_cases hw : Word.Representable (a.exact i.toInt j.toInt)
      · have ha : a.apply i j = .ok (Int64.ofInt (a.exact i.toInt j.toInt)) :=
          Arithmetic.apply_eq_ok_iff.mpr ⟨hz, Word.toInt_ofInt_of_representable hw⟩
        rw [if_pos hw, ha]
        rfl
      · rw [if_neg hw, Arithmetic.apply_eq_overflow hz hw]
        rfl

lemma Operator.find?_name (symbol : String) :
    (all.find? fun o => o.name == symbol) = ofSymbol? symbol := by
  by_cases h : ∃ o : Operator, symbol = o.name
  · obtain ⟨o, rfl⟩ := h
    rw [ofSymbol?_eq_some_iff_name.mpr rfl]
    rcases o with c | a
    · cases c <;> rfl
    · cases a <;> rfl
  · have hlookup : ofSymbol? symbol = none := by
      rw [Option.eq_none_iff_forall_ne_some]
      intro o ho
      exact h ⟨o, ofSymbol?_eq_some_iff_name.mp ho⟩
    rw [hlookup, List.find?_eq_none]
    intro o _ ho
    exact h ⟨o, (beq_iff_eq.mp ho).symm⟩

lemma Reduction.ofValues_eq (symbol : String) (u v : Value) :
    ofValues symbol u v =
      Operator.resolve symbol >>= fun o => (o.apply u v).map fun w => ⟨u, o, v, w⟩ := by
  unfold ofValues Operator.resolve
  rw [Operator.find?_name]
  cases Operator.ofSymbol? symbol with
  | none => rfl
  | some o =>
    cases u with
    | int i =>
      cases v with
      | int j => exact o.reduceWords_eq i j
      | bool b => rfl
    | bool b => rfl

lemma Reduction.ofOutcomes_ok (symbol : String) (u v : Value) :
    ofOutcomes symbol (.ok u) (.ok v) = (ofValues symbol u v).toOption.toList := by
  rw [ofValues_eq]
  unfold ofOutcomes Operator.resolve
  cases Operator.ofSymbol? symbol with
  | none => rfl
  | some o =>
    have hbind : (Except.ok o >>= fun o => (o.apply u v).map fun w => Reduction.mk u o v w) =
        (o.apply u v).map fun w => Reduction.mk u o v w := rfl
    dsimp only
    rw [hbind]
    cases o.apply u v with
    | ok w => rfl
    | error f => rfl

namespace Expr

variable {s : Store} {symbol : String} {l r : Expr}

lemma eval_binary_ofValues {u v : Value} (hl : l.eval s = .ok u) (hr : r.eval s = .ok v) :
    (binary symbol l r).eval s = (Reduction.ofValues symbol u v).map Reduction.result := by
  rw [eval_binary_ok hl hr, Reduction.ofValues_eq]
  cases Operator.resolve symbol with
  | error f => rfl
  | ok o =>
    change o.apply u v = ((o.apply u v).map fun w => Reduction.mk u o v w).map Reduction.result
    cases o.apply u v <;> rfl

lemma events_binary_left {f : Fault} (hl : l.eval s = .error f) :
    (binary symbol l r).events s = l.events s := by
  simp [events, trace, hl, Reduction.ofOutcomes, Except.isOk, Except.toBool]

lemma events_binary_right {u : Value} {f : Fault} (hl : l.eval s = .ok u)
    (hr : r.eval s = .error f) : (binary symbol l r).events s = l.events s ++ r.events s := by
  simp [events, trace, hl, hr, Reduction.ofOutcomes, Except.isOk, Except.toBool]

lemma events_binary_ok {u v : Value} (hl : l.eval s = .ok u) (hr : r.eval s = .ok v) :
    (binary symbol l r).events s = l.events s ++ r.events s ++
      (Reduction.ofValues symbol u v).toOption.toList.map .reduced := by
  simp [events, trace, hl, hr, Reduction.ofOutcomes_ok, Except.isOk, Except.toBool]

lemma events_app {args : List Expr} (h : args.length ≠ 2) : (app symbol args).events s = [] := by
  rw [events, trace_app s symbol h, List.map_nil]

lemma code_app {args : List Expr} (h : args.length ≠ 2) :
    (app symbol args).code = [.fail symbol args.length] := by
  match args, h with
  | [], _ => rfl
  | [_], _ => rfl
  | _ :: _ :: _ :: _, _ => rfl

end Expr

namespace StackMachine

variable {s : Store}

lemma map_after_after (log log' : List Event) (r : Option Finish) :
    (r.map (Finish.after log')).map (Finish.after log) = r.map (Finish.after (log ++ log')) := by
  cases r with
  | none => rfl
  | some r => simp only [Option.map_some, Finish.after, List.append_assoc]

section
variable {i : Instruction} {stack : List Value} (rest : List Instruction)

lemma run_of_ok {stack' : List Value} {log : List Event}
    (h : step s i stack = some (.ok (stack', log))) :
    run s (i :: rest) stack = (run s rest stack').map (Finish.after log) := by
  rw [run, h]

lemma run_of_error {f : Fault} (h : step s i stack = some (.error f)) :
    run s (i :: rest) stack = some ⟨.error f, []⟩ := by
  rw [run, h]

end

/-- The code of an expression in front of other code: it puts the value on top of the stack, whatever
is there, and the rest goes on; or it stops at the fault. The induction is on the expression, with
the code of the second argument and of the operator as what follows that of the first. -/
theorem run_code_append (e : Expr) (rest : List Instruction) (stack : List Value) :
    run s (e.code ++ rest) stack =
      match e.eval s with
      | .ok v => (run s rest (v :: stack)).map (Finish.after (e.events s))
      | .error f => some ⟨.error f, e.events s⟩ := by
  induction e using Expr.eval.induct generalizing rest stack with
  | case1 w => exact run_of_ok rest rfl
  | case2 x =>
    rw [Expr.eval_var]
    cases hx : s.get? x with
    | none =>
      rw [Store.read_eq_error_iff.mpr ⟨hx, rfl⟩]
      exact run_of_error rest (by rw [step, hx])
    | some w =>
      have hstep : step s (.load x) stack = some (.ok (.int w :: stack, [])) := by
        rw [step, hx]
      rw [Store.read_eq_ok_iff.mpr hx]
      exact run_of_ok rest hstep
  | case3 symbol l r ihl ihr =>
    have hcode : (Expr.binary symbol l r).code ++ rest =
        l.code ++ (r.code ++ (.apply symbol :: rest)) := by
      simp only [Expr.code, List.append_assoc, List.singleton_append]
    rw [hcode, ihl]
    cases hl : l.eval s with
    | error f => rw [Expr.eval_binary_left hl, Expr.events_binary_left hl]
    | ok u =>
      simp only [ihr]
      cases hr : r.eval s with
      | error f =>
        rw [Expr.eval_binary_right hl hr, Expr.events_binary_right hl hr]
        rfl
      | ok v =>
        rw [Expr.eval_binary_ofValues hl hr, Expr.events_binary_ok hl hr]
        simp only [map_after_after]
        cases hd : Reduction.ofValues symbol u v with
        | error f =>
          rw [run_of_error rest (by rw [step, hd])]
          rfl
        | ok d =>
          rw [run_of_ok rest (by rw [step, hd]), map_after_after]
          rfl
  | case4 symbol args h =>
    have hn := Expr.length_ne_two h
    rw [Expr.code_app hn, Expr.eval_app s symbol hn, Expr.events_app hn]
    rfl

end StackMachine

/-- Running the code of an expression from the empty stack leaves exactly its value or its fault,
and the events are those of its evaluation. -/
theorem run_code_eq_eval (s : Store) (e : Expr) :
    StackMachine.run s e.code [] = some ⟨(e.eval s).map fun v => [v], e.events s⟩ := by
  have h := StackMachine.run_code_append (s := s) e [] []
  rw [List.append_nil] at h
  rw [h]
  cases e.eval s with
  | error f => rfl
  | ok v => simp [StackMachine.run, StackMachine.Finish.after, Except.map]

/-- The number of arguments is checked before anything is loaded, the symbol after both arguments. -/
example : (Expr.binary "%" (.var "x") (.app "-" [.var "y"])).code =
    [.load "x", .fail "-" 1, .apply "%"] := rfl

end FlowGraph
