import FlowGraph.Eval
import Mathlib.Data.List.Basic

/-!
# Rules of evaluation

`Evaluates s e o` gives the outcome `o` of an expression in a store by rules, one for each way in
which a value or a fault comes about. The rules have their own list of operator names and compute
over the integers, without bound. This file connects them to `Expr.eval`, which looks names up and
computes over words, and lists the variables that an expression reads.
-/

namespace FlowGraph

def Comparison.name : Comparison → String
  | eq => "="
  | lt => "<"
  | le => "<="
  | gt => ">"
  | ge => ">="

def Arithmetic.name : Arithmetic → String
  | add => "+"
  | sub => "-"
  | mul => "*"
  | div => "/"

/-- The nine names under which operators are applied. -/
def Operator.name : Operator → String
  | compare c => c.name
  | arith a => a.name

/-- The result of an operation over the integers; division truncates toward zero. -/
def Arithmetic.exact : Arithmetic → Int → Int → Int
  | add, m, n => m + n
  | sub, m, n => m - n
  | mul, m, n => m * n
  | div, m, n => m.tdiv n

namespace Arithmetic

variable {a : Arithmetic} {l r w : Word}

lemma checked_eq (hz : ¬ (a = .div ∧ r = 0)) :
    a.checked l r = Word.ofInt? (a.exact l.toInt r.toInt) := by
  cases a with
  | add | sub | mul => rfl
  | div => exact if_neg fun hr => hz ⟨rfl, hr⟩

theorem apply_eq_ok_iff :
    a.apply l r = .ok w ↔ ¬ (a = .div ∧ r = 0) ∧ w.toInt = a.exact l.toInt r.toInt := by
  unfold apply
  by_cases hz : a = .div ∧ r = 0
  · simp [hz]
  · rw [if_neg hz, checked_eq hz, ← Word.ofInt?_eq_some_iff]
    cases Word.ofInt? (a.exact l.toInt r.toInt) <;> simp [hz]

lemma apply_eq_overflow (hz : ¬ (a = .div ∧ r = 0))
    (hw : ¬ Word.Representable (a.exact l.toInt r.toInt)) :
    a.apply l r = .error (.overflow a l r) := by
  unfold apply
  rw [if_neg hz, checked_eq hz, Word.ofInt?_eq_none_iff.mpr hw]

end Arithmetic

namespace Operator

/-- Operators are written by their names. -/
lemma name_eq_symbol (o : Operator) : o.name = o.symbol := by
  rcases o with c | a
  · cases c <;> rfl
  · cases a <;> rfl

/-- The names are exactly the symbols that are looked up with success. -/
theorem ofSymbol?_eq_some_iff_name {symbol : String} {o : Operator} :
    ofSymbol? symbol = some o ↔ symbol = o.name := by
  rw [ofSymbol?_eq_some_iff, name_eq_symbol]

lemma name_injective : Function.Injective name := by
  intro o o' h
  have ho := ofSymbol?_eq_some_iff_name.mpr h
  rw [ofSymbol?_eq_some_iff_name.mpr rfl] at ho
  exact Option.some.inj ho

lemma resolve_name (o : Operator) : resolve o.name = .ok o := by
  unfold resolve
  rw [ofSymbol?_eq_some_iff_name.mpr rfl]

lemma resolve_eq_error {symbol : String} (h : ∀ o : Operator, o.name ≠ symbol) :
    resolve symbol = .error (.unsupportedOperation symbol) := by
  unfold resolve
  cases ho : ofSymbol? symbol with
  | none => rfl
  | some o => exact absurd (ofSymbol?_eq_some_iff_name.mp ho).symm (h o)

end Operator

lemma Operator.apply_eq_error {o : Operator} {u v : Value}
    (hk : u.kind = .bool ∨ v.kind = .bool) :
    o.apply u v = .error (.nonIntOperands o u.kind v.kind) := by
  cases u with
  | int i =>
    cases v with
    | int j => simp at hk
    | bool b => rfl
  | bool b => rfl

/-- The outcome of an expression in a store: the number of arguments comes first, then the left
argument, the right argument, the symbol, the kinds of the values and the range of the result. -/
inductive Evaluates (s : Store) : Expr → Except Fault Value → Prop
  | const (w : Word) : Evaluates s (.const w) (.ok (.int w))
  | bound {x : Var} {w : Word} (hx : s.get? x = some w) : Evaluates s (.var x) (.ok (.int w))
  | unbound {x : Var} (hx : s.get? x = none) :
      Evaluates s (.var x) (.error (.unboundVariable x))
  | arity {symbol : String} {args : List Expr} (h : args.length ≠ 2) :
      Evaluates s (.app symbol args) (.error (.argumentCount symbol args.length))
  | left {symbol : String} {l r : Expr} {f : Fault} (hl : Evaluates s l (.error f)) :
      Evaluates s (.binary symbol l r) (.error f)
  | right {symbol : String} {l r : Expr} {u : Value} {f : Fault}
      (hl : Evaluates s l (.ok u)) (hr : Evaluates s r (.error f)) :
      Evaluates s (.binary symbol l r) (.error f)
  | unsupported {symbol : String} {l r : Expr} {u v : Value}
      (hl : Evaluates s l (.ok u)) (hr : Evaluates s r (.ok v))
      (ho : ∀ o : Operator, o.name ≠ symbol) :
      Evaluates s (.binary symbol l r) (.error (.unsupportedOperation symbol))
  | nonInt {l r : Expr} {u v : Value} (o : Operator)
      (hl : Evaluates s l (.ok u)) (hr : Evaluates s r (.ok v))
      (hk : u.kind = .bool ∨ v.kind = .bool) :
      Evaluates s (.binary o.name l r) (.error (.nonIntOperands o u.kind v.kind))
  | compare {l r : Expr} {i j : Word} {b : Bool} (c : Comparison)
      (hl : Evaluates s l (.ok (.int i))) (hr : Evaluates s r (.ok (.int j)))
      (hb : b = true ↔ c.Holds i.toInt j.toInt) :
      Evaluates s (.binary c.name l r) (.ok (.bool b))
  | zeroDivisor {l r : Expr} {i : Word}
      (hl : Evaluates s l (.ok (.int i))) (hr : Evaluates s r (.ok (.int 0))) :
      Evaluates s (.binary "/" l r) (.error .divisionByZero)
  | exact {l r : Expr} {i j w : Word} (a : Arithmetic)
      (hl : Evaluates s l (.ok (.int i))) (hr : Evaluates s r (.ok (.int j)))
      (hz : ¬ (a = .div ∧ j = 0)) (hw : w.toInt = a.exact i.toInt j.toInt) :
      Evaluates s (.binary a.name l r) (.ok (.int w))
  | overflow {l r : Expr} {i j : Word} (a : Arithmetic)
      (hl : Evaluates s l (.ok (.int i))) (hr : Evaluates s r (.ok (.int j)))
      (hz : ¬ (a = .div ∧ j = 0)) (hw : ¬ Word.Representable (a.exact i.toInt j.toInt)) :
      Evaluates s (.binary a.name l r) (.error (.overflow a i j))

namespace Expr

lemma length_ne_two {args : List Expr} (h : ∀ l r, args = [l, r] → False) : args.length ≠ 2 := by
  intro hn
  obtain ⟨l, r, hargs⟩ := List.length_eq_two.mp hn
  exact h l r hargs

variable {s : Store} {symbol : String} {l r : Expr}

lemma eval_binary_left {f : Fault} (hl : l.eval s = .error f) :
    (binary symbol l r).eval s = .error f := by
  rw [eval_binary, hl]
  rfl

lemma eval_binary_right {u : Value} {f : Fault} (hl : l.eval s = .ok u)
    (hr : r.eval s = .error f) : (binary symbol l r).eval s = .error f := by
  rw [eval_binary, hl, hr]
  rfl

lemma eval_binary_ok {u v : Value} (hl : l.eval s = .ok u) (hr : r.eval s = .ok v) :
    (binary symbol l r).eval s = Operator.resolve symbol >>= fun o => o.apply u v := by
  rw [eval_binary, hl, hr]
  rfl

lemma eval_binary_name {u v : Value} (o : Operator) (hl : l.eval s = .ok u)
    (hr : r.eval s = .ok v) : (binary o.name l r).eval s = o.apply u v := by
  rw [eval_binary_ok hl hr, Operator.resolve_name]
  rfl

end Expr

/-- The rules give no outcome but that of `Expr.eval`. -/
theorem Evaluates.eval_eq {s : Store} {e : Expr} {o : Except Fault Value}
    (h : Evaluates s e o) : e.eval s = o := by
  induction h with
  | const w => rfl
  | bound hx => rw [Expr.eval_var, Store.read_eq_ok_iff.mpr hx]; rfl
  | unbound hx => rw [Expr.eval_var, Store.read_eq_error_iff.mpr ⟨hx, rfl⟩]; rfl
  | arity h => exact Expr.eval_app s _ h
  | left _ hl => exact Expr.eval_binary_left hl
  | right _ _ hl hr => exact Expr.eval_binary_right hl hr
  | unsupported _ _ ho hl hr =>
    rw [Expr.eval_binary_ok hl hr, Operator.resolve_eq_error ho]
    rfl
  | nonInt o _ _ hk hl hr =>
    rw [Expr.eval_binary_name o hl hr, Operator.apply_eq_error hk]
  | @compare l r i j b c _ _ hb hl hr =>
    have hc : c.test i j = b := by
      rw [Bool.eq_iff_iff, Comparison.test_iff, hb]
    rw [← hc]
    exact Expr.eval_binary_name (.compare c) hl hr
  | zeroDivisor _ _ hl hr => exact Expr.eval_binary_name (.arith .div) hl hr
  | @exact l r i j w a _ _ hz hw hl hr =>
    have ha : a.apply i j = .ok w := Arithmetic.apply_eq_ok_iff.mpr ⟨hz, hw⟩
    refine (Expr.eval_binary_name (.arith a) hl hr).trans ?_
    change (a.apply i j).map Value.int = _
    rw [ha]
    rfl
  | @overflow l r i j a _ _ hz hw hl hr =>
    refine (Expr.eval_binary_name (.arith a) hl hr).trans ?_
    change (a.apply i j).map Value.int = _
    rw [Arithmetic.apply_eq_overflow hz hw]
    rfl

/-- Two integers under an operator have the outcome that the rules ask for. -/
lemma evaluates_words {s : Store} {l r : Expr} {i j : Word} (o : Operator)
    (hl : Evaluates s l (.ok (.int i))) (hr : Evaluates s r (.ok (.int j))) :
    Evaluates s (.binary o.name l r) (o.apply (.int i) (.int j)) := by
  cases o with
  | compare c => exact .compare c hl hr (Comparison.test_iff c i j)
  | arith a =>
    change Evaluates s (.binary a.name l r) ((a.apply i j).map Value.int)
    by_cases hz : a = .div ∧ j = 0
    · obtain ⟨rfl, rfl⟩ := hz
      exact .zeroDivisor hl hr
    · by_cases hw : Word.Representable (a.exact i.toInt j.toInt)
      · have ha : a.apply i j = .ok (Int64.ofInt (a.exact i.toInt j.toInt)) :=
          Arithmetic.apply_eq_ok_iff.mpr ⟨hz, Word.toInt_ofInt_of_representable hw⟩
        rw [ha]
        exact .exact a hl hr hz (Word.toInt_ofInt_of_representable hw)
      · rw [Arithmetic.apply_eq_overflow hz hw]
        exact .overflow a hl hr hz hw

lemma evaluates_values {s : Store} {l r : Expr} {u v : Value} (o : Operator)
    (hl : Evaluates s l (.ok u)) (hr : Evaluates s r (.ok v)) :
    Evaluates s (.binary o.name l r) (o.apply u v) := by
  by_cases hk : u.kind = .bool ∨ v.kind = .bool
  · rw [Operator.apply_eq_error hk]
    exact .nonInt o hl hr hk
  · cases u with
    | int i =>
      cases v with
      | int j => exact evaluates_words o hl hr
      | bool b => exact absurd (Or.inr rfl) hk
    | bool b => exact absurd (Or.inl rfl) hk

theorem evaluates_eval (s : Store) (e : Expr) : Evaluates s e (e.eval s) := by
  induction e using Expr.eval.induct with
  | case1 w => exact .const w
  | case2 x =>
    cases hx : s.get? x with
    | none => rw [Expr.eval_var, Store.read_eq_error_iff.mpr ⟨hx, rfl⟩]; exact .unbound hx
    | some w => rw [Expr.eval_var, Store.read_eq_ok_iff.mpr hx]; exact .bound hx
  | case3 symbol l r ihl ihr =>
    cases hl : l.eval s with
    | error f =>
      rw [Expr.eval_binary_left hl]
      exact .left (hl ▸ ihl)
    | ok u =>
      cases hr : r.eval s with
      | error f =>
        rw [Expr.eval_binary_right hl hr]
        exact .right (hl ▸ ihl) (hr ▸ ihr)
      | ok v =>
        by_cases ho : ∃ o : Operator, o.name = symbol
        · obtain ⟨o, rfl⟩ := ho
          rw [Expr.eval_binary_name o hl hr]
          exact evaluates_values o (hl ▸ ihl) (hr ▸ ihr)
        · have ho : ∀ o : Operator, o.name ≠ symbol := fun o h => ho ⟨o, h⟩
          rw [Expr.eval_binary_ok hl hr, Operator.resolve_eq_error ho]
          exact .unsupported (hl ▸ ihl) (hr ▸ ihr) ho
  | case4 symbol args h =>
    have hn := Expr.length_ne_two h
    rw [Expr.eval_app s symbol hn]
    exact .arity hn

theorem evaluates_iff {s : Store} {e : Expr} {o : Except Fault Value} :
    Evaluates s e o ↔ e.eval s = o :=
  ⟨Evaluates.eval_eq, fun h => h ▸ evaluates_eval s e⟩

lemma Expr.eval_ne_noReturn (s : Store) (e : Expr) : e.eval s ≠ .error .noReturn := by
  intro h
  generalize ho : Except.error Fault.noReturn = o at h
  have he := evaluates_iff.mpr h
  induction he with
  | left hl ih => exact ih ho (evaluates_iff.mp hl)
  | right _ hr _ ih => exact ih ho (evaluates_iff.mp hr)
  | _ => cases ho

namespace Expr

mutual

/-- The variables that an expression reads, from left to right. -/
def vars : Expr → List Var
  | const _ => []
  | var x => [x]
  | app _ args => varsList args

def varsList : List Expr → List Var
  | [] => []
  | e :: es => e.vars ++ varsList es

end

lemma mem_varsList_iff {x : Var} {es : List Expr} : x ∈ varsList es ↔ ∃ e ∈ es, x ∈ e.vars := by
  induction es with
  | nil => simp [varsList]
  | cons e es ih => simp [varsList, ih]

@[simp] lemma vars_const (w : Word) : (const w).vars = [] := rfl

@[simp] lemma vars_var (x : Var) : (var x).vars = [x] := rfl

@[simp] lemma vars_binary (symbol : String) (l r : Expr) :
    (binary symbol l r).vars = l.vars ++ r.vars := by
  simp only [vars, varsList, List.append_nil]

end Expr

end FlowGraph
