import FlowGraph.Proofs.Diagnosis
import FlowGraph.Proofs.TypeSoundness

/-!
# Evaluation over the integers

Over words an evaluation can fail; over the integers it cannot, but its values may be no words.
This file computes expressions over the integers and shows where the two agree: an expression has a
value exactly if it is well formed, its variables are bound, and no application in it divides by
zero or leaves the range of words. The value is then the exact one.
-/

namespace FlowGraph

namespace Expr

def comparisonNames : List String :=
  ["=", "<", "<=", ">", ">="]

def arithmeticNames : List String :=
  ["+", "-", "*", "/"]

/-- A constant, a variable or an arithmetic application, as far as the root tells. -/
inductive IsNumeric : Expr → Prop
  | const (w : Word) : IsNumeric (.const w)
  | var (x : Var) : IsNumeric (.var x)
  | arith {symbol : String} (h : symbol ∈ arithmeticNames) (args : List Expr) :
      IsNumeric (.app symbol args)

/-- Every application in an expression is one of a known operator to two numeric arguments. -/
def WellFormed (e : Expr) : Prop :=
  ∀ symbol args, (app symbol args).Subterm e →
    symbol ∈ comparisonNames ++ arithmeticNames ∧
      ∃ l r, args = [l, r] ∧ l.IsNumeric ∧ r.IsNumeric

/-- The value of a numeric expression over the integers, with division truncated toward zero.
Unbound variables, and expressions that are not numeric, count as zero. -/
def exactValue (s : Store) : Expr → Int
  | const w => w.toInt
  | var x => ((s.get? x).map Int64.toInt).getD 0
  | app symbol [l, r] =>
    match symbol with
    | "+" => l.exactValue s + r.exactValue s
    | "-" => l.exactValue s - r.exactValue s
    | "*" => l.exactValue s * r.exactValue s
    | "/" => (l.exactValue s).tdiv (r.exactValue s)
    | _ => 0
  | app _ _ => 0

/-- No division in an expression has the divisor zero, and every arithmetic application in it has
its value between `-2 ^ 63` and `2 ^ 63 - 1`, all computed over the integers. -/
def StaysInRange (s : Store) (e : Expr) : Prop :=
  ∀ symbol l r, (binary symbol l r).Subterm e → symbol ∈ arithmeticNames →
    (symbol = "/" → r.exactValue s ≠ 0) ∧
      -2 ^ 63 ≤ (binary symbol l r).exactValue s ∧ (binary symbol l r).exactValue s ≤ 2 ^ 63 - 1

/-- An expression whose computation over the integers is one over words. -/
structure ExactIn (s : Store) (e : Expr) : Prop where
  wellFormed : e.WellFormed
  bound : ∀ x ∈ e.vars, x ∈ s.domain
  inRange : e.StaysInRange s

/-- The comparison with a name, between integers. -/
def Compares : String → Int → Int → Prop
  | "=", m, n => m = n
  | "<", m, n => m < n
  | "<=", m, n => m ≤ n
  | ">", m, n => n < m
  | ">=", m, n => n ≤ m
  | _, _, _ => False

/-- The value that the integers give to an expression: the word for its exact value if it is
numeric, and the truth of the comparison of two exact values if it is a comparison. -/
inductive HasExactValue (s : Store) : Expr → Value → Prop
  | int {e : Expr} {w : Word} (he : e.IsNumeric) (hw : w.toInt = e.exactValue s) :
      HasExactValue s e (.int w)
  | bool {symbol : String} {l r : Expr} {b : Bool} (h : symbol ∈ comparisonNames)
      (hb : b = true ↔ Compares symbol (l.exactValue s) (r.exactValue s)) :
      HasExactValue s (.binary symbol l r) (.bool b)

/-- The kind of the value of an expression, read off its root. -/
def rootKind : Expr → Kind
  | app symbol _ => if symbol ∈ comparisonNames then .bool else .int
  | _ => .int

lemma mem_comparisonNames_iff {symbol : String} :
    symbol ∈ comparisonNames ↔ ∃ c : Comparison, symbol = c.name := by
  constructor
  · intro h
    simp only [comparisonNames, List.mem_cons, List.not_mem_nil, or_false] at h
    rcases h with rfl | rfl | rfl | rfl | rfl
    · exact ⟨.eq, rfl⟩
    · exact ⟨.lt, rfl⟩
    · exact ⟨.le, rfl⟩
    · exact ⟨.gt, rfl⟩
    · exact ⟨.ge, rfl⟩
  · rintro ⟨c, rfl⟩
    cases c <;> decide

lemma mem_arithmeticNames_iff {symbol : String} :
    symbol ∈ arithmeticNames ↔ ∃ a : Arithmetic, symbol = a.name := by
  constructor
  · intro h
    simp only [arithmeticNames, List.mem_cons, List.not_mem_nil, or_false] at h
    rcases h with rfl | rfl | rfl | rfl
    · exact ⟨.add, rfl⟩
    · exact ⟨.sub, rfl⟩
    · exact ⟨.mul, rfl⟩
    · exact ⟨.div, rfl⟩
  · rintro ⟨a, rfl⟩
    cases a <;> decide

lemma mem_names_iff {symbol : String} :
    symbol ∈ comparisonNames ++ arithmeticNames ↔ ∃ o : Operator, symbol = o.name := by
  rw [List.mem_append, mem_comparisonNames_iff, mem_arithmeticNames_iff]
  constructor
  · rintro (⟨c, h⟩ | ⟨a, h⟩)
    · exact ⟨.compare c, h⟩
    · exact ⟨.arith a, h⟩
  · rintro ⟨c | a, h⟩
    · exact .inl ⟨c, h⟩
    · exact .inr ⟨a, h⟩

/-- No name is that of a comparison and of an arithmetic operation. -/
lemma notMem_arithmeticNames {symbol : String} (h : symbol ∈ comparisonNames) :
    symbol ∉ arithmeticNames := by
  obtain ⟨c, rfl⟩ := mem_comparisonNames_iff.mp h
  cases c <;> decide

lemma compares_name_iff (c : Comparison) {m n : Int} : Compares c.name m n ↔ c.Holds m n := by
  cases c <;> rfl

variable {s : Store} {e l r : Expr}

lemma subterm_binary_iff {t : Expr} {symbol : String} :
    t.Subterm (binary symbol l r) ↔ t = binary symbol l r ∨ t.Subterm l ∨ t.Subterm r := by
  constructor
  · intro h
    cases h with
    | refl => exact .inl rfl
    | arg ha h =>
      rcases List.mem_pair.mp ha with rfl | rfl
      · exact .inr (.inl h)
      · exact .inr (.inr h)
  · rintro (rfl | h | h)
    · exact .refl _
    · exact .arg (by simp) h
    · exact .arg (by simp) h

lemma not_isNumeric_compare {symbol : String} (h : symbol ∈ comparisonNames) (args : List Expr) :
    ¬ (app symbol args).IsNumeric := by
  intro hn
  cases hn with
  | arith ha => exact notMem_arithmeticNames h ha

/-- The operations written out by name are those of the rules. -/
lemma exactValue_arith (a : Arithmetic) :
    (binary a.name l r).exactValue s = a.exact (l.exactValue s) (r.exactValue s) := by
  cases a <;> rfl

lemma isNumeric_arith (a : Arithmetic) (args : List Expr) : (app a.name args).IsNumeric :=
  .arith (mem_arithmeticNames_iff.mpr ⟨a, rfl⟩) args

lemma hasExactValue_arith_iff {a : Arithmetic} {v : Value} :
    (binary a.name l r).HasExactValue s v ↔
      ∃ w : Word, v = .int w ∧ w.toInt = a.exact (l.exactValue s) (r.exactValue s) := by
  rw [← exactValue_arith]
  constructor
  · intro h
    cases h with
    | @int _ w _ hw => exact ⟨w, rfl, hw⟩
    | bool hc _ => exact absurd (isNumeric_arith a [l, r]) (not_isNumeric_compare hc _)
  · rintro ⟨w, rfl, hw⟩
    exact .int (isNumeric_arith a [l, r]) hw

lemma hasExactValue_compare_iff {c : Comparison} {v : Value} :
    (binary c.name l r).HasExactValue s v ↔
      ∃ b, v = .bool b ∧ (b = true ↔ c.Holds (l.exactValue s) (r.exactValue s)) := by
  have hc : c.name ∈ comparisonNames := mem_comparisonNames_iff.mpr ⟨c, rfl⟩
  simp only [← compares_name_iff]
  constructor
  · intro h
    cases h with
    | int hn _ => exact absurd hn (not_isNumeric_compare hc _)
    | @bool _ _ _ b _ hb => exact ⟨b, rfl, hb⟩
  · rintro ⟨b, rfl, hb⟩
    exact .bool hc hb

lemma wellFormed_binary_iff (o : Operator) :
    (binary o.name l r).WellFormed ↔
      (l.IsNumeric ∧ l.WellFormed) ∧ r.IsNumeric ∧ r.WellFormed := by
  constructor
  · intro h
    obtain ⟨-, l', r', hargs, hl, hr⟩ := h o.name [l, r] (.refl _)
    cases hargs
    refine ⟨⟨hl, ?_⟩, hr, ?_⟩
    · intro symbol args ht
      exact h symbol args (.arg (by simp) ht)
    · intro symbol args ht
      exact h symbol args (.arg (by simp) ht)
  · rintro ⟨⟨hl, hwl⟩, hr, hwr⟩ symbol args ht
    rcases subterm_binary_iff.mp ht with he | ht | ht
    · cases he
      exact ⟨mem_names_iff.mpr ⟨o, rfl⟩, l, r, rfl, hl, hr⟩
    · exact hwl symbol args ht
    · exact hwr symbol args ht

/-- What the root of an application asks for besides its arguments. -/
def RootInRange (s : Store) (o : Operator) (l r : Expr) : Prop :=
  ∀ a, o = .arith a → (a = .div → r.exactValue s ≠ 0) ∧
    Word.Representable (a.exact (l.exactValue s) (r.exactValue s))

lemma rootInRange_iff (o : Operator) : RootInRange s o l r ↔ (o.name ∈ arithmeticNames →
    (o.name = "/" → r.exactValue s ≠ 0) ∧ -2 ^ 63 ≤ (binary o.name l r).exactValue s ∧
      (binary o.name l r).exactValue s ≤ 2 ^ 63 - 1) := by
  rw [mem_arithmeticNames_iff]
  constructor
  · rintro h ⟨a, ha⟩
    have ho : o = .arith a := Operator.name_injective ha
    have hdiv : o.name = "/" → a = .div := by
      intro hname
      have hop : o = .arith .div := Operator.name_injective hname
      rw [ho] at hop
      exact Operator.arith.inj hop
    rw [ha, exactValue_arith]
    exact ⟨fun hname => (h a ho).1 (hdiv (ha.trans hname)), (h a ho).2⟩
  · rintro h a rfl
    obtain ⟨hz, hrange⟩ := h ⟨a, rfl⟩
    refine ⟨fun ha => hz (congrArg Arithmetic.name ha), ?_⟩
    rw [← exactValue_arith]
    exact hrange

lemma staysInRange_binary_iff (o : Operator) :
    (binary o.name l r).StaysInRange s ↔
      RootInRange s o l r ∧ l.StaysInRange s ∧ r.StaysInRange s := by
  rw [rootInRange_iff]
  constructor
  · intro h
    refine ⟨h o.name l r (.refl _), ?_, ?_⟩
    · intro symbol l' r' ht
      exact h symbol l' r' (.arg (by simp) ht)
    · intro symbol l' r' ht
      exact h symbol l' r' (.arg (by simp) ht)
  · rintro ⟨ho, hl, hr⟩ symbol l' r' ht
    rcases subterm_binary_iff.mp ht with he | ht | ht
    · cases he
      exact ho
    · exact hl symbol l' r' ht
    · exact hr symbol l' r' ht

lemma bound_binary_iff {symbol : String} :
    (∀ x ∈ (binary symbol l r).vars, x ∈ s.domain) ↔
      (∀ x ∈ l.vars, x ∈ s.domain) ∧ ∀ x ∈ r.vars, x ∈ s.domain := by
  rw [vars_binary, List.forall_mem_append]

lemma exactIn_binary_iff (o : Operator) :
    (binary o.name l r).ExactIn s ↔
      (l.IsNumeric ∧ l.ExactIn s) ∧ (r.IsNumeric ∧ r.ExactIn s) ∧ RootInRange s o l r := by
  constructor
  · rintro ⟨hw, hb, hi⟩
    rw [wellFormed_binary_iff] at hw
    rw [bound_binary_iff] at hb
    rw [staysInRange_binary_iff] at hi
    obtain ⟨⟨hl, hwl⟩, hr, hwr⟩ := hw
    exact ⟨⟨hl, hwl, hb.1, hi.2.1⟩, ⟨hr, hwr, hb.2, hi.2.2⟩, hi.1⟩
  · rintro ⟨⟨hl, hwl, hbl, hil⟩, ⟨hr, hwr, hbr, hir⟩, ho⟩
    refine ⟨?_, ?_, ?_⟩
    · exact (wellFormed_binary_iff o).mpr ⟨⟨hl, hwl⟩, hr, hwr⟩
    · exact bound_binary_iff.mpr ⟨hbl, hbr⟩
    · exact (staysInRange_binary_iff o).mpr ⟨ho, hil, hir⟩

/-- A leaf has no application in it. -/
lemma exactIn_of_leaf (hs : ∀ symbol args, ¬ (app symbol args).Subterm e)
    (hb : ∀ x ∈ e.vars, x ∈ s.domain) : e.ExactIn s where
  wellFormed symbol args h := absurd h (hs symbol args)
  bound := hb
  inRange symbol l r h := absurd h (hs symbol [l, r])

/-- The exact value of a numeric expression is a word. -/
lemma ExactIn.exists_word (h : e.ExactIn s) (he : e.IsNumeric) :
    ∃ w : Word, w.toInt = e.exactValue s := by
  cases he with
  | const w => exact ⟨w, rfl⟩
  | var x =>
    obtain ⟨w, hw⟩ := h.bound x (by simp)
    refine ⟨w, ?_⟩
    rw [exactValue, hw]
    rfl
  | @arith symbol ha args =>
    obtain ⟨-, l, r, rfl, -, -⟩ := h.wellFormed symbol args (.refl _)
    obtain ⟨-, hr⟩ := h.inRange symbol l r (.refl _) ha
    exact ⟨_, Word.toInt_ofInt_of_representable hr⟩

/-- An expression that is exact in the store has an exact value. -/
lemma ExactIn.exists_value (h : e.ExactIn s) : ∃ v, e.HasExactValue s v := by
  by_cases he : e.IsNumeric
  · obtain ⟨w, hw⟩ := h.exists_word he
    exact ⟨.int w, .int he hw⟩
  · cases e with
    | const w => exact absurd (.const w) he
    | var x => exact absurd (.var x) he
    | app symbol args =>
      obtain ⟨hname, l, r, rfl, -, -⟩ := h.wellFormed symbol args (.refl _)
      rcases List.mem_append.mp hname with hc | ha
      · by_cases hholds : Compares symbol (l.exactValue s) (r.exactValue s)
        · exact ⟨.bool true, .bool hc ⟨fun _ => hholds, fun _ => rfl⟩⟩
        · exact ⟨.bool false, .bool hc ⟨nofun, fun h => absurd h hholds⟩⟩
      · exact absurd (.arith ha [l, r]) he

lemma HasExactValue.kind_eq {v : Value} (h : e.HasExactValue s v) : v.kind = e.rootKind := by
  cases h with
  | int he hw =>
    cases he with
    | const w => rfl
    | var x => rfl
    | arith ha args =>
      rw [rootKind, if_neg fun hc => notMem_arithmeticNames hc ha]
      rfl
  | bool hc _ =>
    rw [rootKind, if_pos hc]
    rfl

end Expr

lemma Word.ne_zero_iff {w : Word} : w ≠ 0 ↔ w.toInt ≠ 0 := by
  rw [ne_eq, ne_eq, ← Int64.toInt_inj]
  rfl

/-- An expression that has a value is exact in the store, and its value is the exact one. -/
theorem Evaluates.exactIn {s : Store} {e : Expr} {v : Value} (h : Evaluates s e (.ok v)) :
    e.ExactIn s ∧ e.HasExactValue s v := by
  generalize ho : Except.ok v = o at h
  induction h generalizing v with
  | const w =>
    cases ho
    refine ⟨Expr.exactIn_of_leaf ?_ (by simp), .int (.const w) rfl⟩
    intro symbol args h
    cases h
  | @bound x w hx =>
    cases ho
    refine ⟨Expr.exactIn_of_leaf ?_ ?_, .int (.var x) ?_⟩
    · intro symbol args h
      cases h
    · simpa using ⟨w, hx⟩
    · rw [Expr.exactValue, hx]
      rfl
  | compare c _ _ hb ihl ihr =>
    cases ho
    obtain ⟨hl, ⟨hnl, hi⟩⟩ := ihl rfl
    obtain ⟨hr, ⟨hnr, hj⟩⟩ := ihr rfl
    rw [hi, hj] at hb
    refine ⟨?_, Expr.hasExactValue_compare_iff.mpr ⟨_, rfl, hb⟩⟩
    exact (Expr.exactIn_binary_iff (.compare c)).mpr ⟨⟨hnl, hl⟩, ⟨hnr, hr⟩, nofun⟩
  | @exact l r i j w a _ _ hz hw ihl ihr =>
    cases ho
    obtain ⟨hl, ⟨hnl, hi⟩⟩ := ihl rfl
    obtain ⟨hr, ⟨hnr, hj⟩⟩ := ihr rfl
    have hroot : Expr.RootInRange s (.arith a) l r := by
      rintro a' ⟨⟩
      rw [← hi, ← hj]
      refine ⟨?_, ?_⟩
      · intro ha
        exact Word.ne_zero_iff.mp fun hj => hz ⟨ha, hj⟩
      · rw [← hw]
        exact Word.representable_toInt w
    rw [hi, hj] at hw
    refine ⟨?_, Expr.hasExactValue_arith_iff.mpr ⟨w, rfl, hw⟩⟩
    exact (Expr.exactIn_binary_iff (.arith a)).mpr ⟨⟨hnl, hl⟩, ⟨hnr, hr⟩, hroot⟩
  | unbound | arity | left | right | unsupported | nonInt | zeroDivisor | overflow => cases ho

/-- An expression that is exact in the store has its exact value. -/
theorem Expr.ExactIn.evaluates {s : Store} {e : Expr} {v : Value} (h : e.ExactIn s)
    (hv : e.HasExactValue s v) : Evaluates s e (.ok v) := by
  induction e using Expr.eval.induct generalizing v with
  | case1 w =>
    cases hv with
    | int _ hw =>
      rw [Int64.toInt_inj.mp hw]
      exact .const w
  | case2 x =>
    obtain ⟨u, hu⟩ := h.bound x (by simp)
    cases hv with
    | @int _ w _ hw =>
      rw [Expr.exactValue, hu] at hw
      rw [Int64.toInt_inj.mp hw]
      exact .bound hu
  | case3 symbol l r ihl ihr =>
    obtain ⟨o, rfl⟩ := Expr.mem_names_iff.mp (h.wellFormed symbol [l, r] (.refl _)).1
    obtain ⟨⟨hnl, hl⟩, ⟨hnr, hr⟩, hroot⟩ := (Expr.exactIn_binary_iff o).mp h
    obtain ⟨i, hi⟩ := hl.exists_word hnl
    obtain ⟨j, hj⟩ := hr.exists_word hnr
    have hli := ihl hl (.int hnl hi)
    have hrj := ihr hr (.int hnr hj)
    cases o with
    | compare c =>
      obtain ⟨b, rfl, hb⟩ := Expr.hasExactValue_compare_iff.mp hv
      rw [← hi, ← hj] at hb
      exact .compare c hli hrj hb
    | arith a =>
      obtain ⟨w, rfl, hw⟩ := Expr.hasExactValue_arith_iff.mp hv
      rw [← hi, ← hj] at hw
      have hz : ¬ (a = .div ∧ j = 0) := by
        rintro ⟨ha, hz⟩
        apply (hroot a rfl).1 ha
        rw [← hj, hz]
        rfl
      exact .exact a hli hrj hz hw
  | case4 symbol args hargs =>
    obtain ⟨-, l, r, rfl, -, -⟩ := h.wellFormed symbol args (.refl _)
    exact absurd rfl (hargs l r)

/-- Evaluation is exact: an expression has a value in a store if and only if it is well formed, its
variables are bound, and no division by zero and no integer out of the range of words occurs when
it is computed over the integers. The value is then the one computed over the integers, and its
kind is known from the expression alone. -/
theorem eval_eq_ok_iff_exactIn (e : Expr) :
    (∀ s, (∃ v, e.eval s = .ok v) ↔ e.ExactIn s) ∧
      (∀ s v, e.eval s = .ok v ↔ e.ExactIn s ∧ e.HasExactValue s v) ∧
      ∀ s v, e.eval s = .ok v → v.kind = e.rootKind := by
  have hiff : ∀ s v, e.eval s = .ok v ↔ e.ExactIn s ∧ e.HasExactValue s v := by
    intro s v
    rw [← evaluates_iff]
    constructor
    · exact Evaluates.exactIn
    · rintro ⟨h, hv⟩
      exact h.evaluates hv
  refine ⟨?_, hiff, ?_⟩
  · intro s
    constructor
    · rintro ⟨v, hv⟩
      exact ((hiff s v).mp hv).1
    · intro h
      obtain ⟨v, hv⟩ := h.exists_value
      exact ⟨v, (hiff s v).mpr ⟨h, hv⟩⟩
  · intro s v h
    exact ((hiff s v).mp h).2.kind_eq

/-- Division truncates toward zero: three times the quotient of `-7` and `2` is the sum of `-3` and
`-6`. The least word has no quotient by `-1`. -/
theorem quotient_exactIn :
    let s := Store.ofList [("x", -7), ("y", 2), ("z", -9223372036854775808)]
    let product := Expr.binary "*" (.binary "/" (.var "x") (.var "y")) (.const 3)
    let sum := Expr.binary "+" (.binary "-" (.const 7) (.const 10)) (.const (-6))
    let e := Expr.binary "=" product sum
    let q := Expr.binary "/" (.var "z") (.const (-1))
    e.eval s = .ok (.bool true) ∧ e.ExactIn s ∧ e.HasExactValue s (.bool true) ∧
      product.exactValue s = -9 ∧ sum.exactValue s = -9 ∧ Kind.bool = e.rootKind ∧
      q.eval s = .error (.overflow .div (-9223372036854775808) (-1)) ∧ ¬ q.ExactIn s := by
  intro s product sum e q
  have he : e.eval s = .ok (.bool true) := rfl
  obtain ⟨-, hvalue, hkind⟩ := eval_eq_ok_iff_exactIn e
  obtain ⟨hexact, hexactValue⟩ := (hvalue s _).mp he
  refine ⟨he, hexact, hexactValue, rfl, rfl, hkind s _ he, rfl, ?_⟩
  intro hq
  obtain ⟨v, hv⟩ := ((eval_eq_ok_iff_exactIn q).1 s).mpr hq
  cases hv

end FlowGraph
