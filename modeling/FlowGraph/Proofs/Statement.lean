import FlowGraph.Execution
import FlowGraph.Proofs.Evaluation

/-!
# Statements of a block

The statements of a block are its assignments, in order, and its jump. `Assigns` and `Leaves` give
the outcome of one statement by rules; this file connects them to `Assignment.word` and
`Program.follow`, and says how far a block gets that fails.
-/

namespace FlowGraph

/-- The outcome of an assignment: only an integer is bound. -/
inductive Assigns (s : Store) (a : Assignment) : Except Fault Word → Prop
  | int {w : Word} (h : Evaluates s a.value (.ok (.int w))) : Assigns s a (.ok w)
  | bool {b : Bool} (h : Evaluates s a.value (.ok (.bool b))) :
      Assigns s a (.error (.boolAssignment a.target))
  | fault {f : Fault} (h : Evaluates s a.value (.error f)) : Assigns s a (.error f)

/-- The label that a jump selects in a store. -/
inductive Selects (s : Store) : Jump → Label → Prop
  | goto (l : Label) : Selects s (.goto l) l
  | yes {c : Expr} {yes no : Label} (h : Evaluates s c (.ok (.bool true))) :
      Selects s (.branch c yes no) yes
  | no {c : Expr} {yes no : Label} (h : Evaluates s c (.ok (.bool false))) :
      Selects s (.branch c yes no) no

/-- The outcome of a jump: the first block in the list with the selected label, or the integer
that is returned. -/
inductive Leaves (P : Program) (s : Store) : Jump → Except Fault Transfer → Prop
  | enter {j : Jump} {l : Label} {b : Block} (h : Selects s j l)
      (hb : P.blocks.find? (fun b => b.label == l) = some b) : Leaves P s j (.ok (.goto b))
  | undefined {j : Jump} {l : Label} (h : Selects s j l) (hb : ∀ b ∈ P.blocks, b.label ≠ l) :
      Leaves P s j (.error (.undefinedLabel l))
  | nonBool {c : Expr} {yes no : Label} {w : Word} (h : Evaluates s c (.ok (.int w))) :
      Leaves P s (.branch c yes no) (.error (.nonBoolCondition .int))
  | condition {c : Expr} {yes no : Label} {f : Fault} (h : Evaluates s c (.error f)) :
      Leaves P s (.branch c yes no) (.error f)
  | halt {e : Expr} {w : Word} (h : Evaluates s e (.ok (.int w))) :
      Leaves P s (.ret e) (.ok (.halt w))
  | nonInt {e : Expr} {b : Bool} (h : Evaluates s e (.ok (.bool b))) :
      Leaves P s (.ret e) (.error (.nonIntReturn .bool))
  | operand {e : Expr} {f : Fault} (h : Evaluates s e (.error f)) :
      Leaves P s (.ret e) (.error f)

lemma Assigns.word_eq {s : Store} {a : Assignment} {o : Except Fault Word} (h : Assigns s a o) :
    a.word s = o := by
  cases h with
  | int h => simp only [Assignment.word, h.eval_eq, Value.int?_int]
  | bool h => simp only [Assignment.word, h.eval_eq, Value.int?_bool]
  | fault h => simp only [Assignment.word, h.eval_eq]

lemma assigns_word (s : Store) (a : Assignment) : Assigns s a (a.word s) := by
  have he := evaluates_eval s a.value
  unfold Assignment.word
  cases hv : a.value.eval s with
  | error f =>
    rw [hv] at he
    exact .fault he
  | ok v =>
    rw [hv] at he
    cases v with
    | int w => exact .int he
    | bool b => exact .bool he

theorem assigns_iff {s : Store} {a : Assignment} {o : Except Fault Word} :
    Assigns s a o ↔ a.word s = o :=
  ⟨Assigns.word_eq, fun h => h ▸ assigns_word s a⟩

section
variable {P : Program} {s : Store}

lemma leaves_resolve {j : Jump} {l : Label} (h : Selects s j l) : Leaves P s j (P.resolve l) := by
  unfold Program.resolve
  cases hb : P.block? l with
  | none => exact .undefined h (Program.block?_eq_none_iff.mp hb)
  | some b => exact .enter h (by rw [← Program.block?_eq_find?, hb])

lemma Selects.mem_targets {j : Jump} {l : Label} (h : Selects s j l) : l ∈ j.targets := by
  cases h <;> simp [Jump.targets]

lemma resolve_of_find? {l : Label} {b : Block}
    (hb : P.blocks.find? (fun b => b.label == l) = some b) : P.resolve l = .ok (.goto b) := by
  unfold Program.resolve
  rw [Program.block?_eq_find?, hb]

lemma resolve_of_forall_ne {l : Label} (hb : ∀ b ∈ P.blocks, b.label ≠ l) :
    P.resolve l = .error (.undefinedLabel l) := by
  unfold Program.resolve
  rw [Program.block?_eq_none_iff.mpr hb]

lemma Selects.follow_eq {j : Jump} {l : Label} (h : Selects s j l) :
    P.follow s j = P.resolve l := by
  cases h with
  | goto => rfl
  | yes h => simp only [Program.follow, h.eval_eq, Value.bool?_bool]
  | no h => simp only [Program.follow, h.eval_eq, Value.bool?_bool]

lemma Leaves.follow_eq {j : Jump} {o : Except Fault Transfer} (h : Leaves P s j o) :
    P.follow s j = o := by
  cases h with
  | enter h hb => rw [h.follow_eq, resolve_of_find? hb]
  | undefined h hb => rw [h.follow_eq, resolve_of_forall_ne hb]
  | nonBool h => simp only [Program.follow, h.eval_eq, Value.bool?_int, Value.kind_int]
  | condition h => simp only [Program.follow, h.eval_eq]
  | halt h => simp only [Program.follow, h.eval_eq, Value.int?_int]
  | nonInt h => simp only [Program.follow, h.eval_eq, Value.int?_bool, Value.kind_bool]
  | operand h => simp only [Program.follow, h.eval_eq]

lemma leaves_branch (c : Expr) (yes no : Label) :
    Leaves P s (.branch c yes no) (P.follow s (.branch c yes no)) := by
  have he := evaluates_eval s c
  rcases hv : c.eval s with f | w | _ | _ <;> rw [hv] at he <;>
    simp only [Program.follow, hv, Value.bool?_int, Value.bool?_bool, Value.kind_int]
  · exact .condition he
  · exact .nonBool he
  · exact leaves_resolve (.no he)
  · exact leaves_resolve (.yes he)

lemma leaves_ret (e : Expr) : Leaves P s (.ret e) (P.follow s (.ret e)) := by
  have he := evaluates_eval s e
  rcases hv : e.eval s with f | w | b <;> rw [hv] at he <;>
    simp only [Program.follow, hv, Value.int?_int, Value.int?_bool, Value.kind_bool]
  · exact .operand he
  · exact .halt he
  · exact .nonInt he

theorem leaves_iff {j : Jump} {o : Except Fault Transfer} : Leaves P s j o ↔ P.follow s j = o := by
  refine ⟨Leaves.follow_eq, ?_⟩
  intro h
  subst h
  cases j with
  | goto l => exact leaves_resolve (.goto l)
  | branch c yes no => exact leaves_branch c yes no
  | ret e => exact leaves_ret e

/-- A jump selects a label, or it leads to no block whatever the program is. -/
lemma selects_or_follow_eq (s : Store) (j : Jump) :
    (∃ l, Selects s j l) ∨ ∃ o : Except Fault Word, ∀ P : Program, P.follow s j = o.map .halt := by
  cases j with
  | goto l => exact .inl ⟨l, .goto l⟩
  | branch c yes no =>
    rcases he : c.eval s with f | w | _ | _
    · exact .inr ⟨.error f, fun P => (Leaves.condition (evaluates_iff.mpr he)).follow_eq⟩
    · exact .inr ⟨.error (.nonBoolCondition .int), fun P =>
        (Leaves.nonBool (evaluates_iff.mpr he)).follow_eq⟩
    · exact .inl ⟨no, .no (evaluates_iff.mpr he)⟩
    · exact .inl ⟨yes, .yes (evaluates_iff.mpr he)⟩
  | ret e =>
    right
    rcases he : e.eval s with f | w | b
    · exact ⟨.error f, fun P => (Leaves.operand (evaluates_iff.mpr he)).follow_eq⟩
    · exact ⟨.ok w, fun P => (Leaves.halt (evaluates_iff.mpr he)).follow_eq⟩
    · exact ⟨.error (.nonIntReturn .bool), fun P =>
        (Leaves.nonInt (evaluates_iff.mpr he)).follow_eq⟩

lemma follow_eq_goto_iff {j : Jump} {b : Block} :
    P.follow s j = .ok (.goto b) ↔ Selects s j b.label ∧ b ∈ P.blocks := by
  rw [← leaves_iff]
  constructor
  · rintro (⟨h, hb⟩ | _ | _ | _ | _ | _ | _)
    rw [← Program.block?_eq_find?, Program.block?_eq_some_iff] at hb
    obtain ⟨hb, rfl⟩ := hb
    exact ⟨h, hb⟩
  · rintro ⟨h, hb⟩
    refine .enter h ?_
    rw [← Program.block?_eq_find?, Program.block?_eq_some_iff]
    exact ⟨hb, rfl⟩

end

inductive Statement where
  | assign (a : Assignment)
  | jump (j : Jump)
deriving DecidableEq, Repr

/-- The expression that a statement evaluates, if there is one. -/
def Statement.expr? : Statement → Option Expr
  | assign a => some a.value
  | jump j => j.operand?

/-- The statements of a block, in order. -/
def Block.statements (b : Block) : List Statement :=
  b.assigns.map .assign ++ [.jump b.jump]

/-- The expressions of a block, in the order of its statements. -/
def Block.exprs (b : Block) : List Expr :=
  b.statements.filterMap Statement.expr?

/-- Executed against the store `s`, a statement fails with `f`. -/
def Statement.Fails (P : Program) (s : Store) (f : Fault) : Statement → Prop
  | assign a => a.word s = .error f
  | jump j => P.follow s j = .error f

/-- Assignments that all yield words, performed in order. -/
inductive Performed : Store → List Assignment → Store → Prop
  | nil (s : Store) : Performed s [] s
  | cons {s t : Store} {a : Assignment} {as : List Assignment} {w : Word}
      (hw : a.value.eval s = .ok (.int w)) (h : Performed (s.assign a.target w) as t) :
      Performed s (a :: as) t

/-- The first `i` statements of a block succeed and lead from `s` to `t`, where the next one
fails with `f`. -/
structure Block.FailsAt (P : Program) (b : Block) (s t : Store) (i : Nat) (f : Fault) : Prop where
  le_length : i ≤ b.assigns.length
  performed : Performed s (b.assigns.take i) t
  fails : ∃ st, b.statements[i]? = some st ∧ st.Fails P t f

lemma word_eq_ok_iff {s : Store} {a : Assignment} {w : Word} :
    a.word s = .ok w ↔ a.value.eval s = .ok (.int w) := by
  rw [← assigns_iff]
  constructor
  · rintro (h | h | h)
    exact h.eval_eq
  · intro h
    exact .int (evaluates_iff.mpr h)

lemma performed_cons_iff {s t : Store} {a : Assignment} {as : List Assignment} :
    Performed s (a :: as) t ↔ ∃ w, a.word s = .ok w ∧ Performed (s.assign a.target w) as t := by
  constructor
  · intro h
    cases h with
    | cons hw h => exact ⟨_, word_eq_ok_iff.mpr hw, h⟩
  · rintro ⟨w, hw, h⟩
    exact .cons (word_eq_ok_iff.mp hw) h

lemma execAll_eq_none_iff {s t : Store} {as : List Assignment} :
    Assignment.execAll s as = (t, none) ↔ Performed s as t := by
  induction as generalizing s with
  | nil =>
    constructor
    · intro h
      cases h
      exact .nil t
    · intro h
      cases h
      rfl
  | cons a as ih =>
    rw [performed_cons_iff]
    unfold Assignment.execAll
    cases hw : a.word s with
    | error f => simp
    | ok w => simp [ih]

/-- Assignments in a row: the later ones are performed where the earlier ones succeed. -/
lemma execAll_append (s : Store) (as bs : List Assignment) :
    Assignment.execAll s (as ++ bs) =
      match Assignment.execAll s as with
      | (t, none) => Assignment.execAll t bs
      | (t, some f) => (t, some f) := by
  induction as generalizing s with
  | nil => rfl
  | cons a as ih =>
    rw [List.cons_append, Assignment.execAll, Assignment.execAll]
    cases a.word s with
    | ok w => exact ih _
    | error f => rfl

lemma Performed.unique {s t u : Store} {as : List Assignment} (h : Performed s as t)
    (h' : Performed s as u) : t = u := by
  rw [← execAll_eq_none_iff] at h h'
  rw [h] at h'
  exact (Prod.mk.inj h').1

lemma performed_append_iff {s t : Store} {as bs : List Assignment} :
    Performed s (as ++ bs) t ↔ ∃ u, Performed s as u ∧ Performed u bs t := by
  induction as generalizing s with
  | nil =>
    constructor
    · intro h
      exact ⟨s, .nil s, h⟩
    · rintro ⟨u, hu, h⟩
      cases hu
      exact h
  | cons a as ih =>
    simp only [List.cons_append, performed_cons_iff, ih]
    constructor
    · rintro ⟨w, hw, u, hu, h⟩
      exact ⟨u, ⟨w, hw, hu⟩, h⟩
    · rintro ⟨u, ⟨w, hw, hu⟩, h⟩
      exact ⟨w, hw, u, hu, h⟩

/-- Of the assignments in a list, one fails in the store `t` that those before it leave. -/
def FirstFault (s : Store) (as : List Assignment) (t : Store) (f : Fault) : Prop :=
  ∃ i a, as[i]? = some a ∧ Performed s (as.take i) t ∧ a.word t = .error f

lemma firstFault_cons_iff {s t : Store} {a : Assignment} {as : List Assignment} {f : Fault} :
    FirstFault s (a :: as) t f ↔ (s = t ∧ a.word s = .error f) ∨
      ∃ w, a.word s = .ok w ∧ FirstFault (s.assign a.target w) as t f := by
  constructor
  · rintro ⟨i, b, hi, hp, hb⟩
    cases i with
    | zero =>
      cases hp
      cases hi
      exact .inl ⟨rfl, hb⟩
    | succ i =>
      rw [List.take_succ_cons, performed_cons_iff] at hp
      obtain ⟨w, hw, hp⟩ := hp
      exact .inr ⟨w, hw, i, b, hi, hp, hb⟩
  · rintro (⟨rfl, ha⟩ | ⟨w, hw, i, b, hi, hp, hb⟩)
    · exact ⟨0, a, rfl, .nil s, ha⟩
    · refine ⟨i + 1, b, hi, ?_, hb⟩
      rw [List.take_succ_cons, performed_cons_iff]
      exact ⟨w, hw, hp⟩

/-- Assignments stop at the first that fails, in the store that those before it leave. -/
lemma execAll_eq_some_iff {s t : Store} {as : List Assignment} {f : Fault} :
    Assignment.execAll s as = (t, some f) ↔ FirstFault s as t f := by
  induction as generalizing s with
  | nil => simp [Assignment.execAll, FirstFault]
  | cons a as ih =>
    rw [firstFault_cons_iff]
    unfold Assignment.execAll
    cases hw : a.word s with
    | error g => simp
    | ok w => simp [ih]

namespace Block

variable (b : Block)

lemma statements_assign {i : Nat} {a : Assignment} (h : b.assigns[i]? = some a) :
    b.statements[i]? = some (.assign a) := by
  have hi : i < b.assigns.length := (List.getElem?_eq_some_iff.mp h).1
  unfold statements
  rw [List.getElem?_append_left (by simpa using hi), List.getElem?_map, h]
  rfl

lemma statements_jump : b.statements[b.assigns.length]? = some (.jump b.jump) := by
  unfold statements
  rw [List.getElem?_append_right (by simp)]
  simp

lemma value_mem_exprs {a : Assignment} (h : a ∈ b.assigns) : a.value ∈ b.exprs :=
  List.mem_filterMap.mpr ⟨.assign a, List.mem_append_left _ (List.mem_map_of_mem h), rfl⟩

lemma operand_mem_exprs {e : Expr} (h : b.jump.operand? = some e) : e ∈ b.exprs :=
  List.mem_filterMap.mpr ⟨.jump b.jump, List.mem_append_right _ List.mem_cons_self, h⟩

end Block

section
variable {P : Program} {b : Block} {s t : Store}

lemma exec_of_execAll_none (h : Assignment.execAll s b.assigns = (t, none)) :
    P.exec b s = ⟨t, P.follow t b.jump⟩ := by
  rw [Program.exec, h]

lemma exec_of_execAll_some {f : Fault} (h : Assignment.execAll s b.assigns = (t, some f)) :
    P.exec b s = ⟨t, .error f⟩ := by
  rw [Program.exec, h]

lemma exec_eq_ok_iff {x : Transfer} :
    P.exec b s = ⟨t, .ok x⟩ ↔ Performed s b.assigns t ∧ P.follow t b.jump = .ok x := by
  rw [← execAll_eq_none_iff]
  unfold Program.exec
  rcases he : Assignment.execAll s b.assigns with ⟨u, _ | f⟩
  · constructor
    · intro h
      obtain ⟨rfl, hx⟩ := Execution.mk.inj h
      exact ⟨rfl, hx⟩
    · rintro ⟨h, hx⟩
      cases h
      rw [← hx]
  · simp

lemma Block.FailsAt.jump_of_length {f : Fault} (h : b.FailsAt P s t b.assigns.length f) :
    Performed s b.assigns t ∧ P.follow t b.jump = .error f := by
  obtain ⟨st, hst, hf⟩ := h.fails
  rw [Block.statements_jump] at hst
  cases hst
  have hp := h.performed
  rw [List.take_length] at hp
  exact ⟨hp, hf⟩

lemma failsAt_iff_of_getElem? {a : Assignment} {i : Nat} {f : Fault}
    (ha : b.assigns[i]? = some a) :
    b.FailsAt P s t i f ↔ Performed s (b.assigns.take i) t ∧ a.word t = .error f := by
  constructor
  · rintro ⟨-, hp, st, hst, hf⟩
    rw [b.statements_assign ha] at hst
    cases hst
    exact ⟨hp, hf⟩
  · rintro ⟨hp, hf⟩
    have hi : i < b.assigns.length := (List.getElem?_eq_some_iff.mp ha).1
    exact ⟨Nat.le_of_lt hi, hp, _, b.statements_assign ha, hf⟩

/-- No statement before the one that fails does so. -/
lemma Block.FailsAt.not_lt {u : Store} {i j : Nat} {f g : Fault} (h : b.FailsAt P s t i f)
    (h' : b.FailsAt P s u j g) : ¬ i < j := by
  intro hij
  have hi : i < b.assigns.length := Nat.lt_of_lt_of_le hij h'.le_length
  obtain ⟨k, rfl⟩ : ∃ k, j = i + 1 + k := ⟨j - (i + 1), by omega⟩
  have hp := h'.performed
  rw [List.take_add, performed_append_iff] at hp
  obtain ⟨v, hv, -⟩ := hp
  rw [List.take_succ_eq_append_getElem hi, performed_append_iff] at hv
  obtain ⟨w, hw, ha⟩ := hv
  obtain rfl := hw.unique h.performed
  obtain ⟨c, hc, -⟩ := performed_cons_iff.mp ha
  obtain ⟨-, hf⟩ := (failsAt_iff_of_getElem? (List.getElem?_eq_getElem hi)).mp h
  rw [hc] at hf
  cases hf

/-- A block fails at one statement only. -/
lemma Block.FailsAt.index_unique {u : Store} {i j : Nat} {f g : Fault} (h : b.FailsAt P s t i f)
    (h' : b.FailsAt P s u j g) : i = j := by
  have hij := h.not_lt h'
  have hji := h'.not_lt h
  omega

lemma failsAt_assign_iff {f : Fault} :
    (∃ i, i < b.assigns.length ∧ b.FailsAt P s t i f) ↔
      Assignment.execAll s b.assigns = (t, some f) := by
  rw [execAll_eq_some_iff]
  constructor
  · rintro ⟨i, hi, h⟩
    obtain ⟨st, hst, hf⟩ := h.fails
    have ha := List.getElem?_eq_getElem hi
    rw [b.statements_assign ha] at hst
    cases hst
    exact ⟨i, _, ha, h.performed, hf⟩
  · rintro ⟨i, a, hi, hp, ha⟩
    have hlt : i < b.assigns.length := (List.getElem?_eq_some_iff.mp hi).1
    exact ⟨i, hlt, Nat.le_of_lt hlt, hp, _, b.statements_assign hi, ha⟩

lemma failsAt_jump_iff {f : Fault} :
    b.FailsAt P s t b.assigns.length f ↔
      Assignment.execAll s b.assigns = (t, none) ∧ P.follow t b.jump = .error f := by
  rw [execAll_eq_none_iff]
  constructor
  · exact Block.FailsAt.jump_of_length
  · rintro ⟨hp, hf⟩
    exact ⟨Nat.le_refl _, by rwa [List.take_length], _, b.statements_jump, hf⟩

lemma failsAt_assign_or_jump {f : Fault} :
    (∃ i, b.FailsAt P s t i f) ↔ Assignment.execAll s b.assigns = (t, some f) ∨
      Assignment.execAll s b.assigns = (t, none) ∧ P.follow t b.jump = .error f := by
  rw [← failsAt_assign_iff (P := P), ← failsAt_jump_iff]
  constructor
  · rintro ⟨i, h⟩
    rcases Nat.lt_or_eq_of_le h.le_length with hi | rfl
    · exact .inl ⟨i, hi, h⟩
    · exact .inr h
  · rintro (⟨i, -, h⟩ | h)
    · exact ⟨i, h⟩
    · exact ⟨_, h⟩

/-- A block fails exactly at one of its statements, in the store that those before it leave. -/
theorem exec_eq_error_iff {f : Fault} :
    P.exec b s = ⟨t, .error f⟩ ↔ ∃ i, b.FailsAt P s t i f := by
  rw [failsAt_assign_or_jump]
  unfold Program.exec
  rcases Assignment.execAll s b.assigns with ⟨u, _ | g⟩
  · simp only [Execution.mk.injEq, Prod.mk.injEq, reduceCtorEq, and_false, and_true, false_or]
    constructor
    · rintro ⟨rfl, h⟩
      exact ⟨rfl, h⟩
    · rintro ⟨rfl, h⟩
      exact ⟨rfl, h⟩
  · simp

lemma exists_failsAt {f : Fault} (h : (P.exec b s).result = .error f) :
    ∃ i, b.FailsAt P s (P.exec b s).store i f :=
  exec_eq_error_iff.mp (by rw [← h])

lemma performed_of_result {x : Transfer} (h : (P.exec b s).result = .ok x) :
    Performed s b.assigns (P.exec b s).store ∧ P.follow (P.exec b s).store b.jump = .ok x :=
  exec_eq_ok_iff.mp (by rw [← h])

lemma Statement.not_fails_noReturn (st : Statement) : ¬ st.Fails P s .noReturn := by
  intro h
  cases st with
  | assign a =>
    cases assigns_iff.mpr h with
    | fault he => exact Expr.eval_ne_noReturn s a.value he.eval_eq
  | jump j =>
    cases leaves_iff.mpr h with
    | condition he => exact Expr.eval_ne_noReturn s _ he.eval_eq
    | operand he => exact Expr.eval_ne_noReturn s _ he.eval_eq

lemma exec_ne_noReturn (P : Program) (b : Block) (s : Store) :
    (P.exec b s).result ≠ .error .noReturn := by
  intro h
  obtain ⟨i, hi⟩ := exists_failsAt h
  obtain ⟨st, -, hf⟩ := hi.fails
  exact st.not_fails_noReturn hf

end

end FlowGraph
