import FlowGraph.Proofs.CountingLoop
import Mathlib.Data.Set.Basic

/-!
# Well-typed programs fail in arithmetic alone

A program is well typed if its expressions have the kinds that their places ask for and its jumps
lead to blocks. It is covered by `D` if every variable it reads in a block is in `D` for that block
or assigned earlier in it, and blocks hand on what the next one needs. Such a program, started on a
store that binds `D` for the entry, ends with an integer or with a fault of arithmetic.
-/

namespace FlowGraph

/-- The static kind of an expression. -/
inductive Expr.HasKind : Expr → Kind → Prop
  | const (w : Word) : HasKind (.const w) .int
  | var (x : Var) : HasKind (.var x) .int
  | arith (a : Arithmetic) {l r : Expr} (hl : HasKind l .int) (hr : HasKind r .int) :
      HasKind (.binary a.name l r) .int
  | compare (c : Comparison) {l r : Expr} (hl : HasKind l .int) (hr : HasKind r .int) :
      HasKind (.binary c.name l r) .bool

inductive Jump.WellTyped : Jump → Prop
  | goto (l : Label) : WellTyped (.goto l)
  | branch {c : Expr} (hc : c.HasKind .bool) (yes no : Label) : WellTyped (.branch c yes no)
  | ret {e : Expr} (he : e.HasKind .int) : WellTyped (.ret e)

structure Program.WellTyped (P : Program) : Prop where
  assigns : ∀ b ∈ P.blocks, ∀ a ∈ b.assigns, a.value.HasKind .int
  jump : ∀ b ∈ P.blocks, b.jump.WellTyped
  targets : ∀ b ∈ P.blocks, ∀ l ∈ b.jump.targets, ∃ c ∈ P.blocks, c.label = l

def Jump.vars (j : Jump) : List Var :=
  (j.operand?.map Expr.vars).getD []

/-- The variables bound at the entry of every block suffice for what it and its successors read. -/
structure Program.Covered (P : Program) (D : Label → Set Var) : Prop where
  assigns : ∀ b ∈ P.blocks, ∀ before a after, b.assigns = before ++ a :: after →
    ∀ x ∈ a.value.vars, x ∈ D b.label ∨ x ∈ before.map Assignment.target
  jump : ∀ b ∈ P.blocks, ∀ x ∈ b.jump.vars, x ∈ D b.label ∨ x ∈ b.assigns.map Assignment.target
  flow : ∀ b ∈ P.blocks, ∀ l ∈ b.jump.targets, ∀ x ∈ D l,
    x ∈ D b.label ∨ x ∈ b.assigns.map Assignment.target

def Store.domain (s : Store) : Set Var :=
  {x | ∃ w, s.get? x = some w}

lemma mem_domain_assign {s : Store} {x y : Var} {w : Word} :
    y ∈ (s.assign x w).domain ↔ x = y ∨ y ∈ s.domain := by
  simp only [Store.domain, Set.mem_ofPred_eq, Store.get?_assign]
  by_cases h : x = y <;> simp [h]

/-- Whether a fault concerns the range of words alone. -/
inductive Fault.IsArithmetic : Fault → Prop
  | divisionByZero : IsArithmetic .divisionByZero
  | overflow (a : Arithmetic) (l r : Word) : IsArithmetic (.overflow a l r)

/-- A result with a property, or a fault of arithmetic. -/
def Safe {α : Type} (p : α → Prop) : Except Fault α → Prop
  | .ok x => p x
  | .error f => f.IsArithmetic

namespace Safe

variable {α β : Type} {p q : α → Prop} {o : Except Fault α}

lemma mono (h : Safe p o) (hpq : ∀ a, p a → q a) : Safe q o := by
  cases o with
  | ok a => exact hpq a h
  | error f => exact h

lemma map {p : β → Prop} {g : α → β} (h : Safe (fun a => p (g a)) o) : Safe p (o.map g) := by
  cases o with
  | ok a => exact h
  | error f => exact h

lemma isArithmetic {f : Fault} (h : Safe p o) (ho : o = .error f) : f.IsArithmetic := by
  rw [ho] at h
  exact h

end Safe

section
variable {s : Store} {l r e : Expr}

lemma Arithmetic.safe_apply (a : Arithmetic) (i j : Word) : Safe (fun _ => True) (a.apply i j) := by
  unfold Arithmetic.apply
  split
  · exact .divisionByZero
  · split
    · trivial
    · exact .overflow a i j

lemma safe_binary {p : Value → Prop} {o : Operator}
    (hl : Safe (fun v => v.kind = .int) (l.eval s)) (hr : Safe (fun v => v.kind = .int) (r.eval s))
    (ho : ∀ i j, Safe p (o.apply (.int i) (.int j))) :
    Safe p ((Expr.binary o.name l r).eval s) := by
  rcases hu : l.eval s with f | i | b <;> rw [hu] at hl
  · rw [Expr.eval_binary_left hu]
    exact hl
  · rcases hv : r.eval s with f | j | b <;> rw [hv] at hr
    · rw [Expr.eval_binary_right hu hv]
      exact hr
    · rw [Expr.eval_binary_name o hu hv]
      exact ho i j
    · cases hr
  · cases hl

theorem Expr.HasKind.safe_eval {k : Kind} (h : e.HasKind k) (hs : ∀ x ∈ e.vars, x ∈ s.domain) :
    Safe (fun v => v.kind = k) (e.eval s) := by
  induction h with
  | const w => rfl
  | var x =>
    obtain ⟨w, hw⟩ := hs x (by simp)
    rw [Expr.eval_var, Store.read_eq_ok_iff.mpr hw]
    rfl
  | arith a _ _ ihl ihr =>
    simp only [Expr.vars_binary, List.mem_append] at hs
    have hl := ihl fun x hx => hs x (.inl hx)
    have hr := ihr fun x hx => hs x (.inr hx)
    refine safe_binary (o := .arith a) hl hr ?_
    intro i j
    exact ((a.safe_apply i j).mono fun _ _ => rfl).map
  | compare c _ _ ihl ihr =>
    simp only [Expr.vars_binary, List.mem_append] at hs
    have hl := ihl fun x hx => hs x (.inl hx)
    have hr := ihr fun x hx => hs x (.inr hx)
    exact safe_binary (o := .compare c) hl hr fun i j => rfl

lemma safe_word {a : Assignment} (h : a.value.HasKind .int) (hs : ∀ x ∈ a.value.vars, x ∈ s.domain) :
    Safe (fun _ => True) (a.word s) := by
  have he := h.safe_eval hs
  unfold Assignment.word
  rcases hv : a.value.eval s with f | w | b <;> rw [hv] at he
  · exact he
  · trivial
  · cases he

end

lemma Performed.mem_domain_iff {s t : Store} {as : List Assignment} (h : Performed s as t)
    (x : Var) : x ∈ t.domain ↔ x ∈ s.domain ∨ x ∈ as.map Assignment.target := by
  induction h with
  | nil s => simp
  | cons _ _ ih =>
    rw [ih, mem_domain_assign, List.map_cons, List.mem_cons, eq_comm]
    tauto

section
variable {P : Program} {D : Label → Set Var}

lemma safe_resolve {l : Label} (h : ∃ c ∈ P.blocks, c.label = l) :
    Safe (fun x => ∀ b, x = .goto b → b ∈ P.blocks ∧ b.label = l) (P.resolve l) := by
  unfold Program.resolve
  cases hb : P.block? l with
  | none =>
    obtain ⟨c, hc, hl⟩ := h
    exact absurd hl (Program.block?_eq_none_iff.mp hb c hc)
  | some c =>
    rintro b ⟨⟩
    exact Program.block?_eq_some_iff.mp hb

lemma safe_follow {j : Jump} {t : Store} (hj : j.WellTyped) (hv : ∀ x ∈ j.vars, x ∈ t.domain)
    (ht : ∀ l ∈ j.targets, ∃ c ∈ P.blocks, c.label = l) :
    Safe (fun x => ∀ b, x = .goto b → b ∈ P.blocks ∧ b.label ∈ j.targets) (P.follow t j) := by
  have hto : ∀ l ∈ j.targets,
      Safe (fun x => ∀ b, x = .goto b → b ∈ P.blocks ∧ b.label ∈ j.targets) (P.resolve l) := by
    intro l hl
    refine (safe_resolve (ht l hl)).mono ?_
    intro x hx b hb
    obtain ⟨hmem, rfl⟩ := hx b hb
    exact ⟨hmem, hl⟩
  cases hj with
  | goto l => exact hto l (by simp [Jump.targets])
  | @branch c hc yes no =>
    have he := hc.safe_eval hv
    rcases hu : c.eval t with f | w | _ | _ <;> rw [hu] at he <;>
      simp only [Program.follow, hu, Value.bool?_bool]
    · exact he
    · cases he
    · exact hto no (by simp [Jump.targets])
    · exact hto yes (by simp [Jump.targets])
  | @ret e hint =>
    have he := hint.safe_eval hv
    rcases hu : e.eval t with f | w | b <;> rw [hu] at he <;>
      simp only [Program.follow, hu, Value.int?_int]
    · exact he
    · rintro b ⟨⟩
    · cases he

variable (hP : P.WellTyped) (hD : P.Covered D) {b : Block} (hb : b ∈ P.blocks) {s t : Store}
  (hs : ∀ x ∈ D b.label, x ∈ s.domain)
include hP hD hb hs

lemma safe_follow_of_performed (h : Performed s b.assigns t) :
    Safe (fun x => ∀ c, x = .goto c → c ∈ P.blocks ∧ c.label ∈ b.jump.targets)
      (P.follow t b.jump) := by
  have hbound : ∀ x ∈ b.jump.vars, x ∈ t.domain := by
    intro x hx
    rw [h.mem_domain_iff]
    exact (hD.jump b hb x hx).imp_left (hs x)
  exact safe_follow (hP.jump b hb) hbound (hP.targets b hb)

lemma isArithmetic_of_failsAt {i : Nat} {f : Fault} (h : b.FailsAt P s t i f) :
    f.IsArithmetic := by
  rcases Nat.lt_or_eq_of_le h.le_length with hi | rfl
  · obtain ⟨st, hst, hf⟩ := h.fails
    have ha := List.getElem?_eq_getElem hi
    rw [b.statements_assign ha] at hst
    cases hst
    have hsplit : b.assigns = b.assigns.take i ++ b.assigns[i] :: b.assigns.drop (i + 1) := by
      rw [List.getElem_cons_drop, List.take_append_drop]
    have hbound : ∀ x ∈ b.assigns[i].value.vars, x ∈ t.domain := by
      intro x hx
      have hx' := hD.assigns b hb _ _ _ hsplit x hx
      rw [h.performed.mem_domain_iff]
      exact hx'.imp_left (hs x)
    have hkind := hP.assigns b hb _ (List.getElem_mem hi)
    exact (safe_word hkind hbound).isArithmetic hf
  · obtain ⟨hp, hf⟩ := h.jump_of_length
    exact (safe_follow_of_performed hP hD hb hs hp).isArithmetic hf

/-- A block hands control to a block whose variables are bound, or fails in arithmetic. -/
lemma safe_exec :
    Safe (fun x => ∀ c, x = .goto c → c ∈ P.blocks ∧ ∀ y ∈ D c.label, y ∈ (P.exec b s).store.domain)
      (P.exec b s).result := by
  cases hr : (P.exec b s).result with
  | error f =>
    obtain ⟨i, hi⟩ := exists_failsAt hr
    exact isArithmetic_of_failsAt hP hD hb hs hi
  | ok x =>
    obtain ⟨hp, hf⟩ := performed_of_result hr
    have hj := safe_follow_of_performed hP hD hb hs hp
    rw [hf] at hj
    intro c hc
    obtain ⟨hmem, hl⟩ := hj c hc
    refine ⟨hmem, ?_⟩
    intro y hy
    have hy' := hD.flow b hb c.label hl y hy
    rw [hp.mem_domain_iff]
    exact hy'.imp_left (hs y)

end

/-- A machine in front of a block of the program finds the variables of that block bound; one that
has failed has failed in arithmetic. -/
def Machine.Sound (P : Program) (D : Label → Set Var) (m : Machine) : Prop :=
  match m.phase with
  | .pending b => b ∈ P.blocks ∧ ∀ x ∈ D b.label, x ∈ m.store.domain
  | .returned _ => True
  | .failed f => f.IsArithmetic

lemma sound_step {P : Program} {D : Label → Set Var} (hP : P.WellTyped) (hD : P.Covered D)
    (s : Store) (b : Block) (k : Nat) (h : Machine.Sound P D ⟨s, .pending b, k⟩) :
    Machine.Sound P D (Machine.step P ⟨s, .pending b, k⟩) := by
  have he := safe_exec hP hD h.1 h.2
  rw [step_pending]
  unfold Machine.Sound
  rcases hr : (P.exec b s).result with f | c | w <;> rw [hr] at he
  · exact he
  · exact he c rfl
  · trivial

/-- A well-typed program that is covered by `D`, run on a store that binds `D` for the entry,
returns an integer, divides by zero or overflows. -/
theorem wellTyped_run_outcome {P : Program} {D : Label → Set Var} (hP : P.WellTyped)
    (hD : P.Covered D) {s : Store} (hs : ∀ x ∈ D P.entry.label, x ∈ s.domain) {v : Verbosity}
    {fuel : Nat} {r : Run} (hr : P.run v fuel s = some r) :
    (∃ w, r.outcome = .ok w) ∨ r.outcome = .error .divisionByZero ∨
      ∃ a i j, r.outcome = .error (.overflow a i j) := by
  obtain ⟨vs, hroute, -, ho, -⟩ := Program.run_eq_some_iff.mp hr
  have hsound := hroute.invariant (sound_step hP hD) ⟨P.entry_mem, hs⟩
  unfold Machine.Sound at hsound
  rcases hp : r.machine.phase with b | w | f <;> rw [hp] at ho hsound
  · cases ho
  · exact .inl ⟨w, (Option.some.inj ho).symm⟩
  · rw [← Option.some.inj ho]
    cases hsound with
    | divisionByZero => exact .inr (.inl rfl)
    | overflow a i j => exact .inr (.inr ⟨a, i, j, rfl⟩)

section countdown

lemma countdown_wellTyped : Program.countdown.WellTyped where
  assigns := by
    rw [Countdown.forall_mem_blocks_iff]
    refine ⟨?_, nofun, ?_, nofun⟩
    · exact List.forall_mem_singleton.mpr (.const 0)
    · exact List.forall_mem_cons.mpr ⟨.arith .sub (.var _) (.const 1),
        List.forall_mem_singleton.mpr (.arith .add (.var _) (.const 1))⟩
  jump := Countdown.forall_mem_blocks_iff.mpr
    ⟨.goto _, .branch (.compare .le (.var _) (.const 0)) _ _, .goto _, .ret (.var _)⟩
  targets := by
    rw [Countdown.forall_mem_blocks_iff]
    refine ⟨?_, ?_, ?_, nofun⟩
    · exact List.forall_mem_singleton.mpr ⟨Countdown.test, by simp [Countdown.blocks_eq], rfl⟩
    · exact List.forall_mem_cons.mpr ⟨⟨Countdown.last, by simp [Countdown.blocks_eq], rfl⟩,
        List.forall_mem_singleton.mpr ⟨Countdown.body, by simp [Countdown.blocks_eq], rfl⟩⟩
    · exact List.forall_mem_singleton.mpr ⟨Countdown.test, by simp [Countdown.blocks_eq], rfl⟩

def countdownDomain (l : Label) : Set Var :=
  {x | x = "n" ∨ x = "acc" ∧ l ≠ .text "entry"}

/-- What the assignments of the countdown read is bound at the entry of their block. -/
lemma countdown_reads : ∀ b ∈ Program.countdown.blocks, ∀ a ∈ b.assigns,
    ∀ x ∈ a.value.vars, x ∈ countdownDomain b.label := by
  rw [Countdown.forall_mem_blocks_iff]
  refine ⟨?_, nofun, ?_, nofun⟩
  · exact List.forall_mem_singleton.mpr nofun
  · refine List.forall_mem_cons.mpr ⟨?_, List.forall_mem_singleton.mpr ?_⟩
    · exact List.forall_mem_singleton.mpr (.inl rfl)
    · exact List.forall_mem_singleton.mpr (.inr ⟨rfl, by decide⟩)

lemma countdown_covered : Program.countdown.Covered countdownDomain where
  assigns b hb before a after h x hx := by
    have ha : a ∈ b.assigns := by
      rw [h]
      exact List.mem_append_right before List.mem_cons_self
    exact .inl (countdown_reads b hb a ha x hx)
  jump := by
    rw [Countdown.forall_mem_blocks_iff]
    refine ⟨nofun, ?_, nofun, ?_⟩
    · exact List.forall_mem_singleton.mpr (.inl (.inl rfl))
    · exact List.forall_mem_singleton.mpr (.inl (.inr ⟨rfl, by decide⟩))
  flow := by
    have hlater : ∀ l, l ≠ .text "entry" → ∀ k, ∀ x ∈ countdownDomain k, x ∈ countdownDomain l :=
      fun l hl k x hx => hx.imp_right fun h => ⟨h.1, hl⟩
    rw [Countdown.forall_mem_blocks_iff]
    refine ⟨?_, ?_, ?_, nofun⟩
    · refine List.forall_mem_singleton.mpr fun x hx => ?_
      rcases hx with rfl | ⟨rfl, -⟩
      · exact .inl (.inl rfl)
      · exact .inr List.mem_cons_self
    · exact fun l _ x hx => .inl (hlater _ (by decide) l x hx)
    · exact fun l _ x hx => .inl (hlater _ (by decide) l x hx)

/-- Counting down from two meets the conditions, and ends in one of the ways allowed. -/
theorem countdown_run_outcome :
    Program.countdown.WellTyped ∧ Program.countdown.Covered countdownDomain ∧
    (∀ x ∈ countdownDomain Program.countdown.entry.label, x ∈ (Store.ofList [("n", 2)]).domain) ∧
    ∃ r, Program.countdown.run .off 9 (.ofList [("n", 2)]) = some r ∧
      ((∃ w, r.outcome = .ok w) ∨ r.outcome = .error .divisionByZero ∨
        ∃ a i j, r.outcome = .error (.overflow a i j)) := by
  have hs : ∀ x ∈ countdownDomain Program.countdown.entry.label,
      x ∈ (Store.ofList [("n", 2)]).domain := by
    rintro x (rfl | ⟨-, h⟩)
    · exact ⟨2, rfl⟩
    · exact absurd rfl h
  obtain ⟨r, hr⟩ : ∃ r, Program.countdown.run .off 9 (.ofList [("n", 2)]) = some r := ⟨_, rfl⟩
  exact ⟨countdown_wellTyped, countdown_covered, hs, r, hr,
    wellTyped_run_outcome countdown_wellTyped countdown_covered hs hr⟩

end countdown

end FlowGraph
