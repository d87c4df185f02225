import FlowGraph.Proofs.Binding
import FlowGraph.Proofs.Construction
import FlowGraph.Proofs.Simulation
import FlowGraph.Proofs.TypeSoundness
import Mathlib.Data.Set.Function
import Mathlib.Logic.Equiv.Basic

/-!
# Names are opaque

Labels and variables can be given other names, as long as different names stay different. This file
shows that nothing else about a name counts: a renamed description is accepted exactly if the
original one is, with the same defect otherwise, and renamed runs end as the original ones do, up to
the names in the fault and in the final store.
-/

namespace FlowGraph

/-- Another name for each label and for each variable. -/
structure Renaming where
  label : Label → Label
  var : Var → Var

namespace Renaming

variable (ρ : Renaming)

mutual

def expr : Expr → Expr
  | .const w => .const w
  | .var x => .var (ρ.var x)
  | .app symbol args => .app symbol (exprs args)

def exprs : List Expr → List Expr
  | [] => []
  | e :: es => expr e :: exprs es

end

def assignment (a : Assignment) : Assignment :=
  ⟨ρ.var a.target, ρ.expr a.value⟩

def jump : Jump → Jump
  | .goto l => .goto (ρ.label l)
  | .branch c yes no => .branch (ρ.expr c) (ρ.label yes) (ρ.label no)
  | .ret e => .ret (ρ.expr e)

def block (b : Block) : Block :=
  ⟨ρ.label b.label, b.assigns.map ρ.assignment, ρ.jump b.jump⟩

def fault : Fault → Fault
  | .undefinedLabel l => .undefinedLabel (ρ.label l)
  | .unboundVariable x => .unboundVariable (ρ.var x)
  | .boolAssignment x => .boolAssignment (ρ.var x)
  | f => f

def defect : Program.Defect → Program.Defect
  | .noBlocks => .noBlocks
  | .duplicateLabel l => .duplicateLabel (ρ.label l)
  | .duplicateInput x => .duplicateInput (ρ.var x)

/-- The store that binds the new name of each variable to the word the variable is bound to. -/
def store (s : Store) : Store :=
  .ofList (s.toList.map fun p => (ρ.var p.1, p.2))

def machine (m : Machine) : Machine :=
  ⟨ρ.store m.store, m.phase.map ρ.block ρ.fault, m.blocks⟩

def visit (x : Visit) : Visit :=
  ⟨ρ.block x.block, ρ.store x.store⟩

lemma length_exprs (es : List Expr) : (ρ.exprs es).length = es.length := by
  induction es with
  | nil => rfl
  | cons e es ih => rw [exprs, List.length_cons, List.length_cons, ih]

end Renaming

/-- The variables that occur in a block, in its expressions or as the target of an assignment. -/
def Block.vars (b : Block) : Set Var :=
  {x | x ∈ b.assigns.map Assignment.target ∨ ∃ e ∈ b.exprs, x ∈ e.vars}

/-- The variables that occur in the description of a program. -/
def varsOf (inputs : List Var) (blocks : List Block) : Set Var :=
  {x | x ∈ inputs ∨ ∃ b ∈ blocks, x ∈ b.vars}

/-- The labels that occur in the description of a program, of blocks or as targets of jumps. -/
def labelsOf (blocks : List Block) : Set Label :=
  {l | ∃ b ∈ blocks, l = b.label ∨ l ∈ b.jump.targets}

lemma forall_mem_vars_binary {V : Set Var} {symbol : String} {l r : Expr} :
    (∀ x ∈ (Expr.binary symbol l r).vars, x ∈ V) ↔
      (∀ x ∈ l.vars, x ∈ V) ∧ ∀ x ∈ r.vars, x ∈ V := by
  simp only [Expr.vars_binary, List.mem_append, or_imp, forall_and]

section
variable {ρ : Renaming} {V : Set Var} {s : Store}

/-- A renamed store binds the new names of the variables that are bound, and nothing else. -/
lemma get?_store_iff (h : s.domain.InjOn ρ.var) {y : Var} {w : Word} :
    (ρ.store s).get? y = some w ↔ ∃ x, s.get? x = some w ∧ ρ.var x = y := by
  have hpairs : ∀ u, (y, u) ∈ s.toList.map (fun p => (ρ.var p.1, p.2)) ↔
      ∃ x, s.get? x = some u ∧ ρ.var x = y := by
    intro u
    rw [List.mem_map]
    constructor
    · rintro ⟨⟨x, u⟩, hp, ⟨⟩⟩
      exact ⟨x, Store.mem_toList_iff.mp hp, rfl⟩
    · rintro ⟨x, hx, rfl⟩
      exact ⟨(x, u), Store.mem_toList_iff.mpr hx, rfl⟩
  have hfun : ∀ u u', (y, u) ∈ s.toList.map (fun p => (ρ.var p.1, p.2)) →
      (y, u') ∈ s.toList.map (fun p => (ρ.var p.1, p.2)) → u = u' := by
    intro u u' hu hu'
    obtain ⟨x, hx, rfl⟩ := (hpairs u).mp hu
    obtain ⟨x', hx', he⟩ := (hpairs u').mp hu'
    rw [h ⟨u', hx'⟩ ⟨u, hx⟩ he, hx] at hx'
    exact Option.some.inj hx'
  rw [Renaming.store, get?_ofList_iff hfun, hpairs]

section
variable (hV : V.InjOn ρ.var) (hs : s.domain ⊆ V)
include hV hs

lemma get?_store {x : Var} (hx : x ∈ V) : (ρ.store s).get? (ρ.var x) = s.get? x := by
  apply Option.ext
  intro w
  rw [get?_store_iff (hV.mono hs)]
  constructor
  · rintro ⟨z, hz, he⟩
    rw [← hV (hs ⟨w, hz⟩) hx he]
    exact hz
  · intro hw
    exact ⟨x, hw, rfl⟩

omit hV in
lemma domain_assign_subset {x : Var} (hx : x ∈ V) (w : Word) : (s.assign x w).domain ⊆ V := by
  intro y hy
  rcases mem_domain_assign.mp hy with rfl | hy
  · exact hx
  · exact hs hy

lemma store_assign {x : Var} (hx : x ∈ V) (w : Word) :
    ρ.store (s.assign x w) = (ρ.store s).assign (ρ.var x) w := by
  have hassign := domain_assign_subset hs hx w
  apply Store.ext
  intro y
  apply Option.ext
  intro u
  rw [get?_store_iff (hV.mono hassign), Store.get?_assign]
  by_cases hy : ρ.var x = y
  · rw [if_pos hy]
    constructor
    · rintro ⟨z, hz, he⟩
      have hzx : x = z := hV hx (hassign ⟨u, hz⟩) (hy.trans he.symm)
      rw [← hz, ← hzx, Store.get?_assign_self]
    · rintro ⟨⟩
      exact ⟨x, Store.get?_assign_self s x _, hy⟩
  · rw [if_neg hy, get?_store_iff (hV.mono hs)]
    apply exists_congr
    intro z
    by_cases hz : x = z
    · subst hz
      simp [hy]
    · rw [Store.get?_assign_of_ne s w hz]

/-- The rules of evaluation do not look at names. -/
theorem Evaluates.rename {e : Expr} {o : Except Fault Value} (h : Evaluates s e o)
    (he : ∀ x ∈ e.vars, x ∈ V) :
    Evaluates (ρ.store s) (ρ.expr e) (o.mapError ρ.fault) := by
  induction h with
  | const w => exact .const w
  | @bound x w hx => exact .bound ((get?_store hV hs (he x (by simp))).trans hx)
  | @unbound x hx => exact .unbound ((get?_store hV hs (he x (by simp))).trans hx)
  | @arity symbol args h =>
    rw [← ρ.length_exprs args] at h
    have ha : Evaluates (ρ.store s) (.app symbol (ρ.exprs args)) _ := .arity h
    rw [ρ.length_exprs args] at ha
    exact ha
  | left _ ihl =>
    exact .left (ihl (forall_mem_vars_binary.mp he).1)
  | right _ _ ihl ihr =>
    obtain ⟨hl, hr⟩ := forall_mem_vars_binary.mp he
    exact .right (ihl hl) (ihr hr)
  | unsupported _ _ ho ihl ihr =>
    obtain ⟨hl, hr⟩ := forall_mem_vars_binary.mp he
    exact .unsupported (ihl hl) (ihr hr) ho
  | nonInt o _ _ hk ihl ihr =>
    obtain ⟨hl, hr⟩ := forall_mem_vars_binary.mp he
    exact .nonInt o (ihl hl) (ihr hr) hk
  | compare c _ _ hb ihl ihr =>
    obtain ⟨hl, hr⟩ := forall_mem_vars_binary.mp he
    exact .compare c (ihl hl) (ihr hr) hb
  | zeroDivisor _ _ ihl ihr =>
    obtain ⟨hl, hr⟩ := forall_mem_vars_binary.mp he
    exact .zeroDivisor (ihl hl) (ihr hr)
  | exact a _ _ hz hw ihl ihr =>
    obtain ⟨hl, hr⟩ := forall_mem_vars_binary.mp he
    exact .exact a (ihl hl) (ihr hr) hz hw
  | overflow a _ _ hz hw ihl ihr =>
    obtain ⟨hl, hr⟩ := forall_mem_vars_binary.mp he
    exact .overflow a (ihl hl) (ihr hr) hz hw

lemma eval_expr {e : Expr} (he : ∀ x ∈ e.vars, x ∈ V) :
    (ρ.expr e).eval (ρ.store s) = (e.eval s).mapError ρ.fault :=
  ((evaluates_eval s e).rename hV hs he).eval_eq

lemma word_assignment {a : Assignment} (ha : ∀ x ∈ a.value.vars, x ∈ V) :
    (ρ.assignment a).word (ρ.store s) = (a.word s).mapError ρ.fault := by
  unfold Assignment.word Renaming.assignment
  rw [eval_expr hV hs ha]
  rcases a.value.eval s with f | w | b <;> rfl

omit hV in
lemma domain_execAll_subset {as : List Assignment} (ht : ∀ a ∈ as, a.target ∈ V) :
    (Assignment.execAll s as).1.domain ⊆ V := by
  induction as generalizing s with
  | nil => exact hs
  | cons a as ih =>
    unfold Assignment.execAll
    cases a.word s with
    | error f => exact hs
    | ok w =>
      have ha := domain_assign_subset hs (ht a List.mem_cons_self) w
      exact ih ha fun b hb => ht b (List.mem_cons_of_mem a hb)

/-- Renamed assignments leave the renamed store and stop at the renamed fault, if any. -/
lemma execAll_rename {as : List Assignment} (ht : ∀ a ∈ as, a.target ∈ V)
    (hv : ∀ a ∈ as, ∀ x ∈ a.value.vars, x ∈ V) :
    Assignment.execAll (ρ.store s) (as.map ρ.assignment) =
      (ρ.store (Assignment.execAll s as).1, (Assignment.execAll s as).2.map ρ.fault) := by
  induction as generalizing s with
  | nil => rfl
  | cons a as ih =>
    have hword := word_assignment hV hs (hv a List.mem_cons_self)
    rw [List.map_cons]
    unfold Assignment.execAll
    rw [hword]
    cases a.word s with
    | error f => rfl
    | ok w =>
      have ha := ht a List.mem_cons_self
      have hrest := ih (domain_assign_subset hs ha w)
        (fun b hb => ht b (List.mem_cons_of_mem a hb))
        (fun b hb => hv b (List.mem_cons_of_mem a hb))
      rw [store_assign hV hs ha] at hrest
      exact hrest

variable {P Q : Program}

lemma follow_rename {j : Jump} (hj : ∀ e, j.operand? = some e → ∀ x ∈ e.vars, x ∈ V)
    (hfound : ∀ l ∈ j.targets, Q.block? (ρ.label l) = (P.block? l).map ρ.block) :
    Q.follow (ρ.store s) (ρ.jump j) =
      ((P.follow s j).map (Transfer.map ρ.block)).mapError ρ.fault := by
  have hr : ∀ l ∈ j.targets, Q.resolve (ρ.label l) =
      ((P.resolve l).map (Transfer.map ρ.block)).mapError ρ.fault := by
    intro l hl
    unfold Program.resolve
    rw [hfound l hl]
    cases P.block? l <;> rfl
  cases j with
  | goto l => exact hr l (by simp [Jump.targets])
  | branch c yes no =>
    have hc := eval_expr hV hs (hj c rfl)
    rcases he : c.eval s with f | w | _ | _ <;> rw [he] at hc <;>
      simp only [Renaming.jump, Program.follow, hc, he, Except.mapError]
    · rfl
    · rfl
    · exact hr no (by simp [Jump.targets])
    · exact hr yes (by simp [Jump.targets])
  | ret e =>
    have hc := eval_expr hV hs (hj e rfl)
    rcases he : e.eval s with f | w | b <;> rw [he] at hc <;>
      simp only [Renaming.jump, Program.follow, hc, he, Except.mapError] <;> rfl

/-- A renamed block does in the renamed store what the block does in the store. -/
theorem exec_rename {b : Block} (hb : b.vars ⊆ V)
    (hfound : ∀ l ∈ b.jump.targets, Q.block? (ρ.label l) = (P.block? l).map ρ.block) :
    Q.exec (ρ.block b) (ρ.store s) =
      ⟨ρ.store (P.exec b s).store,
        ((P.exec b s).result.map (Transfer.map ρ.block)).mapError ρ.fault⟩ := by
  have ht : ∀ a ∈ b.assigns, a.target ∈ V := fun a ha => hb (.inl (List.mem_map_of_mem ha))
  have hv : ∀ a ∈ b.assigns, ∀ x ∈ a.value.vars, x ∈ V := fun a ha x hx =>
    hb (.inr ⟨a.value, b.value_mem_exprs ha, hx⟩)
  have hj : ∀ e, b.jump.operand? = some e → ∀ x ∈ e.vars, x ∈ V := fun e he x hx =>
    hb (.inr ⟨e, b.operand_mem_exprs he, hx⟩)
  have hdomain := domain_execAll_subset hs ht
  have hall := execAll_rename hV hs ht hv
  unfold Program.exec Renaming.block
  rw [hall]
  rcases he : Assignment.execAll s b.assigns with ⟨t, _ | f⟩
  · rw [he] at hdomain
    simp only [Option.map_none, follow_rename hV hdomain hj hfound]
    rfl
  · rfl

omit hV in
lemma domain_exec_subset {b : Block} (hb : b.vars ⊆ V) : (P.exec b s).store.domain ⊆ V := by
  have ht : ∀ a ∈ b.assigns, a.target ∈ V := fun a ha => hb (.inl (List.mem_map_of_mem ha))
  rw [exec_store, ← execAll_store]
  exact domain_execAll_subset hs ht

end

section
variable {P Q : Program} (hl : (labelsOf P.blocks).InjOn ρ.label)
  (hQ : Q.blocks = P.blocks.map ρ.block)
include hl hQ

lemma block?_rename {l : Label} (h : l ∈ labelsOf P.blocks) :
    Q.block? (ρ.label l) = (P.block? l).map ρ.block := by
  cases hb : P.block? l with
  | some b =>
    obtain ⟨hmem, rfl⟩ := Program.block?_eq_some_iff.mp hb
    refine Program.block?_eq_some_iff.mpr ⟨?_, rfl⟩
    rw [hQ]
    exact List.mem_map_of_mem hmem
  | none =>
    refine Program.block?_eq_none_iff.mpr ?_
    intro c hc he
    rw [hQ] at hc
    obtain ⟨b, hmem, rfl⟩ := List.mem_map.mp hc
    exact Program.block?_eq_none_iff.mp hb b hmem (hl ⟨b, hmem, .inl rfl⟩ h he)

variable (hV : V.InjOn ρ.var) (hvars : ∀ b ∈ P.blocks, b.vars ⊆ V)
include hV hvars

/-- The renamed program simulates the program, on renamed machines. -/
theorem simulates_rename : Simulates P Q
    (fun m m' => m' = ρ.machine m ∧ m.Within {b | b ∈ P.blocks} ∧ m.store.domain ⊆ V)
    (fun x => [ρ.visit x]) where
  step := by
    rintro s b k m ⟨rfl, hw, hs⟩
    have hb : b ∈ P.blocks := hw b rfl
    have hfound : ∀ l ∈ b.jump.targets, Q.block? (ρ.label l) = (P.block? l).map ρ.block :=
      fun l h => block?_rename hl hQ ⟨b, hb, .inr h⟩
    refine ⟨_, .single Q (ρ.store s) (ρ.block b) k, ?_, within_step P s b k, ?_⟩
    · rw [step_pending, exec_rename hV hs (hvars b hb) hfound, Phase.after_map]
      rfl
    · exact domain_exec_subset hs (hvars b hb)
  answer_ne_nil := by simp
  stopped := by
    rintro m n o ⟨rfl, -, -⟩ ho
    refine ⟨o.mapError ρ.fault, ?_⟩
    rw [Renaming.machine, Phase.outcome?_map, ho]
    rfl

end

lemma firstRepeatFrom?_map {α β : Type} [DecidableEq α] [DecidableEq β] {f : α → β} {S : Set α}
    (hf : S.InjOn f) {seen as : List α} (hseen : ∀ a ∈ seen, a ∈ S) (has : ∀ a ∈ as, a ∈ S) :
    firstRepeatFrom? (seen.map f) (as.map f) = (firstRepeatFrom? seen as).map f := by
  induction as generalizing seen with
  | nil => rfl
  | cons a as ih =>
    have ha := has a List.mem_cons_self
    have hmem : f a ∈ seen.map f ↔ a ∈ seen := by
      constructor
      · intro h
        obtain ⟨b, hb, he⟩ := List.mem_map.mp h
        rwa [← hf (hseen b hb) ha he]
      · exact List.mem_map_of_mem
    have hrest := ih (List.forall_mem_cons.mpr ⟨ha, hseen⟩)
      (fun b hb => has b (List.mem_cons_of_mem a hb))
    rw [List.map_cons] at hrest ⊢
    unfold firstRepeatFrom?
    rw [hrest]
    by_cases h : a ∈ seen
    · rw [if_pos (hmem.mpr h), if_pos h]
      rfl
    · rw [if_neg (mt hmem.mp h), if_neg h]

lemma firstRepeat?_map {α β : Type} [DecidableEq α] [DecidableEq β] {f : α → β} {S : Set α}
    (hf : S.InjOn f) {as : List α} (has : ∀ a ∈ as, a ∈ S) :
    firstRepeat? (as.map f) = (firstRepeat? as).map f := by
  have hseen : ∀ a ∈ ([] : List α), a ∈ S := nofun
  exact firstRepeatFrom?_map hf hseen has

/-- The first defect of a renamed description is the renamed defect, if there is one. -/
lemma firstDefect?_rename {inputs : List Var} {blocks : List Block}
    (hl : (labelsOf blocks).InjOn ρ.label) (hv : (varsOf inputs blocks).InjOn ρ.var) :
    Program.firstDefect? (inputs.map ρ.var) (blocks.map ρ.block) =
      (Program.firstDefect? inputs blocks).map ρ.defect := by
  have hinputs : firstRepeat? (inputs.map ρ.var) = (firstRepeat? inputs).map ρ.var :=
    firstRepeat?_map hv fun x hx => .inl hx
  have hlabels : firstRepeat? ((blocks.map ρ.block).map Block.label) =
      (firstRepeat? (blocks.map Block.label)).map ρ.label := by
    have hmap : (blocks.map ρ.block).map Block.label = (blocks.map Block.label).map ρ.label := by
      simp [Renaming.block, Function.comp_def]
    rw [hmap]
    refine firstRepeat?_map hl ?_
    intro l h
    obtain ⟨b, hb, rfl⟩ := List.mem_map.mp h
    exact ⟨b, hb, .inl rfl⟩
  unfold Program.firstDefect?
  rw [hinputs, hlabels]
  cases firstRepeat? inputs with
  | some x => rfl
  | none =>
    by_cases hb : blocks = []
    · simp [hb, Renaming.defect]
    · cases firstRepeat? (blocks.map Block.label) <;> simp [hb, Renaming.defect]

end

/-- Names are opaque. If a renaming keeps apart the names that occur, the renamed description makes
a program exactly if the original one does, and has the renamed defect otherwise; the run of the
renamed program on the renamed store ends exactly if the original run does, with the renamed
outcome, after as many blocks and in the renamed store. -/
theorem run_rename (ρ : Renaming) (inputs : List Var) (blocks : List Block)
    (hl : (labelsOf blocks).InjOn ρ.label) (hv : (varsOf inputs blocks).InjOn ρ.var) :
    ((∃ Q, Program.build (inputs.map ρ.var) (blocks.map ρ.block) = .ok Q) ↔
      ∃ P, Program.build inputs blocks = .ok P) ∧
    (∀ d, Program.build inputs blocks = .error d →
      Program.build (inputs.map ρ.var) (blocks.map ρ.block) = .error (ρ.defect d)) ∧
    ∀ P Q, Program.build inputs blocks = .ok P →
      Program.build (inputs.map ρ.var) (blocks.map ρ.block) = .ok Q →
      ∀ s : Store, (varsOf inputs blocks ∪ s.domain).InjOn ρ.var → ∀ v,
        ((∃ fuel r, P.run v fuel s = some r) ↔ ∃ fuel r, Q.run v fuel (ρ.store s) = some r) ∧
        ∀ fuel fuel' r r', P.run v fuel s = some r → Q.run v fuel' (ρ.store s) = some r' →
          r'.outcome = r.outcome.mapError ρ.fault ∧
          r'.machine.blocks = r.machine.blocks ∧
          r'.machine.store = ρ.store r.machine.store := by
  have hdefect := firstDefect?_rename hl hv
  refine ⟨?_, ?_, ?_⟩
  · rw [Program.exists_build_iff, Program.exists_build_iff, ← Program.firstDefect?_eq_none_iff,
      ← Program.firstDefect?_eq_none_iff, hdefect, Option.map_eq_none_iff]
  · intro d hd
    rw [Program.build_eq_error_iff] at hd ⊢
    rw [hdefect, hd]
    rfl
  · intro P Q hP hQ s hs v
    obtain ⟨rfl, rfl⟩ := Program.fields_of_build hP
    obtain ⟨-, hblocks⟩ := Program.fields_of_build hQ
    have hvars : ∀ b ∈ P.blocks, b.vars ⊆ varsOf P.inputs P.blocks ∪ s.domain :=
      fun b hb x hx => .inl (.inr ⟨b, hb, hx⟩)
    have hentry : Q.entry = ρ.block P.entry := by
      simp only [Program.entry, hblocks, List.head_map]
    have hstart : Machine.start Q (ρ.store s) = ρ.machine (.start P s) := by
      unfold Machine.start
      rw [hentry]
      rfl
    obtain ⟨hends, hsame⟩ := (simulates_rename hl hblocks hs hvars).run (.nil _)
      ⟨hstart, within_start P s, Set.subset_union_right⟩ v
    refine ⟨hends, ?_⟩
    intro fuel fuel' r r' hr hr'
    obtain ⟨⟨hm, -, -⟩, -⟩ := hsame fuel fuel' r r' hr hr'
    have ho' := Program.outcome?_of_run hr'
    rw [hm, Renaming.machine, Phase.outcome?_map, Program.outcome?_of_run hr] at ho'
    exact ⟨(Option.some.inj ho').symm, by rw [hm]; rfl, by rw [hm]; rfl⟩

/-- The countdown with the names of its variables exchanged and a number for a text in its labels:
without its input it lacks the variable under the new name, and an input declared twice is named
so as well. -/
theorem countdown_run_rename :
    let n : Var := "n"
    let acc : Var := "acc"
    let ρ : Renaming := ⟨Equiv.swap (.text "loop") (.num 1), Equiv.swap n acc⟩
    let P := Program.countdown
    (∃ Q r fuel r', Program.build (P.inputs.map ρ.var) (P.blocks.map ρ.block) = .ok Q ∧
      P.run .off 2 .empty = some r ∧ Q.run .off fuel (ρ.store .empty) = some r' ∧
      r'.outcome = .error (.unboundVariable acc) ∧ r'.machine.blocks = 2 ∧
      r'.machine.store = ρ.store r.machine.store) ∧
    Program.build [n, n] P.blocks = .error (.duplicateInput n) ∧
    Program.build ([n, n].map ρ.var) (P.blocks.map ρ.block) = .error (.duplicateInput acc) := by
  intro n acc ρ P
  have hl : ρ.label.Injective := (Equiv.swap (Label.text "loop") (Label.num 1)).injective
  have hv : ρ.var.Injective := (Equiv.swap n acc).injective
  obtain ⟨hbuild, -, hruns⟩ := run_rename ρ P.inputs P.blocks hl.injOn hv.injOn
  have hP : Program.build P.inputs P.blocks = .ok P := Program.build_eq_ok_iff.mpr ⟨rfl, rfl⟩
  obtain ⟨Q, hQ⟩ := hbuild.mpr ⟨P, hP⟩
  obtain ⟨hends, hsame⟩ := hruns P Q hP hQ .empty hv.injOn .off
  obtain ⟨fuel, r', hr'⟩ := hends.mp ⟨2, _, rfl⟩
  refine ⟨⟨Q, _, fuel, r', hQ, rfl, hr', hsame 2 fuel _ r' rfl hr'⟩, rfl, ?_⟩
  exact (run_rename ρ [n, n] P.blocks hl.injOn hv.injOn).2.1 _ rfl

end FlowGraph
