import FlowGraph.Proofs.Binding
import Mathlib.Data.Set.Basic

/-!
# Runs in step

Two programs that find the same blocks, run on stores that agree on the variables they read, visit
the same blocks and bind the same pairs. The second store may bind more variables and the second
program have more blocks, as long as the first run does not fail for lack of one of them.
-/

namespace FlowGraph

/-- Two stores agree on the variables of `V`; those of `N` may be bound in the second alone. -/
def Store.AgreeOn (V N : Set Var) (s t : Store) : Prop :=
  ∀ x ∈ V, s.get? x = t.get? x ∨ s.get? x = none ∧ x ∈ N

/-- Whether a fault comes from the lack of a variable of `N` or of a label of `L`. -/
def Fault.LackOf (N : Set Var) (L : Set Label) : Fault → Prop
  | unboundVariable x => x ∈ N
  | undefinedLabel l => l ∈ L
  | _ => False

/-- An outcome that does not come from the lack of a variable of `N` or of a label of `L`. -/
def Robust {α : Type} (N : Set Var) (L : Set Label) (o : Except Fault α) : Prop :=
  ∀ f, o = .error f → ¬ f.LackOf N L

/-- From the blocks of `B`, which read the variables of `V`, the jumps of `P` and `Q` lead to the
same blocks of `B`; the labels of `L` may be found in `Q` alone. -/
structure InStep (P Q : Program) (B : Set Block) (V : Set Var) (L : Set Label) : Prop where
  reads : ∀ b ∈ B, ∀ e ∈ b.exprs, ∀ x ∈ e.vars, x ∈ V
  found : ∀ b ∈ B, ∀ l ∈ b.jump.targets, ∀ c, P.block? l = some c → c ∈ B ∧ Q.block? l = some c
  missing : ∀ b ∈ B, ∀ l ∈ b.jump.targets, P.block? l = none → l ∈ L ∨ Q.block? l = none

/-- What a visit does: its block and the pairs it binds. -/
def Visit.effect (x : Visit) : Block × List (Var × Word) :=
  (x.block, x.bindings)

section
variable {α : Type} {V N : Set Var} {L : Set Label} {s t : Store}

@[simp] lemma robust_ok (a : α) : Robust N L (.ok a) := nofun

@[simp] lemma robust_error_iff {f : Fault} :
    Robust N L (.error f : Except Fault α) ↔ ¬ f.LackOf N L := by
  simp [Robust]

lemma robust_empty (o : Except Fault α) : Robust ∅ ∅ o := by
  rintro (_ | _ | _) - hf <;> exact hf

namespace Store.AgreeOn

lemma assign (h : s.AgreeOn V N t) (x : Var) (w : Word) :
    (s.assign x w).AgreeOn V N (t.assign x w) := by
  intro y hy
  by_cases hxy : x = y
  · subst hxy
    simp
  · rw [get?_assign_of_ne s w hxy, get?_assign_of_ne t w hxy]
    exact h y hy

lemma assignAll (h : s.AgreeOn V N t) (ps : List (Var × Word)) :
    (s.assignAll ps).AgreeOn V N (t.assignAll ps) := by
  induction ps generalizing s t with
  | nil => exact h
  | cons p ps ih => exact ih (h.assign p.1 p.2)

end Store.AgreeOn

lemma Store.AgreeOn.read_eq (hs : s.AgreeOn V N t) {x : Var} (hx : x ∈ V)
    (ho : Robust N L (s.read x)) : t.read x = s.read x := by
  unfold Store.read at ho ⊢
  rcases hs x hx with h | ⟨h, hN⟩
  · rw [h]
  · rw [h, robust_error_iff] at ho
    exact absurd hN ho

theorem Expr.eval_agree (hs : s.AgreeOn V N t) {e : Expr} (hv : ∀ x ∈ e.vars, x ∈ V)
    (ho : Robust N L (e.eval s)) : e.eval t = e.eval s := by
  induction e using Expr.eval.induct with
  | case1 w => rfl
  | case2 x =>
    have hread : Robust N L (s.read x) := by
      intro f hf
      exact ho f (by rw [eval_var, hf]; rfl)
    rw [eval_var, eval_var, hs.read_eq (hv x (by simp)) hread]
  | case3 symbol l r ihl ihr =>
    simp only [vars_binary, List.mem_append] at hv
    have hl := ihl fun x hx => hv x (.inl hx)
    have hr := ihr fun x hx => hv x (.inr hx)
    cases hu : l.eval s with
    | error f =>
      rw [eval_binary_left hu] at ho ⊢
      rw [hu] at hl
      exact eval_binary_left (hl ho)
    | ok u =>
      rw [hu] at hl
      cases hw : r.eval s with
      | error f =>
        rw [eval_binary_right hu hw] at ho ⊢
        rw [hw] at hr
        exact eval_binary_right (hl (robust_ok u)) (hr ho)
      | ok w =>
        rw [hw] at hr
        rw [eval_binary_ok hu hw, eval_binary_ok (hl (robust_ok u)) (hr (robust_ok w))]
  | case4 symbol args h =>
    have hn := length_ne_two h
    rw [eval_app s symbol hn, eval_app t symbol hn]

lemma Expr.eval_congr {e : Expr} (h : ∀ x ∈ e.vars, s.get? x = t.get? x) : e.eval t = e.eval s := by
  have hs : s.AgreeOn {x | x ∈ e.vars} ∅ t := fun x hx => .inl (h x hx)
  exact Expr.eval_agree hs (fun _ hx => hx) (robust_empty _)

lemma Assignment.word_agree (hs : s.AgreeOn V N t) {a : Assignment}
    (hv : ∀ x ∈ a.value.vars, x ∈ V) (ho : Robust N L (a.word s)) : a.word t = a.word s := by
  have he : Robust N L (a.value.eval s) := by
    intro f hf
    exact ho f (by unfold word; rw [hf])
  unfold word
  rw [Expr.eval_agree hs hv he]

/-- Assignments bind the same pairs in either store and stop at the same fault, if any. -/
lemma Assignment.execAll_agree (hs : s.AgreeOn V N t) {as : List Assignment}
    (hv : ∀ a ∈ as, ∀ x ∈ a.value.vars, x ∈ V)
    (ho : ∀ f, (execAll s as).2 = some f → ¬ f.LackOf N L) :
    (execAll t as).2 = (execAll s as).2 ∧ bindings t as = bindings s as := by
  induction as generalizing s t with
  | nil => exact ⟨rfl, rfl⟩
  | cons a as ih =>
    have hw : Robust N L (a.word s) := by
      intro f hf
      exact ho f (by unfold execAll; rw [hf])
    have ha := word_agree hs (hv a List.mem_cons_self) hw
    unfold execAll at ho ⊢
    unfold bindings
    rw [ha]
    cases hr : a.word s with
    | error f => exact ⟨rfl, rfl⟩
    | ok w =>
      rw [hr] at ho
      obtain ⟨h, hb⟩ := ih (hs.assign a.target w) (fun b hb => hv b (List.mem_cons_of_mem a hb)) ho
      exact ⟨h, congrArg _ hb⟩

end

section
variable {P Q : Program} {B : Set Block} {V N : Set Var} {L : Set Label} {b : Block} {s t : Store}

namespace InStep

variable (h : InStep P Q B V L) (hb : b ∈ B)
include h hb

lemma resolve_eq {l : Label} (hl : l ∈ b.jump.targets) (ho : Robust N L (P.resolve l)) :
    Q.resolve l = P.resolve l := by
  unfold Program.resolve at ho ⊢
  cases hc : P.block? l with
  | some c => rw [(h.found b hb l hl c hc).2]
  | none =>
    rw [hc, robust_error_iff] at ho
    rw [(h.missing b hb l hl hc).resolve_left ho]

lemma follow_eq (hs : s.AgreeOn V N t) (ho : Robust N L (P.follow s b.jump)) :
    Q.follow t b.jump = P.follow s b.jump := by
  have hr : ∀ l ∈ b.jump.targets, Robust N L (P.resolve l) → Q.resolve l = P.resolve l :=
    fun l hl => h.resolve_eq hb hl
  have he : ∀ e, b.jump.operand? = some e → Robust N L (e.eval s) → e.eval t = e.eval s :=
    fun e he => Expr.eval_agree hs (h.reads b hb e (b.operand_mem_exprs he))
  generalize b.jump = j at ho hr he
  cases j with
  | goto l => exact hr l (by simp [Jump.targets]) ho
  | branch c yes no =>
    have hc : Robust N L (c.eval s) := by
      intro f hf
      exact ho f (by simp only [Program.follow, hf])
    have hct := he c rfl hc
    rcases hu : c.eval s with f | w | _ | _ <;>
      simp only [Program.follow, hct, hu, Value.bool?_int, Value.bool?_bool] at ho ⊢
    · exact hr no (by simp [Jump.targets]) ho
    · exact hr yes (by simp [Jump.targets]) ho
  | ret e =>
    have hret : Robust N L (e.eval s) := by
      intro f hf
      exact ho f (by simp only [Program.follow, hf])
    simp only [Program.follow, he e rfl hret]

/-- From a block of `B` either program goes on in the same way, with the same pairs bound. -/
theorem exec_eq (hs : s.AgreeOn V N t) (ho : Robust N L (P.exec b s).result) :
    (Q.exec b t).result = (P.exec b s).result ∧
      Assignment.bindings t b.assigns = Assignment.bindings s b.assigns := by
  rw [exec_result] at ho
  have hall : ∀ f, (Assignment.execAll s b.assigns).2 = some f → ¬ f.LackOf N L := by
    intro f hf
    exact ho f (by rw [hf])
  obtain ⟨hfault, hbind⟩ := Assignment.execAll_agree hs
    (fun a ha => h.reads b hb a.value (b.value_mem_exprs ha)) hall
  refine ⟨?_, hbind⟩
  rw [exec_result P, exec_result Q, hfault]
  cases hf : (Assignment.execAll s b.assigns).2 with
  | some f => rfl
  | none =>
    rw [hf] at ho
    have hu := hs.assignAll (Assignment.bindings s b.assigns)
    rw [exec_store] at ho
    rw [exec_store, exec_store, hbind]
    exact h.follow_eq hb hu ho

lemma mem_of_result {c : Block} (hr : (P.exec b s).result = .ok (.goto c)) : c ∈ B := by
  obtain ⟨-, hf⟩ := performed_of_result hr
  obtain ⟨hsel, hc⟩ := follow_eq_goto_iff.mp hf
  exact (h.found b hb c.label hsel.mem_targets c (Program.block?_eq_some_iff.mpr ⟨hc, rfl⟩)).1

end InStep

/-- The two programs keep in step along a route whose end does not come from a lack. -/
theorem InStep.route (h : InStep P Q B V L) {m n : Machine} {vs : List Visit} (hr : Route P m vs n)
    (hm : ∀ b, m.phase = .pending b → b ∈ B) (hs : m.store.AgreeOn V N t)
    (ho : ∀ f, n.phase = .failed f → ¬ f.LackOf N L) :
    ∃ ws u, Route Q { m with store := t } ws { n with store := u } ∧
      ws.map Visit.effect = vs.map Visit.effect := by
  induction hr generalizing t with
  | nil m => exact ⟨[], t, .nil _, rfl⟩
  | @cons b s k vs n hr ih =>
    have hb := hm b rfl
    have hrobust : Robust N L (P.exec b s).result := by
      intro f hf
      have hfail : (Machine.step P ⟨s, .pending b, k⟩).phase = .failed f := by
        rw [step_pending, hf]
        rfl
      obtain ⟨-, rfl⟩ := hr.of_stopped (by rw [hfail]; rfl)
      exact ho f hfail
    obtain ⟨hresult, hbind⟩ := h.exec_eq hb hs hrobust
    have hs' : (P.exec b s).store.AgreeOn V N (Q.exec b t).store := by
      rw [exec_store, exec_store, hbind]
      exact hs.assignAll _
    have hm' : ∀ c, Phase.after (P.exec b s).result = .pending c → c ∈ B := by
      intro c hc
      exact h.mem_of_result hb (after_eq_pending_iff.mp hc)
    obtain ⟨ws, u, hw, heff⟩ := ih hm' hs' ho
    refine ⟨⟨b, t⟩ :: ws, u, .cons ?_, ?_⟩
    · rw [step_pending, hresult]
      exact hw
    · rw [List.map_cons, List.map_cons, heff]
      exact congrArg (fun ps => (b, ps) :: _) hbind

lemma effect_bindings (vs : List Visit) :
    vs.flatMap Visit.bindings = (vs.map Visit.effect).flatMap Prod.snd := by
  rw [List.flatMap_map]
  rfl

lemma effect_blocks (vs : List Visit) :
    vs.map Visit.block = (vs.map Visit.effect).map Prod.fst := by
  rw [List.map_map]
  rfl

/-- A run whose outcome does not come from a lack has a run of the second program in step with it,
under the same bound and with the same outcome. -/
theorem InStep.run (h : InStep P Q B V L) (hentry : Q.entry = P.entry) (hb : P.entry ∈ B)
    (hs : s.AgreeOn V N t) {v : Verbosity} {fuel : Nat} {r : Run} (hr : P.run v fuel s = some r)
    (ho : Robust N L r.outcome) :
    ∃ r' vs ws, Q.run v fuel t = some r' ∧ r'.outcome = r.outcome ∧
      r'.machine.blocks = r.machine.blocks ∧
      Route P (.start P s) vs r.machine ∧ Route Q (.start Q t) ws r'.machine ∧
      ws.map Visit.effect = vs.map Visit.effect := by
  obtain ⟨vs, hroute, hlen, hout, -⟩ := Program.run_eq_some_iff.mp hr
  have hstart : ∀ b, (Machine.start P s).phase = .pending b → b ∈ B := by
    rintro b ⟨⟩
    exact hb
  have hend : ∀ f, r.machine.phase = .failed f → ¬ f.LackOf N L := by
    intro f hf
    rw [hf] at hout
    exact ho f (Option.some.inj hout).symm
  obtain ⟨ws, u, hw, heff⟩ := h.route hroute hstart hs hend
  have hlen' : ws.length = vs.length := by
    simpa using congrArg List.length heff
  have hw' : Route Q (.start Q t) ws { r.machine with store := u } := by
    unfold Machine.start
    rw [hentry]
    exact hw
  let r' : Run := ⟨{ r.machine with store := u }, r.outcome,
    v.keep (Route.report Q (.start Q t) ws { r.machine with store := u })⟩
  refine ⟨r', vs, ws, ?_, rfl, rfl, hroute, hw', heff⟩
  exact Program.run_eq_some_iff.mpr ⟨ws, hw', hlen' ▸ hlen, hout, rfl⟩

end

end FlowGraph
