import FlowGraph.Proofs.Lockstep
import FlowGraph.Sample

/-!
# More variables and more blocks

A run goes on as before when its store binds more variables and its program has more blocks, unless
it failed for lack of what is now there. This file shows that the outcome and the blocks visited are
the same, and that the final stores differ in the added bindings alone.
-/

namespace FlowGraph

/-- The second store binds what the first one binds, to the same words. -/
def Store.Extends (s t : Store) : Prop :=
  ∀ x w, s.get? x = some w → t.get? x = some w

section
variable {P Q : Program} {s t : Store}

lemma Store.Extends.or_get? (h : s.Extends t) (x : Var) :
    (s.get? x).or (t.get? x) = t.get? x := by
  cases hx : s.get? x with
  | none => rfl
  | some w => rw [h x w hx, Option.some_or]

lemma Store.Extends.get?_assignAll (h : s.Extends t) (ps : List (Var × Word)) (x : Var) :
    (t.assignAll ps).get? x = ((s.assignAll ps).get? x).or (t.get? x) := by
  rw [Store.get?_assignAll, Store.get?_assignAll, Option.or_assoc, h.or_get?]

lemma Store.Extends.agreeOn (h : s.Extends t) :
    s.AgreeOn Set.univ {x | t.get? x ≠ none} t := by
  rintro x -
  cases hx : s.get? x with
  | some w => exact .inl (h x w hx).symm
  | none =>
    cases ht : t.get? x with
    | none => exact .inl rfl
    | some w => exact .inr ⟨rfl, by simp [ht]⟩

variable (h : P.blocks <+: Q.blocks)
include h

lemma entry_of_isPrefix : Q.entry = P.entry := by
  obtain ⟨more, hQ⟩ := h
  simp only [Program.entry, ← hQ]
  exact List.head_append_of_ne_nil _

lemma block?_of_isPrefix {l : Label} {b : Block} (hb : P.block? l = some b) :
    Q.block? l = some b := by
  obtain ⟨hmem, hl⟩ := Program.block?_eq_some_iff.mp hb
  exact Program.block?_eq_some_iff.mpr ⟨h.subset hmem, hl⟩

lemma inStep_of_isPrefix :
    InStep P Q Set.univ Set.univ {l | ∃ b ∈ Q.blocks, b.label = l} where
  reads _ _ _ _ _ _ := Set.mem_univ _
  found _ _ _ _ _ hc := ⟨Set.mem_univ _, block?_of_isPrefix h hc⟩
  missing _ _ l _ _ := by
    cases hl : Q.block? l with
    | none => exact .inr rfl
    | some b => exact .inl ⟨b, Program.block?_eq_some_iff.mp hl⟩

end

/-- A run that ends goes the same way in a program with further blocks and on a store with further
bindings, unless it fails for lack of a variable or a block that is now there. -/
theorem run_extension {P Q : Program} {s t : Store} {v : Verbosity} {fuel : Nat} {r : Run}
    (hblocks : P.blocks <+: Q.blocks) (hstore : s.Extends t) (hr : P.run v fuel s = some r)
    (hvar : ∀ x, r.outcome = .error (.unboundVariable x) → t.get? x = none)
    (hlabel : ∀ l, r.outcome = .error (.undefinedLabel l) → ∀ b ∈ Q.blocks, b.label ≠ l) :
    ∃ r', Q.run v fuel t = some r' ∧ r'.outcome = r.outcome ∧
      r'.machine.blocks = r.machine.blocks ∧
      (∃ vs ws, Route P (.start P s) vs r.machine ∧ Route Q (.start Q t) ws r'.machine ∧
        ws.map Visit.block = vs.map Visit.block) ∧
      ∀ x, r'.machine.store.get? x = (r.machine.store.get? x).or (t.get? x) := by
  have ho : Robust {x | t.get? x ≠ none} {l | ∃ b ∈ Q.blocks, b.label = l} r.outcome := by
    intro f hf hlack
    cases f with
    | unboundVariable x => exact hlack (hvar x hf)
    | undefinedLabel l =>
      obtain ⟨b, hb, hl⟩ := hlack
      exact hlabel l hf b hb hl
    | _ => exact hlack
  obtain ⟨r', vs, ws, hr', hout, hsteps, hv, hw, heff⟩ := (inStep_of_isPrefix hblocks).run
    (entry_of_isPrefix hblocks) (Set.mem_univ _) hstore.agreeOn hr ho
  refine ⟨r', hr', hout, hsteps, ⟨vs, ws, hv, hw, ?_⟩, ?_⟩
  · rw [effect_blocks, effect_blocks, heff]
  · intro x
    rw [hv.store_eq, hw.store_eq, effect_bindings, effect_bindings, heff]
    exact hstore.get?_assignAll _ x

/-- Without its input the countdown fails as before when there is one block more and one variable
more, which is not that input. -/
theorem countdown_run_extension :
    let spare : Block := ⟨.num 0, [], .ret (.const 0)⟩
    let t := Store.ofList [("acc", 3)]
    ∃ Q r, Program.build ["n"] (Program.countdown.blocks ++ [spare]) = .ok Q ∧
      Program.countdown.run .off 2 .empty = some r ∧
      r.outcome = .error (.unboundVariable "n") ∧
      ∃ r', Q.run .off 2 t = some r' ∧ r'.outcome = r.outcome ∧
        r'.machine.blocks = r.machine.blocks ∧
        (∃ vs ws, Route .countdown (.start .countdown .empty) vs r.machine ∧
          Route Q (.start Q t) ws r'.machine ∧ ws.map Visit.block = vs.map Visit.block) ∧
        ∀ x, r'.machine.store.get? x = (r.machine.store.get? x).or (t.get? x) := by
  intro spare t
  refine ⟨_, _, rfl, rfl, rfl, ?_⟩
  apply run_extension
  · exact List.prefix_append _ _
  · intro x w hx
    simp at hx
  · rfl
  · rintro x ⟨⟩
    rfl
  · nofun

end FlowGraph
