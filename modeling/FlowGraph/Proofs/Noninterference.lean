import FlowGraph.Proofs.Lockstep
import FlowGraph.Sample

/-!
# What a run depends on

A run depends on the variables that occur in the blocks it can reach, and on no others. This file
shows that stores which agree on these variables lead to the same outcome by the same number of
blocks, or both to none, and that a run leaves alone what it does not assign.
-/

namespace FlowGraph

namespace Program

/-- Blocks that jumps can lead to from the entry. -/
inductive Reachable (P : Program) : Block → Prop
  | entry : Reachable P P.entry
  | jump {b c : Block} {l : Label} (hb : Reachable P b) (hl : l ∈ b.jump.targets)
      (hc : P.block? l = some c) : Reachable P c

/-- The variables that occur in an expression of a block that can be reached. -/
def reads (P : Program) : Set Var :=
  {x | ∃ b, P.Reachable b ∧ ∃ e ∈ b.exprs, x ∈ e.vars}

lemma Reachable.mem_blocks {P : Program} {b : Block} (h : P.Reachable b) : b ∈ P.blocks := by
  cases h with
  | entry => exact P.entry_mem
  | jump hb hl hc => exact (block?_eq_some_iff.mp hc).1

end Program

section
variable {P : Program} {s t : Store}

lemma inStep_reachable (P : Program) : InStep P P {b | P.Reachable b} P.reads ∅ where
  reads b hb e he _ hx := ⟨b, hb, e, he, hx⟩
  found _ hb _ hl _ hc := ⟨.jump hb hl hc, hc⟩
  missing _ _ _ _ hl := .inr hl

lemma run_of_agree (h : ∀ x ∈ P.reads, s.get? x = t.get? x) {v : Verbosity} {fuel : Nat} {r : Run}
    (hr : P.run v fuel s = some r) :
    ∃ r' vs ws, P.run v fuel t = some r' ∧ r'.outcome = r.outcome ∧
      r'.machine.blocks = r.machine.blocks ∧ Route P (.start P s) vs r.machine ∧
      Route P (.start P t) ws r'.machine ∧ ws.map Visit.effect = vs.map Visit.effect := by
  have hs : s.AgreeOn P.reads ∅ t := fun x hx => .inl (h x hx)
  exact (inStep_reachable P).run rfl .entry hs hr (robust_empty _)

/-- Routes with the same effects keep the agreement of stores and make them agree on what they
assign. -/
lemma get?_of_effect {m n m' n' : Machine} {vs ws : List Visit} (hv : Route P m vs n)
    (hw : Route P m' ws n') (heff : ws.map Visit.effect = vs.map Visit.effect) {x : Var}
    (hx : x ∈ assigned vs ∨ m.store.get? x = m'.store.get? x) :
    n.store.get? x = n'.store.get? x := by
  rw [hv.store_eq, hw.store_eq, effect_bindings ws, heff, ← effect_bindings]
  rcases hx with hx | hx
  · exact Store.get?_assignAll_of_mem hx
  · rw [Store.get?_assignAll, Store.get?_assignAll, hx]

end

/-- Stores that agree on the variables a program reads either both lead to an end, under the same
bounds, or neither does. At the end the outcomes and the numbers of blocks are equal, the stores
agree on the variables that are read and on those that are assigned, and every other variable is as
it was at the start. -/
theorem run_noninterference {P : Program} {s t : Store}
    (h : ∀ x ∈ P.reads, s.get? x = t.get? x) (v : Verbosity) :
    (∀ fuel, (∃ r, P.run v fuel s = some r) ↔ ∃ r, P.run v fuel t = some r) ∧
    ∀ fuel fuel' r r', P.run v fuel s = some r → P.run v fuel' t = some r' →
      r.outcome = r'.outcome ∧ r.machine.blocks = r'.machine.blocks ∧
      ∃ vs ws, Route P (.start P s) vs r.machine ∧ Route P (.start P t) ws r'.machine ∧
        (∀ x, x ∈ P.reads ∨ x ∈ assigned vs ∨ x ∈ assigned ws →
          r.machine.store.get? x = r'.machine.store.get? x) ∧
        (∀ x, x ∉ assigned vs → r.machine.store.get? x = s.get? x) ∧
        ∀ x, x ∉ assigned ws → r'.machine.store.get? x = t.get? x := by
  refine ⟨?_, ?_⟩
  · intro fuel
    constructor
    · rintro ⟨r, hr⟩
      obtain ⟨r', -, -, hr', -⟩ := run_of_agree h hr
      exact ⟨r', hr'⟩
    · rintro ⟨r, hr⟩
      obtain ⟨r', -, -, hr', -⟩ := run_of_agree (fun x hx => (h x hx).symm) hr
      exact ⟨r', hr'⟩
  · intro fuel fuel' r r' hr hr'
    obtain ⟨r₂, vs, ws, hr₂, hout, hsteps, hv, hw, heff⟩ := run_of_agree h hr
    obtain rfl := Program.run_unique hr₂ hr'
    have hassigned : assigned ws = assigned vs := by
      unfold assigned
      rw [effect_bindings, heff, ← effect_bindings]
    refine ⟨hout.symm, hsteps.symm, vs, ws, hv, hw, ?_, ?_, ?_⟩
    · rintro x (hx | hx | hx)
      · exact get?_of_effect hv hw heff (.inr (h x hx))
      · exact get?_of_effect hv hw heff (.inl hx)
      · exact get?_of_effect hv hw heff (.inl (hassigned ▸ hx))
    · intro x hx
      exact hv.get?_of_not_assigned hx
    · intro x hx
      exact hw.get?_of_not_assigned hx

lemma eq_of_mem_countdown_reads {x : Var} (h : x ∈ Program.countdown.reads) :
    x = "n" ∨ x = "acc" := by
  obtain ⟨b, hb, e, he, hx⟩ := h
  have hall : ∀ b ∈ Program.countdown.blocks, ∀ e ∈ b.exprs, ∀ x ∈ e.vars,
      x = "n" ∨ x = "acc" := by decide
  exact hall b hb.mem_blocks e he x hx

/-- The countdown does not depend on a variable that it does not read. -/
theorem countdown_run_noninterference :
    let s := Store.ofList [("n", 2)]
    let t := Store.ofList [("n", 2), ("z", 5)]
    (∀ x ∈ Program.countdown.reads, s.get? x = t.get? x) ∧
      (∀ fuel, (∃ r, Program.countdown.run .off fuel s = some r) ↔
        ∃ r, Program.countdown.run .off fuel t = some r) ∧
      ∃ r r', Program.countdown.run .off 7 s = some r ∧
        Program.countdown.run .off 9 t = some r' ∧ r.outcome = r'.outcome ∧
        r.machine.blocks = r'.machine.blocks ∧
        ∃ vs ws, Route .countdown (.start .countdown s) vs r.machine ∧
          Route .countdown (.start .countdown t) ws r'.machine ∧
          (∀ x, x ∈ Program.countdown.reads ∨ x ∈ assigned vs ∨ x ∈ assigned ws →
            r.machine.store.get? x = r'.machine.store.get? x) ∧
          (∀ x, x ∉ assigned vs → r.machine.store.get? x = s.get? x) ∧
          ∀ x, x ∉ assigned ws → r'.machine.store.get? x = t.get? x := by
  intro s t
  have h : ∀ x ∈ Program.countdown.reads, s.get? x = t.get? x := by
    intro x hx
    rcases eq_of_mem_countdown_reads hx with rfl | rfl <;> rfl
  obtain ⟨hends, hsame⟩ := run_noninterference h .off
  obtain ⟨r, hr⟩ : ∃ r, Program.countdown.run .off 7 s = some r := ⟨_, rfl⟩
  obtain ⟨r', hr'⟩ : ∃ r, Program.countdown.run .off 9 t = some r := ⟨_, rfl⟩
  exact ⟨h, hends, r, r', hr, hr', hsame 7 9 r r' hr hr'⟩

end FlowGraph
