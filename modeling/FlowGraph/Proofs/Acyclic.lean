import FlowGraph.Proofs.Noninterference
import FlowGraph.Proofs.Record
import FlowGraph.Proofs.Simulation
import Mathlib.Data.Set.Card
import Mathlib.Logic.Relation

/-!
# Programs without cycles

A program may loop forever only if one of its jumps leads back. This file shows that a program in
which no block that can be reached leads back to itself comes to an end from every store, be it with
a result or with a fault, and that it runs every block at most once. The reason is that each block
of a run leads to all later ones, and that there are only so many blocks.
-/

namespace FlowGraph

open Relation (TransGen)

namespace Program

/-- The jump of the block `b` names the label of the block `c`. -/
def Edge (P : Program) (b c : Block) : Prop :=
  ∃ l ∈ b.jump.targets, P.block? l = some c

/-- No block that can be reached from the entry leads back to itself, through one jump or more. -/
def Acyclic (P : Program) : Prop :=
  ∀ b, P.Reachable b → ¬ TransGen P.Edge b b

def reachableBlocks (P : Program) : Set Block :=
  {b | P.Reachable b}

variable {P : Program}

lemma Reachable.edge {b c : Block} (hb : P.Reachable b) (h : P.Edge b c) : P.Reachable c := by
  obtain ⟨l, hl, hc⟩ := h
  exact .jump hb hl hc

lemma acyclic_of_rank (rank : Block → Nat)
    (h : ∀ b, P.Reachable b → ∀ c, P.Edge b c → rank b < rank c) : P.Acyclic := by
  have hpath : ∀ b c, TransGen P.Edge b c → P.Reachable b → rank b < rank c := by
    intro b c hbc
    induction hbc using TransGen.head_induction_on with
    | single hedge => exact fun hb => h _ hb c hedge
    | head hedge _ ih =>
      intro hb
      exact Nat.lt_trans (h _ hb _ hedge) (ih (hb.edge hedge))
  intro b hb hcycle
  exact Nat.lt_irrefl _ (hpath b b hcycle hb)

lemma reachableBlocks_finite (P : Program) : P.reachableBlocks.Finite :=
  P.blocks.finite_toSet.subset fun _ hb => hb.mem_blocks

lemma ncard_reachableBlocks_le (P : Program) : P.reachableBlocks.ncard ≤ P.blocks.length := by
  have hsub : P.reachableBlocks ⊆ P.blocks.toFinset := by
    intro b hb
    rw [List.coe_toFinset]
    exact Reachable.mem_blocks hb
  calc
    P.reachableBlocks.ncard ≤ (P.blocks.toFinset : Set Block).ncard := Set.ncard_le_ncard hsub
    _ = P.blocks.toFinset.card := Set.ncard_coe_finset _
    _ ≤ P.blocks.length := P.blocks.toFinset_card_le

lemma length_le_of_nodup {bs : List Block} (hn : bs.Nodup) (hbs : ∀ b ∈ bs, P.Reachable b) :
    bs.length ≤ P.reachableBlocks.ncard := by
  have hsub : (bs.toFinset : Set Block) ⊆ P.reachableBlocks := by
    intro b hb
    rw [List.coe_toFinset] at hb
    exact hbs b hb
  calc
    bs.length = bs.toFinset.card := (List.toFinset_card_of_nodup hn).symm
    _ = (bs.toFinset : Set Block).ncard := (Set.ncard_coe_finset _).symm
    _ ≤ P.reachableBlocks.ncard := Set.ncard_le_ncard hsub P.reachableBlocks_finite

end Program

section
variable {P : Program} {m n : Machine} {vs : List Visit}

lemma Visit.LeadsTo.edge {x y : Visit} (h : x.LeadsTo P y) : P.Edge x.block y.block :=
  ⟨y.block.label, h.selects.mem_targets, Program.block?_eq_some_iff.mpr ⟨h.mem, rfl⟩⟩

lemma within_step_reachable {s : Store} {b : Block} {k : Nat} (hb : P.Reachable b) :
    (Machine.step P ⟨s, .pending b, k⟩).Within P.reachableBlocks := by
  intro c hc
  exact (inStep_reachable P).mem_of_result hb (after_eq_pending_iff.mp hc)

lemma Route.reachable (h : Route P m vs n) (hm : m.Within P.reachableBlocks) :
    ∀ b ∈ vs.map Visit.block, P.Reachable b := by
  induction h with
  | nil => nofun
  | @cons b s k vs n _ ih =>
    have hb : P.Reachable b := hm b rfl
    rw [List.map_cons, List.forall_mem_cons]
    exact ⟨hb, ih (within_step_reachable hb)⟩

/-- Every block of a route leads to all blocks after it. -/
lemma Route.pairwise (h : Route P m vs n) : (vs.map Visit.block).Pairwise (TransGen P.Edge) := by
  have hchain : (vs.map Visit.block).IsChain (TransGen P.Edge) := by
    rw [List.isChain_map]
    exact h.isChain.imp fun _ _ hxy => .single hxy.edge
  exact List.isChain_iff_pairwise.mp hchain

theorem Route.nodup_of_acyclic (hP : P.Acyclic) (h : Route P m vs n)
    (hm : m.Within P.reachableBlocks) : (vs.map Visit.block).Nodup := by
  refine h.pairwise.imp_of_mem ?_
  rintro b c hb - hbc rfl
  exact hP b (h.reachable hm b hb) hbc

lemma Route.length_le_of_acyclic (hP : P.Acyclic) (h : Route P m vs n)
    (hm : m.Within P.reachableBlocks) : vs.length ≤ P.reachableBlocks.ncard := by
  rw [← List.length_map Visit.block]
  exact Program.length_le_of_nodup (h.nodup_of_acyclic hP hm) (h.reachable hm)

lemma exists_route_or_stops (P : Program) (m : Machine) (k : Nat) :
    ∃ vs n, Route P m vs n ∧ (vs.length = k ∨ ∃ o, n.phase.outcome? = some o) := by
  induction k generalizing m with
  | zero => exact ⟨[], m, .nil m, .inl rfl⟩
  | succ k ih =>
    rcases m with ⟨s, b | w | f, i⟩
    · obtain ⟨vs, n, hr, hend⟩ := ih (Machine.step P ⟨s, .pending b, i⟩)
      refine ⟨⟨b, s⟩ :: vs, n, .cons hr, hend.imp_left ?_⟩
      intro hlen
      rw [List.length_cons, hlen]
    · exact ⟨[], _, .nil _, .inr ⟨_, rfl⟩⟩
    · exact ⟨[], _, .nil _, .inr ⟨_, rfl⟩⟩

/-- Without cycles every machine in front of a block that can be reached comes to an end. -/
theorem exists_route_of_acyclic (hP : P.Acyclic) (hm : m.Within P.reachableBlocks) :
    ∃ vs n o, Route P m vs n ∧ n.phase.outcome? = some o := by
  obtain ⟨vs, n, hr, hlen | ⟨o, ho⟩⟩ := exists_route_or_stops P m (P.reachableBlocks.ncard + 1)
  · -- there are not enough blocks for so many visits
    have hle := hr.length_le_of_acyclic hP hm
    omega
  · exact ⟨vs, n, o, hr, ho⟩

end

/-- If no block that can be reached leads back to itself, the run from any store comes to an end, no
block is executed twice in it, and it executes at most as many blocks as can be reached, hence at
most as many as there are. -/
theorem run_of_acyclic {P : Program} (hP : P.Acyclic) (v : Verbosity) (s : Store) :
    ∃ r vs, P.run v P.reachableBlocks.ncard s = some r ∧ Route P (.start P s) vs r.machine ∧
      (vs.map Visit.block).Nodup ∧ (∀ b ∈ vs.map Visit.block, P.Reachable b) ∧
      r.machine.blocks = vs.length ∧ r.machine.blocks ≤ P.reachableBlocks.ncard ∧
      P.reachableBlocks.ncard ≤ P.blocks.length := by
  have hm : (Machine.start P s).Within P.reachableBlocks := by
    rintro b ⟨⟩
    exact .entry
  obtain ⟨vs, n, o, hr, ho⟩ := exists_route_of_acyclic hP hm
  have hle := hr.length_le_of_acyclic hP hm
  have hsteps : n.blocks = vs.length := by
    rw [hr.blocks_eq]
    exact Nat.zero_add _
  let r : Run := ⟨n, o, v.keep (Route.report P (.start P s) vs n)⟩
  have hrun : P.run v P.reachableBlocks.ncard s = some r :=
    Program.run_eq_some_iff.mpr ⟨vs, hr, hle, ho, rfl⟩
  exact ⟨r, vs, hrun, hr, hr.nodup_of_acyclic hP hm, hr.reachable hm, hsteps, hsteps ▸ hle,
    P.ncard_reachableBlocks_le⟩

/-- The magnitude of `x`, by way of one of two blocks. There is no block for zero, and no jump to
the block that loops. -/
def Program.magnitude : Program where
  inputs := ["x"]
  blocks := [
    ⟨.num 1, [], .branch (.binary "<" (.var "x") (.const 0)) (.num 2) (.num 3)⟩,
    ⟨.num 2, [⟨"x", .binary "-" (.const 0) (.var "x")⟩], .goto (.num 4)⟩,
    ⟨.num 3, [], .branch (.binary "=" (.var "x") (.const 0)) (.text "zero") (.num 4)⟩,
    ⟨.num 4, [], .ret (.var "x")⟩,
    ⟨.text "loop", [], .goto (.text "loop")⟩]
  inputs_nodup := by decide
  blocks_ne_nil := by simp
  labels_nodup := by decide

/-- The magnitude of -7 takes three of the four blocks that can be reached. At zero the run fails
for lack of a block, after two of them. -/
theorem magnitude_run :
    let P := Program.magnitude
    let s := Store.ofList [("x", -7)]
    let t := Store.ofList [("x", 0)]
    P.Acyclic ∧
    (∃ r vs, P.run .off P.reachableBlocks.ncard s = some r ∧ r.outcome = .ok 7 ∧
      Route P (.start P s) vs r.machine ∧ (vs.map Visit.block).Nodup ∧ r.machine.blocks = 3 ∧
      r.machine.blocks ≤ P.reachableBlocks.ncard) ∧
    ∃ r vs, P.run .off P.reachableBlocks.ncard t = some r ∧
      r.outcome = .error (.undefinedLabel (.text "zero")) ∧ Route P (.start P t) vs r.machine ∧
      (vs.map Visit.block).Nodup ∧ r.machine.blocks = 2 ∧
      r.machine.blocks ≤ P.reachableBlocks.ncard := by
  intro P s t
  have htargets : ∀ b ∈ P.blocks.take 4, ∀ l ∈ b.jump.targets, ∀ c ∈ P.block? l,
      c ∈ P.blocks.take 4 ∧ P.blocks.idxOf b < P.blocks.idxOf c := by decide
  have hmem : ∀ b, P.Reachable b → b ∈ P.blocks.take 4 := by
    intro b hb
    induction hb with
    | entry => decide
    | jump _ hl hc ih => exact (htargets _ ih _ hl _ hc).1
  have hP : P.Acyclic := by
    apply Program.acyclic_of_rank P.blocks.idxOf
    rintro b hb c ⟨l, hl, hc⟩
    exact (htargets b (hmem b hb) l hl c hc).2
  refine ⟨hP, ?_, ?_⟩
  · obtain ⟨r, vs, hrun, hr, hn, -, -, hle, -⟩ := run_of_acyclic hP .off s
    obtain ⟨r', hrun', ho, hk⟩ : ∃ r', P.run .off 3 s = some r' ∧ r'.outcome = .ok 7 ∧
        r'.machine.blocks = 3 := ⟨_, rfl, rfl, rfl⟩
    obtain rfl := Program.run_unique hrun hrun'
    exact ⟨r, vs, hrun, ho, hr, hn, hk, hle⟩
  · obtain ⟨r, vs, hrun, hr, hn, -, -, hle, -⟩ := run_of_acyclic hP .off t
    obtain ⟨r', hrun', ho, hk⟩ : ∃ r', P.run .off 2 t = some r' ∧
        r'.outcome = .error (.undefinedLabel (.text "zero")) ∧ r'.machine.blocks = 2 :=
      ⟨_, rfl, rfl, rfl⟩
    obtain rfl := Program.run_unique hrun hrun'
    exact ⟨r, vs, hrun, ho, hr, hn, hk, hle⟩

end FlowGraph
