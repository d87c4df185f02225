import FlowGraph.Proofs.Construction
import FlowGraph.Proofs.Simulation
import FlowGraph.Sample

/-!
# Cutting a block in two

A block can be cut between two of its assignments: the first half jumps to a block of its own that
holds the second half. This file shows that the cut is not noticed: a run takes one step more each
time it gets through the first half, and is otherwise as before, also where it fails in either half.
-/

namespace FlowGraph

/-- A block with a place between its assignments where it is cut. -/
structure Cut where
  label : Label
  first : List Assignment
  second : List Assignment
  jump : Jump
  /-- The label of the second half. -/
  fresh : Label

namespace Cut

variable (c : Cut)

def whole : Block :=
  ⟨c.label, c.first ++ c.second, c.jump⟩

def front : Block :=
  ⟨c.label, c.first, .goto c.fresh⟩

def back : Block :=
  ⟨c.fresh, c.second, c.jump⟩

/-- The block that stands in place of a block after the cut. -/
def redirect (b : Block) : Block :=
  if b = c.whole then c.front else b

/-- The block that is cut is visited, and the assignments before the cut succeed. -/
def Passes (x : Visit) : Prop :=
  x.block = c.whole ∧ (Assignment.execAll x.store c.first).2 = none

instance (x : Visit) : Decidable (c.Passes x) :=
  inferInstanceAs (Decidable (_ ∧ _))

/-- The visits after the cut that take the place of a visit before it. -/
def answer (x : Visit) : List Visit :=
  if x.block = c.whole then
    match Assignment.execAll x.store c.first with
    | (t, none) => [⟨c.front, x.store⟩, ⟨c.back, t⟩]
    | (_, some _) => [⟨c.front, x.store⟩]
  else [x]

lemma length_answer (x : Visit) :
    (c.answer x).length = 1 + if c.Passes x then 1 else 0 := by
  unfold answer Passes
  by_cases hb : x.block = c.whole
  · simp only [hb, if_true, true_and]
    rcases Assignment.execAll x.store c.first with ⟨t, _ | f⟩ <;> rfl
  · simp [hb]

lemma length_flatMap_answer (vs : List Visit) :
    (vs.flatMap c.answer).length = vs.length + vs.countP (c.Passes ·) := by
  induction vs with
  | nil => rfl
  | cons x vs ih =>
    rw [List.flatMap_cons, List.length_append, List.length_cons, List.countP_cons, ih,
      c.length_answer]
    simp only [decide_eq_true_eq]
    omega

end Cut

/-- The program `Q` is `P` with a block cut in two. -/
structure Cut.Divides (c : Cut) (P Q : Program) : Prop where
  whole_mem : c.whole ∈ P.blocks
  fresh : ∀ b ∈ P.blocks, b.label ≠ c.fresh ∧ c.fresh ∉ b.jump.targets
  entry : Q.entry = c.redirect P.entry
  mem_iff : ∀ b, b ∈ Q.blocks ↔ b = c.front ∨ b = c.back ∨ b ∈ P.blocks ∧ b ≠ c.whole

namespace Cut.Divides

variable {c : Cut} {P Q : Program} (h : c.Divides P Q)
include h

lemma redirect_mem {b : Block} (hb : b ∈ P.blocks) : c.redirect b ∈ Q.blocks := by
  unfold redirect
  by_cases hw : b = c.whole
  · rw [if_pos hw]
    exact (h.mem_iff _).mpr (.inl rfl)
  · rw [if_neg hw]
    exact (h.mem_iff _).mpr (.inr (.inr ⟨hb, hw⟩))

lemma block?_fresh : Q.block? c.fresh = some c.back :=
  Program.block?_eq_some_iff.mpr ⟨(h.mem_iff _).mpr (.inr (.inl rfl)), rfl⟩

omit h in
lemma label_redirect (b : Block) : (c.redirect b).label = b.label := by
  unfold redirect
  by_cases hw : b = c.whole
  · rw [if_pos hw, hw]
    rfl
  · rw [if_neg hw]

lemma block?_eq {l : Label} (hl : l ≠ c.fresh) : Q.block? l = (P.block? l).map c.redirect := by
  cases hb : P.block? l with
  | some b =>
    obtain ⟨hmem, rfl⟩ := Program.block?_eq_some_iff.mp hb
    exact Program.block?_eq_some_iff.mpr ⟨h.redirect_mem hmem, label_redirect b⟩
  | none =>
    have hnone := Program.block?_eq_none_iff.mp hb
    refine Program.block?_eq_none_iff.mpr ?_
    intro b hmem
    rcases (h.mem_iff b).mp hmem with rfl | rfl | ⟨hmem, -⟩
    · exact hnone c.whole h.whole_mem
    · exact hl.symm
    · exact hnone b hmem

lemma exec_eq {b : Block} (hb : c.fresh ∉ b.jump.targets) (s : Store) :
    Q.exec b s =
      ⟨(P.exec b s).store, (P.exec b s).result.map (Transfer.map c.redirect)⟩ := by
  apply exec_map
  intro l hl
  exact h.block?_eq fun e => hb (e ▸ hl)

omit h in
lemma exec_of_pass {s t : Store} (hf : Assignment.execAll s c.first = (t, none)) :
    P.exec c.whole s = P.exec c.back t := by
  unfold Program.exec whole back
  rw [execAll_append, hf]

omit h in
lemma exec_of_fault {s t : Store} {f : Fault}
    (hf : Assignment.execAll s c.first = (t, some f)) :
    P.exec c.whole s = ⟨t, .error f⟩ ∧ Q.exec c.front s = ⟨t, .error f⟩ := by
  unfold Program.exec whole front
  rw [execAll_append, hf]
  exact ⟨rfl, rfl⟩

lemma exec_front_of_pass {s t : Store} (hf : Assignment.execAll s c.first = (t, none)) :
    Q.exec c.front s = ⟨t, .ok (.goto c.back)⟩ := by
  unfold Program.exec front
  simp only [hf, Program.follow, Program.resolve, h.block?_fresh]

/-- A block without a jump to the second half is executed as before. -/
lemma route_single {b : Block} (hb : c.fresh ∉ b.jump.targets) (s : Store) (k : Nat) :
    Route Q ⟨s, .pending b, k⟩ [⟨b, s⟩]
      ⟨(P.exec b s).store, (Phase.after (P.exec b s).result).map c.redirect id, k + 1⟩ := by
  have hstep := Route.single Q s b k
  rw [step_pending, h.exec_eq hb, after_transfer_map] at hstep
  exact hstep

/-- A visit is answered by one visit, or by two where the block that is cut is passed. -/
lemma route_answer {b : Block} (hb : b ∈ P.blocks) (s : Store) (k : Nat) :
    ∃ i, Route Q ⟨s, .pending (c.redirect b), k⟩ (c.answer ⟨b, s⟩)
      ⟨(P.exec b s).store, (Phase.after (P.exec b s).result).map c.redirect id, i⟩ := by
  obtain ⟨-, htargets⟩ := h.fresh b hb
  by_cases hw : b = c.whole
  · subst hw
    rw [redirect, if_pos rfl, answer, if_pos rfl]
    rcases hf : Assignment.execAll s c.first with ⟨t, _ | f⟩
    · have hback := h.route_single (b := c.back) htargets t (k + 1)
      refine ⟨k + 1 + 1, .cons ?_⟩
      rw [step_pending, h.exec_front_of_pass hf, exec_of_pass hf]
      exact hback
    · obtain ⟨hwhole, hfront⟩ := exec_of_fault (P := P) (Q := Q) hf
      refine ⟨k + 1, .cons ?_⟩
      rw [step_pending, hfront, hwhole]
      exact .nil _
  · rw [redirect, if_neg hw, answer, if_neg hw]
    exact ⟨k + 1, h.route_single htargets s k⟩

/-- The program with the block cut simulates the program. -/
theorem simulates : Simulates P Q
    (fun m m' => m.Within {b | b ∈ P.blocks} ∧ m'.store = m.store ∧
      m'.phase = m.phase.map c.redirect id) c.answer where
  step := by
    rintro s b k ⟨s', p, i⟩ ⟨hw, hs, hp⟩
    cases hs
    cases hp
    obtain ⟨j, hr⟩ := h.route_answer (hw b rfl) s i
    exact ⟨_, hr, within_step P s b k, rfl, rfl⟩
  answer_ne_nil := by
    intro x hx
    have hlen := c.length_answer x
    rw [hx, List.length_nil] at hlen
    omega
  stopped := by
    rintro m n o ⟨-, -, hp⟩ ho
    exact ⟨_, by rw [hp, Phase.outcome?_map, ho]; rfl⟩

end Cut.Divides

section
variable {P : Program} {c : Cut} {before after : List Block}
  (hP : P.blocks = before ++ c.whole :: after)
  (hfresh : ∀ b ∈ P.blocks, b.label ≠ c.fresh ∧ c.fresh ∉ b.jump.targets)
include hP hfresh

lemma Cut.exists_build :
    ∃ Q, Program.build P.inputs (before ++ c.front :: after ++ [c.back]) = .ok Q := by
  have hlabels : (before ++ c.front :: after ++ [c.back]).map Block.label =
      P.blocks.map Block.label ++ [c.fresh] := by
    simp [hP, front, whole, back]
  have hnot : c.fresh ∉ P.blocks.map Block.label := by
    intro hmem
    obtain ⟨b, hb, hl⟩ := List.mem_map.mp hmem
    exact (hfresh b hb).1 hl
  refine Program.exists_build_iff.mpr ⟨P.inputs_nodup, by simp, ?_⟩
  rw [hlabels, ← List.concat_eq_append]
  exact P.labels_nodup.concat hnot

lemma Cut.divides_of_blocks {Q : Program}
    (hQ : Q.blocks = before ++ c.front :: after ++ [c.back]) : c.Divides P Q := by
  have hnodup := P.blocks_nodup
  rw [hP, List.nodup_middle, List.nodup_cons, List.mem_append, not_or] at hnodup
  obtain ⟨⟨hbefore, hafter⟩, -⟩ := hnodup
  refine ⟨by simp [hP], hfresh, ?_, ?_⟩
  · cases before with
    | nil =>
      rw [Program.entry_of_blocks hP, Program.entry_of_blocks hQ, redirect, if_pos rfl]
    | cons b bs =>
      have hb : b ≠ c.whole := by
        rintro rfl
        exact hbefore List.mem_cons_self
      rw [Program.entry_of_blocks hP, Program.entry_of_blocks hQ, redirect, if_neg hb]
  · intro b
    have hb : b ∈ before → b ≠ c.whole := fun hb e => hbefore (e ▸ hb)
    have ha : b ∈ after → b ≠ c.whole := fun ha e => hafter (e ▸ ha)
    simp only [hP, hQ, List.mem_append, List.mem_cons, List.not_mem_nil, or_false]
    tauto

end

/-- Cutting a block in two makes a program again, and its runs are as before: they end for the same
stores, with the same outcome and the same store, and take one step more for each time that the
block is executed and the assignments before the cut succeed. -/
theorem run_cut {P : Program} {c : Cut} {before after : List Block}
    (hP : P.blocks = before ++ c.whole :: after)
    (hfresh : ∀ b ∈ P.blocks, b.label ≠ c.fresh ∧ c.fresh ∉ b.jump.targets) :
    ∃ Q, Program.build P.inputs (before ++ c.front :: after ++ [c.back]) = .ok Q ∧
      ∀ v s, ((∃ fuel r, P.run v fuel s = some r) ↔ ∃ fuel r, Q.run v fuel s = some r) ∧
        ∀ fuel fuel' r r', P.run v fuel s = some r → Q.run v fuel' s = some r' →
          r'.outcome = r.outcome ∧ r'.machine.store = r.machine.store ∧
          ∃ vs, Route P (.start P s) vs r.machine ∧
            r'.machine.blocks = r.machine.blocks + vs.countP (c.Passes ·) := by
  obtain ⟨Q, hQ⟩ := Cut.exists_build hP hfresh
  have hdiv := Cut.divides_of_blocks hP hfresh (Program.fields_of_build hQ).2
  refine ⟨Q, hQ, ?_⟩
  intro v s
  have hstart : (Machine.start Q s).phase = (Machine.start P s).phase.map c.redirect id :=
    congrArg Phase.pending hdiv.entry
  obtain ⟨hends, hsame⟩ := hdiv.simulates.run (.nil _) ⟨within_start P s, rfl, hstart⟩ v
  refine ⟨hends, ?_⟩
  intro fuel fuel' r r' hr hr'
  obtain ⟨⟨-, hstore, hphase⟩, vs, hv, hw⟩ := hsame fuel fuel' r r' hr hr'
  have ho' := Program.outcome?_of_run hr'
  rw [hphase, Phase.outcome?_map, Program.outcome?_of_run hr] at ho'
  refine ⟨?_, hstore, vs, hv, ?_⟩
  · rw [← Option.some.inj ho']
    cases r.outcome <;> rfl
  · rw [hv.blocks_eq, hw.blocks_eq, c.length_flatMap_answer, Nat.add_assoc]
    rfl

/-- The body of the countdown can be cut between its two assignments. -/
theorem countdown_run_cut :
    let P := Program.countdown
    let s := Store.ofList [("n", 1)]
    ∃ c : Cut, ∃ before after, P.blocks = before ++ c.whole :: after ∧
      (∀ b ∈ P.blocks, b.label ≠ c.fresh ∧ c.fresh ∉ b.jump.targets) ∧
      c.first.length = 1 ∧ c.second.length = 1 ∧
      ∃ Q, Program.build P.inputs (before ++ c.front :: after ++ [c.back]) = .ok Q ∧
        ∃ r fuel r', P.run .off 5 s = some r ∧ Q.run .off fuel s = some r' ∧
          r'.outcome = r.outcome ∧ r'.machine.store = r.machine.store ∧
          ∃ vs, Route P (.start P s) vs r.machine ∧
            r'.machine.blocks = r.machine.blocks + vs.countP (c.Passes ·) := by
  intro P s
  let c : Cut := ⟨.text "body", [⟨"n", .binary "-" (.var "n") (.const 1)⟩],
    [⟨"acc", .binary "+" (.var "acc") (.const 1)⟩], .goto (.text "loop"), .num 1⟩
  have hP : P.blocks = P.blocks.take 2 ++ c.whole :: P.blocks.drop 3 := rfl
  have hfresh : ∀ b ∈ P.blocks, b.label ≠ c.fresh ∧ c.fresh ∉ b.jump.targets := by decide
  obtain ⟨Q, hQ, hruns⟩ := run_cut hP hfresh
  obtain ⟨hends, hsame⟩ := hruns .off s
  obtain ⟨fuel, r', hr'⟩ := hends.mp ⟨5, _, rfl⟩
  exact ⟨c, _, _, hP, hfresh, rfl, rfl, Q, hQ, _, fuel, r', rfl, hr', hsame 5 fuel _ r' rfl hr'⟩

end FlowGraph
