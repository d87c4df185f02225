import FlowGraph.Proofs.Construction
import FlowGraph.Proofs.Noninterference
import FlowGraph.Proofs.Simulation

/-!
# What a run depends on in its program

A run looks up the labels that the blocks it reaches jump to, and nothing else in its program. This
file shows that programs which find the same blocks under these labels have the same runs, with the
same log and under the same bounds: neither the order of the blocks nor a block that cannot be
reached nor the declared inputs make a difference.
-/

namespace FlowGraph

lemma head_of_sublist {α : Type} {as bs : List α} (hn : bs.Nodup) (h : as.Sublist bs)
    (has : as ≠ []) {hbs : bs ≠ []} (hmem : bs.head hbs ∈ as) : as.head has = bs.head hbs := by
  cases h with
  | slnil => rfl
  | cons b h => exact absurd (h.subset hmem) (List.nodup_cons.mp hn).1
  | cons_cons b h => rfl

/-- The labels that jumps name in blocks which can be reached from the entry. -/
def Program.reachableLabels (P : Program) : Set Label :=
  {l | ∃ b, P.Reachable b ∧ l ∈ b.jump.targets}

section
variable {P Q : Program} {B : Set Block} {V : Set Var}

lemma InStep.exec_same (h : InStep P Q B V ∅) {b : Block} (hb : b ∈ B) (s : Store) :
    Q.exec b s = P.exec b s := by
  have hs : s.AgreeOn V ∅ s := fun x _ => .inl rfl
  obtain ⟨hresult, -⟩ := h.exec_eq hb hs (robust_empty _)
  have hstore : (Q.exec b s).store = (P.exec b s).store := by
    rw [exec_store, exec_store]
  calc
    Q.exec b s = ⟨(Q.exec b s).store, (Q.exec b s).result⟩ := rfl
    _ = ⟨(P.exec b s).store, (P.exec b s).result⟩ := by rw [hstore, hresult]

/-- Machines that differ in the number of steps alone go on alike, if the programs keep in step. -/
theorem InStep.simulates (h : InStep P Q B V ∅) (k : Nat) :
    Simulates P Q (fun m m' => m = { m' with blocks := m'.blocks + k } ∧ m.Within B)
      (fun x => [x]) where
  step := by
    rintro s b i ⟨s', p, j⟩ ⟨⟨⟩, hw⟩
    have hb := hw b rfl
    refine ⟨_, .single Q s' b j, ?_, ?_⟩
    · rw [step_pending, step_pending, h.exec_same hb, Nat.add_right_comm]
    · intro c hc
      exact h.mem_of_result hb (after_eq_pending_iff.mp hc)
  answer_ne_nil := by simp
  stopped := by
    rintro m n o ⟨rfl, -⟩ ho
    exact ⟨o, ho⟩

lemma InStep.route_iff (h : InStep P Q B V ∅) {m n : Machine} {vs : List Visit}
    {o : Except Fault Word} (hm : m.Within B) (ho : n.phase.outcome? = some o) :
    Route Q m vs n ↔ Route P m vs n := by
  have hsim := h.simulates 0
  constructor
  · intro hr
    obtain ⟨ws, k, hw, -, rfl, rfl, -⟩ := hsim.exists_route hr ho ⟨rfl, hm⟩
    rw [List.flatMap_singleton']
    exact hw
  · intro hr
    obtain ⟨k, hw, rfl, -⟩ := hsim.route hr ⟨rfl, hm⟩
    rw [List.flatMap_singleton'] at hw
    exact hw

/-- Programs in step from the same entry have the same runs. -/
theorem InStep.run_eq (h : InStep P Q B V ∅) (hentry : Q.entry = P.entry) (hb : P.entry ∈ B)
    (v : Verbosity) (fuel : Nat) (s : Store) : Q.run v fuel s = P.run v fuel s := by
  have hstart : Machine.start Q s = Machine.start P s := by
    unfold Machine.start
    rw [hentry]
  have hreport : ∀ vs n, Route.report Q (.start Q s) vs n = Route.report P (.start P s) vs n := by
    intro vs n
    unfold Route.report Machine.opening
    rw [hstart, hentry]
  have hwithin : (Machine.start P s).Within B := by
    rintro b ⟨⟩
    exact hb
  apply Option.ext
  intro r
  rw [Program.run_eq_some_iff, Program.run_eq_some_iff]
  apply exists_congr
  intro vs
  rw [hreport, hstart]
  constructor
  · rintro ⟨hr, hlen, ho, hlog⟩
    exact ⟨(h.route_iff hwithin ho).mp hr, hlen, ho, hlog⟩
  · rintro ⟨hr, hlen, ho, hlog⟩
    exact ⟨(h.route_iff hwithin ho).mpr hr, hlen, ho, hlog⟩

lemma inStep_of_reachableLabels (h : ∀ l ∈ P.reachableLabels, Q.block? l = P.block? l) :
    InStep P Q {b | P.Reachable b} Set.univ ∅ where
  reads _ _ _ _ _ _ := Set.mem_univ _
  found b hb l hl _ hc := ⟨.jump hb hl hc, (h l ⟨b, hb, hl⟩).trans hc⟩
  missing b hb l hl hn := .inr ((h l ⟨b, hb, hl⟩).trans hn)

/-- Without some blocks that cannot be reached, the labels that are looked up are found as before. -/
lemma block?_of_sublist (hsub : Q.blocks.Sublist P.blocks) (hkeep : ∀ b, P.Reachable b → b ∈ Q.blocks)
    {l : Label} (hl : l ∈ P.reachableLabels) : Q.block? l = P.block? l := by
  obtain ⟨b, hb, hlb⟩ := hl
  apply Program.block?_congr
  intro c hc
  constructor
  · exact fun hmem => hsub.subset hmem
  · intro hmem
    exact hkeep c (.jump hb hlb (Program.block?_eq_some_iff.mpr ⟨hmem, hc⟩))

lemma entry_of_sublist (hsub : Q.blocks.Sublist P.blocks) (hmem : P.entry ∈ Q.blocks) :
    Q.entry = P.entry :=
  head_of_sublist P.blocks_nodup hsub Q.blocks_ne_nil hmem

end

/-- The runs of a program are determined by its entry and by what it finds under the labels that can
be reached. So they are the same, log and bounds included, if the blocks after the entry stand in
another order, or if blocks that cannot be reached are left out or put in; the declared inputs do
not matter in any of this. -/
theorem run_eq_of_reachable (P Q : Program) :
    (Q.entry = P.entry → (∀ l ∈ P.reachableLabels, Q.block? l = P.block? l) →
      ∀ v fuel s, Q.run v fuel s = P.run v fuel s) ∧
    (Q.entry = P.entry → Q.blocks.Perm P.blocks →
      ∀ v fuel s, Q.run v fuel s = P.run v fuel s) ∧
    (Q.blocks.Sublist P.blocks → (∀ b, P.Reachable b → b ∈ Q.blocks) →
      ∀ v fuel s, Q.run v fuel s = P.run v fuel s) := by
  have hrun : Q.entry = P.entry → (∀ l ∈ P.reachableLabels, Q.block? l = P.block? l) →
      ∀ v fuel s, Q.run v fuel s = P.run v fuel s := by
    intro hentry h v fuel s
    exact (inStep_of_reachableLabels h).run_eq hentry .entry v fuel s
  refine ⟨hrun, ?_, ?_⟩
  · intro hentry hperm
    exact hrun hentry fun l _ => Program.block?_of_perm hperm l
  · intro hsub hkeep
    exact hrun (entry_of_sublist hsub (hkeep P.entry .entry)) fun l hl =>
      block?_of_sublist hsub hkeep hl

/-- The countdown runs the same without its input declared, with the blocks after the entry in
reverse order and with a block that nothing jumps to. -/
theorem countdown_run_reordered :
    let P := Program.countdown
    let spare : Block := ⟨.num 0, [], .goto (.num 0)⟩
    ∃ Q R S, Program.build [] (P.entry :: spare :: P.blocks.tail.reverse) = .ok Q ∧
      Program.build [] (P.entry :: P.blocks.tail.reverse) = .ok R ∧
      Program.build ["n"] (P.blocks ++ [spare]) = .ok S ∧
      (∀ l ∈ P.reachableLabels, Q.block? l = P.block? l) ∧
      (∀ v fuel s, Q.run v fuel s = P.run v fuel s) ∧
      R.blocks.Perm P.blocks ∧ (∀ v fuel s, R.run v fuel s = P.run v fuel s) ∧
      (∀ b, S.Reachable b → b ∈ P.blocks) ∧ ∀ v fuel s, P.run v fuel s = S.run v fuel s := by
  intro P spare
  obtain ⟨Q, hQ⟩ : ∃ Q, Program.build [] (P.entry :: spare :: P.blocks.tail.reverse) = .ok Q :=
    ⟨_, rfl⟩
  obtain ⟨R, hR⟩ : ∃ R, Program.build [] (P.entry :: P.blocks.tail.reverse) = .ok R := ⟨_, rfl⟩
  obtain ⟨S, hS⟩ : ∃ S, Program.build ["n"] (P.blocks ++ [spare]) = .ok S := ⟨_, rfl⟩
  obtain ⟨-, hQb⟩ := Program.fields_of_build hQ
  obtain ⟨-, hRb⟩ := Program.fields_of_build hR
  obtain ⟨-, hSb⟩ := Program.fields_of_build hS
  have htargets : ∀ b ∈ P.blocks, ∀ l ∈ b.jump.targets, ∃ c ∈ P.blocks, c.label = l := by decide
  have hlabels : ∀ Q : Program, P.blocks ⊆ Q.blocks → ∀ b ∈ P.blocks, ∀ l ∈ b.jump.targets,
      Q.block? l = P.block? l := by
    intro Q hsub b hb l hl
    obtain ⟨c, hc, rfl⟩ := htargets b hb l hl
    rw [Program.block?_eq_some_iff.mpr ⟨hc, rfl⟩, Program.block?_eq_some_iff.mpr ⟨hsub hc, rfl⟩]
  have hfound : ∀ l ∈ P.reachableLabels, Q.block? l = P.block? l := by
    rintro l ⟨b, hb, hl⟩
    exact hlabels Q (by rw [hQb]; decide) b hb.mem_blocks l hl
  have hperm : R.blocks.Perm P.blocks := by
    rw [hRb]
    exact List.Perm.cons P.entry (List.reverse_perm P.blocks.tail)
  have hkept : ∀ b, S.Reachable b → b ∈ P.blocks := by
    intro b hb
    induction hb with
    | entry =>
      rw [Program.entry_of_blocks hSb]
      exact P.entry_mem
    | @jump b c l hb hl hc ih =>
      rw [hlabels S (by rw [hSb]; exact List.subset_append_left _ _) b ih l hl] at hc
      exact (Program.block?_eq_some_iff.mp hc).1
  refine ⟨Q, R, S, hQ, hR, hS, hfound, ?_, hperm, ?_, hkept, ?_⟩
  · exact (run_eq_of_reachable P Q).1 (Program.entry_of_blocks hQb) hfound
  · exact (run_eq_of_reachable P R).2.1 (Program.entry_of_blocks hRb) hperm
  · exact (run_eq_of_reachable S P).2.2 (by rw [hSb]; exact List.sublist_append_left _ _) hkept

end FlowGraph
