import FlowGraph.Proofs.Slots
import FlowGraph.Sample

/-!
# The state after a failure

A run that fails keeps what it did before: the store is that on entry of the last block, with the
assignments before the failing statement performed. The same holds of a block executed by hand.
-/

namespace FlowGraph

lemma exec_of_execute_error {P : Program} {b : Block} {i j : Interpreter} {f : Fault}
    (h : i.execute P b = (j, .error f)) : P.exec b i.store = ⟨j.store, .error f⟩ := by
  unfold Interpreter.execute at h
  obtain ⟨rfl, hf⟩ := Prod.mk.inj h
  rw [← hf]

/-- A failing run ends in the last block `b` that it enters, with the store `t` on entry: the
assignments before the failing statement are performed on `t`, that statement fails again in the
final store, and every block entered is counted. An interpreter fails with it, and its counter shows
their number. A block executed by hand fails the same way, and if its jump fails then all of its
assignments are performed. -/
theorem failing_run_state (P : Program) :
    (∀ (v : Verbosity) (fuel : Nat) (s : Store) (r : Run) (f : Fault),
      P.run v fuel s = some r → r.outcome = .error f →
      ∃ vs b t i, Route P (.start P s) (vs ++ [⟨b, t⟩]) r.machine ∧
        r.machine.blocks = vs.length + 1 ∧
        (∃ q, (Interpreter.new P s).run P v fuel = some q ∧ q.Shows r) ∧
        b.FailsAt P t r.machine.store i f) ∧
    (∀ (b : Block) (before after : Interpreter) (f : Fault),
      before.execute P b = (after, .error f) →
        ∃ i, b.FailsAt P before.store after.store i f) ∧
    ∀ (b : Block) (s t : Store) (f : Fault), b.FailsAt P s t b.assigns.length f →
      Performed s b.assigns t ∧ P.follow t b.jump = .error f := by
  refine ⟨?_, ?_, fun b s t f h => h.jump_of_length⟩
  · intro v fuel s r f h hf
    obtain ⟨vs, b, t, -, hr, hn, ho⟩ := Program.run_exists_last h
    rw [hf, outcome?_after_eq_error_iff] at ho
    obtain ⟨i, hi⟩ := exists_failsAt ho
    have hblocks : r.machine.blocks = vs.length + 1 := by
      rw [hr.blocks_eq, List.length_append]
      exact Nat.zero_add _
    refine ⟨vs, b, t, i, hr, hblocks, exists_shows h, ?_⟩
    rwa [hn, step_pending]
  · intro b before after f h
    exact exec_eq_error_iff.mp (exec_of_execute_error h)

/-- Without its input, the countdown fails in the jump of the second block that it enters. A block
executed by hand binds `n` before its jump fails. -/
theorem countdown_unbound_state :
    let lost : Block := ⟨.num 0, [⟨"n", .const 7⟩], .goto (.text "nowhere")⟩
    (∃ r, Program.countdown.run .off 2 .empty = some r ∧
      r.outcome = .error (.unboundVariable "n") ∧ r.machine.steps = 2 ∧
      ∃ vs b t i, Route .countdown (.start .countdown .empty) (vs ++ [⟨b, t⟩]) r.machine ∧
        r.machine.blocks = vs.length + 1 ∧
        (∃ q, (Interpreter.new .countdown .empty).run .countdown .off 2 = some q ∧ q.Shows r) ∧
        b.FailsAt .countdown t r.machine.store i (.unboundVariable "n")) ∧
    (∃ i, lost.FailsAt .countdown .empty (.ofList [("n", 7)]) i
      (.undefinedLabel (.text "nowhere"))) ∧
    Performed .empty lost.assigns (.ofList [("n", 7)]) := by
  intro lost
  have hlost : lost.FailsAt .countdown .empty (.ofList [("n", 7)]) lost.assigns.length
      (.undefinedLabel (.text "nowhere")) :=
    ⟨Nat.le_refl _, .cons rfl (.nil _), _, rfl, rfl⟩
  have h := failing_run_state .countdown
  refine ⟨⟨_, rfl, rfl, rfl, ?_⟩, ?_, (h.2.2 lost _ _ _ hlost).1⟩
  · exact h.1 .off 2 .empty _ _ rfl rfl
  · exact h.2.1 lost (.new .countdown .empty) _ _ rfl

end FlowGraph
