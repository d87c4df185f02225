import FlowGraph.Interpreter
import FlowGraph.Proofs.Route

/-!
# Slots of an interpreter

An interpreter keeps what comes next and what has been returned in two slots, and counts its blocks
in 64 bits. A machine says the same in one phase, and counts without bound. This file shows that an
interpreter whose slots are those of a machine runs as the machine does.
-/

namespace FlowGraph

/-- The interpreter that a machine stands for. -/
def Machine.slots (m : Machine) : Interpreter :=
  match m.phase with
  | .pending b => ⟨m.store, some b, none, m.steps⟩
  | .returned w => ⟨m.store, none, some w, m.steps⟩
  | .failed _ => ⟨m.store, none, none, m.steps⟩

def Run.toReturn (r : Run) : Interpreter.Return :=
  ⟨r.machine.slots, r.outcome, r.log⟩

variable {P : Program} {v : Verbosity} {fuel : Nat}

lemma Interpreter.loop_of_next_none {i : Interpreter} (h : i.next = none) (log : Array Event) :
    i.loop P v fuel log = some ⟨i, i.answer, log.toList⟩ := by
  cases fuel <;> simp only [Interpreter.loop, h]

/-- Both loops go through the same blocks. The induction is on the bound. -/
lemma loop_slots (log : Array Event) (s : Store) (b : Block) (k : Nat) :
    Interpreter.loop P v fuel log (Machine.slots ⟨s, .pending b, k⟩) =
      (Machine.settle P (Machine.observe v) fuel log ⟨s, .pending b, k⟩).bind fun (log, n) =>
        n.phase.outcome?.map fun o => ⟨n.slots, o, log.toList ++ v.keep n.closing⟩ := by
  induction fuel generalizing log s b k with
  | zero => rfl
  | succ fuel ih =>
    have hsteps : (⟨s, .pending b, k⟩ : Machine).steps + 1 = .ofNat (k + 1) :=
      (UInt64.ofNat_add k 1).symm
    rw [Machine.settle_pending_succ, step_pending, Machine.slots, Interpreter.loop]
    simp only [Interpreter.execute, hsteps]
    rcases (P.exec b s).result with f | c | w
    · rw [Phase.after, Machine.settle_failed]
      exact congrArg (fun l => some (Interpreter.Return.mk _ _ l)) (List.append_nil _).symm
    · exact ih _ _ c (k + 1)
    · rw [Phase.after, Machine.settle_returned]
      refine (Interpreter.loop_of_next_none rfl _).trans ?_
      exact congrArg (fun l => some (Interpreter.Return.mk _ _ l)) Array.toList_appendList

/-- An interpreter runs as the machine of its slots. -/
theorem run_slots (m : Machine) :
    m.slots.run P v fuel = (m.run P v fuel).map Run.toReturn := by
  rcases m with ⟨s, b | w | f, k⟩
  · refine (loop_slots _ s b k).trans (Eq.symm ?_)
    refine Option.map_bind.trans (congrArg _ ?_)
    funext ⟨log, n⟩
    change Option.map Run.toReturn (n.phase.outcome?.bind _) = n.phase.outcome?.map _
    cases n.phase.outcome? <;> rfl
  · exact Interpreter.loop_of_next_none rfl _
  · exact Interpreter.loop_of_next_none rfl _

theorem run_new (s : Store) :
    (Interpreter.new P s).run P v fuel = (P.run v fuel s).map Run.toReturn :=
  run_slots (.start P s)

/-- An interpreter returns what the run `r` comes to, and its counter shows the number of blocks. -/
structure Interpreter.Return.Shows (q : Return) (r : Run) : Prop where
  answer_eq : q.answer = r.outcome
  store_eq : q.state.store = r.machine.store
  steps_eq : q.state.steps = r.machine.steps
  counts : Counts q.state.steps r.machine.blocks
  log_eq : q.log = r.log

lemma slots_store (m : Machine) : m.slots.store = m.store := by
  rcases m with ⟨s, b | w | f, k⟩ <;> rfl

lemma slots_steps (m : Machine) : m.slots.steps = m.steps := by
  rcases m with ⟨s, b | w | f, k⟩ <;> rfl

/-- Whatever a program comes to, a fresh interpreter shows it. -/
theorem exists_shows {s : Store} {r : Run} (h : P.run v fuel s = some r) :
    ∃ q, (Interpreter.new P s).run P v fuel = some q ∧ q.Shows r := by
  refine ⟨r.toReturn, by rw [run_new, h, Option.map_some], rfl, slots_store _, slots_steps _, ?_,
    rfl⟩
  rw [Run.toReturn, slots_steps]
  exact r.machine.counts_steps

end FlowGraph
