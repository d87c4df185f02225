import FlowGraph.Proofs.Route
import Mathlib.Data.Set.Basic

/-!
# Simulation of one program by another

Two programs are compared through a relation between their machines. If every block that the first
program executes is answered by the second, with one block or several, so that the machines are
related again, then a run of the first is a run of the second. Since machines are deterministic the
converse holds as well: where the second comes to an end, so does the first.
-/

namespace FlowGraph

/-- The program `Q` simulates `P`: from machines related by `R`, a visit of `P` is answered by
visits of `Q` that lead to related machines, and where `P` has stopped, so has `Q`. -/
structure Simulates (P Q : Program) (R : Machine → Machine → Prop) (answer : Visit → List Visit) :
    Prop where
  step : ∀ {s b k m}, R ⟨s, .pending b, k⟩ m →
    ∃ n, Route Q m (answer ⟨b, s⟩) n ∧ R (Machine.step P ⟨s, .pending b, k⟩) n
  answer_ne_nil : ∀ x, answer x ≠ []
  stopped : ∀ {m n o}, R m n → m.phase.outcome? = some o → ∃ o', n.phase.outcome? = some o'

namespace Simulates

variable {P Q : Program} {R : Machine → Machine → Prop} {answer : Visit → List Visit}
  {m n m' n' : Machine} {vs ws : List Visit}

section
variable (h : Simulates P Q R answer)
include h

theorem route (hr : Route P m vs n) (hm : R m m') :
    ∃ n', Route Q m' (vs.flatMap answer) n' ∧ R n n' := by
  induction hr generalizing m' with
  | nil => exact ⟨m', .nil m', hm⟩
  | cons _ ih =>
    obtain ⟨k, hk, hR⟩ := h.step hm
    obtain ⟨n', hn, hRn⟩ := ih hR
    exact ⟨n', hk.append hn, hRn⟩

/-- A route of the simulating program to a stopped machine is the answer to such a route. The
induction is on its length: what is left after the answer to one visit is shorter. -/
theorem exists_route {o : Except Fault Word} (hr : Route Q m' ws n')
    (ho : n'.phase.outcome? = some o) (hm : R m m') :
    ∃ vs n, Route P m vs n ∧ n.phase.outcome?.isSome ∧ ws = vs.flatMap answer ∧ R n n' := by
  generalize hlen : ws.length = len
  induction len using Nat.strongRecOn generalizing m m' ws with
  | ind len ih =>
    have hstop : ∀ o', m.phase.outcome? = some o' → ∃ vs n, Route P m vs n ∧
        n.phase.outcome?.isSome ∧ ws = vs.flatMap answer ∧ R n n' := by
      intro o' hm'
      obtain ⟨o₂, ho₂⟩ := h.stopped hm hm'
      obtain ⟨rfl, rfl⟩ := hr.of_stopped ho₂
      exact ⟨[], m, .nil m, by rw [hm']; rfl, rfl, hm⟩
    rcases m with ⟨s, b | w | f, k⟩
    · obtain ⟨k', hk, hR⟩ := h.step hm
      obtain ⟨us, rfl, hu⟩ := hk.exists_rest hr ho
      have hpos := List.length_pos_of_ne_nil (h.answer_ne_nil ⟨b, s⟩)
      rw [List.length_append] at hlen
      obtain ⟨vs, n, hv, hn, rfl, hRn⟩ := ih us.length (by omega) hu hR rfl
      exact ⟨⟨b, s⟩ :: vs, n, .cons hv, hn, rfl, hRn⟩
    · exact hstop _ rfl
    · exact hstop _ rfl

theorem route_unique {o o' : Except Fault Word} (hm : R m m') (hv : Route P m vs n)
    (hn : n.phase.outcome? = some o) (hw : Route Q m' ws n')
    (hn' : n'.phase.outcome? = some o') : ws = vs.flatMap answer ∧ R n n' := by
  obtain ⟨k, hk, hR⟩ := h.route hv hm
  obtain ⟨o₂, ho₂⟩ := h.stopped hR hn
  obtain ⟨rfl, rfl⟩ := hw.unique hn' hk ho₂
  exact ⟨rfl, hR⟩

end

end Simulates

/-- Control goes to another block in place of each block. -/
def Transfer.map (f : Block → Block) : Transfer → Transfer
  | goto b => goto (f b)
  | halt w => halt w

namespace Phase

/-- The phase with other blocks and faults in place of its own. -/
def map (f : Block → Block) (g : Fault → Fault) : Phase → Phase
  | pending b => pending (f b)
  | returned w => returned w
  | failed e => failed (g e)

lemma after_map (f : Block → Block) (g : Fault → Fault) (x : Except Fault Transfer) :
    after ((x.map (Transfer.map f)).mapError g) = (after x).map f g := by
  rcases x with e | b | w <;> rfl

lemma outcome?_map (f : Block → Block) (g : Fault → Fault) (p : Phase) :
    (p.map f g).outcome? = p.outcome?.map (Except.mapError g) := by
  cases p <;> rfl

end Phase

lemma after_transfer_map (f : Block → Block) (x : Except Fault Transfer) :
    Phase.after (x.map (Transfer.map f)) = (Phase.after x).map f id := by
  rcases x with e | b | w <;> rfl

section
variable {P Q : Program} {f : Block → Block}

/-- A jump whose targets lead to other blocks in another program, and to nothing else. -/
lemma follow_map {j : Jump} (hj : ∀ l ∈ j.targets, Q.block? l = (P.block? l).map f) (s : Store) :
    Q.follow s j = (P.follow s j).map (Transfer.map f) := by
  have hr : ∀ l ∈ j.targets, Q.resolve l = (P.resolve l).map (Transfer.map f) := by
    intro l hl
    unfold Program.resolve
    rw [hj l hl]
    cases P.block? l <;> rfl
  rcases selects_or_follow_eq s j with ⟨l, hl⟩ | ⟨o, ho⟩
  · rw [hl.follow_eq, hl.follow_eq, hr l hl.mem_targets]
  · rw [ho, ho]
    cases o <;> rfl

/-- A block is executed in the other program as in the first, up to where control goes. -/
lemma exec_map {b : Block} (hb : ∀ l ∈ b.jump.targets, Q.block? l = (P.block? l).map f)
    (s : Store) :
    Q.exec b s = ⟨(P.exec b s).store, (P.exec b s).result.map (Transfer.map f)⟩ := by
  unfold Program.exec
  rcases Assignment.execAll s b.assigns with ⟨t, _ | e⟩
  · simp only [follow_map hb]
  · rfl

end

/-- If a block is what the machine is about to execute, it is in `B`. -/
def Machine.Within (m : Machine) (B : Set Block) : Prop :=
  ∀ b, m.phase = .pending b → b ∈ B

section
variable (P : Program)

lemma within_start (s : Store) : (Machine.start P s).Within {b | b ∈ P.blocks} := by
  rintro b ⟨⟩
  exact P.entry_mem

lemma within_step (s : Store) (b : Block) (k : Nat) :
    (Machine.step P ⟨s, .pending b, k⟩).Within {c | c ∈ P.blocks} := by
  intro c hc
  obtain ⟨-, hf⟩ := performed_of_result (after_eq_pending_iff.mp hc)
  exact (follow_eq_goto_iff.mp hf).2

end

lemma Route.within {P : Program} {m n : Machine} {vs : List Visit} (h : Route P m vs n)
    (hm : m.Within {b | b ∈ P.blocks}) : n.Within {b | b ∈ P.blocks} :=
  h.invariant (I := fun k => k.Within {b | b ∈ P.blocks}) (fun s b k _ => within_step P s b k) hm

def Machine.Stops (P : Program) (m : Machine) : Prop :=
  ∃ vs n, Route P m vs n ∧ n.phase.outcome?.isSome

section
variable {P Q : Program} {s t : Store} {v : Verbosity}

lemma Program.exists_run_iff_stops :
    (∃ fuel r, P.run v fuel s = some r) ↔ (Machine.start P s).Stops P := by
  constructor
  · rintro ⟨fuel, r, h⟩
    obtain ⟨vs, hr, -, ho, -⟩ := Program.run_eq_some_iff.mp h
    exact ⟨vs, r.machine, hr, by rw [ho]; rfl⟩
  · rintro ⟨vs, n, hr, hn⟩
    obtain ⟨o, ho⟩ := Option.isSome_iff_exists.mp hn
    obtain ⟨r, h, -, -⟩ := Program.run_of_route v hr ho
    exact ⟨vs.length, r, h⟩

lemma Route.stops_iff {m n : Machine} {vs : List Visit} (h : Route P m vs n) :
    m.Stops P ↔ n.Stops P := by
  constructor
  · rintro ⟨ws, k, hw, hk⟩
    obtain ⟨o, ho⟩ := Option.isSome_iff_exists.mp hk
    obtain ⟨us, -, hu⟩ := h.exists_rest hw ho
    exact ⟨us, k, hu, hk⟩
  · rintro ⟨ws, k, hw, hk⟩
    exact ⟨vs ++ ws, k, h.append hw, hk⟩

variable {R : Machine → Machine → Prop} {answer : Visit → List Visit}

theorem Simulates.stops_iff (h : Simulates P Q R answer) {m m' : Machine} (hm : R m m') :
    m.Stops P ↔ m'.Stops Q := by
  constructor
  · rintro ⟨vs, n, hv, hn⟩
    obtain ⟨o, ho⟩ := Option.isSome_iff_exists.mp hn
    obtain ⟨n', hw, hR⟩ := h.route hv hm
    obtain ⟨o', ho'⟩ := h.stopped hR ho
    exact ⟨_, n', hw, by rw [ho']; rfl⟩
  · rintro ⟨ws, n', hw, hn⟩
    obtain ⟨o, ho⟩ := Option.isSome_iff_exists.mp hn
    obtain ⟨vs, n, hv, hn', -, -⟩ := h.exists_route hw ho hm
    exact ⟨vs, n, hv, hn'⟩

/-- If a run comes to a machine related to the start of another run, both runs come to an end or
both go on forever, and at the end their machines are related. -/
theorem Simulates.run (h : Simulates P Q R answer) {us : List Visit} {m : Machine}
    (hu : Route P (.start P s) us m) (hm : R m (.start Q t)) (v : Verbosity) :
    ((∃ fuel r, P.run v fuel s = some r) ↔ ∃ fuel r, Q.run v fuel t = some r) ∧
    ∀ fuel fuel' r r', P.run v fuel s = some r → Q.run v fuel' t = some r' →
      R r.machine r'.machine ∧ ∃ vs, Route P m vs r.machine ∧
        Route Q (.start Q t) (vs.flatMap answer) r'.machine := by
  refine ⟨?_, ?_⟩
  · rw [Program.exists_run_iff_stops, Program.exists_run_iff_stops, hu.stops_iff, h.stops_iff hm]
  · intro fuel fuel' r r' hr hr'
    obtain ⟨ws, hrun, -, ho, -⟩ := Program.run_eq_some_iff.mp hr
    obtain ⟨vs, -, hv⟩ := hu.exists_rest hrun ho
    obtain ⟨ws, hw, -, ho', -⟩ := Program.run_eq_some_iff.mp hr'
    obtain ⟨rfl, hR⟩ := h.route_unique hm hv ho hw ho'
    exact ⟨hR, vs, hv, hw⟩

end

end FlowGraph
