import FlowGraph.Proofs.ReachableBlocks
import FlowGraph.Proofs.Slots
import FlowGraph.Sample

/-!
# Stepping by hand and running

An interpreter can be taken through its program by hand, each time executing the block that the
last answer names. This file shows that such a walk is the beginning of a run: what is left of the
run is the run of the program with the block that comes next in front, on the store found there, and
a walk that returns or fails is the whole run.
-/

namespace FlowGraph

/-- The interpreter and the last answer after `k` blocks executed by hand, first the entry and then
each time the block that the answer before names. There is none if an answer before the last one
names no block. -/
def Interpreter.walk (P : Program) (i : Interpreter) :
    Nat → Option (Interpreter × Except Fault Transfer)
  | 0 => some (i, .ok (.goto P.entry))
  | k + 1 =>
    match i.walk P k with
    | some (j, .ok (.goto b)) => some (j.execute P b)
    | _ => none

section
variable {P : Program} {s : Store}

lemma walk_succ_eq_some_iff {i j : Interpreter} {k : Nat} {x : Except Fault Transfer} :
    i.walk P (k + 1) = some (j, x) ↔
      ∃ j' b, i.walk P k = some (j', .ok (.goto b)) ∧ j'.execute P b = (j, x) := by
  rw [Interpreter.walk]
  split
  · next j' b hw => simp [hw]
  · next hw =>
    constructor
    · rintro ⟨⟩
    · rintro ⟨j', b, hb, -⟩
      exact absurd hb (hw j' b)

/-- A walk is a route, of as many visits as blocks were executed. -/
theorem route_of_walk {k : Nat} {i : Interpreter} {x : Except Fault Transfer}
    (h : (Interpreter.new P s).walk P k = some (i, x)) :
    ∃ vs, vs.length = k ∧ Route P (.start P s) vs ⟨i.store, .after x, k⟩ := by
  induction k generalizing i x with
  | zero =>
    cases h
    exact ⟨[], rfl, .nil _⟩
  | succ k ih =>
    obtain ⟨j, b, hj, hx⟩ := walk_succ_eq_some_iff.mp h
    obtain ⟨vs, hlen, hr⟩ := ih hj
    cases hx
    refine ⟨vs ++ [⟨b, j.store⟩], by simp [hlen], hr.append ?_⟩
    exact .single P j.store b k

/-- A walk that stops is the whole run. -/
lemma exists_run_of_walk {k : Nat} {i : Interpreter} {x : Except Fault Transfer}
    {o : Except Fault Word} (h : (Interpreter.new P s).walk P k = some (i, x))
    (ho : (Phase.after x).outcome? = some o) (v : Verbosity) :
    ∃ r, P.run v k s = some r ∧ r.outcome = o ∧ r.machine.store = i.store ∧
      r.machine.blocks = k ∧ ∃ q, (Interpreter.new P s).run P v k = some q ∧ q.Shows r := by
  obtain ⟨vs, hlen, hroute⟩ := route_of_walk h
  obtain ⟨r, hrun, hm, hr⟩ := Program.run_of_route v hroute ho
  rw [hlen] at hrun
  exact ⟨r, hrun, hr, by rw [hm], by rw [hm], exists_shows hrun⟩

lemma mem_of_walk {k : Nat} {i : Interpreter} {b : Block}
    (h : (Interpreter.new P s).walk P k = some (i, .ok (.goto b))) : b ∈ P.blocks := by
  obtain ⟨vs, -, hr⟩ := route_of_walk h
  exact hr.within (within_start P s) b rfl

/-- The program with the block `b` in front. -/
lemma exists_build_front {b : Block} (hb : b ∈ P.blocks) :
    ∃ Q, Program.build P.inputs (b :: P.blocks.erase b) = .ok Q := by
  have hperm := List.perm_cons_erase hb
  refine Program.exists_build_iff.mpr ⟨P.inputs_nodup, List.cons_ne_nil _ _, ?_⟩
  exact (hperm.map Block.label).nodup_iff.mp P.labels_nodup

lemma inStep_of_perm {Q : Program} (h : Q.blocks.Perm P.blocks) :
    InStep P Q Set.univ Set.univ ∅ where
  reads _ _ _ _ _ _ := Set.mem_univ _
  found _ _ l _ _ hc := ⟨Set.mem_univ _, (Program.block?_of_perm h l).trans hc⟩
  missing _ _ l _ hn := .inr ((Program.block?_of_perm h l).trans hn)

end

/-- If `k` blocks executed by hand lead to the block `b`, the run of the program ends exactly if
the run of the program with `b` in front ends on the store found there, with the same outcome and
store and `k` blocks more. If the last of `k` blocks returns or fails, so does the run, and it
leaves the same store after `k` blocks, which the counter of an interpreter shows. -/
theorem run_of_walk {P : Program} {s : Store} {k : Nat} {i : Interpreter}
    {x : Except Fault Transfer} (h : (Interpreter.new P s).walk P k = some (i, x))
    (v : Verbosity) :
    (∀ b, x = .ok (.goto b) → ∃ Q, Program.build P.inputs (b :: P.blocks.erase b) = .ok Q ∧
      ((∃ fuel r, P.run v fuel s = some r) ↔ ∃ fuel r, Q.run v fuel i.store = some r) ∧
      ∀ fuel fuel' r r', P.run v fuel s = some r → Q.run v fuel' i.store = some r' →
        r.outcome = r'.outcome ∧ r.machine.store = r'.machine.store ∧
          r.machine.blocks = r'.machine.blocks + k) ∧
    (∀ w, x = .ok (.halt w) → ∃ r, P.run v k s = some r ∧ r.outcome = .ok w ∧
      r.machine.store = i.store ∧ r.machine.blocks = k ∧
        ∃ q, (Interpreter.new P s).run P v k = some q ∧ q.Shows r) ∧
    ∀ f, x = .error f → ∃ r, P.run v k s = some r ∧ r.outcome = .error f ∧
      r.machine.store = i.store ∧ r.machine.blocks = k ∧
        ∃ q, (Interpreter.new P s).run P v k = some q ∧ q.Shows r := by
  refine ⟨?_, ?_, ?_⟩
  · rintro b rfl
    obtain ⟨vs, -, hroute⟩ := route_of_walk h
    have hb := mem_of_walk h
    obtain ⟨Q, hQ⟩ := exists_build_front hb
    obtain ⟨-, hblocks⟩ := Program.fields_of_build hQ
    have hperm : Q.blocks.Perm P.blocks := by
      rw [hblocks]
      exact (List.perm_cons_erase hb).symm
    have hentry := Program.entry_of_blocks hblocks
    have hstart : (⟨i.store, .pending b, k⟩ : Machine) =
        { Machine.start Q i.store with blocks := 0 + k } := by
      rw [Machine.start, hentry, Nat.zero_add]
    obtain ⟨hends, hsame⟩ := ((inStep_of_perm hperm).simulates k).run (t := i.store) hroute
      ⟨hstart, fun _ _ => Set.mem_univ _⟩ v
    refine ⟨Q, hQ, hends, ?_⟩
    intro fuel fuel' r r' hrun hrun'
    obtain ⟨⟨hm, -⟩, -⟩ := hsame fuel fuel' r r' hrun hrun'
    have ho := Program.outcome?_of_run hrun
    have ho' := Program.outcome?_of_run hrun'
    rw [hm] at ho
    exact ⟨Option.some.inj (ho.symm.trans ho'), by rw [hm], by rw [hm]⟩
  · rintro w rfl
    exact exists_run_of_walk h rfl v
  · rintro f rfl
    exact exists_run_of_walk h rfl v

/-- Counting down from one, two blocks by hand lead to the body of the loop and five to the result.
Without the input, the second block fails. -/
theorem countdown_walks :
    let P := Program.countdown
    let s := Store.ofList [("n", 1)]
    (∃ i b Q r fuel r', (Interpreter.new P s).walk P 2 = some (i, .ok (.goto b)) ∧
      b.label = .text "body" ∧ Program.build P.inputs (b :: P.blocks.erase b) = .ok Q ∧
      P.run .off 5 s = some r ∧ Q.run .off fuel i.store = some r' ∧ r.outcome = r'.outcome ∧
      r.machine.store = r'.machine.store ∧ r.machine.blocks = r'.machine.blocks + 2) ∧
    (∃ i r, (Interpreter.new P s).walk P 5 = some (i, .ok (.halt 1)) ∧
      P.run .off 5 s = some r ∧ r.outcome = .ok 1 ∧ r.machine.store = i.store ∧
      r.machine.blocks = 5 ∧ ∃ q, (Interpreter.new P s).run P .off 5 = some q ∧ q.Shows r) ∧
    ∃ i r, (Interpreter.new P .empty).walk P 2 = some (i, .error (.unboundVariable "n")) ∧
      P.run .off 2 .empty = some r ∧ r.outcome = .error (.unboundVariable "n") ∧
      r.machine.store = i.store ∧ r.machine.blocks = 2 ∧
      ∃ q, (Interpreter.new P .empty).run P .off 2 = some q ∧ q.Shows r := by
  intro P s
  refine ⟨?_, ?_, ?_⟩
  · obtain ⟨Q, hQ, hends, hsame⟩ := (run_of_walk (P := P) (s := s) (k := 2) rfl .off).1 _ rfl
    obtain ⟨fuel, r', hr'⟩ := hends.mp ⟨5, _, rfl⟩
    exact ⟨_, _, Q, _, fuel, r', rfl, rfl, hQ, rfl, hr', hsame 5 fuel _ r' rfl hr'⟩
  · obtain ⟨r, hr⟩ := (run_of_walk (P := P) (s := s) (k := 5) rfl .off).2.1 1 rfl
    exact ⟨_, r, rfl, hr⟩
  · obtain ⟨r, hr⟩ := (run_of_walk (P := P) (s := .empty) (k := 2) rfl .off).2.2 _ rfl
    exact ⟨_, r, rfl, hr⟩

end FlowGraph
