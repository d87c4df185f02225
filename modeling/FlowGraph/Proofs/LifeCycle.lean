import FlowGraph.Proofs.Slots
import FlowGraph.Sample

/-!
# The life of an interpreter

An interpreter is used through two operations, in any order: it is run, or it executes a block by
hand. This file shows that execution by hand moves the store alone, that the first run is the run
of a fresh interpreter on the store found there, and that later runs execute nothing and repeat the
answer. All of it comes from the two slots: execution by hand does not look at them, and a run that
ends leaves the slot of the next block empty.
-/

namespace FlowGraph

inductive Call where
  | run (v : Verbosity) (fuel : Nat)
  | execute (b : Block)

namespace Interpreter

/-- The interpreter after a call, none if a run needs a larger bound. -/
def call (P : Program) (i : Interpreter) : Call → Option Interpreter
  | .run v fuel => (i.run P v fuel).map Return.state
  | .execute b => some (i.execute P b).1

def calls (P : Program) : List Call → Interpreter → Option Interpreter
  | [], i => some i
  | c :: cs, i => (i.call P c).bind (calls P cs)

end Interpreter

/-- The store that blocks leave when they are executed by hand, in order. -/
def Program.byHand (P : Program) (bs : List Block) (s : Store) : Store :=
  bs.foldl (fun t b => (P.exec b t).store) s

/-- What an interpreter that has ended with an outcome answers when it is run again. -/
def answerAgain : Except Fault Word → Except Fault Word
  | .ok w => .ok w
  | .error _ => .error .noReturn

lemma calls_cases (cs : List Call) :
    (∃ bs : List Block, cs = bs.map .execute) ∨
      ∃ (bs : List Block) (v : Verbosity) (fuel : Nat) (later : List Call),
        cs = bs.map .execute ++ .run v fuel :: later := by
  induction cs with
  | nil => exact .inl ⟨[], rfl⟩
  | cons c cs ih =>
    cases c with
    | run v fuel => exact .inr ⟨[], v, fuel, cs, rfl⟩
    | execute b =>
      rcases ih with ⟨bs, rfl⟩ | ⟨bs, v, fuel, later, rfl⟩
      · exact .inl ⟨b :: bs, rfl⟩
      · exact .inr ⟨b :: bs, v, fuel, later, rfl⟩

section
variable {P : Program} {i j : Interpreter}

lemma calls_append (cs ds : List Call) (i : Interpreter) :
    Interpreter.calls P (cs ++ ds) i =
      (Interpreter.calls P cs i).bind (Interpreter.calls P ds) := by
  induction cs generalizing i with
  | nil => rfl
  | cons c cs ih =>
    rw [List.cons_append, Interpreter.calls, Interpreter.calls, Option.bind_assoc]
    congr 1
    funext k
    exact ih k

/-- Blocks executed by hand move the store of an interpreter and nothing else. -/
lemma calls_execute (bs : List Block) (i : Interpreter) :
    Interpreter.calls P (bs.map .execute) i = some { i with store := P.byHand bs i.store } := by
  induction bs generalizing i with
  | nil => rfl
  | cons b bs ih =>
    rw [List.map_cons, Interpreter.calls]
    exact ih _

lemma Interpreter.run_of_next_none (hi : i.next = none) (v : Verbosity) (fuel : Nat) :
    i.run P v fuel = some ⟨i, i.answer, v.keep [.started P.entry.label i.store.size]⟩ :=
  loop_of_next_none hi _

/-- The slots of an interpreter without a next block stay as they are, and so does its counter. -/
lemma call_of_next_none {c : Call} (hi : i.next = none) (h : i.call P c = some j) :
    j.next = none ∧ j.answer = i.answer ∧ j.steps = i.steps := by
  cases c with
  | run v fuel =>
    rw [Interpreter.call, Interpreter.run_of_next_none hi] at h
    cases h
    exact ⟨hi, rfl, rfl⟩
  | execute b =>
    cases h
    exact ⟨hi, rfl, rfl⟩

lemma calls_of_next_none {cs : List Call} (hi : i.next = none)
    (h : Interpreter.calls P cs i = some j) :
    j.next = none ∧ j.answer = i.answer ∧ j.steps = i.steps := by
  induction cs generalizing i with
  | nil =>
    cases h
    exact ⟨hi, rfl, rfl⟩
  | cons c cs ih =>
    obtain ⟨k, hc, hk⟩ := Option.bind_eq_some_iff.mp h
    obtain ⟨hn, ha, hs⟩ := call_of_next_none hi hc
    obtain ⟨hn', ha', hs'⟩ := ih hn hk
    exact ⟨hn', ha'.trans ha, hs'.trans hs⟩

lemma slots_of_outcome {m : Machine} {o : Except Fault Word} (h : m.phase.outcome? = some o) :
    m.slots.next = none ∧ m.slots.answer = answerAgain o := by
  rcases m with ⟨s, b | w | f, k⟩
  · cases h
  · cases h
    exact ⟨rfl, rfl⟩
  · cases h
    exact ⟨rfl, rfl⟩

lemma next_of_run {v : Verbosity} {fuel : Nat} {s : Store} {r : Interpreter.Return}
    (h : (Interpreter.new P s).run P v fuel = some r) :
    r.state.next = none ∧ r.state.answer = answerAgain r.answer := by
  rw [run_new] at h
  obtain ⟨q, hq, rfl⟩ := Option.map_eq_some_iff.mp h
  exact slots_of_outcome (Program.outcome?_of_run hq)

end

/-- An interpreter that was never run, after the blocks `bs` were executed by hand: its first run is
the run of a fresh interpreter on the store found there. -/
structure Interpreter.Unrun (P : Program) (s : Store) (bs : List Block) (i : Interpreter) :
    Prop where
  steps_eq : i.steps = 0
  store_eq : i.store = P.byHand bs s
  run_eq : ∀ v fuel, i.run P v fuel = (Interpreter.new P i.store).run P v fuel
  run_ne_noReturn : ∀ v fuel r, i.run P v fuel = some r → r.answer ≠ .error .noReturn

/-- An interpreter whose first run was `r`: to run it again executes nothing, moves nothing and
answers as `r` did, or with `noReturn` after a failure. -/
structure Interpreter.Spent (P : Program) (r : Return) (i : Interpreter) : Prop where
  steps_eq : i.steps = r.state.steps
  run_eq : ∀ v fuel, i.run P v fuel =
    some ⟨i, answerAgain r.answer, v.keep [.started P.entry.label i.store.size]⟩

lemma unrun_execute (P : Program) (s : Store) (bs : List Block) :
    Interpreter.Unrun P s bs { Interpreter.new P s with store := P.byHand bs s } where
  steps_eq := rfl
  store_eq := rfl
  run_eq _ _ := rfl
  run_ne_noReturn v fuel r h := by
    obtain ⟨q, hq, rfl⟩ := Option.map_eq_some_iff.mp ((run_new _).symm.trans h)
    exact Program.run_ne_noReturn hq

lemma spent_of_calls {P : Program} {v : Verbosity} {fuel : Nat} {s : Store}
    {r : Interpreter.Return} {cs : List Call} {i : Interpreter}
    (hr : (Interpreter.new P s).run P v fuel = some r)
    (h : Interpreter.calls P cs r.state = some i) : i.Spent P r := by
  obtain ⟨hn, ha⟩ := next_of_run hr
  obtain ⟨hn', ha', hs⟩ := calls_of_next_none hn h
  refine ⟨hs, fun v fuel => ?_⟩
  rw [Interpreter.run_of_next_none hn', ha', ha]

/-- After any calls an interpreter was either never run, or it is spent since its first run, which
was that of an interpreter never run before. Whatever came before, a block executed by hand moves
the store alone. -/
theorem calls_life_cycle {P : Program} {s : Store} {cs : List Call} {i : Interpreter}
    (h : Interpreter.calls P cs (.new P s) = some i) :
    ((∃ bs, cs = bs.map .execute ∧ i.Unrun P s bs) ∨
      ∃ bs v fuel later first r, cs = bs.map .execute ++ .run v fuel :: later ∧
        Interpreter.calls P (bs.map .execute) (.new P s) = some first ∧ first.Unrun P s bs ∧
        first.run P v fuel = some r ∧ i.Spent P r) ∧
    ∀ b, (i.execute P b).1 = { i with store := (P.exec b i.store).store } := by
  refine ⟨?_, fun b => rfl⟩
  rcases calls_cases cs with ⟨bs, rfl⟩ | ⟨bs, v, fuel, later, rfl⟩
  · left
    rw [calls_execute] at h
    cases h
    exact ⟨bs, rfl, unrun_execute P s bs⟩
  · right
    rw [calls_append, calls_execute, Option.bind_some, Interpreter.calls] at h
    obtain ⟨j, hc, hj⟩ := Option.bind_eq_some_iff.mp h
    obtain ⟨r, hr, rfl⟩ := Option.map_eq_some_iff.mp hc
    exact ⟨bs, v, fuel, later, _, r, rfl, calls_execute bs _, unrun_execute P s bs, hr,
      spent_of_calls hr hj⟩

/-- The countdown is run between two blocks executed by hand, of which the second fails. -/
theorem countdown_life_cycle :
    let reset : Block := ⟨.num 0, [⟨"n", .const 1⟩], .goto (.text "loop")⟩
    let broken : Block := ⟨.num 0, [⟨"n", .const 7⟩, ⟨"n", .var "m"⟩], .goto (.text "loop")⟩
    let cs := [.execute reset, .run .off 9, .execute broken, .run .off 0]
    ∃ i, Interpreter.calls .countdown cs (.new .countdown .empty) = some i ∧ i.steps = 5 ∧
      ((∃ bs, cs = bs.map .execute ∧ i.Unrun .countdown .empty bs) ∨
        ∃ bs v fuel later first r, cs = bs.map .execute ++ .run v fuel :: later ∧
          Interpreter.calls .countdown (bs.map .execute) (.new .countdown .empty) = some first ∧
          first.Unrun .countdown .empty bs ∧ first.run .countdown v fuel = some r ∧
          i.Spent .countdown r) ∧
      ∀ b, (i.execute .countdown b).1 =
        { i with store := (Program.countdown.exec b i.store).store } := by
  refine ⟨_, rfl, rfl, ?_⟩
  exact calls_life_cycle rfl

end FlowGraph
