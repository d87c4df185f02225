import FlowGraph.Execution

/-!
# Machines

A machine runs a program block by block. It holds the store, what it is about to do, and the
number of blocks it has run; what it shows of that number, `Machine.steps`, is a counter of 64 bits,
which starts over after `2 ^ 64` blocks. A run goes on until a block returns or fails; since a
program may run forever, `Machine.run` takes a bound on the number of blocks and gives no answer
when the bound is too small.

A machine that has stopped stays stopped: running it again executes nothing. It gives the result
once more if there is one, and the fault `noReturn` otherwise.
-/

namespace FlowGraph

/-- What a machine is about to do. -/
inductive Phase where
  | pending (b : Block)
  | returned (w : Word)
  | failed (f : Fault)
deriving DecidableEq, Repr

namespace Phase

def after : Except Fault Transfer → Phase
  | .ok (.goto b) => pending b
  | .ok (.halt w) => returned w
  | .error f => failed f

/-- How a stopped machine has ended. -/
def outcome? : Phase → Option (Except Fault Word)
  | pending _ => none
  | returned w => some (.ok w)
  | failed f => some (.error f)

end Phase

structure Machine where
  store : Store
  phase : Phase
  blocks : Nat

/-- The end of a run: the machine, its outcome and the recorded events. -/
structure Run where
  machine : Machine
  outcome : Except Fault Word
  log : List Event

namespace Machine

/-- A machine in front of the entry block. -/
def start (P : Program) (s : Store) : Machine :=
  ⟨s, .pending P.entry, 0⟩

/-- The counter of the blocks run so far. -/
def steps (m : Machine) : UInt64 :=
  .ofNat m.blocks

def step (P : Program) (m : Machine) : Machine :=
  match m.phase with
  | .pending b =>
    let r := P.exec b m.store
    ⟨r.store, .after r.result, m.blocks + 1⟩
  | _ => m

/-- Steps until the machine stops, at most `fuel` times, and folds `observe` over the machines
that are about to step. -/
def settle {ρ : Type} (P : Program) (observe : ρ → Machine → ρ) :
    Nat → ρ → Machine → Option (ρ × Machine)
  | fuel, acc, m =>
    match m.phase with
    | .pending _ =>
      match fuel with
      | 0 => none
      | fuel + 1 => settle P observe fuel (observe acc m) (m.step P)
    | _ => some (acc, m)

@[simp] theorem settle_returned {ρ : Type} (P : Program) (observe : ρ → Machine → ρ) (fuel : Nat)
    (acc : ρ) (s : Store) (w : Word) (n : Nat) :
    settle P observe fuel acc ⟨s, .returned w, n⟩ = some (acc, ⟨s, .returned w, n⟩) := by
  cases fuel <;> rfl

@[simp] theorem settle_failed {ρ : Type} (P : Program) (observe : ρ → Machine → ρ) (fuel : Nat)
    (acc : ρ) (s : Store) (f : Fault) (n : Nat) :
    settle P observe fuel acc ⟨s, .failed f, n⟩ = some (acc, ⟨s, .failed f, n⟩) := by
  cases fuel <;> rfl

theorem settle_pending_zero {ρ : Type} (P : Program) (observe : ρ → Machine → ρ) (acc : ρ)
    (s : Store) (b : Block) (n : Nat) :
    settle P observe 0 acc ⟨s, .pending b, n⟩ = none := rfl

theorem settle_pending_succ {ρ : Type} (P : Program) (observe : ρ → Machine → ρ) (fuel : Nat)
    (acc : ρ) (s : Store) (b : Block) (n : Nat) :
    settle P observe (fuel + 1) acc ⟨s, .pending b, n⟩ =
      settle P observe fuel (observe acc ⟨s, .pending b, n⟩)
        (step P ⟨s, .pending b, n⟩) := rfl

def observe (v : Verbosity) (log : Array Event) (m : Machine) : Array Event :=
  match m.phase with
  | .pending b => b.record v log m.store
  | _ => log

def closing (m : Machine) : List Event :=
  match m.phase with
  | .returned w => [.returned w m.steps]
  | _ => []

def opening (P : Program) (m : Machine) : Event :=
  .started P.entry.label m.store.size

/-- Runs a machine until it stops, through at most `fuel` blocks. -/
def run (P : Program) (v : Verbosity) (fuel : Nat) (m : Machine) : Option Run :=
  let log := v.keep [m.opening P]
  match m.phase with
  | .returned w => some ⟨m, .ok w, log⟩
  | .failed _ => some ⟨m, .error .noReturn, log⟩
  | .pending _ => do
    let (log, m) ← settle P (observe v) fuel log.toArray m
    let outcome ← m.phase.outcome?
    return ⟨m, outcome, log.toList ++ v.keep m.closing⟩

end Machine

namespace Program

/-- Runs a program from its entry in a given store. -/
def run (P : Program) (v : Verbosity) (fuel : Nat) (s : Store) : Option Run :=
  (Machine.start P s).run P v fuel

end Program

end FlowGraph
