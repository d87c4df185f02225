import FlowGraph.Machine

/-!
# Interpreters

An interpreter is what a caller holds: the store, the block to be executed next, the result, if
there is one, and the counter of blocks. The block is taken out of its slot before it is executed
and is put there only by the block that leads to it, so that after a fault both slots are empty.
Blocks can be executed by hand at any time; this touches the store alone.
-/

namespace FlowGraph

structure Interpreter where
  store : Store
  next : Option Block
  result : Option Word
  steps : UInt64

/-- What a run of an interpreter leaves: its state, also after a fault, the answer to the caller and
the recorded events. -/
structure Interpreter.Return where
  state : Interpreter
  answer : Except Fault Word
  log : List Event

namespace Interpreter

/-- An interpreter in front of the entry block. -/
def new (P : Program) (s : Store) : Interpreter :=
  ⟨s, some P.entry, none, 0⟩

/-- Executes a block by hand. -/
def execute (P : Program) (b : Block) (i : Interpreter) : Interpreter × Except Fault Transfer :=
  let r := P.exec b i.store
  ({ i with store := r.store }, r.result)

/-- The result if there is one. -/
def answer (i : Interpreter) : Except Fault Word :=
  match i.result with
  | some w => .ok w
  | none => .error .noReturn

/-- Takes blocks out of the slot until it stays empty, at most `fuel` of them. -/
def loop (P : Program) (v : Verbosity) : Nat → Array Event → Interpreter → Option Return
  | fuel, log, i =>
    match i.next with
    | none => some ⟨i, i.answer, log.toList⟩
    | some b =>
      match fuel with
      | 0 => none
      | fuel + 1 =>
        let log := b.record v log i.store
        match execute P b { i with next := none, steps := i.steps + 1 } with
        | (i, .ok (.goto c)) => loop P v fuel log { i with next := some c }
        | (i, .ok (.halt w)) =>
          loop P v fuel (log.appendList (v.keep [.returned w i.steps])) { i with result := some w }
        | (i, .error f) => some ⟨i, .error f, log.toList⟩

/-- Runs an interpreter until a block returns or fails, through at most `fuel` blocks. -/
def run (P : Program) (v : Verbosity) (fuel : Nat) (i : Interpreter) : Option Return :=
  loop P v fuel (v.keep [.started P.entry.label i.store.size]).toArray i

end Interpreter

end FlowGraph
