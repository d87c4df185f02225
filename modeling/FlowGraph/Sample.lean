import FlowGraph.Program

/-!
# Sample programs

Three built-in programs: one that returns a given constant, the greatest common divisor by
repeated subtraction, and a loop that counts a variable down to zero.
-/

namespace FlowGraph

namespace Program

/-- Declares `x` and `y`, ignores them and returns `w`. -/
def constant (w : Word) : Program where
  inputs := ["x", "y"]
  blocks := [⟨.num 1, [], .ret (.const w)⟩]
  inputs_nodup := by decide
  blocks_ne_nil := by simp
  labels_nodup := by simp

/-- The greatest common divisor of `x` and `y`, by subtracting the smaller from the larger until
they are equal. -/
def euclid : Program where
  inputs := ["x", "y"]
  blocks := [
    ⟨.num 1, [], .branch (.binary "=" (.var "x") (.var "y")) (.num 7) (.num 2)⟩,
    ⟨.num 2, [], .branch (.binary "<" (.var "x") (.var "y")) (.num 5) (.num 3)⟩,
    ⟨.num 3, [⟨"x", .binary "-" (.var "x") (.var "y")⟩], .goto (.num 1)⟩,
    ⟨.num 5, [⟨"y", .binary "-" (.var "y") (.var "x")⟩], .goto (.num 1)⟩,
    ⟨.num 7, [], .ret (.var "x")⟩]
  inputs_nodup := by decide
  blocks_ne_nil := by simp
  labels_nodup := by decide

/-- Counts `n` down to zero and returns the number of rounds. -/
def countdown : Program where
  inputs := ["n"]
  blocks := [
    ⟨.text "entry", [⟨"acc", .const 0⟩], .goto (.text "loop")⟩,
    ⟨.text "loop", [],
      .branch (.binary "<=" (.var "n") (.const 0)) (.text "exit") (.text "body")⟩,
    ⟨.text "body",
      [⟨"n", .binary "-" (.var "n") (.const 1)⟩, ⟨"acc", .binary "+" (.var "acc") (.const 1)⟩],
      .goto (.text "loop")⟩,
    ⟨.text "exit", [], .ret (.var "acc")⟩]
  inputs_nodup := by decide
  blocks_ne_nil := by simp
  labels_nodup := by decide

end Program

inductive Sample where
  | constant
  | euclid
  | countdown
deriving DecidableEq, Repr

namespace Sample

def name : Sample → String
  | constant => "constant"
  | euclid => "euclid"
  | countdown => "countdown"

def title : Sample → String
  | constant => "Constant"
  | euclid => "Euclid"
  | countdown => "Countdown"

def ofName? : String → Option Sample
  | "constant" => some constant
  | "euclid" => some euclid
  | "countdown" => some countdown
  | _ => none

/-- The program of a sample. The word `w` is what `constant` returns. -/
def program (w : Word) : Sample → Program
  | constant => .constant w
  | euclid => .euclid
  | countdown => .countdown

@[simp] theorem ofName?_name (s : Sample) : ofName? s.name = some s := by
  cases s <;> rfl

end Sample

end FlowGraph
