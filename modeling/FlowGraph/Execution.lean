import FlowGraph.Event
import FlowGraph.Program

/-!
# Execution of a block

`Program.exec` runs the assignments of a block in order and then its jump. A fault stops it at
once, and the store keeps what the assignments before the fault did. `Block.events` lists what
such an execution reports.
-/

namespace FlowGraph

inductive Transfer where
  | goto (b : Block)
  | halt (w : Word)
deriving DecidableEq, Repr

namespace Assignment

/-- The word that an assignment binds its variable to. -/
def word (s : Store) (a : Assignment) : Except Fault Word :=
  match a.value.eval s with
  | .error f => .error f
  | .ok v =>
    match v.int? with
    | some w => .ok w
    | none => .error (.boolAssignment a.target)

/-- Runs assignments in order. The result is the store they leave and the fault that stopped
them, if any. -/
def execAll (s : Store) : List Assignment → Store × Option Fault
  | [] => (s, none)
  | a :: as =>
    match a.word s with
    | .ok w => execAll (s.assign a.target w) as
    | .error f => (s, some f)

end Assignment

namespace Program

def resolve (P : Program) (l : Label) : Except Fault Transfer :=
  match P.block? l with
  | some b => .ok (.goto b)
  | none => .error (.undefinedLabel l)

/-- Where a jump leads in a given store. -/
def follow (P : Program) (s : Store) : Jump → Except Fault Transfer
  | .goto l => P.resolve l
  | .branch c yes no =>
    match c.eval s with
    | .error f => .error f
    | .ok v =>
      match v.bool? with
      | some true => P.resolve yes
      | some false => P.resolve no
      | none => .error (.nonBoolCondition v.kind)
  | .ret e =>
    match e.eval s with
    | .error f => .error f
    | .ok v =>
      match v.int? with
      | some w => .ok (.halt w)
      | none => .error (.nonIntReturn v.kind)

end Program

/-- What executing a block leaves: the store, also after a fault, and where control goes. -/
structure Execution where
  store : Store
  result : Except Fault Transfer

namespace Program

/-- Executes a block, which need not belong to the program; its jump is resolved in it. -/
def exec (P : Program) (b : Block) (s : Store) : Execution :=
  match Assignment.execAll s b.assigns with
  | (t, none) => ⟨t, P.follow t b.jump⟩
  | (t, some f) => ⟨t, .error f⟩

end Program

namespace Expr

def events (s : Store) (e : Expr) : List Event :=
  (e.trace s).map .reduced

end Expr

namespace Jump

def events (s : Store) (j : Jump) : List Event :=
  .jumping j ::
    match j.operand? with
    | some e => e.events s
    | none => []

end Jump

namespace Block

/-- The events of assignments and of the jump after them. A binding is reported after its
expression has been evaluated, and nothing is reported after a fault. -/
def eventsFrom (j : Jump) (s : Store) : List Assignment → List Event
  | [] => j.events s
  | a :: as =>
    a.value.events s ++
      match a.word s with
      | .ok w => .assigned a.target w :: eventsFrom j (s.assign a.target w) as
      | .error _ => []

def events (b : Block) (s : Store) : List Event :=
  .entered b.label :: eventsFrom b.jump s b.assigns

/-- Records the events of a block. All of them are more detailed than `info`. -/
def record (b : Block) (v : Verbosity) (log : Array Event) (s : Store) : Array Event :=
  if v.admits .debug then log.appendList (v.keep (b.events s)) else log

end Block

end FlowGraph
