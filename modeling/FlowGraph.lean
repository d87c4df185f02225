import FlowGraph.Arguments
import FlowGraph.Block
import FlowGraph.CommandLine
import FlowGraph.Eval
import FlowGraph.Event
import FlowGraph.Execution
import FlowGraph.Expr
import FlowGraph.Fault
import FlowGraph.Interpreter
import FlowGraph.Invocation
import FlowGraph.Machine
import FlowGraph.Main
import FlowGraph.Name
import FlowGraph.Operator
import FlowGraph.Program
import FlowGraph.Proofs.Acyclic
import FlowGraph.Proofs.ArgumentForms
import FlowGraph.Proofs.ArgumentItems
import FlowGraph.Proofs.ArgumentOrder
import FlowGraph.Proofs.Binding
import FlowGraph.Proofs.CommonDivisor
import FlowGraph.Proofs.Commutation
import FlowGraph.Proofs.Construction
import FlowGraph.Proofs.CountingLoop
import FlowGraph.Proofs.Decimal
import FlowGraph.Proofs.Diagnosis
import FlowGraph.Proofs.Evaluation
import FlowGraph.Proofs.Exactness
import FlowGraph.Proofs.Extension
import FlowGraph.Proofs.FailingRun
import FlowGraph.Proofs.LifeCycle
import FlowGraph.Proofs.Lockstep
import FlowGraph.Proofs.LogText
import FlowGraph.Proofs.MaximalRuns
import FlowGraph.Proofs.Noninterference
import FlowGraph.Proofs.NumeralLanguage
import FlowGraph.Proofs.PartialMap
import FlowGraph.Proofs.PositionalValues
import FlowGraph.Proofs.ReachableBlocks
import FlowGraph.Proofs.Record
import FlowGraph.Proofs.Renaming
import FlowGraph.Proofs.Resumption
import FlowGraph.Proofs.Route
import FlowGraph.Proofs.Simulation
import FlowGraph.Proofs.Slots
import FlowGraph.Proofs.SmallStep
import FlowGraph.Proofs.Spacing
import FlowGraph.Proofs.Splitting
import FlowGraph.Proofs.StackCode
import FlowGraph.Proofs.StandardInput
import FlowGraph.Proofs.Statement
import FlowGraph.Proofs.Substitution
import FlowGraph.Proofs.SubtractionLoop
import FlowGraph.Proofs.TypeSoundness
import FlowGraph.Proofs.UniqueReading
import FlowGraph.Sample
import FlowGraph.Store
import FlowGraph.Text.Blank
import FlowGraph.Text.Numeral
import FlowGraph.Text.Terminal
import FlowGraph.Value
import FlowGraph.Word
