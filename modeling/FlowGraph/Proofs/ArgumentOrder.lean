import FlowGraph.Proofs.ArgumentForms
import FlowGraph.Proofs.PositionalValues
import FlowGraph.Proofs.StandardInput

/-!
# Order and form of the arguments

All arguments that are written for the same settings give the same response, with any reader that
takes over items. Where the run never ends there is no response, but what the program logs on its
way is the same too.
-/

namespace FlowGraph

namespace CommandLine

/-- The values that the sample is run on: the positional ones or, if there are none, those on the
first line of the input. -/
def Settings.inputValues (s : Settings) (input : List UInt8) : Except Failure (List Word) :=
  if s.values = [] then (readLine input).bind readValues else .ok s.values

/-- A log that the program has written for the settings so far, or in all. -/
def Settings.Logs (s : Settings) (input : List UInt8) (v : Verbosity) (log : List Event) : Prop :=
  let P := s.sample.program s.constant
  (∃ values written, s.inputValues input = .ok values ∧ P.Logs values v written ∧
    log = v.keep [.launched s.sample.title P.inputs] ++ written) ∨
  ∃ fuel r, execute s input v fuel = some r ∧ log = (Response.ofReport s v r).log

/-- A log that the program has written for the arguments so far, or in all. -/
def Logs (read : List String → Reading) (args : List String) (input : List UInt8) (v : Verbosity)
    (log : List Event) : Prop :=
  match read args with
  | .run s => s.Logs input v log
  | .exit _ _ => log = []

section
variable {read : List String → Reading} {after : Draft → List String → Reading} {s : Settings}
  {args : List String}

lemma logs_iff_of_read (h : read args = .run s) {input : List UInt8} {v : Verbosity}
    {log : List Event} : Logs read args input v log ↔ s.Logs input v log := by
  rw [Logs, h]

/-- The response and the log depend only on the sample, the constant and the values that the
arguments are written for, not on the order and the form in which they stand. -/
theorem respond_of_writtenFor (hread : ReadsItems read after) (h : WrittenFor s args)
    (input : List UInt8) (v : Verbosity) :
    (∀ fuel, respond read args input v fuel = (execute s input v fuel).map (.ofReport s v)) ∧
    (∀ log, Logs read args input v log ↔ s.Logs input v log) ∧
    ∀ args', WrittenFor s args' →
      (∀ fuel, respond read args' input v fuel = respond read args input v fuel) ∧
      ∀ log, Logs read args' input v log ↔ Logs read args input v log := by
  have heq : ∀ args', WrittenFor s args' → ∀ fuel,
      respond read args' input v fuel = (execute s input v fuel).map (.ofReport s v) :=
    fun _ hargs => respond_of_read (hread.read_eq hargs) input v
  have hlogs : ∀ args', WrittenFor s args' → ∀ log,
      Logs read args' input v log ↔ s.Logs input v log :=
    fun _ hargs _ => logs_iff_of_read (hread.read_eq hargs)
  refine ⟨heq args h, hlogs args h, ?_⟩
  intro args' hargs
  constructor
  · intro fuel
    rw [heq args' hargs, heq args h]
  · intro log
    rw [hlogs args' hargs, hlogs args h]

/-- The constant -4 is printed, whether it comes between the values or in front of them, for a
sample that is left out or named. The value -5 is no option, with or without a terminator. -/
theorem negative_constant_respond :
    let s : Settings := ⟨.constant, -4, [-5, 12]⟩
    let args := ["-5", "--constant", "-4", "12"]
    let attached := ["-pconstant", "--constant=-4", "-5", "--", "12"]
    let terminated := ["--constant=-4", "--program", "constant", "--", "-5", "12"]
    let answer := fun args => respond readArguments args [] (.upTo .trace) 1
    WrittenFor s args ∧ WrittenFor s attached ∧ WrittenFor s terminated ∧
    answer attached = answer args ∧ answer terminated = answer args ∧
    (∀ log, Logs readArguments terminated [] (.upTo .trace) log ↔
      Logs readArguments args [] (.upTo .trace) log) ∧
    (answer args).map (fun r => (r.status, r.output)) = some (0, "-4\n") := by
  intro s args attached terminated answer
  have hconstant : IsNumeralOf "-4" (-4) := isNumeralOf_text (-4)
  have hfirst : IsNumeralOf "-5" (-5) := isNumeralOf_text (-5)
  have hsecond : IsNumeralOf "12" 12 := isNumeralOf_text 12
  have hargs : WrittenFor s args :=
    ⟨[.value (-5), .constant (-4), .value 12], [["-5"], ["--constant", "-4"], ["12"]], [], [], rfl,
      .cons (.value hfirst) (.cons (.constant hconstant) (.cons (.value hsecond) .nil)), .none,
      ⟨.inr ⟨rfl, rfl⟩, .inl rfl, rfl⟩⟩
  have hattached : WrittenFor s attached :=
    ⟨[.sample .constant, .constant (-4), .value (-5)], [["-pconstant"], ["--constant=-4"], ["-5"]],
      [12], ["--", "12"], rfl,
      .cons (.shortAttached .constant) (.cons (.constantEquals hconstant)
        (.cons (.value hfirst) .nil)),
      .terminated (.cons hsecond .nil), ⟨.inl rfl, .inl rfl, rfl⟩⟩
  have hterminated : WrittenFor s terminated :=
    ⟨[.constant (-4), .sample .constant], [["--constant=-4"], ["--program", "constant"]],
      [-5, 12], ["--", "-5", "12"], rfl,
      .cons (.constantEquals hconstant) (.cons (.long .constant) .nil),
      .terminated (.cons hfirst (.cons hsecond .nil)), ⟨.inl rfl, .inl rfl, rfl⟩⟩
  obtain ⟨heq, -, hsame⟩ :=
    respond_of_writtenFor readsItems_readArguments hargs [] (.upTo .trace)
  refine ⟨hargs, hattached, hterminated, (hsame _ hattached).1 1, (hsame _ hterminated).1 1,
    (hsame _ hterminated).2, ?_⟩
  change Option.map _ (respond readArguments args [] (.upTo .trace) 1) = _
  rw [heq, execute_of_ne_nil (by decide)]
  refine (map_ofReport_runValues ⟨.constant, -4, _⟩ (.upTo .trace) 1 [-5, 12]).trans ?_
  rfl

end

end CommandLine

end FlowGraph
