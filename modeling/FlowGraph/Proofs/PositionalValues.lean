import FlowGraph.Invocation
import FlowGraph.Proofs.Extension
import FlowGraph.Proofs.Noninterference
import FlowGraph.Proofs.Record

/-!
# Positional values

A run on positional values starts from the store that binds each input to the value at its
position, as far as both lists go, and warns of the difference where one list is longer. Values
beyond the inputs change nothing. Values for inputs that had none change nothing either, unless the
run failed for lack of one of these inputs.
-/

namespace FlowGraph

/-- The two numbers of a warning that they differ. -/
def Event.mismatch? : Event → Option (Nat × Nat)
  | countMismatch declared supplied => some (declared, supplied)
  | _ => none

namespace Program

variable (P : Program) (values : List Word)

/-- The store binds the inputs to the values at their positions, as far as both go, and binds
nothing else. -/
structure Binds (s : Store) : Prop where
  get?_iff : ∀ x w, s.get? x = some w ↔ ∃ i : Nat, P.inputs[i]? = some x ∧ values[i]? = some w
  size_eq : s.size = min P.inputs.length values.length

/-- What a run on the values has logged on its way to `n` through the visits `vs`. -/
def loggedAt (v : Verbosity) (vs : List Visit) (n : Machine) : List Event :=
  v.keep (P.countCheck values) ++ v.keep (Route.report P (.start P (P.bind values)) vs n)

/-- A log that a run on the values has written so far, or in all. -/
def Logs (v : Verbosity) (log : List Event) : Prop :=
  (∃ vs n, Route P (.start P (P.bind values)) vs n ∧ log = P.loggedAt values v vs n) ∨
    ∃ fuel r, P.runValues v fuel values = some r ∧ log = r.log

/-- The variable is an input that has no value, but has one if the values of `more` follow. -/
def Supplies (more : List Word) (x : Var) : Prop :=
  ∃ i : Nat, values.length ≤ i ∧ i < min P.inputs.length (values.length + more.length) ∧
    P.inputs[i]? = some x

variable {P values}

lemma map_fst_zip_inputs :
    (P.inputs.zip values).map Prod.fst =
      P.inputs.take (min P.inputs.length values.length) := by
  rw [List.zip_eq_zip_take_min, List.map_fst_zip]
  simp only [List.length_take]
  omega

lemma get?_bind_iff {x : Var} {w : Word} :
    (P.bind values).get? x = some w ↔
      ∃ i : Nat, P.inputs[i]? = some x ∧ values[i]? = some w := by
  have hmem : ∀ u, (x, u) ∈ P.inputs.zip values ↔
      ∃ i : Nat, P.inputs[i]? = some x ∧ values[i]? = some u := by
    intro u
    simp only [List.mem_iff_getElem?, List.getElem?_zip_eq_some]
  have hfun : ∀ u u', (x, u) ∈ P.inputs.zip values → (x, u') ∈ P.inputs.zip values → u = u' := by
    intro u u' hu hu'
    obtain ⟨i, hx, hi⟩ := (hmem u).mp hu
    obtain ⟨j, hx', hj⟩ := (hmem u').mp hu'
    have hij : i = j := by
      obtain ⟨hlt, -⟩ := List.getElem?_eq_some_iff.mp hx
      exact (List.getElem?_inj hlt P.inputs_nodup).mp (hx.trans hx'.symm)
    rw [hij, hj] at hi
    exact (Option.some.inj hi).symm
  rw [bind, get?_ofList_iff hfun, hmem]

variable (P values) in
theorem binds_bind : P.Binds values (P.bind values) where
  get?_iff _ _ := get?_bind_iff
  size_eq := by
    have hnodup : ((P.inputs.zip values).map Prod.fst).Nodup := by
      rw [map_fst_zip_inputs]
      exact P.inputs_nodup.sublist (List.take_sublist _ _)
    rw [bind, Store.size_ofList hnodup, List.length_zip]

/-- Values beyond the inputs are not bound. -/
lemma bind_append_of_le (h : P.inputs.length ≤ values.length) (more : List Word) :
    P.bind (values ++ more) = P.bind values := by
  ext x w
  rw [get?_bind_iff, get?_bind_iff]
  have hvalue : ∀ i : Nat, P.inputs[i]? = some x → (values ++ more)[i]? = values[i]? := by
    intro i hi
    obtain ⟨hlt, -⟩ := List.getElem?_eq_some_iff.mp hi
    exact List.getElem?_append_left (by omega)
  constructor
  · rintro ⟨i, hx, hw⟩
    exact ⟨i, hx, (hvalue i hx).symm.trans hw⟩
  · rintro ⟨i, hx, hw⟩
    exact ⟨i, hx, (hvalue i hx).trans hw⟩

lemma bind_append_extends (more : List Word) :
    (P.bind values).Extends (P.bind (values ++ more)) := by
  intro x w hx
  obtain ⟨i, hi, hw⟩ := get?_bind_iff.mp hx
  obtain ⟨hlt, -⟩ := List.getElem?_eq_some_iff.mp hw
  exact get?_bind_iff.mpr ⟨i, hi, by rw [List.getElem?_append_left hlt, hw]⟩

/-- What more values bind in addition is what they supply. -/
lemma supplies_of_get? {more : List Word} {x : Var} (h : (P.bind values).get? x = none)
    (hmore : (P.bind (values ++ more)).get? x ≠ none) : P.Supplies values more x := by
  obtain ⟨w, hw⟩ := Option.ne_none_iff_exists'.mp hmore
  obtain ⟨i, hx, hi⟩ := get?_bind_iff.mp hw
  obtain ⟨hinput, -⟩ := List.getElem?_eq_some_iff.mp hx
  obtain ⟨hvalue, -⟩ := List.getElem?_eq_some_iff.mp hi
  rw [List.length_append] at hvalue
  refine ⟨i, ?_, by omega, hx⟩
  by_contra hlt
  rw [List.getElem?_append_left (by omega)] at hi
  rw [get?_bind_iff.mpr ⟨i, hx, hi⟩] at h
  cases h

variable (P values) in
lemma agreeOn_bind_append (V : Set Var) (more : List Word) :
    (P.bind values).AgreeOn V {x | P.Supplies values more x} (P.bind (values ++ more)) := by
  intro x _
  rcases (bind_append_extends more).agreeOn x (Set.mem_univ x) with h | ⟨hx, hmore⟩
  · exact .inl h
  · exact .inr ⟨hx, supplies_of_get? hx hmore⟩

/-- What is logged in addition once a run has come to its end. -/
def conclusion : Except Fault Word → List Event
  | .ok w => [.concluded w]
  | .error _ => []

section
variable {v : Verbosity} {fuel : Nat}

variable (P v fuel values) in
lemma runValues_eq :
    P.runValues v fuel values = (P.run v fuel (P.bind values)).map fun r =>
      ⟨r.outcome.mapError .execution,
        v.keep (P.countCheck values) ++ r.log ++ v.keep (conclusion r.outcome)⟩ := by
  unfold runValues
  cases P.run v fuel (P.bind values) with
  | none => rfl
  | some r =>
    rcases r with ⟨m, _ | w, log⟩
    · exact congrArg (fun l => some (Report.mk _ l)) (List.append_nil _).symm
    · rfl

variable (P v fuel values) in
lemma map_outcome_runValues :
    (P.runValues v fuel values).map Report.outcome =
      (P.run v fuel (P.bind values)).map fun r => r.outcome.mapError .execution := by
  rw [runValues_eq, Option.map_map]
  rfl

lemma keep_filterMap_eq_nil {α : Type} {p : Event → Option α} {es : List Event}
    (h : es.filterMap p = []) : (v.keep es).filterMap p = [] := by
  rw [List.filterMap_eq_nil_iff] at h ⊢
  intro e he
  exact h e (List.mem_filter.mp he).1

lemma report_mismatch (m n : Machine) (vs : List Visit) :
    (Route.report P m vs n).filterMap Event.mismatch? = [] := by
  rw [Route.report_filterMap (fun _ => rfl) fun _ _ => rfl,
    Machine.closing_filterMap fun _ _ => rfl]
  simp [Event.mismatch?]

variable (P v values) in
lemma countCheck_mismatch :
    (v.keep (P.countCheck values)).filterMap Event.mismatch? =
      if v.admits .warn = true ∧ P.inputs.length ≠ values.length then
        [(P.inputs.length, values.length)] else [] := by
  unfold countCheck Verbosity.keep
  by_cases hn : P.inputs.length = values.length
  · simp [hn]
  · cases hv : v.admits .warn <;> simp [hn, hv, Event.level, Event.mismatch?]

lemma loggedAt_mismatch (vs : List Visit) (n : Machine) :
    (P.loggedAt values v vs n).filterMap Event.mismatch? =
      (v.keep (P.countCheck values)).filterMap Event.mismatch? := by
  rw [loggedAt, List.filterMap_append, keep_filterMap_eq_nil (report_mismatch _ n vs),
    List.append_nil]

/-- Apart from the check of the numbers, nothing warns that two numbers differ. -/
lemma Logs.mismatch {log : List Event} (h : P.Logs values v log) :
    log.filterMap Event.mismatch? = (v.keep (P.countCheck values)).filterMap Event.mismatch? := by
  rcases h with ⟨vs, n, -, rfl⟩ | ⟨fuel, r, hr, rfl⟩
  · exact loggedAt_mismatch vs n
  · rw [runValues_eq] at hr
    obtain ⟨k, hk, rfl⟩ := Option.map_eq_some_iff.mp hr
    obtain ⟨vs, -, -, -, hlog⟩ := Program.run_eq_some_iff.mp hk
    have hend : (conclusion k.outcome).filterMap Event.mismatch? = [] := by
      cases k.outcome <;> rfl
    have hall : v.keep (P.countCheck values) ++ k.log = P.loggedAt values v vs k.machine := by
      rw [hlog, loggedAt]
    rw [hall, List.filterMap_append, loggedAt_mismatch, keep_filterMap_eq_nil hend,
      List.append_nil]

/-- A run is the same with more values, unless it failed for lack of one of them. -/
lemma runValues_append (more : List Word) {r : Report} (hr : P.runValues v fuel values = some r)
    (hvar : ∀ x, r.outcome = .error (.execution (.unboundVariable x)) →
      ¬ P.Supplies values more x) :
    ∃ r', P.runValues v fuel (values ++ more) = some r' ∧ r'.outcome = r.outcome := by
  rw [runValues_eq] at hr
  obtain ⟨k, hk, rfl⟩ := Option.map_eq_some_iff.mp hr
  have ho : Robust {x | P.Supplies values more x} ∅ k.outcome := by
    intro f hf hlack
    cases f with
    | unboundVariable x => exact hvar x (by rw [hf]; rfl) hlack
    | _ => exact hlack
  obtain ⟨k', -, -, hk', hout, -⟩ := (inStep_reachable P).run rfl .entry
    (agreeOn_bind_append P values P.reads more) hk ho
  refine ⟨_, by rw [runValues_eq, hk']; rfl, ?_⟩
  exact congrArg (Except.mapError Failure.execution) hout

end

end Program

/-- A run on positional values starts from the store that binds the inputs to the values by
position, and its log warns once if their numbers differ, and never otherwise. More values than
inputs are as good as just enough. A run that lacked values ends the same way when further ones
follow, unless it failed for lack of one of those. -/
theorem runValues_positional (P : Program) (values : List Word) :
    P.Binds values (P.bind values) ∧
    (∀ v fuel, (P.runValues v fuel values).map Report.outcome =
      (P.run v fuel (P.bind values)).map fun r => r.outcome.mapError .execution) ∧
    (∀ v log, P.Logs values v log → log.filterMap Event.mismatch? =
      if v.admits .warn = true ∧ P.inputs.length ≠ values.length then
        [(P.inputs.length, values.length)] else []) ∧
    ∀ more v fuel,
      (P.inputs.length ≤ values.length →
        (P.runValues v fuel (values ++ more)).map Report.outcome =
          (P.runValues v fuel values).map Report.outcome) ∧
      (values.length < P.inputs.length → ∀ r, P.runValues v fuel values = some r →
        (∀ x, r.outcome = .error (.execution (.unboundVariable x)) →
          ¬ P.Supplies values more x) →
        ∃ r', P.runValues v fuel (values ++ more) = some r' ∧ r'.outcome = r.outcome) := by
  refine ⟨P.binds_bind values, P.map_outcome_runValues values, ?_, ?_⟩
  · intro v log hlog
    rw [hlog.mismatch, P.countCheck_mismatch values v]
  · intro more v fuel
    constructor
    · intro h
      rw [Program.map_outcome_runValues, Program.map_outcome_runValues,
        Program.bind_append_of_le h]
    · intro _ r hr hvar
      exact Program.runValues_append more hr hvar

/-- The countdown takes no notice of two values too many, and a constant, which warns of a missing
value, does not need it. -/
theorem samples_positional :
    let P := Program.countdown
    let Q := Program.constant 5
    ((P.runValues .off 7 ([2] ++ [8, 8])).map Report.outcome =
        (P.runValues .off 7 [2]).map Report.outcome ∧
      (P.runValues .off 7 [2]).map Report.outcome = some (.ok 2)) ∧
    ∃ r, Q.runValues (.upTo .warn) 1 [1] = some r ∧ r.outcome = .ok 5 ∧
      r.log.filterMap Event.mismatch? = [(2, 1)] ∧
      ∃ r', Q.runValues (.upTo .warn) 1 ([1] ++ [3]) = some r' ∧ r'.outcome = r.outcome := by
  intro P Q
  obtain ⟨-, -, -, hextra⟩ := runValues_positional P [2]
  obtain ⟨-, -, hlogs, hmore⟩ := runValues_positional Q [1]
  have hcounts : P.inputs.length ≤ 1 := by decide
  have hmissing : 1 < Q.inputs.length := by decide
  obtain ⟨r, hr, ho⟩ : ∃ r, Q.runValues (.upTo .warn) 1 [1] = some r ∧ r.outcome = .ok 5 :=
    ⟨_, rfl, rfl⟩
  refine ⟨⟨(hextra [8, 8] .off 7).1 hcounts, rfl⟩, r, hr, ho, ?_, ?_⟩
  · exact hlogs _ _ (.inr ⟨1, r, hr, rfl⟩)
  · refine (hmore [3] _ 1).2 hmissing r hr ?_
    intro x hx
    rw [ho] at hx
    cases hx

end FlowGraph
