import FlowGraph.Proofs.Binding
import FlowGraph.Proofs.LogText
import FlowGraph.Proofs.Slots
import FlowGraph.Sample
import Mathlib.Data.List.Chain

/-!
# The log as a record of the run

A run reports the blocks it enters, the pairs it binds, the jumps it carries out and its result.
This file shows that nothing is missing from these reports and nothing stands in them that did not
happen: the blocks form a path from the entry, the pairs lead from the initial store to the final
one, and the result comes last, also where the run fails. What a log reports is read from its
entries, that is from their levels and texts.
-/

namespace FlowGraph

/-- The visit `y` comes after `x`: to the block with the label that the jump of `x` selects, in the
store that the assignments of `x` leave. -/
structure Visit.LeadsTo (P : Program) (x y : Visit) : Prop where
  performed : Performed x.store x.block.assigns y.store
  selects : Selects y.store x.block.jump y.block.label
  mem : y.block ∈ P.blocks

/-- None of the assignments of a visit fails. -/
def Visit.Completes (x : Visit) : Prop :=
  (Assignment.execAll x.store x.block.assigns).2 = none

instance (x : Visit) : Decidable x.Completes :=
  inferInstanceAs (Decidable (_ = none))

/-- The run stops at one of the assignments of its last visit. -/
def Run.StopsAtAssignment (P : Program) (r : Run) (last : Visit) : Prop :=
  ∃ f, r.outcome = .error f ∧ ∃ i, i < last.block.assigns.length ∧
    last.block.FailsAt P last.store r.machine.store i f

/-- The log of the run `r` from the store `s` records the visits `front` and then `last`. -/
structure Run.Records (P : Program) (s : Store) (r : Run) (front : List Visit) (last : Visit) :
    Prop where
  first : (front ++ [last]).head? = some ⟨P.entry, s⟩
  path : (front ++ [last]).IsChain (Visit.LeadsTo P)
  blocks : r.machine.blocks = (front ++ [last]).length
  steps : Counts r.machine.steps (front ++ [last]).length
  entered : entriesWith "Executing block " r.log =
    (front ++ [last]).map fun x => (.debug, "Executing block " ++ x.block.label.render)
  assigned : ∃ pairs : List (Var × Word), entriesWith "Assigning " r.log =
    pairs.map fun q => (.debug, "Assigning " ++ q.2.text ++ " to " ++ q.1.name)
  replay : ∀ pairs : List (Var × Word), entriesWith "Assigning " r.log =
    (pairs.map fun q => (.debug, "Assigning " ++ q.2.text ++ " to " ++ q.1.name)) →
      s.assignAll pairs = r.machine.store
  jumps_of_stop : r.StopsAtAssignment P last → entriesWith "Executing jump: " r.log =
    front.map fun x => (.debug, "Executing jump: " ++ x.block.jump.text)
  jumps : ¬ r.StopsAtAssignment P last → entriesWith "Executing jump: " r.log =
    (front ++ [last]).map fun x => (.debug, "Executing jump: " ++ x.block.jump.text)
  result : ∀ w, r.outcome = .ok w →
    let line := (Level.info, "Program returned " ++ w.text ++ " after executing " ++
      Numeral.write r.machine.steps.toNat ++ " blocks")
    entriesWith "Program returned " r.log = [line] ∧ (r.log.map Event.entry).getLast? = some line
  no_result : ∀ f, r.outcome = .error f → entriesWith "Program returned " r.log = []

lemma Verbosity.keep_trace (es : List Event) : keep (.upTo .trace) es = es := by
  apply List.filter_eq_self.mpr
  rintro e -
  cases h : e.level <;> rfl

section
variable {P : Program} {m n : Machine} {vs : List Visit}

lemma Route.head?_eq {x : Visit} (h : Route P m vs n) (hx : vs.head? = some x) :
    m.phase = .pending x.block ∧ m.store = x.store := by
  cases h with
  | nil => cases hx
  | cons _ =>
    cases hx
    exact ⟨rfl, rfl⟩

/-- A run starts with a visit to the entry. -/
lemma Route.head?_of_start {s : Store} (h : Route P (.start P s) vs n) (hvs : vs ≠ []) :
    vs.head? = some ⟨P.entry, s⟩ := by
  obtain ⟨x, hx⟩ := Option.ne_none_iff_exists'.mp (mt List.head?_eq_none_iff.mp hvs)
  obtain ⟨hp, hs⟩ := h.head?_eq hx
  have hb : P.entry = x.block := by injection hp
  have hst : s = x.store := hs
  rw [hx, hb, hst]

lemma leadsTo_of_exec {b : Block} {s : Store} {x : Visit}
    (hp : Phase.after (P.exec b s).result = .pending x.block) (hs : (P.exec b s).store = x.store) :
    Visit.LeadsTo P ⟨b, s⟩ x := by
  obtain ⟨hperf, hf⟩ := performed_of_result (after_eq_pending_iff.mp hp)
  rw [hs] at hperf hf
  obtain ⟨hsel, hmem⟩ := follow_eq_goto_iff.mp hf
  exact ⟨hperf, hsel, hmem⟩

/-- The visits of a route follow one another along the jumps of the program. -/
theorem Route.isChain (h : Route P m vs n) : vs.IsChain (Visit.LeadsTo P) := by
  induction h with
  | nil => exact .nil
  | cons h ih =>
    refine List.isChain_cons.mpr ⟨?_, ih⟩
    intro x hx
    obtain ⟨hp, hs⟩ := h.head?_eq hx
    exact leadsTo_of_exec hp hs

lemma Visit.LeadsTo.completes {x y : Visit} (h : x.LeadsTo P y) : x.Completes := by
  unfold Visit.Completes
  rw [execAll_eq_none_iff.mpr h.performed]

/-- Every visit before the last completes. -/
lemma completes_of_isChain {front : List Visit} {last x : Visit}
    (h : (front ++ [last]).IsChain (Visit.LeadsTo P)) (hx : x ∈ front) : x.Completes := by
  obtain ⟨before, after, rfl⟩ := List.append_of_mem hx
  rw [List.append_assoc, List.cons_append] at h
  obtain ⟨hnext, -⟩ := List.isChain_cons.mp h.right_of_append
  cases after with
  | nil => exact (hnext last rfl).completes
  | cons y ys => exact (hnext y rfl).completes

/-- A run whose last visit is `last` stops at an assignment exactly if `last` does not complete. -/
lemma stopsAtAssignment_iff {r : Run} {b : Block} {t : Store} {k : Nat}
    (hm : r.machine = Machine.step P ⟨t, .pending b, k⟩)
    (ho : r.machine.phase.outcome? = some r.outcome) :
    r.StopsAtAssignment P ⟨b, t⟩ ↔ ¬ Visit.Completes ⟨b, t⟩ := by
  unfold Run.StopsAtAssignment Visit.Completes
  simp only [failsAt_assign_iff]
  constructor
  · rintro ⟨f, -, hf⟩
    rw [hf]
    nofun
  · intro hc
    obtain ⟨f, hf⟩ := Option.ne_none_iff_exists'.mp hc
    have hall : Assignment.execAll t b.assigns = ((P.exec b t).store, some f) := by
      rw [exec_store, ← execAll_store, ← hf]
    have hexec := exec_eq_error_iff.mpr ((failsAt_assign_or_jump (P := P)).mpr (.inl hall))
    rw [hm, step_pending, hexec] at ho
    refine ⟨f, (Option.some.inj ho).symm, ?_⟩
    rw [hm, step_pending]
    exact hall

end

section
variable {α : Type} {p : Event → Option α} (hp : ∀ r, p (.reduced r) = none)
include hp

lemma filterMap_evaluation (s : Store) (e : Expr) : (e.events s).filterMap p = [] := by
  apply List.filterMap_eq_nil_iff.mpr
  intro a ha
  obtain ⟨r, -, rfl⟩ := List.mem_map.mp ha
  exact hp r

lemma filterMap_jump (s : Store) (j : Jump) :
    (j.events s).filterMap p = (p (.jumping j)).toList := by
  have he : (j.events s).tail.filterMap p = [] := by
    cases j with
    | goto l => rfl
    | branch c yes no => exact filterMap_evaluation hp s c
    | ret e => exact filterMap_evaluation hp s e
  change (Event.jumping j :: (j.events s).tail).filterMap p = _
  rw [List.filterMap_cons, he]
  cases p (.jumping j) <;> rfl

/-- What a block reports besides reductions: the pairs it binds and then, unless an assignment
fails, its jump. -/
lemma filterMap_eventsFrom (j : Jump) (s : Store) (as : List Assignment) :
    (Block.eventsFrom j s as).filterMap p =
      (Assignment.bindings s as).filterMap (fun q => p (.assigned q.1 q.2)) ++
        if (Assignment.execAll s as).2 = none then (p (.jumping j)).toList else [] := by
  induction as generalizing s with
  | nil => exact filterMap_jump hp s j
  | cons a as ih =>
    unfold Block.eventsFrom Assignment.bindings Assignment.execAll
    rw [List.filterMap_append, filterMap_evaluation hp, List.nil_append]
    cases hw : a.word s with
    | error f => rfl
    | ok w =>
      simp only [List.filterMap_cons, ih]
      cases p (.assigned a.target w) <;> rfl

lemma filterMap_visit (x : Visit) :
    x.events.filterMap p = (p (.entered x.block.label)).toList ++
      (x.bindings.filterMap (fun q => p (.assigned q.1 q.2)) ++
        if x.Completes then (p (.jumping x.block.jump)).toList else []) := by
  unfold Visit.events Block.events Visit.bindings
  rw [List.filterMap_cons, filterMap_eventsFrom hp]
  cases p (.entered x.block.label) <;> rfl

end

lemma Machine.closing_filterMap {α : Type} {p : Event → Option α}
    (hp : ∀ w k, p (.returned w k) = none) (n : Machine) : n.closing.filterMap p = [] := by
  rcases n with ⟨s, b | w | f, k⟩
  · rfl
  · exact List.filterMap_cons_none (hp w _)
  · rfl

lemma Machine.closing_of_outcome {n : Machine} {w : Word}
    (h : n.phase.outcome? = some (.ok w)) : n.closing = [.returned w n.steps] := by
  rcases n with ⟨s, b | u | f, k⟩ <;> cases h
  rfl

lemma Machine.closing_of_fault {n : Machine} {f : Fault}
    (h : n.phase.outcome? = some (.error f)) : n.closing = [] := by
  rcases n with ⟨s, b | u | g, k⟩ <;> cases h
  rfl

namespace Route

variable {P : Program} {m n : Machine} {vs : List Visit}

lemma report_filterMap {α : Type} {p : Event → Option α} (hr : ∀ r, p (.reduced r) = none)
    (hs : ∀ l k, p (.started l k) = none) :
    (report P m vs n).filterMap p =
      (vs.flatMap fun x => (p (.entered x.block.label)).toList ++
        (x.bindings.filterMap (fun q => p (.assigned q.1 q.2)) ++
          if x.Completes then (p (.jumping x.block.jump)).toList else [])) ++
        n.closing.filterMap p := by
  unfold report Machine.opening
  rw [List.filterMap_cons_none (hs _ _), List.filterMap_append, List.filterMap_flatMap]
  simp only [filterMap_visit hr]

lemma report_entered :
    entriesWith "Executing block " (report P m vs n) =
      vs.map fun x => (.debug, "Executing block " ++ x.block.label.render) := by
  rw [heads_entered.entriesWith_eq, report_filterMap (fun _ => rfl) fun _ _ => rfl,
    Machine.closing_filterMap fun _ _ => rfl, List.append_nil, List.map_flatMap,
    List.map_eq_flatMap]
  simp [Event.entered?]

lemma report_bindings :
    entriesWith "Assigning " (report P m vs n) = (vs.flatMap Visit.bindings).map fun q =>
      (.debug, "Assigning " ++ q.2.text ++ " to " ++ q.1.name) := by
  rw [heads_binding.entriesWith_eq, report_filterMap (fun _ => rfl) fun _ _ => rfl,
    Machine.closing_filterMap fun _ _ => rfl, List.append_nil]
  simp [Event.binding?]

lemma report_jumps :
    entriesWith "Executing jump: " (report P m vs n) =
      (vs.flatMap fun x => if x.Completes then [x.block.jump] else []).map fun j =>
        (.debug, "Executing jump: " ++ j.text) := by
  rw [heads_jump.entriesWith_eq, report_filterMap (fun _ => rfl) fun _ _ => rfl,
    Machine.closing_filterMap fun _ _ => rfl, List.append_nil]
  simp [Event.jump?]

lemma report_returned :
    entriesWith "Program returned " (report P m vs n) =
      entriesWith "Program returned " n.closing := by
  rw [heads_returned.entriesWith_eq, heads_returned.entriesWith_eq,
    report_filterMap (fun _ => rfl) fun _ _ => rfl]
  simp [Event.returned?]

end Route

/-- The jumps along a path of visits are all reported, but for one that is not reached. -/
lemma reported_jumps {P : Program} {front : List Visit} {last : Visit}
    (h : (front ++ [last]).IsChain (Visit.LeadsTo P)) :
    ((front ++ [last]).flatMap fun x => if x.Completes then [x.block.jump] else []) =
      (front.map fun x => x.block.jump) ++ if last.Completes then [last.block.jump] else [] := by
  have hfront : (front.flatMap fun x => if x.Completes then [x.block.jump] else []) =
      front.map fun x => x.block.jump := by
    rw [List.map_eq_flatMap]
    apply List.flatMap_congr
    intro x hx
    rw [if_pos (completes_of_isChain h hx)]
  rw [List.flatMap_append, hfront, List.flatMap_singleton]

lemma records_of_route {P : Program} {s t : Store} {r : Run} {front : List Visit} {b : Block}
    (hroute : Route P (.start P s) (front ++ [⟨b, t⟩]) r.machine)
    (hm : r.machine = Machine.step P ⟨t, .pending b, front.length⟩)
    (ho : r.machine.phase.outcome? = some r.outcome)
    (hlog : r.log = Route.report P (.start P s) (front ++ [⟨b, t⟩]) r.machine) :
    r.Records P s front ⟨b, t⟩ where
  first := hroute.head?_of_start (by simp)
  path := hroute.isChain
  blocks := hroute.blocks_eq.trans (Nat.zero_add _)
  steps := by
    have hblocks := hroute.blocks_eq.trans (Nat.zero_add _)
    exact hblocks ▸ r.machine.counts_steps
  entered := by rw [hlog, Route.report_entered]
  assigned := by
    rw [hlog, Route.report_bindings]
    exact ⟨_, rfl⟩
  replay := by
    intro pairs h
    rw [hlog, Route.report_bindings] at h
    rw [← List.map_injective_iff.mpr binding_entry_injective h]
    exact hroute.store_eq.symm
  jumps_of_stop := by
    intro hs
    have hc := (stopsAtAssignment_iff hm ho).mp hs
    rw [hlog, Route.report_jumps, reported_jumps hroute.isChain, if_neg hc, List.append_nil,
      List.map_map]
    rfl
  jumps := by
    intro hs
    have hc : Visit.Completes ⟨b, t⟩ :=
      Decidable.not_not.mp fun hc => hs ((stopsAtAssignment_iff hm ho).mpr hc)
    rw [hlog, Route.report_jumps, reported_jumps hroute.isChain, if_pos hc, List.map_append,
      List.map_append, List.map_map]
    rfl
  result := by
    intro w hw
    rw [hw] at ho
    rw [hlog, Route.report_returned, Machine.closing_of_outcome ho]
    refine ⟨heads_returned.entriesWith_eq _, ?_⟩
    rw [Route.report, Machine.closing_of_outcome ho, ← List.cons_append, List.map_append,
      List.map_singleton, List.getLast?_concat]
    rfl
  no_result := by
    intro f hf
    rw [hf] at ho
    rw [hlog, Route.report_returned, Machine.closing_of_fault ho]
    rfl

/-- The full log of a run that ends, with a result or a fault, records the run: the blocks that it
names form the path of the run from the entry, its pairs lead from the initial store to the final
one, its jumps are those on the path that were reached, and a result stands at its end and nowhere
else. An interpreter writes this log, and a run that logs less keeps of it what its verbosity
admits. -/
theorem run_log_records {P : Program} {fuel : Nat} {s : Store} {r : Run}
    (h : P.run (.upTo .trace) fuel s = some r) :
    (∃ q, (Interpreter.new P s).run P (.upTo .trace) fuel = some q ∧ q.Shows r) ∧
      (∀ v, P.run v fuel s = some { r with log := v.keep r.log }) ∧
      ∃ front last, r.Records P s front last := by
  obtain ⟨front, b, t, -, hroute, hm, -⟩ := Program.run_exists_last h
  obtain ⟨vs, hr, hlen, ho, hlog⟩ := Program.run_eq_some_iff.mp h
  obtain ⟨rfl, -⟩ := hr.unique ho hroute ho
  rw [Verbosity.keep_trace] at hlog
  refine ⟨exists_shows h, ?_, front, ⟨b, t⟩, records_of_route hroute hm ho hlog⟩
  intro v
  exact Program.run_eq_some_iff.mpr ⟨_, hroute, hlen, ho, by rw [hlog]⟩

/-- Counting down from one enters five blocks and reports them all. -/
theorem countdown_log_records :
    ∃ r, Program.countdown.run (.upTo .trace) 5 (.ofList [("n", 1)]) = some r ∧
      r.outcome = .ok 1 ∧ r.machine.blocks = 5 ∧
      (∃ q, (Interpreter.new .countdown (.ofList [("n", 1)])).run .countdown (.upTo .trace) 5 =
        some q ∧ q.Shows r) ∧
      (∀ v, Program.countdown.run v 5 (.ofList [("n", 1)]) =
        some { r with log := v.keep r.log }) ∧
      ∃ front last, r.Records .countdown (.ofList [("n", 1)]) front last := by
  obtain ⟨r, h, ho, hs⟩ : ∃ r, Program.countdown.run (.upTo .trace) 5 (.ofList [("n", 1)]) =
    some r ∧ r.outcome = .ok 1 ∧ r.machine.blocks = 5 := ⟨_, rfl, rfl, rfl⟩
  exact ⟨r, h, ho, hs, run_log_records h⟩

end FlowGraph
