import FlowGraph.Machine
import FlowGraph.Proofs.Statement

/-!
# Runs as routes through blocks

A machine that runs visits one block after the other. `Route P m vs n` says that the visits `vs`
take the machine `m` to the machine `n`, whether or not `n` has stopped. This file shows that a run
is a route to a stopped machine, and that its log is what the visits on the route report.
-/

namespace FlowGraph

/-- A block that is executed, with the store on entry. -/
structure Visit where
  block : Block
  store : Store

def Visit.events (x : Visit) : List Event :=
  x.block.events x.store

/-- The machine at the end of the visits of a list, in order. -/
inductive Route (P : Program) : Machine → List Visit → Machine → Prop
  | nil (m : Machine) : Route P m [] m
  | cons {b : Block} {s : Store} {k : Nat} {vs : List Visit} {n : Machine}
      (h : Route P (Machine.step P ⟨s, .pending b, k⟩) vs n) :
      Route P ⟨s, .pending b, k⟩ (⟨b, s⟩ :: vs) n

lemma step_pending (P : Program) (s : Store) (b : Block) (k : Nat) :
    Machine.step P ⟨s, .pending b, k⟩ =
      ⟨(P.exec b s).store, .after (P.exec b s).result, k + 1⟩ := rfl

lemma step_eq_of_exec {P : Program} {b : Block} {s t : Store} {k : Nat}
    {x : Except Fault Transfer} (h : P.exec b s = ⟨t, x⟩) :
    Machine.step P ⟨s, .pending b, k⟩ = ⟨t, .after x, k + 1⟩ := by
  rw [step_pending, h]

/-- A block that performs its assignments hands control to the block that its jump selects. -/
lemma step_eq_pending {P : Program} {b c : Block} {s t : Store} {k : Nat}
    (hp : Performed s b.assigns t) (hj : Selects t b.jump c.label) (hc : c ∈ P.blocks) :
    Machine.step P ⟨s, .pending b, k⟩ = ⟨t, .pending c, k + 1⟩ := by
  have hf : P.follow t b.jump = .ok (.goto c) := follow_eq_goto_iff.mpr ⟨hj, hc⟩
  exact step_eq_of_exec (exec_eq_ok_iff.mpr ⟨hp, hf⟩)

/-- What a counter of 64 bits shows of a number: the number itself as long as there is room, and
always its remainder modulo `2 ^ 64`. -/
structure Counts (c : UInt64) (n : Nat) : Prop where
  exact : n < UInt64.size → c.toNat = n
  wrapped : c.toNat = n % UInt64.size

lemma Machine.counts_steps (m : Machine) : Counts m.steps m.blocks where
  exact h := UInt64.toNat_ofNat_of_lt h
  wrapped := UInt64.toNat_ofNat'

namespace Route

variable {P : Program} {m n : Machine} {vs : List Visit}

lemma blocks_eq (h : Route P m vs n) : n.blocks = m.blocks + vs.length := by
  induction h with
  | nil => rfl
  | cons _ ih =>
    rw [ih, step_pending]
    simp only [List.length_cons]
    omega

lemma eq_of_nil (h : Route P m [] n) : n = m := by
  cases h
  rfl

lemma single (P : Program) (s : Store) (b : Block) (k : Nat) :
    Route P ⟨s, .pending b, k⟩ [⟨b, s⟩] (Machine.step P ⟨s, .pending b, k⟩) :=
  .cons (.nil _)

lemma append {k : Machine} {ws : List Visit} (h : Route P m vs n) (h' : Route P n ws k) :
    Route P m (vs ++ ws) k := by
  induction h with
  | nil => exact h'
  | cons _ ih => exact .cons (ih h')

/-- A route to a stopped machine starts with any other route from the same machine. -/
lemma exists_rest {k : Machine} {ws : List Visit} {o : Except Fault Word} (h : Route P m vs n)
    (h' : Route P m ws k) (hk : k.phase.outcome? = some o) :
    ∃ us, ws = vs ++ us ∧ Route P n us k := by
  induction h generalizing ws with
  | nil => exact ⟨ws, rfl, h'⟩
  | cons _ ih =>
    cases h' with
    | nil => cases hk
    | cons h' =>
      obtain ⟨us, rfl, hu⟩ := ih h'
      exact ⟨us, rfl, hu⟩

/-- No route is longer than one from the same machine to a stopped machine. -/
lemma length_le {k : Machine} {ws : List Visit} {o : Except Fault Word} (h : Route P m vs n)
    (h' : Route P m ws k) (hk : k.phase.outcome? = some o) : vs.length ≤ ws.length := by
  obtain ⟨us, rfl, -⟩ := h.exists_rest h' hk
  simp

/-- Before each visit of a route there is a machine in front of a block. -/
lemma exists_take (h : Route P m vs n) {k : Nat} (hk : k < vs.length) :
    ∃ b s, Route P m (vs.take k) ⟨s, .pending b, m.blocks + k⟩ := by
  induction h generalizing k with
  | nil => cases hk
  | @cons b s i vs n _ ih =>
    cases k with
    | zero => exact ⟨b, s, .nil _⟩
    | succ k =>
      obtain ⟨c, t, hr⟩ := ih (Nat.lt_of_succ_lt_succ hk)
      have hi : i + 1 + k = i + (k + 1) := by omega
      refine ⟨c, t, .cons ?_⟩
      rw [← hi]
      exact hr

/-- What every step keeps holds at the end of a route. -/
lemma invariant {I : Machine → Prop}
    (hI : ∀ s b k, I ⟨s, .pending b, k⟩ → I (Machine.step P ⟨s, .pending b, k⟩))
    (h : Route P m vs n) (hm : I m) : I n := by
  induction h with
  | nil => exact hm
  | cons _ ih => exact ih (hI _ _ _ hm)

/-- A route that visits something ends with the execution of its last visit. -/
lemma exists_last (h : Route P m vs n) (hvs : vs ≠ []) :
    ∃ ws b s k, vs = ws ++ [⟨b, s⟩] ∧ Route P m ws ⟨s, .pending b, k⟩ ∧
      n = Machine.step P ⟨s, .pending b, k⟩ := by
  induction h with
  | nil => exact absurd rfl hvs
  | @cons b s k vs n h ih =>
    by_cases hv : vs = []
    · subst hv
      exact ⟨[], b, s, k, rfl, .nil _, h.eq_of_nil⟩
    · obtain ⟨ws, c, t, i, rfl, hw, hn⟩ := ih hv
      exact ⟨⟨b, s⟩ :: ws, c, t, i, rfl, .cons hw, hn⟩

end Route

section
variable {P : Program} {v : Verbosity}

lemma Expr.debug_le_of_mem_events {x : Expr} {s : Store} {e : Event} (h : e ∈ x.events s) :
    Level.debug.rank ≤ e.level.rank := by
  obtain ⟨r, -, rfl⟩ := List.mem_map.mp h
  exact Nat.le_succ _

lemma Jump.debug_le_of_mem_events {j : Jump} {s : Store} {e : Event} (h : e ∈ j.events s) :
    Level.debug.rank ≤ e.level.rank := by
  unfold Jump.events at h
  rcases List.mem_cons.mp h with rfl | h
  · exact Nat.le_refl _
  · split at h
    · exact Expr.debug_le_of_mem_events h
    · cases h

lemma debug_le_of_mem_eventsFrom {j : Jump} {as : List Assignment} {s : Store} {e : Event}
    (h : e ∈ Block.eventsFrom j s as) : Level.debug.rank ≤ e.level.rank := by
  induction as generalizing s with
  | nil => exact Jump.debug_le_of_mem_events h
  | cons a as ih =>
    unfold Block.eventsFrom at h
    rcases List.mem_append.mp h with h | h
    · exact Expr.debug_le_of_mem_events h
    · split at h
      · rcases List.mem_cons.mp h with rfl | h
        · exact Nat.le_refl _
        · exact ih h
      · cases h

/-- A block reports nothing more severe than `debug`. -/
lemma Block.debug_le_of_mem_events {b : Block} {s : Store} {e : Event} (h : e ∈ b.events s) :
    Level.debug.rank ≤ e.level.rank := by
  rcases List.mem_cons.mp h with rfl | h
  · exact Nat.le_refl _
  · exact debug_le_of_mem_eventsFrom h

lemma keep_events_eq_nil (hv : v.admits .debug = false) (b : Block) (s : Store) :
    v.keep (b.events s) = [] := by
  apply List.filter_eq_nil_iff.mpr
  intro e he hk
  have hr := Block.debug_le_of_mem_events he
  cases v with
  | off => cases hk
  | upTo l =>
    simp only [Verbosity.admits, decide_eq_true_eq, decide_eq_false_iff_not] at hk hv
    omega

lemma observe_pending (log : Array Event) (b : Block) (s : Store) (k : Nat) :
    (Machine.observe v log ⟨s, .pending b, k⟩).toList = log.toList ++ v.keep (b.events s) := by
  change (b.record v log s).toList = _
  unfold Block.record
  cases hv : v.admits .debug with
  | false => simp [keep_events_eq_nil hv]
  | true => simp

lemma keep_append (es fs : List Event) : v.keep (es ++ fs) = v.keep es ++ v.keep fs :=
  List.filter_append ..

lemma Route.of_stopped {m n : Machine} {vs : List Visit} {o : Except Fault Word}
    (hm : m.phase.outcome? = some o) (h : Route P m vs n) : vs = [] ∧ n = m := by
  cases h with
  | nil => exact ⟨rfl, rfl⟩
  | cons h => cases hm

/-- From one machine there is one route to a stopped machine. -/
lemma Route.unique {m n k : Machine} {vs ws : List Visit} {o o' : Except Fault Word}
    (h : Route P m vs n) (hn : n.phase.outcome? = some o) (h' : Route P m ws k)
    (hk : k.phase.outcome? = some o') : vs = ws ∧ n = k := by
  induction h generalizing ws with
  | nil =>
    obtain ⟨rfl, rfl⟩ := h'.of_stopped hn
    exact ⟨rfl, rfl⟩
  | cons _ ih =>
    cases h' with
    | nil => cases hk
    | cons h' =>
      obtain ⟨rfl, rfl⟩ := ih hn h'
      exact ⟨rfl, rfl⟩

lemma settled_iff {fuel : Nat} {log log' : Array Event} {m n : Machine} {o : Except Fault Word}
    (hm : m.phase.outcome? = some o) :
    some (log, m) = some (log', n) ↔
      ∃ vs, Route P m vs n ∧ vs.length ≤ fuel ∧ n.phase.outcome?.isSome ∧
        log'.toList = log.toList ++ v.keep (vs.flatMap Visit.events) := by
  constructor
  · rintro ⟨⟩
    refine ⟨[], .nil m, Nat.zero_le _, by rw [hm]; rfl, ?_⟩
    simp [Verbosity.keep]
  · rintro ⟨vs, h, -, -, hlog⟩
    obtain ⟨rfl, rfl⟩ := h.of_stopped hm
    have he : log'.toList = log.toList := by simpa [Verbosity.keep] using hlog
    rw [Array.toList_inj.mp he]

/-- Settling a machine follows its route to a stopped machine. -/
theorem settle_eq_some_iff {fuel : Nat} {log log' : Array Event} {m n : Machine} :
    Machine.settle P (Machine.observe v) fuel log m = some (log', n) ↔
      ∃ vs, Route P m vs n ∧ vs.length ≤ fuel ∧ n.phase.outcome?.isSome ∧
        log'.toList = log.toList ++ v.keep (vs.flatMap Visit.events) := by
  induction fuel generalizing log m with
  | zero =>
    rcases m with ⟨s, b | w | f, k⟩
    · rw [Machine.settle_pending_zero]
      constructor
      · rintro ⟨⟩
      · rintro ⟨vs, h, hlen, hn, -⟩
        rw [List.length_eq_zero_iff.mp (Nat.le_zero.mp hlen)] at h
        rw [h.eq_of_nil] at hn
        cases hn
    · rw [Machine.settle_returned, settled_iff rfl]
    · rw [Machine.settle_failed, settled_iff rfl]
  | succ fuel ih =>
    rcases m with ⟨s, b | w | f, k⟩
    · rw [Machine.settle_pending_succ, ih]
      constructor
      · rintro ⟨vs, h, hlen, hn, hlog⟩
        refine ⟨⟨b, s⟩ :: vs, .cons h, by simpa using hlen, hn, ?_⟩
        rw [hlog, observe_pending, List.flatMap_cons, keep_append, List.append_assoc]
        rfl
      · rintro ⟨vs, h, hlen, hn, hlog⟩
        cases h with
        | nil => cases hn
        | cons h =>
          refine ⟨_, h, by simpa using hlen, hn, ?_⟩
          rw [hlog, observe_pending, List.flatMap_cons, keep_append, List.append_assoc]
          rfl
    · rw [Machine.settle_returned, settled_iff rfl]
    · rw [Machine.settle_failed, settled_iff rfl]

/-- What a run from `m` reports if it makes the visits `vs` and ends in `n`. -/
def Route.report (P : Program) (m : Machine) (vs : List Visit) (n : Machine) : List Event :=
  m.opening P :: (vs.flatMap Visit.events ++ n.closing)

/-- A machine in front of a block runs along its route to a stopped machine. -/
theorem run_pending_eq_some_iff {fuel : Nat} {s : Store} {b : Block} {k : Nat} {r : Run} :
    Machine.run P v fuel ⟨s, .pending b, k⟩ = some r ↔
      ∃ vs, Route P ⟨s, .pending b, k⟩ vs r.machine ∧ vs.length ≤ fuel ∧
        r.machine.phase.outcome? = some r.outcome ∧
        r.log = v.keep (Route.report P ⟨s, .pending b, k⟩ vs r.machine) := by
  have hkeep : ∀ (vs : List Visit) (n : Machine),
      v.keep (Route.report P ⟨s, .pending b, k⟩ vs n) =
        v.keep [Machine.opening P ⟨s, .pending b, k⟩] ++ v.keep (vs.flatMap Visit.events) ++
          v.keep n.closing := by
    intro vs n
    rw [Route.report, ← List.singleton_append, keep_append, keep_append, List.append_assoc]
  unfold Machine.run
  constructor
  · intro h
    obtain ⟨⟨log, n⟩, hs, h⟩ := Option.bind_eq_some_iff.mp h
    obtain ⟨o, ho, h⟩ := Option.bind_eq_some_iff.mp h
    cases h
    obtain ⟨vs, hr, hlen, -, hlog⟩ := settle_eq_some_iff.mp hs
    refine ⟨vs, hr, hlen, ho, ?_⟩
    rw [hkeep, hlog]
  · rintro ⟨vs, hr, hlen, ho, hlog⟩
    let start := v.keep [Machine.opening P ⟨s, .pending b, k⟩]
    have hs : Machine.settle P (Machine.observe v) fuel start.toArray ⟨s, .pending b, k⟩ =
        some ((start ++ v.keep (vs.flatMap Visit.events)).toArray, r.machine) :=
      settle_eq_some_iff.mpr ⟨vs, hr, hlen, by rw [ho]; rfl, rfl⟩
    refine Option.bind_eq_some_iff.mpr ⟨_, hs, Option.bind_eq_some_iff.mpr ⟨_, ho, ?_⟩⟩
    rw [← hkeep, ← hlog]
    rfl

/-- The runs of a program are the routes from its entry to a stopped machine. -/
theorem Program.run_eq_some_iff {fuel : Nat} {s : Store} {r : Run} :
    P.run v fuel s = some r ↔
      ∃ vs, Route P (.start P s) vs r.machine ∧ vs.length ≤ fuel ∧
        r.machine.phase.outcome? = some r.outcome ∧
        r.log = v.keep (Route.report P (.start P s) vs r.machine) :=
  run_pending_eq_some_iff

lemma Program.outcome?_of_run {fuel : Nat} {s : Store} {r : Run} (h : P.run v fuel s = some r) :
    r.machine.phase.outcome? = some r.outcome := by
  obtain ⟨vs, -, -, ho, -⟩ := Program.run_eq_some_iff.mp h
  exact ho

/-- A route from the entry to a stopped machine is a run, under the bound of its length. -/
lemma Program.run_of_route (v : Verbosity) {s : Store} {n : Machine} {vs : List Visit}
    {o : Except Fault Word} (hr : Route P (.start P s) vs n) (ho : n.phase.outcome? = some o) :
    ∃ r, P.run v vs.length s = some r ∧ r.machine = n ∧ r.outcome = o := by
  refine ⟨⟨n, o, v.keep (Route.report P (.start P s) vs n)⟩, ?_, rfl, rfl⟩
  exact Program.run_eq_some_iff.mpr ⟨vs, hr, Nat.le_refl _, ho, rfl⟩

/-- A run that ends does not depend on the bound. -/
theorem Program.run_unique {fuel fuel' : Nat} {s : Store} {r r' : Run}
    (h : P.run v fuel s = some r) (h' : P.run v fuel' s = some r') : r = r' := by
  obtain ⟨vs, hr, -, ho, hlog⟩ := Program.run_eq_some_iff.mp h
  obtain ⟨ws, hw, -, ho', hlog'⟩ := Program.run_eq_some_iff.mp h'
  obtain ⟨rfl, hm⟩ := hr.unique ho hw ho'
  rw [hm, ho'] at ho
  rw [hm, ← hlog'] at hlog
  cases r
  cases r'
  cases hm
  cases ho
  cases hlog
  rfl

/-- A program with routes longer than any bound runs forever. -/
theorem Program.run_eq_none {s : Store}
    (h : ∀ k, ∃ vs n, k < vs.length ∧ Route P (.start P s) vs n) (fuel : Nat) :
    P.run v fuel s = none := by
  cases hr : P.run v fuel s with
  | none => rfl
  | some r =>
    obtain ⟨ws, hw, -, ho, -⟩ := Program.run_eq_some_iff.mp hr
    obtain ⟨vs, n, hlen, hv⟩ := h ws.length
    have hle := hv.length_le hw ho
    omega

/-- A run that ends has a last visit, and what that leaves is what the run leaves. -/
theorem Program.run_exists_last {fuel : Nat} {s : Store} {r : Run} (h : P.run v fuel s = some r) :
    ∃ vs b t, Route P (.start P s) vs ⟨t, .pending b, vs.length⟩ ∧
      Route P (.start P s) (vs ++ [⟨b, t⟩]) r.machine ∧
      r.machine = Machine.step P ⟨t, .pending b, vs.length⟩ ∧
      (Phase.after (P.exec b t).result).outcome? = some r.outcome := by
  obtain ⟨vs, hr, -, ho, -⟩ := Program.run_eq_some_iff.mp h
  have hne : vs ≠ [] := by
    rintro rfl
    rw [hr.eq_of_nil] at ho
    cases ho
  obtain ⟨ws, b, t, k, rfl, hw, hn⟩ := hr.exists_last hne
  have hk : k = ws.length := by
    have hs := hw.blocks_eq
    simp only [Machine.start] at hs
    omega
  subst hk
  rw [hn, step_pending] at ho
  exact ⟨ws, b, t, hw, hr, hn, ho⟩

lemma after_eq_pending_iff {o : Except Fault Transfer} {b : Block} :
    Phase.after o = .pending b ↔ o = .ok (.goto b) := by
  rcases o with f | c | w <;> simp [Phase.after]

lemma outcome?_after_eq_error_iff {x : Except Fault Transfer} {f : Fault} :
    (Phase.after x).outcome? = some (.error f) ↔ x = .error f := by
  rcases x with g | b | w <;> simp [Phase.after, Phase.outcome?]

/-- The first run of a machine never reports that it has failed earlier. -/
theorem Program.run_ne_noReturn {fuel : Nat} {s : Store} {r : Run} (h : P.run v fuel s = some r) :
    r.outcome ≠ .error .noReturn := by
  obtain ⟨vs, b, t, -, -, -, ho⟩ := Program.run_exists_last h
  intro hf
  rw [hf, outcome?_after_eq_error_iff] at ho
  exact exec_ne_noReturn P b t ho

/-- The machine `m` runs to an end with outcome `o` and leaves the store `t`. -/
def Ends (P : Program) (m : Machine) (o : Except Fault Word) (t : Store) : Prop :=
  ∃ vs n, Route P m vs n ∧ n.phase.outcome? = some o ∧ n.store = t

lemma ends_pending_iff {s t : Store} {b : Block} {k : Nat} {o : Except Fault Word} :
    Ends P ⟨s, .pending b, k⟩ o t ↔ Ends P (Machine.step P ⟨s, .pending b, k⟩) o t := by
  constructor
  · rintro ⟨vs, n, h, ho, ht⟩
    cases h with
    | nil => cases ho
    | cons h => exact ⟨_, n, h, ho, ht⟩
  · rintro ⟨vs, n, h, ho, ht⟩
    exact ⟨_, n, .cons h, ho, ht⟩

/-- A run comes to an end under some bound exactly if its machine does. -/
theorem Program.exists_run_iff_ends {s t : Store} {o : Except Fault Word} :
    (∃ fuel r, P.run v fuel s = some r ∧ r.outcome = o ∧ r.machine.store = t) ↔
      Ends P (.start P s) o t := by
  constructor
  · rintro ⟨fuel, r, h, rfl, rfl⟩
    obtain ⟨vs, hr, -, ho, -⟩ := Program.run_eq_some_iff.mp h
    exact ⟨vs, r.machine, hr, ho, rfl⟩
  · rintro ⟨vs, n, hr, ho, rfl⟩
    obtain ⟨r, h, hm, hr⟩ := Program.run_of_route v hr ho
    exact ⟨vs.length, r, h, hr, by rw [hm]⟩

end

end FlowGraph
