import FlowGraph.Proofs.Binding
import FlowGraph.Sample
import Mathlib.Logic.Relation

/-!
# Statement by statement

`Step` executes a program one statement at a time, with no blocks left and no index: a point holds
the assignments still to be performed, the jump after them and the store. This file shows that a
machine, which goes from block to block, comes to an end exactly where the steps halt, and runs
forever exactly where they go on forever.
-/

namespace FlowGraph

/-- Where a program stands between two statements. -/
inductive Point where
  | running (rest : List Assignment) (jump : Jump) (store : Store)
  | halted (outcome : Except Fault Word) (store : Store)

/-- In front of the first block in the list. -/
def Point.entry (P : Program) (s : Store) : Point :=
  .running (P.blocks.head P.blocks_ne_nil).assigns (P.blocks.head P.blocks_ne_nil).jump s

inductive Step (P : Program) : Point → Point → Prop
  | assign {a : Assignment} {as : List Assignment} {j : Jump} {s : Store} {w : Word}
      (h : Assigns s a (.ok w)) :
      Step P (.running (a :: as) j s) (.running as j (s.assign a.target w))
  | assignFault {a : Assignment} {as : List Assignment} {j : Jump} {s : Store} {f : Fault}
      (h : Assigns s a (.error f)) : Step P (.running (a :: as) j s) (.halted (.error f) s)
  | enter {j : Jump} {s : Store} {b : Block} (h : Leaves P s j (.ok (.goto b))) :
      Step P (.running [] j s) (.running b.assigns b.jump s)
  | halt {j : Jump} {s : Store} {w : Word} (h : Leaves P s j (.ok (.halt w))) :
      Step P (.running [] j s) (.halted (.ok w) s)
  | jumpFault {j : Jump} {s : Store} {f : Fault} (h : Leaves P s j (.error f)) :
      Step P (.running [] j s) (.halted (.error f) s)

def Phase.point (s : Store) : Phase → Point
  | pending b => .running b.assigns b.jump s
  | returned w => .halted (.ok w) s
  | failed f => .halted (.error f) s

/-- The point after the next statement, if there is one. -/
def Point.next (P : Program) : Point → Option Point
  | running (a :: as) j s =>
    match a.word s with
    | .ok w => some (running as j (s.assign a.target w))
    | .error f => some (halted (.error f) s)
  | running [] j s => some ((Phase.after (P.follow s j)).point s)
  | halted _ _ => none

variable {P : Program}

theorem step_iff_next {p q : Point} : Step P p q ↔ p.next P = some q := by
  constructor
  · intro h
    cases h with
    | assign h => simp only [Point.next, assigns_iff.mp h]
    | assignFault h => simp only [Point.next, assigns_iff.mp h]
    | enter h => simp only [Point.next, leaves_iff.mp h, Phase.after, Phase.point]
    | halt h => simp only [Point.next, leaves_iff.mp h, Phase.after, Phase.point]
    | jumpFault h => simp only [Point.next, leaves_iff.mp h, Phase.after, Phase.point]
  · intro h
    cases p with
    | running as j s =>
      cases as with
      | nil =>
        cases h
        rcases hf : P.follow s j with f | b | w
        · exact .jumpFault (leaves_iff.mpr hf)
        · exact .enter (leaves_iff.mpr hf)
        · exact .halt (leaves_iff.mpr hf)
      | cons a as =>
        cases hw : a.word s with
        | ok w =>
          simp only [Point.next, hw] at h
          cases h
          exact .assign (assigns_iff.mpr hw)
        | error f =>
          simp only [Point.next, hw] at h
          cases h
          exact .assignFault (assigns_iff.mpr hw)
    | halted o s => cases h

lemma Point.next_eq_none_iff {p : Point} : p.next P = none ↔ ∃ o t, p = .halted o t := by
  constructor
  · intro h
    cases p with
    | running as j s =>
      cases as with
      | nil => cases h
      | cons a as => cases hw : a.word s <;> simp [Point.next, hw] at h
    | halted o t => exact ⟨o, t, rfl⟩
  · rintro ⟨o, t, rfl⟩
    rfl

lemma step_deterministic {p q q' : Point} (h : Step P p q) (h' : Step P p q') : q = q' :=
  Option.some.inj ((step_iff_next.mp h).symm.trans (step_iff_next.mp h'))

lemma exec_nil (l : Label) (j : Jump) (s : Store) :
    P.exec ⟨l, [], j⟩ s = ⟨s, P.follow s j⟩ := rfl

lemma exec_cons_of_ok {l : Label} {a : Assignment} {as : List Assignment} {j : Jump} {s : Store}
    {w : Word} (h : a.word s = .ok w) :
    P.exec ⟨l, a :: as, j⟩ s = P.exec ⟨l, as, j⟩ (s.assign a.target w) := by
  unfold Program.exec
  simp only [Assignment.execAll, h]

lemma exec_cons_of_error {l : Label} {a : Assignment} {as : List Assignment} {j : Jump} {s : Store}
    {f : Fault} (h : a.word s = .error f) : P.exec ⟨l, a :: as, j⟩ s = ⟨s, .error f⟩ := by
  unfold Program.exec
  simp only [Assignment.execAll, h]

open Relation (ReflTransGen)

lemma steps_exec (l : Label) (as : List Assignment) (j : Jump) (s : Store) :
    ReflTransGen (Step P) (.running as j s)
      ((Phase.after (P.exec ⟨l, as, j⟩ s).result).point (P.exec ⟨l, as, j⟩ s).store) := by
  induction as generalizing s with
  | nil => exact .single (step_iff_next.mpr rfl)
  | cons a as ih =>
    cases hw : a.word s with
    | ok w =>
      rw [exec_cons_of_ok hw]
      exact .head (.assign (assigns_iff.mpr hw)) (ih _)
    | error f =>
      rw [exec_cons_of_error hw]
      exact .single (.assignFault (assigns_iff.mpr hw))

lemma steps_of_route {m n : Machine} {vs : List Visit} (h : Route P m vs n) :
    ReflTransGen (Step P) (m.phase.point m.store) (n.phase.point n.store) := by
  induction h with
  | nil => exact .refl
  | @cons b s k vs n _ ih => exact (steps_exec b.label b.assigns b.jump s).trans ih

lemma point_of_outcome {m : Machine} {o : Except Fault Word} (h : m.phase.outcome? = some o) :
    m.phase.point m.store = .halted o m.store := by
  rcases m with ⟨s, b | w | f, k⟩ <;> cases h <;> rfl

lemma steps_halted_of_ends {m : Machine} {o : Except Fault Word} {t : Store}
    (h : Ends P m o t) : ReflTransGen (Step P) (m.phase.point m.store) (.halted o t) := by
  obtain ⟨vs, n, hr, ho, rfl⟩ := h
  rw [← point_of_outcome ho]
  exact steps_of_route hr

lemma eq_of_steps_halted {o : Except Fault Word} {s : Store} {q : Point}
    (h : ReflTransGen (Step P) (.halted o s) q) : q = .halted o s := by
  rcases h.cases_head with rfl | ⟨r, hr, -⟩
  · rfl
  · cases hr

lemma ends_of_stopped {m : Machine} {o o' : Except Fault Word} {t : Store}
    (hm : m.phase.outcome? = some o')
    (h : ReflTransGen (Step P) (.halted o' m.store) (.halted o t)) : Ends P m o t := by
  cases eq_of_steps_halted h
  exact ⟨[], m, .nil m, hm, rfl⟩

/-- A machine in front of any statements comes to an end if the steps from there halt. The induction
is on the steps; a machine has still the whole block to execute where the steps are inside it. -/
lemma ends_of_steps_halted {p : Point} {o : Except Fault Word} {t : Store}
    (h : ReflTransGen (Step P) p (.halted o t)) (as : List Assignment) (j : Jump) (s : Store)
    (hp : p = .running as j s) (l : Label) (k : Nat) :
    Ends P ⟨s, .pending ⟨l, as, j⟩, k⟩ o t := by
  induction h using ReflTransGen.head_induction_on generalizing as j s l k with
  | refl => cases hp
  | @head p q h hq ih =>
    subst hp
    rw [ends_pending_iff, step_pending]
    cases h with
    | assign h =>
      rw [exec_cons_of_ok (assigns_iff.mp h), ← step_pending, ← ends_pending_iff]
      exact ih _ _ _ rfl l k
    | assignFault h =>
      rw [exec_cons_of_error (assigns_iff.mp h)]
      exact ends_of_stopped rfl hq
    | @enter _ _ b h =>
      rw [exec_nil, leaves_iff.mp h]
      exact ih _ _ _ rfl b.label _
    | halt h =>
      rw [exec_nil, leaves_iff.mp h]
      exact ends_of_stopped rfl hq
    | jumpFault h =>
      rw [exec_nil, leaves_iff.mp h]
      exact ends_of_stopped rfl hq

/-- A machine starts where the steps start. -/
lemma point_start (P : Program) (s : Store) : (Machine.start P s).phase.point s = .entry P s := rfl

theorem steps_halted_iff_ends {s t : Store} {o : Except Fault Word} :
    ReflTransGen (Step P) (.entry P s) (.halted o t) ↔ Ends P (.start P s) o t := by
  rw [← point_start]
  exact ⟨fun h => ends_of_steps_halted h _ _ s rfl _ 0, steps_halted_of_ends⟩

/-- Points that go on forever pass through everything that can be reached. -/
lemma mem_path_of_steps {path : Nat → Point} (hpath : ∀ n, Step P (path n) (path (n + 1)))
    {q : Point} (h : ReflTransGen (Step P) (path 0) q) : ∃ n, q = path n := by
  induction h with
  | refl => exact ⟨0, rfl⟩
  | tail _ hq ih =>
    obtain ⟨n, rfl⟩ := ih
    exact ⟨n + 1, step_deterministic hq (hpath n)⟩

/-- The points from `p` on, the last of them for good if there is one. -/
def Point.path (P : Program) (p : Point) : Nat → Point
  | 0 => p
  | n + 1 => ((path P p n).next P).getD (path P p n)

lemma steps_path {p : Point} (hp : ∀ o t, ¬ ReflTransGen (Step P) p (.halted o t)) (n : Nat) :
    ReflTransGen (Step P) p (p.path P n) ∧ Step P (p.path P n) (p.path P (n + 1)) := by
  have hstep : ∀ q, ReflTransGen (Step P) p q → Step P q ((q.next P).getD q) := by
    intro q hq
    cases hn : q.next P with
    | some r => exact step_iff_next.mpr hn
    | none =>
      obtain ⟨o, t, rfl⟩ := Point.next_eq_none_iff.mp hn
      exact absurd hq (hp o t)
  induction n with
  | zero => exact ⟨.refl, hstep p .refl⟩
  | succ n ih =>
    have h := ih.1.tail ih.2
    exact ⟨h, hstep _ h⟩

/-- The steps go on forever exactly if they never halt. -/
theorem exists_path_iff {p : Point} :
    (∃ path : Nat → Point, path 0 = p ∧ ∀ n, Step P (path n) (path (n + 1))) ↔
      ∀ o t, ¬ ReflTransGen (Step P) p (.halted o t) := by
  constructor
  · rintro ⟨path, rfl, hpath⟩ o t h
    obtain ⟨n, hn⟩ := mem_path_of_steps hpath h
    have hs := hpath n
    rw [← hn] at hs
    cases hs
  · intro hp
    exact ⟨p.path P, rfl, fun n => (steps_path hp n).2⟩

/-- Block by block or statement by statement, a program does the same: for any arguments, the later
of two pairs with one name counting, a run ends with an outcome and a store exactly if the steps
from the entry halt with them, and it ends under no bound exactly if the steps go on forever. -/
theorem run_iff_steps (P : Program) (v : Verbosity) (args : List (Var × Word)) :
    (∀ x, (Store.ofList args).get? x = args.reverse.lookup x) ∧
    (∀ o t, (∃ fuel r, P.run v fuel (.ofList args) = some r ∧ r.outcome = o ∧
        r.machine.store = t) ↔
      ReflTransGen (Step P) (.entry P (.ofList args)) (.halted o t)) ∧
    ((∀ fuel, P.run v fuel (.ofList args) = none) ↔
      ∃ path : Nat → Point, path 0 = .entry P (.ofList args) ∧
        ∀ n, Step P (path n) (path (n + 1))) := by
  have hends : ∀ o t, (∃ fuel r, P.run v fuel (.ofList args) = some r ∧ r.outcome = o ∧
      r.machine.store = t) ↔
      ReflTransGen (Step P) (.entry P (.ofList args)) (.halted o t) := by
    intro o t
    rw [Program.exists_run_iff_ends, steps_halted_iff_ends]
  refine ⟨get?_ofList args, hends, ?_⟩
  rw [exists_path_iff]
  constructor
  · intro h o t hs
    obtain ⟨fuel, r, hr, -, -⟩ := (hends o t).mpr hs
    rw [h fuel] at hr
    cases hr
  · intro h fuel
    cases hr : P.run v fuel (.ofList args) with
    | none => rfl
    | some r => exact absurd ((hends _ _).mp ⟨fuel, r, hr, rfl, rfl⟩) (h _ _)

/-- A block that jumps to itself. -/
def Program.spin : Program where
  inputs := []
  blocks := [⟨.num 1, [], .goto (.num 1)⟩]
  inputs_nodup := .nil
  blocks_ne_nil := nofun
  labels_nodup := by simp

/-- The steps count down from the later of two words given for `n`, and halt at the unbound variable
where none is given. Steps that go round in a circle are a run without end. -/
theorem countdown_steps :
    let P := Program.countdown
    let args : List (Var × Word) := [("n", 3), ("n", 1)]
    (Store.ofList args).get? "n" = some 1 ∧
    (∃ t, ReflTransGen (Step P) (.entry P (.ofList args)) (.halted (.ok 1) t) ∧
      t.get? "acc" = some 1 ∧ t.get? "n" = some 0) ∧
    ReflTransGen (Step P) (.entry P (.ofList []))
      (.halted (.error (.unboundVariable "n")) (.ofList [("acc", 0)])) ∧
    ∀ fuel, Program.spin.run .off fuel (.ofList []) = none := by
  intro P args
  obtain ⟨hget, hsteps, -⟩ := run_iff_steps P .off args
  obtain ⟨-, hunbound, -⟩ := run_iff_steps P .off []
  obtain ⟨-, -, hforever⟩ := run_iff_steps .spin .off []
  refine ⟨hget "n", ?_, ?_, ?_⟩
  · exact ⟨_, (hsteps _ _).mp ⟨5, _, rfl, rfl, rfl⟩, rfl, rfl⟩
  · exact (hunbound _ _).mp ⟨2, _, rfl, rfl, by decide⟩
  · exact hforever.mpr ⟨fun _ => .entry .spin (.ofList []), rfl,
      fun _ => .enter (.enter (.goto _) rfl)⟩

end FlowGraph
