import FlowGraph.Proofs.Slots
import FlowGraph.Sample
import Mathlib.Algebra.Group.Int.Defs

/-!
# The counting loop

The countdown moves its input over to an accumulator, one at a time. In every round the sum of the
two stays what it was, so that there is always room for the accumulator, and two more blocks have
been executed. This file follows one round and then the whole loop, on every input.
-/

namespace FlowGraph

namespace Countdown

def first : Block :=
  ⟨.text "entry", [⟨"acc", .const 0⟩], .goto (.text "loop")⟩

/-- Leaves the loop when nothing is left to count. -/
def test : Block :=
  ⟨.text "loop", [], .branch (.binary "<=" (.var "n") (.const 0)) (.text "exit") (.text "body")⟩

/-- Moves one from `n` to `acc`. -/
def body : Block :=
  ⟨.text "body",
    [⟨"n", .binary "-" (.var "n") (.const 1)⟩, ⟨"acc", .binary "+" (.var "acc") (.const 1)⟩],
    .goto (.text "loop")⟩

def last : Block :=
  ⟨.text "exit", [], .ret (.var "acc")⟩

lemma blocks_eq : Program.countdown.blocks = [first, test, body, last] := rfl

lemma forall_mem_blocks_iff {p : Block → Prop} :
    (∀ b ∈ Program.countdown.blocks, p b) ↔ p first ∧ p test ∧ p body ∧ p last := by
  simp [blocks_eq]

lemma start_eq (s : Store) : Machine.start .countdown s = ⟨s, .pending first, 0⟩ := rfl

variable {s : Store} {n n' a a' : Word} {k : Nat}

lemma step_first :
    Machine.step .countdown ⟨s, .pending first, k⟩ =
      ⟨s.assign "acc" 0, .pending test, k + 1⟩ :=
  step_eq_pending (.cons rfl (.nil _)) (.goto _) (by simp [blocks_eq])

lemma step_test_of_pos (hn : s.get? "n" = some n) (hpos : 0 < n.toInt) :
    Machine.step .countdown ⟨s, .pending test, k⟩ = ⟨s, .pending body, k + 1⟩ := by
  have hc : Evaluates s (.binary "<=" (.var "n") (.const 0)) (.ok (.bool false)) :=
    .compare .le (.bound hn) (.const 0) (by simpa [Comparison.Holds] using hpos)
  exact step_eq_pending (.nil s) (.no hc) (by simp [blocks_eq])

lemma step_test_of_nonpos (hn : s.get? "n" = some n) (hnonpos : n.toInt ≤ 0) :
    Machine.step .countdown ⟨s, .pending test, k⟩ = ⟨s, .pending last, k + 1⟩ := by
  have hc : Evaluates s (.binary "<=" (.var "n") (.const 0)) (.ok (.bool true)) :=
    .compare .le (.bound hn) (.const 0) (by simpa [Comparison.Holds] using hnonpos)
  exact step_eq_pending (.nil s) (.yes hc) (by simp [blocks_eq])

lemma step_body (hn : s.get? "n" = some n) (ha : s.get? "acc" = some a)
    (hn' : n'.toInt = n.toInt - 1) (ha' : a'.toInt = a.toInt + 1) :
    Machine.step .countdown ⟨s, .pending body, k⟩ =
      ⟨(s.assign "n" n').assign "acc" a', .pending test, k + 1⟩ := by
  have hsub : Evaluates s (.binary "-" (.var "n") (.const 1)) (.ok (.int n')) :=
    .exact .sub (.bound hn) (.const 1) (by simp) hn'
  have hacc : (s.assign "n" n').get? "acc" = some a := by
    rw [Store.get?_assign_of_ne s n' (by decide), ha]
  have hadd : Evaluates (s.assign "n" n') (.binary "+" (.var "acc") (.const 1))
      (.ok (.int a')) :=
    .exact .add (.bound hacc) (.const 1) (by simp) ha'
  exact step_eq_pending (.cons hsub.eval_eq (.cons hadd.eval_eq (.nil _))) (.goto _)
    (by simp [blocks_eq])

lemma step_last (ha : s.get? "acc" = some a) :
    Machine.step .countdown ⟨s, .pending last, k⟩ = ⟨s, .returned a, k + 1⟩ := by
  have hl : Leaves .countdown s last.jump (.ok (.halt a)) := .halt (.bound ha)
  exact step_eq_of_exec (exec_eq_ok_iff.mpr ⟨.nil s, leaves_iff.mp hl⟩)

/-- One round of the loop, as long as something is left to count. -/
lemma route_round (hn : s.get? "n" = some n) (ha : s.get? "acc" = some a) (hpos : 0 < n.toInt)
    (hn' : n'.toInt = n.toInt - 1) (ha' : a'.toInt = a.toInt + 1) :
    Route .countdown ⟨s, .pending test, k⟩ [⟨test, s⟩, ⟨body, s⟩]
      ⟨(s.assign "n" n').assign "acc" a', .pending test, k + 2⟩ := by
  apply Route.cons
  rw [step_test_of_pos hn hpos]
  apply Route.cons
  rw [step_body hn ha hn' ha']
  exact .nil _

lemma route_exit (hn : s.get? "n" = some n) (ha : s.get? "acc" = some a)
    (hnonpos : n.toInt ≤ 0) :
    Route .countdown ⟨s, .pending test, k⟩ [⟨test, s⟩, ⟨last, s⟩] ⟨s, .returned a, k + 2⟩ := by
  apply Route.cons
  rw [step_test_of_nonpos hn hnonpos]
  apply Route.cons
  rw [step_last ha]
  exact .nil _

/-- What a countdown that starts in `s` leaves: the two variables it works on, and all others as they
were. -/
structure Counted (s t : Store) (total left : Word) : Prop where
  acc : t.get? "acc" = some total
  rest : t.get? "n" = some left
  others : ∀ z : Var, z ≠ "acc" → z ≠ "n" → t.get? z = s.get? z

/-- An assignment to one of the two variables does not matter for the others. -/
lemma Counted.of_assign {t : Store} {total left w : Word} {x : Var} (hx : x = "acc" ∨ x = "n")
    (h : Counted (s.assign x w) t total left) : Counted s t total left where
  acc := h.acc
  rest := h.rest
  others z hza hzn := by
    have hxz : x ≠ z := by
      rintro rfl
      exact hx.elim hza hzn
    rw [h.others z hza hzn, Store.get?_assign_of_ne _ _ hxz]

/-- As long as the sum of the two variables is a word, one can be moved. -/
lemma exists_moved (hpos : 0 < n.toInt) (hroom : a.toInt + max n.toInt 0 ≤ 2 ^ 63 - 1) :
    ∃ n' a' : Word, n'.toInt = n.toInt - 1 ∧ a'.toInt = a.toInt + 1 := by
  have ha := Word.representable_toInt a
  have hn := Word.representable_toInt n
  have hmin : Int64.minValue.toInt ≤ 0 := by decide
  have hmax : Int64.maxValue.toInt = 2 ^ 63 - 1 := by decide
  unfold Word.Representable at ha hn
  exact ⟨Int64.ofInt (n.toInt - 1), Int64.ofInt (a.toInt + 1),
    Word.toInt_ofInt_of_representable ⟨by omega, by omega⟩,
    Word.toInt_ofInt_of_representable ⟨by omega, by omega⟩⟩

/-- From the test on, `n` is counted down to zero if it is positive, and `acc` grows by as much. The
induction is on what is left to count; the sum of the two variables is the room that `acc` needs. -/
lemma exists_route (hn : s.get? "n" = some n) (ha : s.get? "acc" = some a)
    (hroom : a.toInt + max n.toInt 0 ≤ 2 ^ 63 - 1) :
    ∃ vs t, ∃ total left : Word, (vs.length : Int) = 2 * max n.toInt 0 + 2 ∧
      total.toInt = a.toInt + max n.toInt 0 ∧ left.toInt = min n.toInt 0 ∧
      Counted s t total left ∧
      Route .countdown ⟨s, .pending test, k⟩ vs ⟨t, .returned total, k + vs.length⟩ := by
  induction hcount : n.toInt.toNat generalizing s n a k with
  | zero =>
    have hnonpos : n.toInt ≤ 0 := by omega
    refine ⟨[⟨test, s⟩, ⟨last, s⟩], s, a, n, ?_, ?_, ?_, ?_, route_exit hn ha hnonpos⟩
    · simp only [List.length_cons, List.length_nil]
      omega
    · omega
    · omega
    · exact ⟨ha, hn, fun _ _ _ => rfl⟩
  | succ count ih =>
    have hpos : 0 < n.toInt := by omega
    obtain ⟨n', a', hn', ha'⟩ := exists_moved hpos hroom
    have hround := route_round (k := k) hn ha hpos hn' ha'
    have hget : ((s.assign "n" n').assign "acc" a').get? "n" = some n' := by
      rw [Store.get?_assign_of_ne _ _ (by decide), Store.get?_assign_self]
    obtain ⟨vs, t, total, left, hlen, htotal, hleft, hcounted, hroute⟩ :=
      ih (k := k + 2) hget (Store.get?_assign_self _ _ _) (by omega) (by omega)
    have hlen' : (⟨test, s⟩ :: ⟨body, s⟩ :: vs).length = vs.length + 2 := rfl
    refine ⟨⟨test, s⟩ :: ⟨body, s⟩ :: vs, t, total, left, by omega, by omega, by omega,
      (hcounted.of_assign (.inl rfl)).of_assign (.inr rfl), ?_⟩
    have hk : k + (⟨test, s⟩ :: ⟨body, s⟩ :: vs).length = k + 2 + vs.length := by omega
    rw [hk]
    exact hround.append hroute

end Countdown

open Countdown

/-- On every word the countdown returns what is positive of it, after two blocks for each round and
three more, and the counter of an interpreter shows their number if it has room for it. At the end
`acc` holds the result and `n` what is not positive of the input, and every other variable is as it
was at the start. -/
theorem countdown_run {s : Store} {n : Word} (hn : s.get? "n" = some n) (v : Verbosity) :
    ∃ vs r, ∃ total left : Word, Program.countdown.run v (2 * n.toInt.toNat + 3) s = some r ∧
      r.outcome = .ok total ∧ total.toInt = max n.toInt 0 ∧ left.toInt = min n.toInt 0 ∧
      Counted s r.machine.store total left ∧
      Route .countdown (.start .countdown s) vs r.machine ∧
      (vs.length : Int) = 2 * max n.toInt 0 + 3 ∧ r.machine.blocks = vs.length ∧
      ∃ q, (Interpreter.new .countdown s).run .countdown v (2 * n.toInt.toNat + 3) = some q ∧
        q.Shows r := by
  have hmax : n.toInt ≤ 2 ^ 63 - 1 := (Word.representable_toInt n).2
  have hn' : (s.assign "acc" 0).get? "n" = some n := by
    rw [Store.get?_assign_of_ne s 0 (by decide), hn]
  have hzero : (0 : Word).toInt = 0 := rfl
  obtain ⟨vs, t, total, left, hlen, htotal, hleft, hcounted, hroute⟩ :=
    exists_route (k := 1) hn' (Store.get?_assign_self s "acc" 0) (by omega)
  have hstart : Route .countdown (.start .countdown s) (⟨first, s⟩ :: vs)
      ⟨t, .returned total, 1 + vs.length⟩ := by
    rw [start_eq]
    apply Route.cons
    rw [step_first]
    exact hroute
  obtain ⟨r, hr, hm, ho⟩ := Program.run_of_route v hstart rfl
  have hfuel : (⟨first, s⟩ :: vs).length = 2 * n.toInt.toNat + 3 := by
    rw [List.length_cons]
    omega
  rw [hfuel] at hr
  have hblocks : r.machine.blocks = (⟨first, s⟩ :: vs).length := by
    rw [hm, hstart.blocks_eq, start_eq, Nat.zero_add]
  refine ⟨⟨first, s⟩ :: vs, r, total, left, hr, ho, by omega, hleft, ?_, ?_, by omega, hblocks,
    exists_shows hr⟩
  · rw [hm]
    exact hcounted.of_assign (.inl rfl)
  · rw [hm]
    exact hstart

/-- From the largest word the run is too long to be carried out, but it ends. After `2 ^ 64 + 1`
blocks the counter has started over and shows 1. The run from the word before has the most blocks
that the counter can show. -/
theorem countdown_run_max :
    let s := Store.ofList [("n", 9223372036854775807), ("acc", 5), ("z", 7)]
    let t := Store.ofList [("n", 9223372036854775806)]
    (∃ r q, Program.countdown.run .off 18446744073709551617 s = some r ∧
      r.outcome = .ok 9223372036854775807 ∧ r.machine.store.get? "n" = some 0 ∧
      r.machine.store.get? "z" = some 7 ∧ r.machine.blocks = 18446744073709551617 ∧
      (Interpreter.new .countdown s).run .countdown .off 18446744073709551617 = some q ∧
      q.Shows r ∧ q.state.steps = 1) ∧
    ∃ q, (Interpreter.new .countdown t).run .countdown .off 18446744073709551615 = some q ∧
      q.state.steps = 18446744073709551615 := by
  intro s t
  constructor
  · obtain ⟨vs, r, total, left, hr, ho, htotal, hleft, hcounted, -, hlen, hblocks, q, hq, hshows⟩ :=
      countdown_run (s := s) (n := 9223372036854775807) rfl .off
    have hn : (9223372036854775807 : Word).toInt = 9223372036854775807 := rfl
    rw [hn] at hr htotal hleft hlen hq
    have htotal' : total = 9223372036854775807 := Int64.toInt_inj.mp htotal
    have hleft' : left = 0 := Int64.toInt_inj.mp hleft
    have hlong : r.machine.blocks = 18446744073709551617 := by omega
    have hwrapped := hshows.counts.wrapped
    rw [hlong] at hwrapped
    refine ⟨r, q, hr, ?_, ?_, ?_, hlong, hq, hshows, UInt64.toNat_inj.mp hwrapped⟩
    · rw [ho, htotal']
    · rw [hcounted.rest, hleft']
    · rw [hcounted.others "z" (by decide) (by decide)]
      rfl
  · obtain ⟨vs, r, -, -, -, -, -, -, -, -, hlen, hblocks, q, hq, hshows⟩ :=
      countdown_run (s := t) (n := 9223372036854775806) rfl .off
    have hn : (9223372036854775806 : Word).toInt = 9223372036854775806 := rfl
    rw [hn] at hlen hq
    have hlong : r.machine.blocks = 18446744073709551615 := by omega
    have hexact := hshows.counts.exact
    rw [hlong] at hexact
    exact ⟨q, hq, UInt64.toNat_inj.mp (hexact (by decide))⟩

end FlowGraph
