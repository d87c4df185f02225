import FlowGraph.Proofs.SubtractionLoop
import Mathlib.Data.Int.GCD
import Mathlib.Data.Int.ModEq
import Mathlib.Order.Bounds.Basic

/-!
# Greatest common divisors by subtraction

Two positive words are reduced to their greatest common divisor. On words of which one is not
positive the loop does one of three things: it returns at once, it goes round forever, or the larger
word grows until a subtraction overflows. This file shows which of them happens when.
-/

namespace FlowGraph

namespace Euclid

variable {s : Store} {a b : Var} {m n w x y : Word} {k : Nat}

/-- From the store `s` in front of the test, the program returns `g`, with `g` in both variables
and all others as they were. -/
def Returns (s : Store) (g : Word) : Prop :=
  ∀ k, ∃ vs t i, Route .euclid ⟨s, .pending test, k⟩ vs ⟨t, .returned g, i⟩ ∧
    t.get? "x" = some g ∧ t.get? "y" = some g ∧
    ∀ z : Var, z ≠ "x" → z ≠ "y" → t.get? z = s.get? z

lemma returns_of_equal (hx : s.get? "x" = some x) (hy : s.get? "y" = some x) : Returns s x := by
  intro k
  obtain ⟨vs, -, hr⟩ := route_equal (k := k) hx hy
  exact ⟨vs, s, k + 2, hr, hx, hy, fun _ _ _ => rfl⟩

lemma Returns.of_round {g : Word} (h : Sides a b) (ha : s.get? a = some m)
    (hb : s.get? b = some n) (hlt : n.toInt < m.toInt) (hw : w.toInt = m.toInt - n.toInt)
    (hg : Returns (s.assign a w) g) : Returns s g := by
  intro k
  obtain ⟨vs, -, hr⟩ := route_round (k := k) h ha hb hlt hw
  obtain ⟨ws, t, i, hr', hx, hy, hz⟩ := hg (k + 3)
  refine ⟨vs ++ ws, t, i, hr.append hr', hx, hy, ?_⟩
  intro z hzx hzy
  have hza : a ≠ z := by
    cases h with
    | xy => exact hzx.symm
    | yx => exact hzy.symm
  rw [hz z hzx hzy, Store.get?_assign_of_ne s w hza]

lemma representable_sub (hlt : n.toInt < m.toInt) (hn : 0 < n.toInt) :
    Word.Representable (m.toInt - n.toInt) := by
  have hm := Word.representable_toInt m
  have hmin : Int64.minValue.toInt ≤ 0 := by decide
  unfold Word.Representable at hm ⊢
  omega

lemma exists_returns (h : Sides a b) (ha : s.get? a = some m) (hb : s.get? b = some n)
    (hm : 0 < m.toInt) (hn : 0 < n.toInt) :
    ∃ g : Word, g.toInt = Int.gcd m.toInt n.toInt ∧ Returns s g := by
  induction hsum : (m.toInt + n.toInt).toNat using Nat.strong_induction_on
    generalizing s a b m n with
  | _ sum ih =>
    have hround : ∀ {a b : Var} {m n : Word}, Sides a b → s.get? a = some m → s.get? b = some n →
        n.toInt < m.toInt → 0 < n.toInt → (m.toInt + n.toInt).toNat = sum →
        ∃ g : Word, g.toInt = Int.gcd m.toInt n.toInt ∧ Returns s g := by
      intro a b m n h ha hb hlt hn hsum
      have hw := Word.toInt_ofInt_of_representable (representable_sub hlt hn)
      have hb' : (s.assign a (Int64.ofInt (m.toInt - n.toInt))).get? b = some n := by
        rw [Store.get?_assign_of_ne s _ h.ne, hb]
      obtain ⟨g, hg, hret⟩ := ih _ (by omega) h (Store.get?_assign_self s a _) hb' (by omega) hn rfl
      refine ⟨g, ?_, hret.of_round h ha hb hlt hw⟩
      rw [hg, hw, Int.gcd_sub_self_left]
    rcases lt_trichotomy m.toInt n.toInt with hlt | heq | hlt
    · obtain ⟨g, hg, hret⟩ := hround h.symm hb ha hlt hm (by omega)
      exact ⟨g, by rw [hg, Int.gcd_comm], hret⟩
    · rw [Int64.toInt_inj] at heq
      subst heq
      refine ⟨m, ?_, ?_⟩
      · rw [Int.gcd_self]
        omega
      · cases h with
        | xy => exact returns_of_equal ha hb
        | yx => exact returns_of_equal hb ha
    · exact hround h ha hb hlt hn hsum

lemma route_rounds_of_zero (h : Sides a b) (ha : s.get? a = some m) (hb : s.get? b = some 0)
    (hm : 0 < m.toInt) (i : Nat) :
    ∃ vs, vs.length = 3 * i ∧
      Route .euclid ⟨s, .pending test, k⟩ vs ⟨s, .pending test, k + 3 * i⟩ := by
  have hstore : s.assign a m = s := by
    ext1 z
    rw [Store.get?_assign]
    split
    · next hz => rw [← hz, ha]
    · rfl
  induction i with
  | zero => exact ⟨[], rfl, .nil _⟩
  | succ i ih =>
    obtain ⟨vs, hlen, hr⟩ := ih
    have hzero : (0 : Word).toInt = 0 := rfl
    obtain ⟨ws, hlen', hr'⟩ := route_round (k := k + 3 * i) h ha hb (w := m) (by omega) (by omega)
    rw [hstore] at hr'
    exact ⟨vs ++ ws, by simp [hlen, hlen']; omega, hr.append hr'⟩

/-- With `n` negative the other variable grows by `-n` in each round, up to the last word that it
can hold. The induction is on the room that is left above it. -/
lemma exists_overflow (h : Sides a b) (ha : s.get? a = some m) (hb : s.get? b = some n)
    (hlt : n.toInt < m.toInt) (hn : n.toInt < 0) :
    ∃ vs t i, ∃ left : Word,
      Route .euclid ⟨s, .pending test, k⟩ vs ⟨t, .failed (.overflow .sub left n), i⟩ ∧
        left.toInt ≡ m.toInt [ZMOD -n.toInt] ∧ 2 ^ 63 - 1 < left.toInt - n.toInt := by
  induction hroom : (2 ^ 63 - 1 - m.toInt).toNat using Nat.strong_induction_on
    generalizing s m k with
  | _ room ih =>
    by_cases hrange : Word.Representable (m.toInt - n.toInt)
    · have hw := Word.toInt_ofInt_of_representable hrange
      have hb' : (s.assign a (Int64.ofInt (m.toInt - n.toInt))).get? b = some n := by
        rw [Store.get?_assign_of_ne s _ h.ne, hb]
      have hmax : m.toInt - n.toInt ≤ 2 ^ 63 - 1 := hrange.2
      obtain ⟨vs, -, hr⟩ := route_round (k := k) h ha hb hlt hw
      obtain ⟨ws, t, i, left, hr', hleft, hlast⟩ :=
        ih _ (by omega) (k := k + 3) (Store.get?_assign_self s a _) hb' (by omega) rfl
      rw [hw, sub_eq_add_neg, Int.modEq_add_modulus_iff] at hleft
      exact ⟨vs ++ ws, t, i, left, hr.append hr', hleft, hlast⟩
    · obtain ⟨vs, hr⟩ := route_overflow (k := k) h ha hb hlt hrange
      refine ⟨vs, s, k + 3, m, hr, Int.ModEq.refl _, ?_⟩
      have hm := Word.representable_toInt m
      unfold Word.Representable at hm hrange
      have hmin : Int64.minValue.toInt < 0 := by decide
      have hmax : Int64.maxValue.toInt = 2 ^ 63 - 1 := by decide
      omega

lemma isGreatest_of_modEq {bound left i d : Int} (hle : left ≤ bound) (hmod : left ≡ i [ZMOD d])
    (hlast : bound < left + d) : IsGreatest {j | j ≤ bound ∧ j ≡ i [ZMOD d]} left := by
  refine ⟨⟨hle, hmod⟩, ?_⟩
  rintro j ⟨hj, hji⟩
  by_contra hgt
  have hdvd : d ∣ j - left := Int.ModEq.dvd (hmod.trans hji.symm)
  have hd := Int.le_of_dvd (by omega) hdvd
  omega

lemma run_of_zero (h : Sides a b) (ha : s.get? a = some m) (hb : s.get? b = some 0)
    (hm : 0 < m.toInt) (v : Verbosity) :
    (∀ fuel, Program.euclid.run v fuel s = none) ∧
      ∀ k, ∃ vs b t, vs.length = k ∧ Route .euclid (.start .euclid s) vs ⟨t, .pending b, k⟩ := by
  have hlong : ∀ k, ∃ vs n, k < vs.length ∧ Route .euclid (.start .euclid s) vs n := by
    intro k
    obtain ⟨vs, hlen, hr⟩ := route_rounds_of_zero (k := 0) h ha hb hm (k + 1)
    exact ⟨vs, _, by omega, hr⟩
  refine ⟨Program.run_eq_none hlong, ?_⟩
  intro k
  obtain ⟨vs, n, hlen, hr⟩ := hlong k
  obtain ⟨b, t, hk⟩ := hr.exists_take hlen
  rw [start_eq, Nat.zero_add, ← start_eq] at hk
  exact ⟨vs.take k, b, t, by rw [List.length_take]; omega, hk⟩

lemma run_of_negative (h : Sides a b) (ha : s.get? a = some m) (hb : s.get? b = some n)
    (hlt : n.toInt < m.toInt) (hn : n.toInt < 0) (v : Verbosity) :
    ∃ fuel r, ∃ left : Word, Program.euclid.run v fuel s = some r ∧
      r.outcome = .error (.overflow .sub left n) ∧
      IsGreatest {i | i ≤ 2 ^ 63 - 1 ∧ i ≡ m.toInt [ZMOD -n.toInt]} left.toInt := by
  obtain ⟨vs, t, i, left, hroute, hmod, hlast⟩ := exists_overflow (k := 0) h ha hb hlt hn
  rw [← start_eq] at hroute
  obtain ⟨r, hr, -, ho⟩ := Program.run_of_route v hroute rfl
  refine ⟨vs.length, r, left, hr, ho, ?_⟩
  exact isGreatest_of_modEq (Word.representable_toInt left).2 hmod (by omega)

end Euclid

open Euclid

/-- On two positive words the program returns their greatest common divisor. At the end both
variables hold it, and every other variable is as it was at the start. -/
theorem euclid_run_gcd {s : Store} {x y : Word} (hx : s.get? "x" = some x)
    (hy : s.get? "y" = some y) (hx0 : 0 < x.toInt) (hy0 : 0 < y.toInt) (v : Verbosity) :
    ∃ fuel r, ∃ g : Word, Program.euclid.run v fuel s = some r ∧ r.outcome = .ok g ∧
      g.toInt = Int.gcd x.toInt y.toInt ∧
      r.machine.store.get? "x" = some g ∧ r.machine.store.get? "y" = some g ∧
      ∀ z : Var, z ≠ "x" → z ≠ "y" → r.machine.store.get? z = s.get? z := by
  obtain ⟨g, hg, hret⟩ := exists_returns .xy hx hy hx0 hy0
  obtain ⟨vs, t, i, hroute, hgx, hgy, hz⟩ := hret 0
  rw [← start_eq] at hroute
  obtain ⟨r, hr, hm, ho⟩ := Program.run_of_route v hroute rfl
  refine ⟨vs.length, r, g, hr, ho, hg, ?_⟩
  rw [hm]
  exact ⟨hgx, hgy, hz⟩

/-- With the largest word and one the run is too long to be carried out, but it ends. -/
theorem euclid_run_gcd_max :
    let s := Store.ofList [("x", 9223372036854775807), ("y", 1), ("z", 5)]
    ∃ fuel r, ∃ g : Word, Program.euclid.run .off fuel s = some r ∧ r.outcome = .ok g ∧
      g.toInt = 1 ∧ r.machine.store.get? "x" = some g ∧ r.machine.store.get? "y" = some g ∧
      r.machine.store.get? "z" = some 5 := by
  intro s
  obtain ⟨fuel, r, g, hr, ho, hg, hgx, hgy, hz⟩ := euclid_run_gcd (s := s)
    (x := 9223372036854775807) (y := 1) rfl rfl (by decide) (by decide) .off
  refine ⟨fuel, r, g, hr, ho, ?_, hgx, hgy, ?_⟩
  · rw [hg]
    decide
  · rw [hz "z" (by decide) (by decide)]
    rfl

/-- On two words of which one is not positive, the program returns at once if they are equal, runs
forever if one is zero and the other positive, and in every other case fails when the larger word
has grown so far that the smaller one, a negative number, cannot be subtracted any more. -/
theorem euclid_run_nonpositive {s : Store} {x y : Word} (hx : s.get? "x" = some x)
    (hy : s.get? "y" = some y) (h : ¬ (0 < x.toInt ∧ 0 < y.toInt)) (v : Verbosity) :
    (x = y → ∃ r, Program.euclid.run v 2 s = some r ∧ r.outcome = .ok x ∧ r.machine.blocks = 2) ∧
    (x.toInt = 0 ∧ 0 < y.toInt ∨ 0 < x.toInt ∧ y.toInt = 0 →
      (∀ fuel, Program.euclid.run v fuel s = none) ∧
      ∀ k, ∃ vs b t, vs.length = k ∧
        Route .euclid (.start .euclid s) vs ⟨t, .pending b, k⟩) ∧
    (x ≠ y → ¬ (x.toInt = 0 ∧ 0 < y.toInt ∨ 0 < x.toInt ∧ y.toInt = 0) →
      (x.toInt < 0 ∨ y.toInt < 0) ∧
      ∃ fuel r, ∃ left right : Word, Program.euclid.run v fuel s = some r ∧
        r.outcome = .error (.overflow .sub left right) ∧
        right.toInt = min x.toInt y.toInt ∧
        IsGreatest {n | n ≤ 2 ^ 63 - 1 ∧ n ≡ max x.toInt y.toInt [ZMOD -min x.toInt y.toInt]}
          left.toInt) := by
  refine ⟨?_, ?_, ?_⟩
  · rintro rfl
    obtain ⟨vs, hlen, hroute⟩ := route_equal (k := 0) hx hy
    rw [← start_eq] at hroute
    obtain ⟨r, hr, hm, ho⟩ := Program.run_of_route v hroute rfl
    rw [hlen] at hr
    exact ⟨r, hr, ho, by rw [hm]⟩
  · rintro (⟨hzero, hpos⟩ | ⟨hpos, hzero⟩)
    · rw [Int64.toInt_inj.mp (hzero.trans Int64.toInt_zero.symm)] at hx
      exact run_of_zero .yx hy hx hpos v
    · rw [Int64.toInt_inj.mp (hzero.trans Int64.toInt_zero.symm)] at hy
      exact run_of_zero .xy hx hy hpos v
  · intro hne hzero
    have hne' : x.toInt ≠ y.toInt := fun he => hne (Int64.toInt_inj.mp he)
    refine ⟨by omega, ?_⟩
    rcases Int.lt_or_gt_of_ne hne' with hlt | hlt
    · obtain ⟨fuel, r, left, hr, ho, hleft⟩ := run_of_negative .yx hy hx hlt (by omega) v
      refine ⟨fuel, r, left, x, hr, ho, ?_, ?_⟩
      · rw [min_eq_left hlt.le]
      · rwa [min_eq_left hlt.le, max_eq_right hlt.le]
    · obtain ⟨fuel, r, left, hr, ho, hleft⟩ := run_of_negative .xy hx hy hlt (by omega) v
      refine ⟨fuel, r, left, y, hr, ho, ?_, ?_⟩
      · rw [min_eq_right hlt.le]
      · rwa [min_eq_right hlt.le, max_eq_left hlt.le]

/-- Equal words return, zero and five go on forever, and with five and minus three the larger word
grows up to the greatest one that is two modulo three. -/
theorem euclid_run_nonpositive_cases :
    (∃ r, Program.euclid.run .off 2 (.ofList [("x", -3), ("y", -3)]) = some r ∧
      r.outcome = .ok (-3) ∧ r.machine.blocks = 2) ∧
    (∀ fuel, Program.euclid.run .off fuel (.ofList [("x", 0), ("y", 5)]) = none) ∧
    (∃ vs b t, vs.length = 1000000 ∧
      Route .euclid (.start .euclid (.ofList [("x", 0), ("y", 5)])) vs
        ⟨t, .pending b, 1000000⟩) ∧
    ∃ fuel r, ∃ left right : Word,
      Program.euclid.run .off fuel (.ofList [("x", 5), ("y", -3)]) = some r ∧
      r.outcome = .error (.overflow .sub left right) ∧ right.toInt = -3 ∧
      left.toInt = 9223372036854775805 := by
  have hequal := euclid_run_nonpositive (s := .ofList [("x", -3), ("y", -3)])
    (x := -3) (y := -3) rfl rfl (by decide) .off
  have hzero := euclid_run_nonpositive (s := .ofList [("x", 0), ("y", 5)])
    (x := 0) (y := 5) rfl rfl (by decide) .off
  have hneg := euclid_run_nonpositive (s := .ofList [("x", 5), ("y", -3)])
    (x := 5) (y := -3) rfl rfl (by decide) .off
  obtain ⟨hnone, hmore⟩ := hzero.2.1 (.inl (by decide))
  obtain ⟨-, fuel, r, left, right, hr, ho, hright, ⟨hle, hmod⟩, hgreatest⟩ :=
    hneg.2.2 (by decide) (by decide)
  have hleft : left.toInt = 9223372036854775805 := by
    have hge : 9223372036854775805 ≤ left.toInt := hgreatest ⟨by decide, by decide⟩
    change left.toInt % 3 = 5 % 3 at hmod
    omega
  exact ⟨hequal.1 rfl, hnone, hmore 1000000, fuel, r, left, right, hr, ho, hright, hleft⟩

end FlowGraph
