/-!
# Machine words

Variables hold signed 64-bit integers. Arithmetic on them is exact or refused, so the one
operation needed here is the partial inverse of `Int64.toInt`: an integer is turned into the
word that stands for it, if there is one.
-/

namespace FlowGraph

/-- A signed 64-bit integer, the only thing a variable can hold. -/
abbrev Word := Int64

namespace Word

/-- The word with exact value `n`, if `n` lies in the 64-bit range. -/
def ofInt? (n : Int) : Option Word :=
  if (Int64.ofInt n).toInt = n then some (Int64.ofInt n) else none

/-- An integer is representable when it lies in the range of words, `[-2^63, 2^63 - 1]`. -/
def Representable (n : Int) : Prop :=
  Int64.minValue.toInt ≤ n ∧ n ≤ Int64.maxValue.toInt

instance (n : Int) : Decidable (Representable n) :=
  inferInstanceAs (Decidable (_ ∧ _))

theorem representable_toInt (w : Word) : Representable w.toInt :=
  ⟨Int64.minValue_le_toInt w, Int64.toInt_le w⟩

theorem toInt_ofInt_of_representable {n : Int} (h : Representable n) :
    (Int64.ofInt n).toInt = n :=
  Int64.toInt_ofInt_of_le h.1 (Int.lt_of_le_sub_one h.2)

theorem ofInt?_eq_some_iff {n : Int} {w : Word} : ofInt? n = some w ↔ w.toInt = n := by
  unfold ofInt?
  constructor
  · intro h
    split at h
    · next hn =>
      cases h
      exact hn
    · cases h
  · rintro rfl
    simp

theorem ofInt?_eq_none_iff {n : Int} : ofInt? n = none ↔ ¬ Representable n := by
  constructor
  · intro h hn
    have := ofInt?_eq_some_iff.2 (toInt_ofInt_of_representable hn)
    rw [h] at this
    cases this
  · intro h
    cases hw : ofInt? n with
    | none => rfl
    | some w => exact absurd (ofInt?_eq_some_iff.1 hw ▸ representable_toInt w) h

@[simp] theorem ofInt?_toInt (w : Word) : ofInt? w.toInt = some w :=
  ofInt?_eq_some_iff.2 rfl

end Word

end FlowGraph
