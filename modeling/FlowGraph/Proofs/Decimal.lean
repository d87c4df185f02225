import FlowGraph.Text.Blank
import FlowGraph.Text.Numeral
import Mathlib.Data.List.Basic

/-!
# Numerals are read back

The numeral that is written for a word consists of digits after an optional minus sign, and reading
it gives the word again. Reading checks the range at every digit; the value of the digits read so
far never exceeds that of all of them, so a word in range is never refused on the way.
-/

namespace FlowGraph

/-- No character of ASCII that prints is a blank. -/
lemma isBlank_eq_false_of_lt {c : Char} (hlow : 0x20 < c.toNat) (hhigh : c.toNat < 0x7F) :
    isBlank c = false := by
  have hranges : ∀ r ∈ Blank.ranges, r.2 ≤ 0x20 ∨ 0x7F ≤ r.1 := by decide
  rw [isBlank, List.any_eq_false]
  intro r hr hc
  rw [Bool.and_eq_true, decide_eq_true_eq, decide_eq_true_eq] at hc
  rcases hranges r hr with h | h
  · omega
  · omega

namespace Numeral

lemma digit?_eq_some {c : Char} (h : c.isDigit = true) : digit? c = some (c.toNat - '0'.toNat) := by
  rw [digit?, if_pos h]

/-- Further digits do not make a magnitude smaller. -/
lemma le_ofDigitChars (cs : List Char) (n : Nat) : n ≤ Nat.ofDigitChars 10 cs n := by
  have hpow : 0 < 10 ^ cs.length := Nat.pow_pos (by omega)
  have hmul : n ≤ 10 ^ cs.length * n := Nat.le_mul_of_pos_left n hpow
  rw [Nat.ofDigitChars_eq_ofDigitChars_zero]
  omega

/-- Digits are read to the end if the number they give is within the limit. -/
lemma magnitude_eq_ok {sign : Sign} {cs : List Char} {n : Nat}
    (hd : ∀ c ∈ cs, c.isDigit = true) (hn : Nat.ofDigitChars 10 cs n ≤ sign.limit) :
    magnitude sign n cs = .ok (Nat.ofDigitChars 10 cs n) := by
  induction cs generalizing n with
  | nil => rw [magnitude, Nat.ofDigitChars_nil]
  | cons c cs ih =>
    rw [Nat.ofDigitChars_cons] at hn ⊢
    have hle := le_ofDigitChars cs (10 * n + (c.toNat - '0'.toNat))
    have hlimit : 10 * n + (c.toNat - '0'.toNat) ≤ sign.limit := by omega
    simp only [magnitude, digit?_eq_some (hd c List.mem_cons_self)]
    rw [if_pos hlimit]
    exact ih (fun d hd' => hd d (List.mem_cons_of_mem c hd')) hn

lemma isDigit_of_mem_toDigits {n : Nat} {c : Char} (h : c ∈ Nat.toDigits 10 n) :
    c.isDigit = true :=
  Nat.isDigit_of_mem_toDigits (by decide) (by decide) h

lemma readUnsigned_toDigits (sign : Sign) {n : Nat} (hn : n ≤ sign.limit) :
    readUnsigned sign (Nat.toDigits 10 n) = .ok (Int64.ofInt (sign.apply n)) := by
  have hm : magnitude sign 0 (Nat.toDigits 10 n) = .ok n := by
    have hvalue : Nat.ofDigitChars 10 (Nat.toDigits 10 n) 0 = n := Nat.ofDigitChars_ten_toDigits
    rw [magnitude_eq_ok (fun _ => isDigit_of_mem_toDigits) (by omega), hvalue]
  cases hcs : Nat.toDigits 10 n with
  | nil => exact absurd hcs Nat.toDigits_ne_nil
  | cons c cs =>
    rw [hcs] at hm
    rw [readUnsigned, hm]
    rfl

/-- Without a sign the digits are those of a number that is not negative. -/
lemma readChars_of_isDigit {c : Char} {cs : List Char} (hc : c.isDigit = true) :
    readChars (c :: cs) = readUnsigned .plus (c :: cs) := by
  have hplus : c ≠ '+' := by
    rintro rfl
    cases hc
  have hminus : c ≠ '-' := by
    rintro rfl
    cases hc
  unfold readChars
  split
  · next h => exact absurd (List.cons.inj h).1 hplus
  · next h => exact absurd (List.cons.inj h).1 hminus
  · rfl

/-- Reading undoes writing for every integer that is a word. -/
theorem read_write {n : Int} (h : Word.Representable n) : read (write n) = .ok (Int64.ofInt n) := by
  have hmin : Sign.limit .minus = Int64.minValue.toInt.natAbs := rfl
  have hmax : Sign.limit .plus = Int64.maxValue.toInt.toNat := rfl
  have hneg : Int64.minValue.toInt < 0 := by decide
  unfold Word.Representable at h
  rw [read, toList_write, digits]
  by_cases hn : n < 0
  · have hvalue : Sign.apply .minus n.natAbs = n := by
      rw [Sign.apply]
      omega
    rw [if_pos hn]
    change readUnsigned .minus (Nat.toDigits 10 n.natAbs) = _
    rw [readUnsigned_toDigits .minus (by omega), hvalue]
  · have hvalue : Sign.apply .plus n.natAbs = n := by
      rw [Sign.apply]
      omega
    have hread := readUnsigned_toDigits .plus (n := n.natAbs) (by omega)
    rw [hvalue] at hread
    rw [if_neg hn]
    cases hcs : Nat.toDigits 10 n.natAbs with
    | nil => exact absurd hcs Nat.toDigits_ne_nil
    | cons c cs =>
      have hc : c.isDigit = true := isDigit_of_mem_toDigits (hcs ▸ List.mem_cons_self)
      rw [readChars_of_isDigit hc, ← hcs, hread]

lemma read_text (w : Word) : read w.text = .ok w := by
  rw [Word.text, read_write (Word.representable_toInt w), Int64.ofInt_toInt]

lemma isBlank_eq_false_of_isDigit {c : Char} (h : c.isDigit = true) : isBlank c = false := by
  simp only [Char.isDigit, Bool.and_eq_true, decide_eq_true_eq, ge_iff_le,
    UInt32.le_iff_toNat_le] at h
  have hlow : 48 ≤ c.toNat := h.1
  have hhigh : c.toNat ≤ 57 := h.2
  exact isBlank_eq_false_of_lt (by omega) (by omega)

lemma isBlank_eq_false_of_mem_digits {n : Int} {c : Char} (h : c ∈ digits n) :
    isBlank c = false := by
  have hdigit : ∀ d ∈ Nat.toDigits 10 n.natAbs, isBlank d = false := fun d hd =>
    isBlank_eq_false_of_isDigit (isDigit_of_mem_toDigits hd)
  rw [digits] at h
  split at h
  · rcases List.mem_cons.mp h with rfl | h
    · decide
    · exact hdigit c h
  · exact hdigit c h

lemma digits_ne_nil (n : Int) : digits n ≠ [] := by
  rw [digits]
  split
  · exact List.cons_ne_nil _ _
  · exact Nat.toDigits_ne_nil

end Numeral

end FlowGraph
