import FlowGraph.Invocation
import FlowGraph.Proofs.Decimal
import FlowGraph.Proofs.MaximalRuns
import Mathlib.Algebra.Group.Int.Defs
import Mathlib.Data.List.Forall2

/-!
# The language of value lines

A line of values is read if each of its maximal runs is the numeral of a word: an optional sign and
one or more digits, of which there may be more than needed. This file describes the numerals and the
integers they denote, and tells which reason is given for a run that is none: whether a character is
no digit, or the digits in front of the first such character denote too much already.
-/

namespace FlowGraph

namespace Numeral

/-- The sign of a numeral, plus if it has none, and the characters after it. -/
def parts : List Char → Sign × List Char
  | '+' :: cs => (.plus, cs)
  | '-' :: cs => (.minus, cs)
  | cs => (.plus, cs)

/-- The integer that digits denote under a sign. -/
def signedValue (sign : Sign) (ds : List Char) : Int :=
  sign.apply (Nat.ofDigitChars 10 ds 0)

/-- An optional sign and one or more digits, which denote `n`. -/
structure Denotes (cs : List Char) (n : Int) : Prop where
  ne_nil : (parts cs).2 ≠ []
  isDigit : ∀ c ∈ (parts cs).2, c.isDigit = true
  eq : n = signedValue (parts cs).1 (parts cs).2

/-- The numeral of an integer in the range of words. -/
def IsNumeral (cs : List Char) : Prop :=
  ∃ n : Int, Denotes cs n ∧ -2 ^ 63 ≤ n ∧ n ≤ 2 ^ 63 - 1

/-- There is no digit at all, or a character that is no digit stands after digits whose value has been
that of a word up to there. -/
def Interrupted (sign : Sign) (ds : List Char) : Prop :=
  ds = [] ∨ ∃ before c after, ds = before ++ c :: after ∧ c.isDigit = false ∧
    (∀ d ∈ before, d.isDigit = true) ∧
    ∀ k ≤ before.length, Word.Representable (signedValue sign (before.take k))

/-- What the reason says about a text that is not the numeral of a word. -/
def Malformed.HoldsOf (cs : List Char) : Malformed → Prop
  | invalidDigit => Interrupted (parts cs).1 (parts cs).2
  | tooLarge => (parts cs).1 = .plus ∧ ¬ Interrupted (parts cs).1 (parts cs).2
  | tooSmall => (parts cs).1 = .minus ∧ ¬ Interrupted (parts cs).1 (parts cs).2

lemma Sign.excess_ne_invalidDigit (sign : Sign) : sign.excess ≠ .invalidDigit := by
  cases sign with
  | plus => nofun
  | minus => nofun

section Magnitude
variable {sign : Sign} {cs : List Char} {n m : Nat}

lemma magnitude_cons_of_not_isDigit {c : Char} (hc : c.isDigit = false) :
    magnitude sign n (c :: cs) = .error .invalidDigit := by
  have hdigit : digit? c = none := by simp [digit?, hc]
  rw [magnitude, hdigit]

lemma magnitude_cons_of_isDigit {c : Char} (hc : c.isDigit = true) :
    magnitude sign n (c :: cs) =
      if 10 * n + (c.toNat - '0'.toNat) ≤ sign.limit then
        magnitude sign (10 * n + (c.toNat - '0'.toNat)) cs
      else .error sign.excess := by
  rw [magnitude, digit?_eq_some hc]

/-- The digits of a text are read to its end if they do not take the value over the limit. -/
lemma magnitude_eq_ok_iff (hn : n ≤ sign.limit) :
    magnitude sign n cs = .ok m ↔
      (∀ c ∈ cs, c.isDigit = true) ∧ Nat.ofDigitChars 10 cs n = m ∧ m ≤ sign.limit := by
  constructor
  · intro h
    induction cs generalizing n with
    | nil =>
      cases h
      exact ⟨nofun, rfl, hn⟩
    | cons c cs ih =>
      cases hc : c.isDigit with
      | false =>
        rw [magnitude_cons_of_not_isDigit hc] at h
        cases h
      | true =>
        rw [magnitude_cons_of_isDigit hc] at h
        split at h
        · next hlimit =>
          obtain ⟨hd, hm, hle⟩ := ih hlimit h
          exact ⟨List.forall_mem_cons.mpr ⟨hc, hd⟩, by rw [Nat.ofDigitChars_cons, hm], hle⟩
        · cases h
  · rintro ⟨hd, rfl, hle⟩
    exact magnitude_eq_ok hd hle

lemma magnitude_eq_error {f : Malformed} (h : magnitude sign n cs = .error f) :
    f = .invalidDigit ∨ f = sign.excess := by
  induction cs generalizing n with
  | nil => cases h
  | cons c cs ih =>
    cases hc : c.isDigit with
    | false =>
      rw [magnitude_cons_of_not_isDigit hc] at h
      cases h
      exact .inl rfl
    | true =>
      rw [magnitude_cons_of_isDigit hc] at h
      split at h
      · exact ih h
      · cases h
        exact .inr rfl

/-- A character that is no digit is reported if the digits in front of it do not take the value over
the limit. -/
lemma magnitude_eq_invalidDigit_iff (hn : n ≤ sign.limit) :
    magnitude sign n cs = .error .invalidDigit ↔
      ∃ before c after, cs = before ++ c :: after ∧ c.isDigit = false ∧
        (∀ d ∈ before, d.isDigit = true) ∧ Nat.ofDigitChars 10 before n ≤ sign.limit := by
  induction cs generalizing n with
  | nil => simp [magnitude]
  | cons c cs ih =>
    cases hc : c.isDigit with
    | false =>
      rw [magnitude_cons_of_not_isDigit hc]
      exact iff_of_true rfl ⟨[], c, cs, rfl, hc, List.forall_mem_nil _, hn⟩
    | true =>
      rw [magnitude_cons_of_isDigit hc]
      constructor
      · intro h
        split at h
        · next hlimit =>
          obtain ⟨before, d, after, rfl, hd, hbefore, hle⟩ := (ih hlimit).mp h
          exact ⟨c :: before, d, after, rfl, hd, List.forall_mem_cons.mpr ⟨hc, hbefore⟩,
            by rwa [Nat.ofDigitChars_cons]⟩
        · exact absurd (Except.error.inj h) sign.excess_ne_invalidDigit
      · rintro ⟨before, d, after, he, hd, hbefore, hle⟩
        cases before with
        | nil =>
          rw [← (List.cons.inj he).1, hc] at hd
          cases hd
        | cons e before =>
          obtain ⟨rfl, rfl⟩ := List.cons.inj he
          rw [Nat.ofDigitChars_cons] at hle
          have hlimit := Nat.le_trans (le_ofDigitChars before _) hle
          rw [if_pos hlimit]
          exact (ih hlimit).mpr ⟨before, d, after, rfl, hd, (List.forall_mem_cons.mp hbefore).2, hle⟩

end Magnitude

section Unsigned
variable {sign : Sign} {ds : List Char}

lemma representable_apply_iff {n : Nat} :
    Word.Representable (sign.apply n) ↔ n ≤ sign.limit := by
  have hmin : Int64.minValue.toInt < 0 := by decide
  have hmax : 0 ≤ Int64.maxValue.toInt := by decide
  unfold Word.Representable
  cases sign with
  | plus =>
    rw [Sign.apply, Sign.limit]
    omega
  | minus =>
    rw [Sign.apply, Sign.limit]
    omega

/-- Digits denote a word if and only if all their beginnings do. -/
lemma forall_representable_take_iff :
    (∀ k ≤ ds.length, Word.Representable (signedValue sign (ds.take k))) ↔
      Nat.ofDigitChars 10 ds 0 ≤ sign.limit := by
  simp only [signedValue, representable_apply_iff]
  constructor
  · intro h
    simpa using h ds.length (Nat.le_refl _)
  · intro h k _
    have hle := le_ofDigitChars (ds.drop k) (Nat.ofDigitChars 10 (ds.take k) 0)
    rw [← Nat.ofDigitChars_append, List.take_append_drop] at hle
    exact Nat.le_trans hle h

lemma readUnsigned_of_ne_nil (h : ds ≠ []) :
    readUnsigned sign ds = (magnitude sign 0 ds).map fun n => Int64.ofInt (sign.apply n) := by
  cases ds with
  | nil => exact absurd rfl h
  | cons c cs => rfl

lemma readUnsigned_eq_ok_iff {w : Word} : readUnsigned sign ds = .ok w ↔
    ds ≠ [] ∧ (∀ c ∈ ds, c.isDigit = true) ∧ w.toInt = signedValue sign ds := by
  constructor
  · intro h
    have hne : ds ≠ [] := by
      rintro rfl
      cases h
    rw [readUnsigned_of_ne_nil hne] at h
    cases hm : magnitude sign 0 ds with
    | error f =>
      rw [hm] at h
      cases h
    | ok m =>
      rw [hm] at h
      cases h
      obtain ⟨hd, hvalue, hle⟩ := (magnitude_eq_ok_iff (Nat.zero_le _)).mp hm
      refine ⟨hne, hd, ?_⟩
      rw [Word.toInt_ofInt_of_representable (representable_apply_iff.mpr hle), signedValue, hvalue]
  · rintro ⟨hne, hd, hw⟩
    have hle : Nat.ofDigitChars 10 ds 0 ≤ sign.limit := by
      rw [← representable_apply_iff, ← signedValue, ← hw]
      exact Word.representable_toInt w
    rw [readUnsigned_of_ne_nil hne, magnitude_eq_ok hd hle, ← Int64.ofInt_toInt w, hw]
    rfl

lemma readUnsigned_eq_error_iff {f : Malformed} (hne : ds ≠ []) :
    readUnsigned sign ds = .error f ↔ magnitude sign 0 ds = .error f := by
  rw [readUnsigned_of_ne_nil hne]
  cases magnitude sign 0 ds with
  | error g => rw [Except.map, Except.error.injEq, Except.error.injEq]
  | ok m => exact iff_of_false nofun nofun

lemma readUnsigned_eq_invalidDigit_iff :
    readUnsigned sign ds = .error .invalidDigit ↔ Interrupted sign ds := by
  by_cases hne : ds = []
  · subst hne
    exact iff_of_true rfl (.inl rfl)
  · rw [readUnsigned_eq_error_iff hne, magnitude_eq_invalidDigit_iff (Nat.zero_le _), Interrupted,
      or_iff_right hne]
    simp only [forall_representable_take_iff]

lemma readUnsigned_eq_error {f : Malformed} (h : readUnsigned sign ds = .error f) :
    f = .invalidDigit ∨ f = sign.excess := by
  by_cases hne : ds = []
  · subst hne
    cases h
    exact .inl rfl
  · exact magnitude_eq_error ((readUnsigned_eq_error_iff hne).mp h)

end Unsigned

section Chars
variable {cs : List Char}

lemma readChars_eq (cs : List Char) : readChars cs = readUnsigned (parts cs).1 (parts cs).2 := by
  unfold readChars
  split
  · rfl
  · rfl
  · next hplus hminus => rw [parts.eq_3 cs hplus hminus]

/-- A text is read as the word that it denotes. -/
lemma readChars_eq_ok_iff {w : Word} : readChars cs = .ok w ↔ Denotes cs w.toInt := by
  rw [readChars_eq, readUnsigned_eq_ok_iff]
  constructor
  · rintro ⟨hne, hd, hw⟩
    exact ⟨hne, hd, hw⟩
  · rintro ⟨hne, hd, hw⟩
    exact ⟨hne, hd, hw⟩

lemma Malformed.HoldsOf.unique {f g : Malformed} (hf : f.HoldsOf cs) (hg : g.HoldsOf cs) :
    f = g := by
  cases f with
  | invalidDigit =>
    cases g with
    | invalidDigit => rfl
    | tooLarge => exact absurd hf hg.2
    | tooSmall => exact absurd hf hg.2
  | tooLarge =>
    cases g with
    | invalidDigit => exact absurd hg hf.2
    | tooLarge => rfl
    | tooSmall => exact absurd (hf.1.symm.trans hg.1) nofun
  | tooSmall =>
    cases g with
    | invalidDigit => exact absurd hg hf.2
    | tooLarge => exact absurd (hf.1.symm.trans hg.1) nofun
    | tooSmall => rfl

lemma holdsOf_of_readChars {f : Malformed} (h : readChars cs = .error f) : f.HoldsOf cs := by
  rw [readChars_eq] at h
  rcases readUnsigned_eq_error h with rfl | rfl
  · exact readUnsigned_eq_invalidDigit_iff.mp h
  · have hnot : ¬ Interrupted (parts cs).1 (parts cs).2 := by
      intro hi
      rw [readUnsigned_eq_invalidDigit_iff.mpr hi] at h
      exact Sign.excess_ne_invalidDigit _ (Except.error.inj h).symm
    cases hs : (parts cs).1 with
    | plus => exact ⟨hs, hnot⟩
    | minus => exact ⟨hs, hnot⟩

lemma isNumeral_iff : IsNumeral cs ↔ ∃ w : Word, Denotes cs w.toInt := by
  constructor
  · rintro ⟨n, hn, hmin, hmax⟩
    refine ⟨Int64.ofInt n, ?_⟩
    rwa [Word.toInt_ofInt_of_representable ⟨hmin, hmax⟩]
  · rintro ⟨w, hw⟩
    exact ⟨w.toInt, hw, Word.representable_toInt w⟩

lemma exists_readChars_iff : (∃ w, readChars cs = .ok w) ↔ IsNumeral cs := by
  simp only [readChars_eq_ok_iff, isNumeral_iff]

/-- A text that is no numeral is refused, for the reason that holds of it. -/
lemma readChars_eq_error_iff {m : Malformed} :
    readChars cs = .error m ↔ ¬ IsNumeral cs ∧ m.HoldsOf cs := by
  rw [← exists_readChars_iff]
  constructor
  · intro h
    refine ⟨?_, holdsOf_of_readChars h⟩
    rintro ⟨w, hw⟩
    rw [h] at hw
    cases hw
  · rintro ⟨hnone, hm⟩
    cases h : readChars cs with
    | ok w => exact absurd ⟨w, h⟩ hnone
    | error f => rw [(holdsOf_of_readChars h).unique hm]

/-- In front of the letter stands a value that is still a word, or one that is not. -/
example : readChars "922337203685477580x8".toList = .error .invalidDigit ∧
    readChars "9223372036854775808x".toList = .error .tooLarge := by
  decide

end Chars

end Numeral

/-- The failure names the first of the tokens that is not the numeral of a word, and the reason that
holds of it. -/
def Failure.IsFirst (tokens : List (List Char)) (f : Failure) : Prop :=
  ∃ before token after m, tokens = before ++ token :: after ∧
    (∀ t ∈ before, Numeral.IsNumeral t) ∧ ¬ Numeral.IsNumeral token ∧
    Numeral.Malformed.HoldsOf token m ∧ f = .badNumeral (String.ofList token) m

section Tokens
variable {token : List Char} {tokens : List (List Char)} {f : Failure}

lemma Failure.isFirst_cons_iff : f.IsFirst (token :: tokens) ↔
    (∃ m, (¬ Numeral.IsNumeral token ∧ Numeral.Malformed.HoldsOf token m) ∧
        f = .badNumeral (String.ofList token) m) ∨
      Numeral.IsNumeral token ∧ f.IsFirst tokens := by
  constructor
  · rintro ⟨before, t, after, m, he, hbefore, ht, hm, hf⟩
    cases before with
    | nil =>
      obtain ⟨rfl, rfl⟩ := List.cons.inj he
      exact .inl ⟨m, ⟨ht, hm⟩, hf⟩
    | cons u before =>
      obtain ⟨rfl, rfl⟩ := List.cons.inj he
      obtain ⟨hu, hbefore⟩ := List.forall_mem_cons.mp hbefore
      exact .inr ⟨hu, before, t, after, m, rfl, hbefore, ht, hm, hf⟩
  · rintro (⟨m, ⟨ht, hm⟩, hf⟩ | ⟨hu, before, t, after, m, rfl, hbefore, ht, hm, hf⟩)
    · exact ⟨[], token, tokens, m, rfl, nofun, ht, hm, hf⟩
    · exact ⟨token :: before, t, after, m, rfl, List.forall_mem_cons.mpr ⟨hu, hbefore⟩, ht, hm, hf⟩

lemma readNumerals_of_error {m : Numeral.Malformed} (h : Numeral.readChars token = .error m) :
    readNumerals ((token :: tokens).map String.ofList) =
      .error (.badNumeral (String.ofList token) m) := by
  rw [List.map_cons, readNumerals, Numeral.read, String.toList_ofList, h]

lemma readNumerals_of_ok {w : Word} (h : Numeral.readChars token = .ok w) :
    readNumerals ((token :: tokens).map String.ofList) =
      (readNumerals (tokens.map String.ofList)).map (w :: ·) := by
  rw [List.map_cons, readNumerals, Numeral.read, String.toList_ofList, h]

lemma readNumerals_cons_eq_ok_iff {ws : List Word} :
    readNumerals ((token :: tokens).map String.ofList) = .ok ws ↔
      ∃ w vs, Numeral.readChars token = .ok w ∧
        readNumerals (tokens.map String.ofList) = .ok vs ∧ ws = w :: vs := by
  cases htoken : Numeral.readChars token with
  | error m =>
    rw [readNumerals_of_error htoken]
    simp
  | ok w =>
    rw [readNumerals_of_ok htoken]
    cases readNumerals (tokens.map String.ofList) with
    | error f => simp [Except.map]
    | ok vs => simp [Except.map, eq_comm]

lemma readNumerals_cons_eq_error_iff :
    readNumerals ((token :: tokens).map String.ofList) = .error f ↔
      (∃ m, Numeral.readChars token = .error m ∧ f = .badNumeral (String.ofList token) m) ∨
        (∃ w, Numeral.readChars token = .ok w) ∧
          readNumerals (tokens.map String.ofList) = .error f := by
  cases htoken : Numeral.readChars token with
  | error m =>
    rw [readNumerals_of_error htoken]
    simp [eq_comm]
  | ok w =>
    rw [readNumerals_of_ok htoken]
    cases readNumerals (tokens.map String.ofList) with
    | error f => simp [Except.map]
    | ok vs => simp [Except.map]

lemma readNumerals_eq_ok_iff {ws : List Word} :
    readNumerals (tokens.map String.ofList) = .ok ws ↔
      List.Forall₂ (fun token w => Numeral.Denotes token w.toInt) tokens ws := by
  induction tokens generalizing ws with
  | nil => rw [List.forall₂_nil_left_iff, List.map_nil, readNumerals, Except.ok.injEq, eq_comm]
  | cons token tokens ih =>
    rw [readNumerals_cons_eq_ok_iff, List.forall₂_cons_left_iff]
    simp only [ih, Numeral.readChars_eq_ok_iff]

lemma exists_readNumerals_iff : (∃ ws, readNumerals (tokens.map String.ofList) = .ok ws) ↔
    ∀ token ∈ tokens, Numeral.IsNumeral token := by
  induction tokens with
  | nil => exact iff_of_true ⟨[], rfl⟩ nofun
  | cons token tokens ih =>
    rw [List.forall_mem_cons, ← ih, ← Numeral.exists_readChars_iff]
    simp only [readNumerals_cons_eq_ok_iff]
    constructor
    · rintro ⟨-, w, vs, hw, hvs, rfl⟩
      exact ⟨⟨w, hw⟩, vs, hvs⟩
    · rintro ⟨⟨w, hw⟩, vs, hvs⟩
      exact ⟨w :: vs, w, vs, hw, hvs, rfl⟩

lemma readNumerals_eq_error_iff :
    readNumerals (tokens.map String.ofList) = .error f ↔ f.IsFirst tokens := by
  induction tokens with
  | nil =>
    refine iff_of_false nofun ?_
    rintro ⟨before, t, after, m, he, -⟩
    exact List.append_ne_nil_of_right_ne_nil before (List.cons_ne_nil t after) he.symm
  | cons token tokens ih =>
    rw [readNumerals_cons_eq_error_iff, Failure.isFirst_cons_iff, ih]
    simp only [Numeral.readChars_eq_error_iff, Numeral.exists_readChars_iff]

end Tokens

/-- A line of values is cut into its maximal runs of characters that are no blanks. It is read if all
of them are numerals of words, as the words they denote, and otherwise refused for the first that is
not. -/
theorem readValues_exact (line : String) :
    ∃ tokens, AreRuns line.toList tokens ∧ words line = tokens.map String.ofList ∧
      (∀ ws, readValues line = .ok ws ↔
        List.Forall₂ (fun token w => Numeral.Denotes token w.toInt) tokens ws) ∧
      ((∃ ws, readValues line = .ok ws) ↔ ∀ token ∈ tokens, Numeral.IsNumeral token) ∧
      ∀ f, readValues line = .error f ↔ f.IsFirst tokens :=
  ⟨wordsFrom [] line.toList, areRuns_wordsFrom _, rfl, fun _ => readNumerals_eq_ok_iff,
    exists_readNumerals_iff, fun _ => readNumerals_eq_error_iff⟩

end FlowGraph
