import FlowGraph.Invocation
import FlowGraph.Proofs.Decimal

/-!
# Tokens between blanks

A line holds a list of tokens when they stand in it in order, apart from each other, with any
blanks around them. There are many such lines for one list; cutting any of them into words gives
the list back, and if the tokens are the numerals of words, reading the line gives these words.
`laidOut` writes down such a line for any choice of gaps.
-/

namespace FlowGraph

/-- The text holds the tokens in order. After each of them it ends or goes on with a blank, and
apart from them it has only blanks. -/
inductive Spaced : List (List Char) → List Char → Prop where
  | blank {gap : List Char} (hgap : ∀ c ∈ gap, isBlank c = true) : Spaced [] gap
  | token {gap token rest : List Char} {tokens : List (List Char)}
      (hgap : ∀ c ∈ gap, isBlank c = true) (hrest : ∀ c ∈ rest.head?, isBlank c = true)
      (h : Spaced tokens rest) : Spaced (token :: tokens) (gap ++ (token ++ rest))

/-- A token is made of characters that are no blanks. -/
structure IsToken (cs : List Char) : Prop where
  ne_nil : cs ≠ []
  not_blank : ∀ c ∈ cs, isBlank c = false

lemma isToken_digits (n : Int) : IsToken (Numeral.digits n) :=
  ⟨Numeral.digits_ne_nil n, fun _ => Numeral.isBlank_eq_false_of_mem_digits⟩

section Words

lemma wordsFrom_append_of_blank {gap : List Char} (hgap : ∀ c ∈ gap, isBlank c = true)
    (rest : List Char) : wordsFrom [] (gap ++ rest) = wordsFrom [] rest := by
  induction gap with
  | nil => rfl
  | cons c gap ih =>
    rw [List.cons_append, wordsFrom, if_pos (hgap c List.mem_cons_self), if_pos rfl]
    exact ih fun d hd => hgap d (List.mem_cons_of_mem c hd)

lemma wordsFrom_append_of_not_blank {cs : List Char} (hcs : ∀ c ∈ cs, isBlank c = false)
    (word rest : List Char) : wordsFrom word (cs ++ rest) = wordsFrom (cs.reverse ++ word) rest := by
  induction cs generalizing word with
  | nil => rfl
  | cons c cs ih =>
    have hc : ¬isBlank c = true := by
      rw [hcs c List.mem_cons_self]
      exact Bool.false_ne_true
    rw [List.cons_append, wordsFrom, if_neg hc, ih fun d hd => hcs d (List.mem_cons_of_mem c hd)]
    simp only [List.reverse_cons, List.append_assoc, List.singleton_append]

lemma wordsFrom_of_head? {word rest : List Char} (hword : word ≠ [])
    (hrest : ∀ c ∈ rest.head?, isBlank c = true) :
    wordsFrom word rest = word.reverse :: wordsFrom [] rest := by
  cases rest with
  | nil => rw [wordsFrom, if_neg hword, wordsFrom, if_pos rfl]
  | cons c cs =>
    have hc : isBlank c = true := hrest c rfl
    rw [wordsFrom, if_pos hc, if_neg hword, wordsFrom, if_pos hc, if_pos rfl]

lemma wordsFrom_append_of_isToken {token rest : List Char} (htoken : IsToken token)
    (hrest : ∀ c ∈ rest.head?, isBlank c = true) :
    wordsFrom [] (token ++ rest) = token :: wordsFrom [] rest := by
  have hword : token.reverse ≠ [] := fun h => htoken.ne_nil (List.reverse_eq_nil_iff.mp h)
  rw [wordsFrom_append_of_not_blank htoken.not_blank, List.append_nil,
    wordsFrom_of_head? hword hrest, List.reverse_reverse]

end Words

namespace Spaced

variable {tokens : List (List Char)} {text : List Char}

/-- The words of a text that holds tokens are these tokens. -/
theorem wordsFrom_eq (h : Spaced tokens text) (htokens : ∀ token ∈ tokens, IsToken token) :
    wordsFrom [] text = tokens := by
  induction h with
  | @blank gap hgap =>
    have hall := wordsFrom_append_of_blank hgap []
    rwa [List.append_nil] at hall
  | token hgap hrest h ih =>
    rw [wordsFrom_append_of_blank hgap,
      wordsFrom_append_of_isToken (htokens _ List.mem_cons_self) hrest,
      ih fun token ht => htokens token (List.mem_cons_of_mem _ ht)]

lemma append_blank (h : Spaced tokens text) {gap : List Char}
    (hgap : ∀ c ∈ gap, isBlank c = true) : Spaced tokens (text ++ gap) := by
  induction h with
  | blank hfirst => exact .blank fun c hc => (List.mem_append.mp hc).elim (hfirst c) (hgap c)
  | @token first token rest tokens hfirst hrest h ih =>
    have hhead : ∀ c ∈ (rest ++ gap).head?, isBlank c = true := by
      intro c hc
      cases rest with
      | nil => exact hgap c (List.mem_of_mem_head? hc)
      | cons d rest => exact hrest c hc
    rw [List.append_assoc, List.append_assoc]
    exact .token hfirst hhead ih

end Spaced

lemma readNumerals_map_text (ws : List Word) : readNumerals (ws.map Word.text) = .ok ws := by
  induction ws with
  | nil => rfl
  | cons w ws ih =>
    rw [List.map_cons, readNumerals, Numeral.read_text, ih]
    rfl

def numerals (ws : List Word) : List (List Char) :=
  ws.map fun w => w.text.toList

lemma isToken_of_mem_numerals {ws : List Word} {token : List Char} (h : token ∈ numerals ws) :
    IsToken token := by
  obtain ⟨w, -, rfl⟩ := List.mem_map.mp h
  rw [Word.text, Numeral.toList_write]
  exact isToken_digits w.toInt

theorem Spaced.readValues_eq {ws : List Word} {line : String}
    (h : Spaced (numerals ws) line.toList) : readValues line = .ok ws := by
  have hwords : words line = ws.map Word.text := by
    rw [words, h.wordsFrom_eq fun _ => isToken_of_mem_numerals, numerals, List.map_map]
    exact List.map_congr_left fun w _ => String.ofList_toList
  rw [readValues, hwords, readNumerals_map_text]

theorem Spaced.runLine_eq {ws : List Word} {line : String} (h : Spaced (numerals ws) line.toList)
    (P : Program) (v : Verbosity) (fuel : Nat) : P.runLine v fuel line = P.runValues v fuel ws := by
  rw [Program.runLine, h.readValues_eq]

/-- The numerals of words in order, with `gap k` in front of the first one, `gap (k + 1)` after it,
and so on up to the gap after the last one. -/
def laidOut (gap : Nat → String) : Nat → List Word → String
  | k, [] => gap k
  | k, w :: ws => gap k ++ (w.text ++ laidOut gap (k + 1) ws)

section
variable {gap : Nat → String} {ws : List Word} {k : Nat}

/-- Unless it is empty, what is laid out starts with a blank if a numeral after the first gap has
some gap in front of it. -/
lemma isBlank_head?_laidOut (hblank : ∀ c ∈ (gap k).toList, isBlank c = true)
    (hapart : ws ≠ [] → gap k ≠ "") :
    ∀ c ∈ (laidOut gap k ws).toList.head?, isBlank c = true := by
  intro c hc
  cases ws with
  | nil => exact hblank c (List.mem_of_mem_head? hc)
  | cons w ws =>
    have hgap : gap k ≠ "" := hapart (List.cons_ne_nil w ws)
    have hne : (gap k).toList ≠ [] := mt String.toList_eq_nil_iff.mp hgap
    rw [laidOut, String.toList_append, List.head?_append_of_ne_nil _ hne] at hc
    exact hblank c (List.mem_of_mem_head? hc)

lemma spaced_laidOut
    (hblank : ∀ i, k ≤ i → i ≤ k + ws.length → ∀ c ∈ (gap i).toList, isBlank c = true)
    (hapart : ∀ i, k < i → i < k + ws.length → gap i ≠ "") :
    Spaced (numerals ws) (laidOut gap k ws).toList := by
  induction ws generalizing k with
  | nil => exact .blank (hblank k (by omega) (by simp))
  | cons w ws ih =>
    rw [List.length_cons] at hblank hapart
    have hrest : ∀ c ∈ (laidOut gap (k + 1) ws).toList.head?, isBlank c = true := by
      apply isBlank_head?_laidOut (hblank (k + 1) (by omega) (by omega))
      intro hws
      have hpos := List.length_pos_of_ne_nil hws
      exact hapart (k + 1) (by omega) (by omega)
    have htail : Spaced (numerals ws) (laidOut gap (k + 1) ws).toList := by
      apply ih
      · intro i hk hi
        exact hblank i (by omega) (by omega)
      · intro i hk hi
        exact hapart i (by omega) (by omega)
    rw [laidOut, String.toList_append, String.toList_append]
    exact .token (hblank k (by omega) (by omega)) hrest htail

end

/-- Numerals with blanks between them, and perhaps around them, are read as the words that they were
written for, and to run a program on such a line is to run it on these words. -/
theorem runLine_laidOut {gap : Nat → String} {ws : List Word}
    (hblank : ∀ i ≤ ws.length, ∀ c ∈ (gap i).toList, isBlank c = true)
    (hapart : ∀ i, 0 < i → i < ws.length → gap i ≠ "") :
    readValues (laidOut gap 0 ws) = .ok ws ∧
      ∀ (P : Program) v fuel, P.runLine v fuel (laidOut gap 0 ws) = P.runValues v fuel ws := by
  have hspaced : Spaced (numerals ws) (laidOut gap 0 ws).toList := by
    apply spaced_laidOut
    · intro i _ hi
      exact hblank i (by omega)
    · intro i hpos hi
      exact hapart i hpos (by omega)
  exact ⟨hspaced.readValues_eq, hspaced.runLine_eq⟩

/-- The smallest word and the largest one, after a tab and an ideographic space, with a no-break
space between. -/
theorem runLine_extreme_words :
    let ws : List Word := [Int64.minValue, 0, Int64.maxValue]
    let line := "\t\u3000-9223372036854775808\u00a00\n 9223372036854775807"
    readValues line = .ok ws ∧
      ∀ (P : Program) v fuel, P.runLine v fuel line = P.runValues v fuel ws := by
  intro ws line
  let gap : Nat → String
    | 0 => "\t\u3000"
    | 1 => "\u00a0"
    | 2 => "\n "
    | _ => ""
  have hall : ∀ i < 4, (gap i).toList.all isBlank = true := by decide
  have hblank : ∀ i ≤ ws.length, ∀ c ∈ (gap i).toList, isBlank c = true := by
    intro i hi
    exact List.all_eq_true.mp (hall i (Nat.lt_succ_of_le hi))
  have hapart : ∀ i < ws.length, 0 < i → gap i ≠ "" := by decide
  have hline : laidOut gap 0 ws = line := by decide
  rw [← hline]
  exact runLine_laidOut hblank fun i hpos hi => hapart i hi hpos

end FlowGraph
