import FlowGraph.Text.Blank
import Mathlib.Data.List.Basic

/-!
# Words as maximal runs

The words of a text are found from left to right, with the characters of an unfinished word at hand.
Seen by position they are the maximal runs of characters that are no blanks: each of them starts
where the character in front is a blank or missing and goes on up to the next blank or to the end.
-/

namespace FlowGraph

/-- Whether there is a character at a position and it is no blank. -/
def inkAt (cs : List Char) (i : Nat) : Bool :=
  cs[i]?.any fun c => !isBlank c

/-- From `i` up to `j` the text has characters that are no blanks, and on neither side of them is there
another one. -/
structure IsRun (cs : List Char) (i j : Nat) : Prop where
  lt : i < j
  ink : ∀ k, i ≤ k → k < j → inkAt cs k = true
  start : ∀ k, k + 1 = i → inkAt cs k = false
  stop : inkAt cs j = false

/-- Some texts are the maximal runs of `cs`, in the order of their positions. -/
def AreRuns (cs : List Char) (tokens : List (List Char)) : Prop :=
  ∃ spans : List (Nat × Nat), spans.Pairwise (fun p q => p.1 < q.1) ∧
    (∀ i j, (i, j) ∈ spans ↔ IsRun cs i j) ∧
    tokens = spans.map fun p => (cs.drop p.1).take (p.2 - p.1)

/-- The characters from a position up to the next blank. -/
def runAt (cs : List Char) (i : Nat) : List Char :=
  (cs.drop i).takeWhile fun c => !isBlank c

/-- Whether a run starts at a position, when `ink` tells if the character in front of the text is no
blank. -/
def startsRun (ink : Bool) (cs : List Char) : Nat → Bool
  | 0 => inkAt cs 0 && !ink
  | i + 1 => inkAt cs (i + 1) && !inkAt cs i

/-- The positions where a run starts, in increasing order. -/
def runStarts (ink : Bool) (cs : List Char) : List Nat :=
  (List.range cs.length).filter (startsRun ink cs)

section Words
variable {c : Char} {cs : List Char} {i j : Nat}

lemma inkAt_zero : inkAt (c :: cs) 0 = !isBlank c := rfl

lemma startsRun_succ (ink : Bool) :
    startsRun ink (c :: cs) (i + 1) = startsRun (!isBlank c) cs i := by
  cases i with
  | zero => rfl
  | succ i => rfl

lemma runStarts_cons (ink : Bool) :
    runStarts ink (c :: cs) =
      (if startsRun ink (c :: cs) 0 then [0] else []) ++
        (runStarts (!isBlank c) cs).map Nat.succ := by
  have hrest : startsRun ink (c :: cs) ∘ Nat.succ = startsRun (!isBlank c) cs := by
    funext i
    exact startsRun_succ ink
  rw [runStarts, List.length_cons, List.range_succ_eq_map, List.filter_cons, List.filter_map, hrest]
  split
  · rfl
  · rfl

/-- An unfinished word goes on up to the next blank; after it come the runs that start later. -/
lemma wordsFrom_eq (word cs : List Char) :
    wordsFrom word cs =
      (if word = [] then [] else [word.reverse ++ runAt cs 0]) ++
        (runStarts (word ≠ []) cs).map (runAt cs) := by
  induction cs generalizing word with
  | nil => simp [wordsFrom, runStarts, runAt]
  | cons c cs ih =>
    have hrest : runAt (c :: cs) ∘ Nat.succ = runAt cs := rfl
    rw [wordsFrom, runStarts_cons, List.map_append, List.map_map, hrest]
    cases hc : isBlank c with
    | true =>
      have hstart : ∀ ink, startsRun ink (c :: cs) 0 = false := by
        simp [startsRun, inkAt_zero, hc]
      have hrun : runAt (c :: cs) 0 = [] := by simp [runAt, hc]
      rw [hstart, hrun, ih []]
      by_cases hw : word = []
      · simp [hw]
      · simp [hw]
    | false =>
      have hstart : ∀ ink, startsRun ink (c :: cs) 0 = !ink := by
        simp [startsRun, inkAt_zero, hc]
      have hrun : runAt (c :: cs) 0 = c :: runAt cs 0 := by simp [runAt, hc]
      rw [hstart, hrun, ih (c :: word)]
      by_cases hw : word = []
      · simp [hw, hrun]
      · simp [hw]

lemma inkAt_drop (k : Nat) : inkAt (cs.drop i) k = inkAt cs (i + k) := by
  rw [inkAt, List.getElem?_drop, inkAt]

lemma inkAt_takeWhile (cs : List Char) :
    (∀ k < (cs.takeWhile fun c => !isBlank c).length, inkAt cs k = true) ∧
      inkAt cs (cs.takeWhile fun c => !isBlank c).length = false := by
  induction cs with
  | nil => exact ⟨nofun, rfl⟩
  | cons c cs ih =>
    cases hc : isBlank c with
    | true => simp [hc, inkAt_zero]
    | false =>
      have hlen : ((c :: cs).takeWhile fun c => !isBlank c).length =
          (cs.takeWhile fun c => !isBlank c).length + 1 := by
        simp [hc]
      rw [hlen]
      refine ⟨?_, ih.2⟩
      intro k hk
      cases k with
      | zero => simp [inkAt_zero, hc]
      | succ k => exact ih.1 k (by omega)

lemma inkAt_runAt (cs : List Char) (i : Nat) :
    (∀ k, i ≤ k → k < i + (runAt cs i).length → inkAt cs k = true) ∧
      inkAt cs (i + (runAt cs i).length) = false := by
  obtain ⟨hink, hstop⟩ := inkAt_takeWhile (cs.drop i)
  rw [inkAt_drop] at hstop
  refine ⟨?_, hstop⟩
  intro k hik hk
  have h := hink (k - i) (by rw [runAt] at hk; omega)
  rw [inkAt_drop] at h
  rwa [Nat.add_sub_cancel' hik] at h

lemma startsRun_iff : startsRun false cs i = true ↔
    inkAt cs i = true ∧ ∀ k, k + 1 = i → inkAt cs k = false := by
  cases i with
  | zero => simp [startsRun]
  | succ i => simp [startsRun]

lemma lt_length_of_inkAt (h : inkAt cs i = true) : i < cs.length := by
  by_contra hi
  rw [inkAt, List.getElem?_eq_none (by omega)] at h
  cases h

lemma isRun_iff : IsRun cs i j ↔ i ∈ runStarts false cs ∧ j = i + (runAt cs i).length := by
  obtain ⟨hink, hstop⟩ := inkAt_runAt cs i
  rw [runStarts, List.mem_filter, List.mem_range, startsRun_iff]
  constructor
  · rintro ⟨hlt, hrun, hstart, hend⟩
    have hi : inkAt cs i = true := hrun i (Nat.le_refl i) hlt
    refine ⟨⟨lt_length_of_inkAt hi, hi, hstart⟩, ?_⟩
    rcases Nat.lt_trichotomy j (i + (runAt cs i).length) with h | h | h
    · have hj := hink j (by omega) h
      rw [hend] at hj
      cases hj
    · exact h
    · have hj := hrun _ (by omega) h
      rw [hstop] at hj
      cases hj
  · rintro ⟨⟨-, hi, hstart⟩, rfl⟩
    refine ⟨?_, hink, hstart, hstop⟩
    by_contra hlt
    have hlen : i + (runAt cs i).length = i := by omega
    rw [hlen, hi] at hstop
    cases hstop

/-- The words of a text are its maximal runs of characters that are no blanks. -/
theorem areRuns_wordsFrom (cs : List Char) : AreRuns cs (wordsFrom [] cs) := by
  refine ⟨(runStarts false cs).map fun i => (i, i + (runAt cs i).length), ?_, ?_, ?_⟩
  · rw [List.pairwise_map]
    exact List.pairwise_lt_range.filter _
  · intro i j
    rw [isRun_iff, List.mem_map]
    constructor
    · rintro ⟨k, hk, he⟩
      cases he
      exact ⟨hk, rfl⟩
    · rintro ⟨hi, rfl⟩
      exact ⟨i, hi, rfl⟩
  · have hwords := wordsFrom_eq [] cs
    rw [if_pos rfl, List.nil_append] at hwords
    rw [hwords, List.map_map]
    apply List.map_congr_left
    intro i _
    have hrun : runAt cs i = (cs.drop i).take (runAt cs i).length :=
      List.prefix_iff_eq_take.mp (List.takeWhile_prefix _)
    rw [Function.comp_apply, Nat.add_sub_cancel_left]
    exact hrun

end Words

end FlowGraph
