import FlowGraph.Program
import Mathlib.Data.List.Nodup

/-!
# Building and indexing programs

What `Program.build` says about a description, put as one list of checks, and what look-up by label
says about the blocks of a program: it depends on which blocks there are and not on their order. The
main result tells which defect is reported for which description, and that the index of a program
that is built holds the position of every block under its label, and nothing else.
-/

namespace FlowGraph

section FirstRepeat
variable {α : Type}

/-- After elements without a repetition, the list goes on with one of them, namely `a`. -/
def IsFirstRepeat (as : List α) (a : α) : Prop :=
  ∃ before after, as = before ++ a :: after ∧ a ∈ before ∧ before.Nodup

variable [DecidableEq α]

/-- The search stops at the first element that stands before it or in `seen`. -/
lemma firstRepeatFrom?_eq_some_iff {seen as : List α} {a : α} :
    firstRepeatFrom? seen as = some a ↔ ∃ before after, as = before ++ a :: after ∧
      (a ∈ seen ∨ a ∈ before) ∧ before.Nodup ∧ ∀ b ∈ before, b ∉ seen := by
  induction as generalizing seen with
  | nil => simp [firstRepeatFrom?]
  | cons b as ih =>
    by_cases hb : b ∈ seen
    · rw [firstRepeatFrom?, if_pos hb]
      constructor
      · rintro ⟨⟩
        exact ⟨[], as, rfl, .inl hb, List.nodup_nil, List.forall_mem_nil _⟩
      · rintro ⟨before, after, he, -, -, hs⟩
        cases before with
        | nil =>
          cases he
          rfl
        | cons c before =>
          cases he
          exact absurd hb (hs b List.mem_cons_self)
    · -- an element that is passed over may stand in front of the rest or have been seen
      have hmove : ∀ before : List α,
          ((a ∈ b :: seen ∨ a ∈ before) ∧ before.Nodup ∧ ∀ c ∈ before, c ∉ b :: seen) ↔
            (a ∈ seen ∨ a ∈ b :: before) ∧ (b :: before).Nodup ∧ ∀ c ∈ b :: before, c ∉ seen := by
        grind
      rw [firstRepeatFrom?, if_neg hb, ih]
      constructor
      · rintro ⟨before, after, rfl, h⟩
        exact ⟨b :: before, after, rfl, (hmove before).mp h⟩
      · rintro ⟨before, after, he, h⟩
        cases before with
        | nil =>
          cases he
          exact absurd (h.1.resolve_right List.not_mem_nil) hb
        | cons c before =>
          cases he
          exact ⟨before, after, rfl, (hmove before).mpr h⟩

lemma firstRepeat?_eq_some_iff {as : List α} {a : α} :
    firstRepeat? as = some a ↔ IsFirstRepeat as a := by
  simp [firstRepeat?, firstRepeatFrom?_eq_some_iff, IsFirstRepeat]

lemma exists_isFirstRepeat_iff {as : List α} : (∃ a, IsFirstRepeat as a) ↔ ¬ as.Nodup := by
  simp only [← firstRepeat?_eq_some_iff, ← firstRepeat?_eq_none_iff]
  exact Option.ne_none_iff_exists'.symm

end FirstRepeat

namespace Program

/-- The first defect of a description: a repeated input, no blocks, or a repeated label. -/
def firstDefect? (inputs : List Var) (blocks : List Block) : Option Defect :=
  match firstRepeat? inputs with
  | some x => some (.duplicateInput x)
  | none =>
    if blocks = [] then some .noBlocks
    else (firstRepeat? (blocks.map Block.label)).map .duplicateLabel

section
variable {inputs : List Var} {blocks : List Block}

theorem build_eq_error_iff {d : Defect} :
    build inputs blocks = .error d ↔ firstDefect? inputs blocks = some d := by
  unfold build firstDefect?
  split
  · next x hx => simp [hx]
  · next hi =>
    simp only [hi]
    by_cases hb : blocks = []
    · simp [hb]
    · simp only [hb, dite_false, if_false]
      split
      · next l hl => simp [hl]
      · next hl => simp [hl]

lemma fields_of_build {P : Program} (h : build inputs blocks = .ok P) :
    P.inputs = inputs ∧ P.blocks = blocks := by
  unfold build at h
  split at h
  · cases h
  · split at h
    · cases h
    · split at h
      · cases h
      · cases h
        exact ⟨rfl, rfl⟩

lemma firstDefect?_eq_none_iff : firstDefect? inputs blocks = none ↔
    inputs.Nodup ∧ blocks ≠ [] ∧ (blocks.map Block.label).Nodup := by
  unfold firstDefect?
  rw [← firstRepeat?_eq_none_iff, ← firstRepeat?_eq_none_iff]
  cases firstRepeat? inputs with
  | some x => simp
  | none =>
    by_cases hb : blocks = []
    · simp [hb]
    · simp [hb]

theorem exists_build_iff : (∃ P, build inputs blocks = .ok P) ↔
    inputs.Nodup ∧ blocks ≠ [] ∧ (blocks.map Block.label).Nodup := by
  rw [← firstDefect?_eq_none_iff]
  cases h : build inputs blocks with
  | error d => simp [build_eq_error_iff.mp h]
  | ok P =>
    cases hd : firstDefect? inputs blocks with
    | none => simp
    | some d =>
      rw [build_eq_error_iff.mpr hd] at h
      cases h

/-- A program is built from its own inputs and blocks, and from no others. -/
theorem build_eq_ok_iff {P : Program} :
    build inputs blocks = .ok P ↔ P.inputs = inputs ∧ P.blocks = blocks := by
  refine ⟨fields_of_build, ?_⟩
  rintro ⟨rfl, rfl⟩
  obtain ⟨Q, hQ⟩ := exists_build_iff.mpr ⟨P.inputs_nodup, P.blocks_ne_nil, P.labels_nodup⟩
  obtain ⟨hi, hb⟩ := fields_of_build hQ
  rw [hQ, ext hi hb]

/-- What the defect that is reported says about a description. The inputs are checked first, then
whether there are blocks, then the labels. -/
def Defect.IsFirst (inputs : List Var) (blocks : List Block) : Defect → Prop
  | duplicateInput x => IsFirstRepeat inputs x
  | noBlocks => inputs.Nodup ∧ blocks = []
  | duplicateLabel l => inputs.Nodup ∧ IsFirstRepeat (blocks.map Block.label) l

lemma firstDefect?_eq_some_iff {d : Defect} :
    firstDefect? inputs blocks = some d ↔ d.IsFirst inputs blocks := by
  unfold firstDefect?
  cases hi : firstRepeat? inputs with
  | some x =>
    have hn : ¬ inputs.Nodup := by simp [← firstRepeat?_eq_none_iff, hi]
    cases d <;> simp [Defect.IsFirst, ← firstRepeat?_eq_some_iff, hi, hn]
  | none =>
    have hn : inputs.Nodup := firstRepeat?_eq_none_iff.mp hi
    by_cases hb : blocks = []
    · have hl : firstRepeat? ([] : List Label) = none := rfl
      cases d <;> simp [Defect.IsFirst, ← firstRepeat?_eq_some_iff, hi, hn, hb, hl]
    · cases d <;> simp [Defect.IsFirst, ← firstRepeat?_eq_some_iff, hi, hn, hb]

end

section
variable {P Q : Program}

lemma blocks_nodup (P : Program) : P.blocks.Nodup :=
  List.Nodup.of_map Block.label P.labels_nodup

lemma entry_of_blocks {b : Block} {bs : List Block} (h : P.blocks = b :: bs) : P.entry = b := by
  simp only [entry, h, List.head_cons]

/-- Programs that have the same blocks with a label find the same block under it. -/
lemma block?_congr {l : Label} (h : ∀ b : Block, b.label = l → (b ∈ Q.blocks ↔ b ∈ P.blocks)) :
    Q.block? l = P.block? l := by
  apply Option.ext
  intro b
  rw [block?_eq_some_iff, block?_eq_some_iff]
  constructor
  · rintro ⟨hb, hl⟩
    exact ⟨(h b hl).mp hb, hl⟩
  · rintro ⟨hb, hl⟩
    exact ⟨(h b hl).mpr hb, hl⟩

lemma block?_of_perm (h : Q.blocks.Perm P.blocks) (l : Label) : Q.block? l = P.block? l :=
  block?_congr fun _ _ => h.mem_iff

/-- Blocks that take the place of others under the same labels are found in their place. -/
lemma block?_of_map {f : Block → Block} (hf : ∀ b, (f b).label = b.label)
    (h : Q.blocks = P.blocks.map f) (l : Label) : Q.block? l = (P.block? l).map f := by
  have hcomp : (fun b : Block => b.label == l) ∘ f = fun b => b.label == l := by
    funext b
    simp only [Function.comp_apply, hf]
  rw [block?_eq_find?, block?_eq_find?, h, List.find?_map, hcomp]

lemma entry_of_map {f : Block → Block} (h : Q.blocks = P.blocks.map f) : Q.entry = f P.entry := by
  simp only [entry, h, List.head_map]

lemma index_eq_some_iff {l : Label} {i : Nat} :
    P.index[l]? = some i ↔ ∃ b, P.blocks[i]? = some b ∧ b.label = l := by
  rw [P.index_eq, Index.getElem?_ofBlocks, List.findIdx?_eq_some_iff_getElem]
  constructor
  · rintro ⟨hi, hl, -⟩
    exact ⟨P.blocks[i], List.getElem?_eq_getElem hi, by simpa using hl⟩
  · rintro ⟨b, hb, rfl⟩
    obtain ⟨hi, rfl⟩ := List.getElem?_eq_some_iff.mp hb
    refine ⟨hi, by simp, ?_⟩
    intro j hj hl
    have hne := List.pairwise_iff_getElem.mp (List.pairwise_map.mp P.labels_nodup) j i (by omega) hi hj
    exact hne (by simpa using hl)

/-- In the index every block stands at its position under its label, and nothing else does. Look-up
finds the one block that has a label, and the entry is the first block. -/
structure Indexed (P : Program) : Prop where
  in_range : ∀ (l : Label) (i : Nat), P.index[l]? = some i → i < P.blocks.length
  position_iff : ∀ (l : Label) (i : Nat),
    P.index[l]? = some i ↔ ∃ b, P.blocks[i]? = some b ∧ b.label = l
  block?_iff : ∀ l b, P.block? l = some b ↔ b ∈ P.blocks ∧ b.label = l
  unique : ∀ b ∈ P.blocks, ∀ c ∈ P.blocks, b.label = c.label → b = c
  entry_first : P.blocks[0]? = some P.entry
  block?_entry : P.block? P.entry.label = some P.entry

lemma indexed (P : Program) : P.Indexed where
  in_range l i h := by
    obtain ⟨b, hb, -⟩ := index_eq_some_iff.mp h
    exact (List.getElem?_eq_some_iff.mp hb).1
  position_iff l i := index_eq_some_iff
  block?_iff l b := block?_eq_some_iff
  unique b hb c hc h := by
    have hfound : P.block? c.label = some c := block?_eq_some_iff.mpr ⟨hc, rfl⟩
    rw [block?_eq_some_iff.mpr ⟨hb, h⟩] at hfound
    exact Option.some.inj hfound
  entry_first := by
    rw [← List.head?_eq_getElem?]
    exact List.head?_eq_some_head P.blocks_ne_nil
  block?_entry := block?_eq_some_iff.mpr ⟨P.entry_mem, rfl⟩

end

/-- Building a program fails with the defect that is found first and otherwise succeeds. A program
that is built has the inputs and blocks of its description, and its index is as it should be. -/
theorem build_exact (inputs : List Var) (blocks : List Block) :
    (∀ d, build inputs blocks = .error d ↔ d.IsFirst inputs blocks) ∧
      ((∃ x, build inputs blocks = .error (.duplicateInput x)) ↔ ¬ inputs.Nodup) ∧
      ((∃ l, build inputs blocks = .error (.duplicateLabel l)) ↔
        inputs.Nodup ∧ ¬ (blocks.map Block.label).Nodup) ∧
      ((∃ P, build inputs blocks = .ok P) ↔
        inputs.Nodup ∧ blocks ≠ [] ∧ (blocks.map Block.label).Nodup) ∧
      ∀ P, build inputs blocks = .ok P →
        P.inputs = inputs ∧ P.blocks = blocks ∧ P.Indexed := by
  have herror : ∀ d, build inputs blocks = .error d ↔ d.IsFirst inputs blocks := by
    intro d
    rw [build_eq_error_iff, firstDefect?_eq_some_iff]
  refine ⟨herror, ?_, ?_, exists_build_iff, ?_⟩
  · simp only [herror, Defect.IsFirst]
    exact exists_isFirstRepeat_iff
  · simp only [herror, Defect.IsFirst, exists_and_left]
    rw [exists_isFirstRepeat_iff]
  · intro P hP
    obtain ⟨hi, hb⟩ := fields_of_build hP
    exact ⟨hi, hb, P.indexed⟩

/-- A numeral and the same text are two labels. Listed twice, the first of the blocks is the first
one whose label repeats, unless an input repeats. -/
theorem build_numeral_labels :
    let blocks : List Block := [⟨.num 1, [], .ret (.const 1)⟩, ⟨.text "1", [], .ret (.const 2)⟩]
    build ["x", "y", "y", "x"] (blocks ++ blocks) = .error (.duplicateInput "y") ∧
      build ["x", "y"] (blocks ++ blocks) = .error (.duplicateLabel (.num 1)) ∧
      ∃ P, build ["x", "y"] blocks = .ok P ∧ P.blocks = blocks ∧ P.Indexed ∧
        P.index[Label.text "1"]? = some 1 ∧ P.block? (.num 1) = blocks.head? := by
  intro blocks
  refine ⟨rfl, ?_, ?_⟩
  · have hrepeat : IsFirstRepeat ((blocks ++ blocks).map Block.label) (.num 1) :=
      ⟨[.num 1, .text "1"], [.text "1"], rfl, by simp, by decide⟩
    exact ((build_exact ["x", "y"] (blocks ++ blocks)).1 _).mpr ⟨by decide, hrepeat⟩
  · obtain ⟨P, hP⟩ := (build_exact ["x", "y"] blocks).2.2.2.1.mpr
      ⟨by decide, List.cons_ne_nil _ _, by decide⟩
    obtain ⟨-, hblocks, hindexed⟩ := (build_exact ["x", "y"] blocks).2.2.2.2 P hP
    refine ⟨P, hP, hblocks, hindexed, ?_, ?_⟩
    · exact (hindexed.position_iff _ _).mpr ⟨_, by rw [hblocks]; rfl, rfl⟩
    · exact (hindexed.block?_iff _ _).mpr ⟨by rw [hblocks]; exact List.mem_cons_self, rfl⟩

end Program

end FlowGraph
