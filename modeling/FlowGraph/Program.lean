import FlowGraph.Block

/-!
# Programs

A program declares its input variables, in positional order, and lists its blocks, the first of
which is the entry. Inputs are distinct, block labels are distinct, and there is at least one
block; `Program.build` checks this and names the first defect. Look-up by label goes through an
index of positions, and `Program.block?_eq_find?` says that it finds what a scan of the list finds.
-/

namespace FlowGraph

/-- The first element of a list that stands earlier in the list, or already in `seen`. -/
def firstRepeatFrom? {α : Type} [DecidableEq α] (seen : List α) : List α → Option α
  | [] => none
  | a :: as => if a ∈ seen then some a else firstRepeatFrom? (a :: seen) as

/-- The first element of a list that stands earlier in the list. -/
def firstRepeat? {α : Type} [DecidableEq α] (as : List α) : Option α :=
  firstRepeatFrom? [] as

theorem firstRepeatFrom?_eq_none_iff {α : Type} [DecidableEq α] {seen as : List α} :
    firstRepeatFrom? seen as = none ↔ as.Nodup ∧ ∀ a ∈ as, a ∉ seen := by
  induction as generalizing seen with
  | nil => simp [firstRepeatFrom?]
  | cons a as ih =>
    by_cases h : a ∈ seen
    · simp [firstRepeatFrom?, h]
    · simp only [firstRepeatFrom?, h, if_false, ih, List.nodup_cons, List.mem_cons, not_or]
      constructor
      · rintro ⟨hn, hs⟩
        refine ⟨⟨fun ha => (hs a ha).1 rfl, hn⟩, ?_⟩
        rintro b (rfl | hb)
        · exact h
        · exact (hs b hb).2
      · rintro ⟨⟨ha, hn⟩, hs⟩
        exact ⟨hn, fun b hb => ⟨fun e => ha (e ▸ hb), hs b (Or.inr hb)⟩⟩

theorem firstRepeat?_eq_none_iff {α : Type} [DecidableEq α] {as : List α} :
    firstRepeat? as = none ↔ as.Nodup := by
  simp [firstRepeat?, firstRepeatFrom?_eq_none_iff]

/-- The positions of blocks by label. -/
abbrev Index := Std.TreeMap Label Nat

namespace Index

/-- Adds blocks that stand one after the other, the first of them at `position`. A label that is
there already keeps its position. -/
def addFrom (index : Index) (position : Nat) : List Block → Index
  | [] => index
  | b :: bs => addFrom (index.insertIfNew b.label position) (position + 1) bs

/-- The index of a list of blocks. -/
def ofBlocks (blocks : List Block) : Index :=
  addFrom ∅ 0 blocks

theorem getElem?_addFrom (index : Index) (position : Nat) (blocks : List Block) (l : Label) :
    (addFrom index position blocks)[l]? =
      index[l]?.or ((blocks.findIdx? fun b => b.label == l).map (· + position)) := by
  induction blocks generalizing index position with
  | nil => simp [addFrom]
  | cons b bs ih =>
    rw [addFrom, ih, List.findIdx?_cons, Std.TreeMap.getElem?_insertIfNew]
    by_cases h : b.label = l
    · subst h
      cases hi : index[b.label]? with
      | none => simp [Std.TreeMap.mem_iff_isSome_getElem?, hi]
      | some i => simp [Std.TreeMap.mem_iff_isSome_getElem?, hi]
    · simp [h, Function.comp_def, Nat.add_assoc, Nat.add_comm 1]

theorem getElem?_ofBlocks (blocks : List Block) (l : Label) :
    (ofBlocks blocks)[l]? = blocks.findIdx? fun b => b.label == l := by
  simp [ofBlocks, getElem?_addFrom]

end Index

/-- A program whose inputs and labels are distinct and which has an entry block. -/
structure Program where
  inputs : List Var
  blocks : List Block
  inputs_nodup : inputs.Nodup
  blocks_ne_nil : blocks ≠ []
  labels_nodup : (blocks.map Block.label).Nodup
  index : Index := Index.ofBlocks blocks
  index_eq : index = Index.ofBlocks blocks := by rfl

namespace Program

/-- The block where every run starts. -/
def entry (P : Program) : Block :=
  P.blocks.head P.blocks_ne_nil

def block? (P : Program) (l : Label) : Option Block :=
  P.index[l]?.bind fun position => P.blocks[position]?

@[ext] theorem ext {P Q : Program} (hi : P.inputs = Q.inputs) (hb : P.blocks = Q.blocks) :
    P = Q := by
  cases P
  cases Q
  simp_all

/-- The index finds what a scan of the blocks finds. -/
theorem block?_eq_find? (P : Program) (l : Label) :
    P.block? l = P.blocks.find? (fun b => b.label == l) := by
  rw [block?, P.index_eq, Index.getElem?_ofBlocks, List.find?_eq_bind_findIdx?_getElem?]

theorem block?_eq_some_iff {P : Program} {l : Label} {b : Block} :
    P.block? l = some b ↔ b ∈ P.blocks ∧ b.label = l := by
  rw [block?_eq_find?]
  have hn := P.labels_nodup
  generalize P.blocks = blocks at hn
  induction blocks with
  | nil => simp
  | cons a as ih =>
    rw [List.map_cons, List.nodup_cons] at hn
    by_cases h : a.label = l
    · rw [List.find?_cons_of_pos (by simpa using h)]
      constructor
      · rintro ⟨⟩
        exact ⟨List.mem_cons_self, h⟩
      · rintro ⟨hb, hl⟩
        rcases List.mem_cons.1 hb with rfl | hb
        · rfl
        · exact absurd (List.mem_map.2 ⟨b, hb, hl.trans h.symm⟩) hn.1
    · rw [List.find?_cons_of_neg (by simpa using h), List.mem_cons]
      refine (ih hn.2).trans ?_
      constructor
      · rintro ⟨hb, hl⟩
        exact ⟨Or.inr hb, hl⟩
      · rintro ⟨rfl | hb, hl⟩
        · exact absurd hl h
        · exact ⟨hb, hl⟩

theorem block?_eq_none_iff {P : Program} {l : Label} :
    P.block? l = none ↔ ∀ b ∈ P.blocks, b.label ≠ l := by
  simp [block?_eq_find?]

theorem entry_mem (P : Program) : P.entry ∈ P.blocks :=
  List.head_mem _

inductive Defect where
  | noBlocks
  | duplicateLabel (l : Label)
  | duplicateInput (x : Var)
deriving DecidableEq, Repr

namespace Defect

def message : Defect → String
  | noBlocks => "program has no blocks"
  | duplicateLabel l => "duplicate block label `" ++ l.render ++ "`"
  | duplicateInput x => "duplicate input variable `" ++ x.name ++ "`"

end Defect

/-- Builds a program. Repeated inputs are reported first, then the lack of blocks, then repeated
labels. -/
def build (inputs : List Var) (blocks : List Block) : Except Defect Program :=
  match hi : firstRepeat? inputs with
  | some x => .error (.duplicateInput x)
  | none =>
    if hb : blocks = [] then .error .noBlocks
    else
      match hl : firstRepeat? (blocks.map Block.label) with
      | some l => .error (.duplicateLabel l)
      | none =>
        .ok {
          inputs
          blocks
          inputs_nodup := firstRepeat?_eq_none_iff.1 hi
          blocks_ne_nil := hb
          labels_nodup := firstRepeat?_eq_none_iff.1 hl }

end Program

end FlowGraph
