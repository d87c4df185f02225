import FlowGraph.Proofs.Binding
import Mathlib.Data.Set.Card
import Mathlib.Logic.Function.Basic

/-!
# A store is a partial map

A store is made from a list of bindings and then changed by assignments. This file follows such a
history on a plain function from variables to optional words, and shows that the store cannot be
told from it: all observers answer as the function does, the size is the number of names that occur
in the history, and two stores are equal exactly where the functions are. So a store does not keep
in which order distinct variables were assigned.
-/

namespace FlowGraph

/-- The variables for which a partial map has a word. -/
def boundIn (m : Var → Option Word) : Set Var :=
  {x | m x ≠ none}

/-- A partial map after pairs are bound in order, a later pair overriding an earlier one. -/
def updateAll (m : Var → Option Word) (ps : List (Var × Word)) : Var → Option Word :=
  ps.foldl (fun m p => Function.update m p.1 (some p.2)) m

section
variable {m n : Var → Option Word}

lemma updateAll_cons (m : Var → Option Word) (p : Var × Word) (ps : List (Var × Word)) :
    updateAll m (p :: ps) = updateAll (Function.update m p.1 (some p.2)) ps := rfl

lemma boundIn_none : boundIn (fun _ => none) = ∅ := by
  ext x
  simp [boundIn]

lemma boundIn_update (m : Var → Option Word) (x : Var) (w : Word) :
    boundIn (Function.update m x (some w)) = insert x (boundIn m) := by
  ext y
  by_cases h : y = x
  · subst h
    simp [boundIn]
  · simp [boundIn, h]

lemma boundIn_updateAll (m : Var → Option Word) (ps : List (Var × Word)) :
    boundIn (updateAll m ps) = {x | x ∈ ps.map Prod.fst} ∪ boundIn m := by
  induction ps generalizing m with
  | nil => simp [updateAll]
  | cons p ps ih =>
    rw [updateAll_cons, ih, boundIn_update]
    ext x
    simp only [Set.mem_union, Set.mem_insert_iff, Set.mem_ofPred_eq, List.map_cons, List.mem_cons]
    tauto

/-- What is bound to a variable depends on the pairs for this variable alone. -/
lemma updateAll_filter {x : Var} (h : m x = n x) (ps : List (Var × Word)) :
    updateAll m ps x = updateAll n (ps.filter fun p => p.1 = x) x := by
  induction ps generalizing m n with
  | nil => exact h
  | cons p ps ih =>
    rw [updateAll_cons]
    by_cases hp : p.1 = x
    · rw [List.filter_cons_of_pos (by simpa using hp), updateAll_cons]
      apply ih
      rw [hp, Function.update_self, Function.update_self]
    · rw [List.filter_cons_of_neg (by simpa using hp)]
      apply ih
      rw [Function.update_of_ne (Ne.symm hp), h]

end

namespace Store

/-- The store holds what the partial map holds, for finitely many variables. -/
structure Represents (s : Store) (m : Var → Option Word) : Prop where
  get?_eq : ∀ x, s.get? x = m x
  finite : (boundIn m).Finite
  size_eq : s.size = (boundIn m).ncard

lemma size_assign_of_bound {s : Store} {x : Var} (h : s.get? x ≠ none) (w : Word) :
    (s.assign x w).size = s.size := by
  have hx : s.bindings.contains x = true := by
    rw [Std.ExtTreeMap.contains_eq_isSome_getElem?]
    exact Option.isSome_iff_ne_none.mpr h
  rw [size, assign, Std.ExtTreeMap.size_insert, if_pos hx]
  rfl

lemma isEmpty_iff_size_eq_zero {s : Store} : s.isEmpty = true ↔ s.size = 0 := by
  rw [isEmpty, size, Std.ExtTreeMap.isEmpty_eq_size_beq_zero, beq_iff_eq]

namespace Represents

variable {s t : Store} {m n : Var → Option Word}

lemma empty : Store.empty.Represents fun _ => none where
  get?_eq := get?_empty
  finite := by
    rw [boundIn_none]
    exact Set.finite_empty
  size_eq := by
    rw [boundIn_none, Set.ncard_empty]
    rfl

/-- An assignment changes the map at one variable. -/
theorem assign (h : s.Represents m) (x : Var) (w : Word) :
    (s.assign x w).Represents (Function.update m x (some w)) where
  get?_eq y := by
    rw [get?_assign, h.get?_eq, Function.update_apply]
    simp only [eq_comm]
  finite := by
    rw [boundIn_update]
    exact h.finite.insert x
  size_eq := by
    rw [boundIn_update]
    by_cases hx : x ∈ boundIn m
    · have hbound : s.get? x ≠ none := by rwa [h.get?_eq]
      rw [Set.insert_eq_of_mem hx, size_assign_of_bound hbound, h.size_eq]
    · have hfree : s.get? x = none := by
        rw [h.get?_eq]
        exact not_not.mp hx
      rw [Set.ncard_insert_of_notMem hx h.finite, size_assign_of_unbound hfree, h.size_eq]

theorem assignAll (h : s.Represents m) (ps : List (Var × Word)) :
    (s.assignAll ps).Represents (updateAll m ps) := by
  induction ps generalizing s m with
  | nil => exact h
  | cons p ps ih => exact ih (h.assign p.1 p.2)

lemma read_eq (h : s.Represents m) (x : Var) :
    s.read x = (m x).elim (.error (.unboundVariable x)) .ok := by
  rw [read, h.get?_eq]
  cases m x <;> rfl

/-- Stores are equal where the maps that they represent are. -/
lemma eq_iff (h : s.Represents m) (h' : t.Represents n) : s = t ↔ m = n := by
  constructor
  · rintro rfl
    funext x
    rw [← h.get?_eq, h'.get?_eq]
  · rintro rfl
    ext1 x
    rw [h.get?_eq, h'.get?_eq]

end Represents

end Store

/-- What a store goes through: the bindings that it is made from, and the assignments after that. -/
structure History where
  bindings : List (Var × Word)
  assigns : List (Var × Word)

namespace History

variable (h k : History)

def store : Store :=
  (Store.ofList h.bindings).assignAll h.assigns

/-- All pairs of a history, in order. -/
def pairs : List (Var × Word) :=
  h.bindings ++ h.assigns

/-- The partial map that the pairs of a history describe. -/
def reference : Var → Option Word :=
  updateAll (fun _ => none) h.pairs

/-- The names that a history binds, each once. -/
def names : Finset Var :=
  (h.pairs.map Prod.fst).toFinset

lemma represents : h.store.Represents h.reference := by
  have hstore : h.store = Store.empty.assignAll h.pairs := by
    rw [store, pairs, Store.ofList_eq_assignAll, Store.assignAll_append]
  rw [hstore]
  exact Store.Represents.empty.assignAll h.pairs

lemma size_store : h.store.size = h.names.card := by
  have hnames : boundIn h.reference = h.names := by
    rw [reference, boundIn_updateAll, boundIn_none, Set.union_empty, names, List.coe_toFinset]
  rw [h.represents.size_eq, hnames, Set.ncard_coe_finset]

variable {h k} in
/-- Histories that bind each variable to the same words in the same order describe the same map. -/
lemma reference_congr
    (hk : ∀ x, (h.pairs.filter fun p => p.1 = x) = k.pairs.filter fun p => p.1 = x) :
    h.reference = k.reference := by
  funext x
  rw [reference, updateAll_filter rfl, hk, ← updateAll_filter rfl, reference]

end History

/-- A store answers as the partial map that its history describes. Its size is the number of names
bound in the history, and it is empty if there are none. A store made from a list is the empty store
with the pairs of the list assigned one by one. Stores are equal where their maps are, hence also
where the histories differ only in the order in which distinct variables are assigned. -/
theorem store_represents_history (h : History) :
    (∀ x, h.store.get? x = h.reference x) ∧
    (∀ x, h.store.read x = (h.reference x).elim (.error (.unboundVariable x)) .ok) ∧
    h.store.size = h.names.card ∧ (h.store.isEmpty = true ↔ h.names = ∅) ∧
    Store.ofList h.pairs = h.pairs.foldl (fun s p => s.assign p.1 p.2) .empty ∧
    h.store = Store.ofList h.pairs ∧
    (∀ k : History, h.store = k.store ↔ h.reference = k.reference) ∧
    ∀ k : History, (∀ x, (h.pairs.filter fun p => p.1 = x) = k.pairs.filter fun p => p.1 = x) →
      h.store = k.store := by
  have heq : ∀ k : History, h.store = k.store ↔ h.reference = k.reference := fun k =>
    h.represents.eq_iff k.represents
  refine ⟨h.represents.get?_eq, h.represents.read_eq, h.size_store, ?_,
    Store.ofList_eq_assignAll h.pairs, ?_, heq, ?_⟩
  · rw [Store.isEmpty_iff_size_eq_zero, h.size_store, Finset.card_eq_zero]
  · rw [History.store, History.pairs, Store.ofList_eq_assignAll, Store.ofList_eq_assignAll,
      Store.assignAll_append]
  · intro k hk
    exact (heq k).mpr (History.reference_congr hk)

/-- A history with repeated names, and another one with the assignments of `x` and `y` in another
order: the stores have two variables and are equal, but differ from one without the last word of
`x`. -/
theorem store_history_reordered :
    let h : History := ⟨[("x", 1), ("y", 2), ("x", 3)], [("y", 4), ("x", -5)]⟩
    let k : History := ⟨[("y", 2), ("x", 1)], [("x", 3), ("x", -5), ("y", 4)]⟩
    let l : History := ⟨[("y", 2), ("x", 1)], [("x", 3), ("y", 4)]⟩
    (∀ x, (h.pairs.filter fun p => p.1 = x) = k.pairs.filter fun p => p.1 = x) ∧
      h.store = k.store ∧ h.store ≠ l.store ∧ h.store.size = 2 ∧ h.store.read "x" = .ok (-5) ∧
      h.store.read "z" = .error (.unboundVariable "z") := by
  intro h k l
  have hk : ∀ x, (h.pairs.filter fun p => p.1 = x) = k.pairs.filter fun p => p.1 = x := by
    intro x
    by_cases hx : x = "x"
    · subst hx
      rfl
    · by_cases hy : x = "y"
      · subst hy
        rfl
      · simp [h, k, History.pairs, Ne.symm hx, Ne.symm hy]
  obtain ⟨-, hread, hsize, -, -, -, heq, hsame⟩ := store_represents_history h
  refine ⟨hk, hsame k hk, ?_, ?_, ?_, ?_⟩
  · rw [ne_eq, heq l]
    intro hmaps
    have hx := congrFun hmaps "x"
    revert hx
    decide
  · rw [hsize]
    decide
  · rw [hread]
    decide
  · rw [hread]
    decide

end FlowGraph
