import FlowGraph.Fault
import Std.Data.ExtTreeMap

/-!
# Stores

A store binds finitely many variables to words. It is a partial map and nothing more: two stores
with the same bindings are equal, however they came about, and the bindings are listed in the
order of the variables.
-/

namespace FlowGraph

/-- The bindings of a run, at most one word for each variable. -/
structure Store where
  bindings : Std.ExtTreeMap Var Word
deriving DecidableEq

namespace Store

def empty : Store := ⟨∅⟩

instance : EmptyCollection Store := ⟨empty⟩

instance : Inhabited Store := ⟨empty⟩

def get? (s : Store) (x : Var) : Option Word :=
  s.bindings[x]?

/-- The word bound to a variable; reading an unbound variable is a fault. -/
def read (s : Store) (x : Var) : Except Fault Word :=
  match s.get? x with
  | some w => .ok w
  | none => .error (.unboundVariable x)

/-- Binds a variable, replacing the word it was bound to. -/
def assign (s : Store) (x : Var) (w : Word) : Store :=
  ⟨s.bindings.insert x w⟩

def assignAll (s : Store) (pairs : List (Var × Word)) : Store :=
  pairs.foldl (fun s p => s.assign p.1 p.2) s

/-- The store with the bindings of a list, a later pair winning over an earlier one. -/
def ofList (pairs : List (Var × Word)) : Store :=
  ⟨Std.ExtTreeMap.ofList pairs⟩

def size (s : Store) : Nat :=
  s.bindings.size

def isEmpty (s : Store) : Bool :=
  s.bindings.isEmpty

/-- The bindings in increasing order of the variables. -/
def toList (s : Store) : List (Var × Word) :=
  s.bindings.toList

/-- A store is determined by what it binds. -/
@[ext] theorem ext {s t : Store} (h : ∀ x, s.get? x = t.get? x) : s = t := by
  cases s
  cases t
  exact congrArg mk (Std.ExtTreeMap.ext_getElem? h)

@[simp] theorem get?_empty (x : Var) : empty.get? x = none := by
  simp [get?, empty]

theorem get?_assign (s : Store) (x y : Var) (w : Word) :
    (s.assign x w).get? y = if x = y then some w else s.get? y := by
  simp [get?, assign, Std.ExtTreeMap.getElem?_insert]

@[simp] theorem get?_assign_self (s : Store) (x : Var) (w : Word) :
    (s.assign x w).get? x = some w := by
  simp [get?_assign]

theorem get?_assign_of_ne (s : Store) {x y : Var} (w : Word) (h : x ≠ y) :
    (s.assign x w).get? y = s.get? y := by
  simp [get?_assign, h]

@[simp] theorem read_eq_ok_iff {s : Store} {x : Var} {w : Word} :
    s.read x = .ok w ↔ s.get? x = some w := by
  cases h : s.get? x <;> simp [read, h]

@[simp] theorem read_eq_error_iff {s : Store} {x : Var} {f : Fault} :
    s.read x = .error f ↔ s.get? x = none ∧ f = .unboundVariable x := by
  cases h : s.get? x <;> simp [read, h, eq_comm]

@[simp] theorem assignAll_nil (s : Store) : s.assignAll [] = s := rfl

@[simp] theorem assignAll_cons (s : Store) (p : Var × Word) (ps : List (Var × Word)) :
    s.assignAll (p :: ps) = (s.assign p.1 p.2).assignAll ps := rfl

theorem assignAll_append (s : Store) (ps qs : List (Var × Word)) :
    s.assignAll (ps ++ qs) = (s.assignAll ps).assignAll qs := by
  simp [assignAll, List.foldl_append]

theorem get?_assignAll (s : Store) (ps : List (Var × Word)) (x : Var) :
    (s.assignAll ps).get? x = (ps.reverse.lookup x).or (s.get? x) := by
  induction ps generalizing s with
  | nil => rfl
  | cons p ps ih =>
    rw [assignAll_cons, ih, List.reverse_cons, List.lookup_append, Option.or_assoc, get?_assign]
    obtain ⟨y, w⟩ := p
    by_cases h : y = x
    · subst h
      simp
    · simp [h, List.lookup_cons, beq_false_of_ne (Ne.symm h)]

theorem get?_assignAll_of_not_mem {s : Store} {x : Var} {ps : List (Var × Word)}
    (h : x ∉ ps.map Prod.fst) : (s.assignAll ps).get? x = s.get? x := by
  have hl : ps.reverse.lookup x = none := by
    apply List.lookup_eq_none_iff.mpr
    intro p hp
    have hne : p.1 ≠ x := by
      rintro rfl
      exact h (List.mem_map_of_mem (List.mem_reverse.mp hp))
    simpa using Ne.symm hne
  rw [get?_assignAll, hl, Option.none_or]

/-- After the same assignments, stores agree on what is assigned. -/
theorem get?_assignAll_of_mem {s t : Store} {x : Var} {ps : List (Var × Word)}
    (h : x ∈ ps.map Prod.fst) : (s.assignAll ps).get? x = (t.assignAll ps).get? x := by
  obtain ⟨p, hp, rfl⟩ := List.mem_map.mp h
  have hl : ps.reverse.lookup p.1 ≠ none := by
    intro hn
    have hne := List.lookup_eq_none_iff.mp hn p (List.mem_reverse.mpr hp)
    simp at hne
  obtain ⟨w, hw⟩ := Option.ne_none_iff_exists'.mp hl
  rw [get?_assignAll, get?_assignAll, hw, Option.some_or, Option.some_or]

/-- A list of bindings is collected one after the other. -/
theorem ofList_eq_assignAll (pairs : List (Var × Word)) : ofList pairs = empty.assignAll pairs := by
  have hmany : ∀ m : Std.ExtTreeMap Var Word,
      (⟨m.insertMany pairs⟩ : Store) = assignAll ⟨m⟩ pairs := by
    induction pairs with
    | nil =>
      intro m
      rw [Std.ExtTreeMap.insertMany_nil]
      rfl
    | cons p pairs ih =>
      intro m
      rw [Std.ExtTreeMap.insertMany_cons, ih]
      rfl
  rw [ofList, Std.ExtTreeMap.ofList_eq_insertMany_empty]
  exact hmany ∅

theorem mem_toList_iff {s : Store} {x : Var} {w : Word} :
    (x, w) ∈ s.toList ↔ s.get? x = some w := by
  simp [toList, get?, Std.ExtTreeMap.mem_toList_iff_getElem?_eq_some]

end Store

end FlowGraph
