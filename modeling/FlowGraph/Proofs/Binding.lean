import FlowGraph.Proofs.Route

/-!
# What a run binds

The assignments that a run performs bind variables to words, in order. This file lists these
pairs and shows that they account for the final store: it is the initial one with the pairs
assigned, so that a variable which occurs in none of them keeps its binding, or stays unbound. A
store made from a list of pairs binds what the pairs say, if no variable stands in two of them.
-/

namespace FlowGraph

/-- The pairs that assignments bind, in order, up to the first assignment that fails. -/
def Assignment.bindings (s : Store) : List Assignment → List (Var × Word)
  | [] => []
  | a :: as =>
    match a.word s with
    | .ok w => (a.target, w) :: bindings (s.assign a.target w) as
    | .error _ => []

def Visit.bindings (x : Visit) : List (Var × Word) :=
  Assignment.bindings x.store x.block.assigns

/-- The variables that visits bind, each as often as it is bound. -/
def assigned (vs : List Visit) : List Var :=
  (vs.flatMap Visit.bindings).map Prod.fst

lemma execAll_store (s : Store) (as : List Assignment) :
    (Assignment.execAll s as).1 = s.assignAll (Assignment.bindings s as) := by
  induction as generalizing s with
  | nil => rfl
  | cons a as ih =>
    unfold Assignment.execAll Assignment.bindings
    cases hw : a.word s with
    | ok w => exact ih _
    | error f => rfl

lemma exec_store (P : Program) (b : Block) (s : Store) :
    (P.exec b s).store = s.assignAll (Assignment.bindings s b.assigns) := by
  rw [← execAll_store]
  unfold Program.exec
  rcases Assignment.execAll s b.assigns with ⟨t, _ | f⟩ <;> rfl

lemma exec_result (P : Program) (b : Block) (s : Store) :
    (P.exec b s).result =
      match (Assignment.execAll s b.assigns).2 with
      | none => P.follow (P.exec b s).store b.jump
      | some f => .error f := by
  unfold Program.exec
  rcases Assignment.execAll s b.assigns with ⟨t, _ | f⟩ <;> rfl

/-- A route leaves the store with all pairs assigned that its visits bind. -/
theorem Route.store_eq {P : Program} {m n : Machine} {vs : List Visit} (h : Route P m vs n) :
    n.store = m.store.assignAll (vs.flatMap Visit.bindings) := by
  induction h with
  | nil => rfl
  | @cons b s k vs n _ ih =>
    rw [ih, step_pending, exec_store, List.flatMap_cons, Store.assignAll_append]
    rfl

/-- A variable that no visit binds is bound at the end of a route as it was at the start. -/
theorem Route.get?_of_not_assigned {P : Program} {m n : Machine} {vs : List Visit}
    (h : Route P m vs n) {x : Var} (hx : x ∉ assigned vs) : n.store.get? x = m.store.get? x := by
  rw [h.store_eq, Store.get?_assignAll_of_not_mem hx]

section
variable {ps : List (Var × Word)} {x : Var} {w : Word}

lemma lookup_eq_some_iff_mem {α β : Type} [BEq α] [LawfulBEq α] {l : List (α × β)} {a : α}
    {b : β} (h : ∀ b c, (a, b) ∈ l → (a, c) ∈ l → b = c) : l.lookup a = some b ↔ (a, b) ∈ l := by
  have hmem : ∀ c, l.lookup a = some c → (a, c) ∈ l := by
    intro c hc
    obtain ⟨before, after, rfl, -⟩ := List.lookup_eq_some_iff.mp hc
    exact List.mem_append_right before List.mem_cons_self
  refine ⟨hmem b, ?_⟩
  intro hb
  cases hl : l.lookup a with
  | some c => rw [h c b (hmem c hl) hb]
  | none =>
    have hne := List.lookup_eq_none_iff.mp hl (a, b) hb
    simp at hne

lemma get?_ofList (ps : List (Var × Word)) (x : Var) :
    (Store.ofList ps).get? x = ps.reverse.lookup x := by
  rw [Store.ofList_eq_assignAll, Store.get?_assignAll, Store.get?_empty, Option.or_none]

/-- Pairs that do not contradict one another about a variable are its bindings. -/
lemma get?_ofList_iff (h : ∀ u u', (x, u) ∈ ps → (x, u') ∈ ps → u = u') :
    (Store.ofList ps).get? x = some w ↔ (x, w) ∈ ps := by
  have hrev : ∀ u u', (x, u) ∈ ps.reverse → (x, u') ∈ ps.reverse → u = u' := by
    simpa only [List.mem_reverse] using h
  rw [get?_ofList, lookup_eq_some_iff_mem hrev, List.mem_reverse]

lemma Store.size_assign_of_unbound {s : Store} (h : s.get? x = none) :
    (s.assign x w).size = s.size + 1 := by
  have hx : ¬ s.bindings.contains x = true := by
    rw [Std.ExtTreeMap.contains_eq_isSome_getElem?]
    simpa [Store.get?] using h
  rw [Store.size, Store.assign, Std.ExtTreeMap.size_insert, if_neg hx]
  rfl

lemma Store.size_assignAll {s : Store} (hps : (ps.map Prod.fst).Nodup)
    (hs : ∀ p ∈ ps, s.get? p.1 = none) : (s.assignAll ps).size = s.size + ps.length := by
  induction ps generalizing s with
  | nil => rfl
  | cons p ps ih =>
    obtain ⟨hp, hps⟩ := List.nodup_cons.mp hps
    have hrest : ∀ q ∈ ps, (s.assign p.1 p.2).get? q.1 = none := by
      intro q hq
      have hne : p.1 ≠ q.1 := fun e => hp (e ▸ List.mem_map_of_mem hq)
      rw [Store.get?_assign_of_ne s p.2 hne]
      exact hs q (List.mem_cons_of_mem p hq)
    rw [Store.assignAll_cons, ih hps hrest, size_assign_of_unbound (hs p List.mem_cons_self),
      List.length_cons]
    omega

lemma Store.size_ofList (hps : (ps.map Prod.fst).Nodup) : (Store.ofList ps).size = ps.length := by
  have hsize := Store.size_assignAll (s := .empty) hps fun p _ => Store.get?_empty p.1
  rw [Store.ofList_eq_assignAll, hsize]
  exact Nat.zero_add _

end

end FlowGraph
