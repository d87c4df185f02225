import FlowGraph.Proofs.Construction
import FlowGraph.Proofs.Lockstep
import FlowGraph.Proofs.Simulation

/-!
# Independent assignments commute

Two neighbouring assignments of a block can change places if neither binds what the other binds or
reads. A run goes on as before, unless one of the two fails: then one of the two fails after the
exchange as well, in the same visit to the block, but which one and with what fault may differ.
-/

namespace FlowGraph

/-- Two assignments that stand next to each other in a block. -/
structure Adjacent where
  label : Label
  before : List Assignment
  first : Assignment
  second : Assignment
  after : List Assignment
  jump : Jump

namespace Adjacent

variable (c : Adjacent)

def block : Block :=
  ⟨c.label, c.before ++ c.first :: c.second :: c.after, c.jump⟩

def swap : Adjacent :=
  { c with first := c.second, second := c.first }

/-- Neither assignment binds what the other one binds or reads. -/
structure Independent : Prop where
  target_ne : c.first.target ≠ c.second.target
  first_notMem : c.first.target ∉ c.second.value.vars
  second_notMem : c.second.target ∉ c.first.value.vars

/-- Whether the statement at `i` in the block `b` is one of the two. -/
def Holds (b : Block) (i : Nat) : Prop :=
  b = c.block ∧ (i = c.before.length ∨ i = c.before.length + 1)

/-- From the store `s`, the assignments before the two lead to a store where one of them fails. -/
def Blocked (s : Store) : Prop :=
  ∃ t, Performed s c.before t ∧
    ((∃ f, c.first.word t = .error f) ∨ ∃ f, c.second.word t = .error f)

def redirect (b : Block) : Block :=
  if b = c.block then c.swap.block else b

variable {c}

lemma Independent.swap (h : c.Independent) : c.swap.Independent :=
  ⟨h.target_ne.symm, h.second_notMem, h.first_notMem⟩

lemma blocked_swap_iff {s : Store} : c.swap.Blocked s ↔ c.Blocked s := by
  unfold Blocked
  simp only [swap, or_comm]

lemma redirect_block : c.redirect c.block = c.swap.block :=
  if_pos rfl

lemma redirect_of_ne {b : Block} (hb : b ≠ c.block) : c.redirect b = b :=
  if_neg hb

lemma label_redirect (b : Block) : (c.redirect b).label = b.label := by
  by_cases hb : b = c.block
  · rw [hb, redirect_block]
    rfl
  · rw [redirect_of_ne hb]

end Adjacent

section
variable {s : Store} {x y : Var} {v w : Word}

lemma Store.assign_comm (h : x ≠ y) :
    (s.assign x v).assign y w = (s.assign y w).assign x v := by
  ext z : 1
  rw [get?_assign, get?_assign, get?_assign, get?_assign]
  by_cases hx : x = z
  · have hy : y ≠ z := fun hy => h (hx.trans hy.symm)
    simp only [if_pos hx, if_neg hy]
  · simp only [if_neg hx]

lemma Assignment.word_assign {a : Assignment} (h : x ∉ a.value.vars) :
    a.word (s.assign x w) = a.word s := by
  have heval : a.value.eval (s.assign x w) = a.value.eval s := by
    apply Expr.eval_congr
    intro y hy
    have hxy : x ≠ y := fun e => h (e ▸ hy)
    rw [Store.get?_assign_of_ne s w hxy]
  rw [word, word, heval]

end

namespace Adjacent

variable {c : Adjacent} {P : Program} {s t : Store}

lemma failsAt_first_iff {f : Fault} :
    c.block.FailsAt P s t c.before.length f ↔
      Performed s c.before t ∧ c.first.word t = .error f := by
  have ha : c.block.assigns[c.before.length]? = some c.first := by simp [block]
  have htake : c.block.assigns.take c.before.length = c.before := List.take_left
  rw [failsAt_iff_of_getElem? ha, htake]

lemma failsAt_second_iff {f : Fault} :
    c.block.FailsAt P s t (c.before.length + 1) f ↔
      Performed s (c.before ++ [c.first]) t ∧ c.second.word t = .error f := by
  have ha : c.block.assigns[c.before.length + 1]? = some c.second := by simp [block]
  have hassigns : c.block.assigns = (c.before ++ [c.first]) ++ c.second :: c.after := by
    simp [block]
  have htake : c.block.assigns.take (c.before.length + 1) = c.before ++ [c.first] := by
    rw [hassigns, List.take_left' (by simp)]
  rw [failsAt_iff_of_getElem? ha, htake]

/-- The second assignment is reached where the first one succeeds, and finds the store as it was
before the first one, as far as it reads it. -/
lemma Independent.reaches_second_iff (h : c.Independent) {f : Fault} :
    (∃ t, Performed s (c.before ++ [c.first]) t ∧ c.second.word t = .error f) ↔
      ∃ t w, Performed s c.before t ∧ c.first.word t = .ok w ∧ c.second.word t = .error f := by
  constructor
  · rintro ⟨t, ht, hf⟩
    obtain ⟨u, hu, hfirst⟩ := performed_append_iff.mp ht
    obtain ⟨w, hw, hnil⟩ := performed_cons_iff.mp hfirst
    cases hnil
    rw [Assignment.word_assign h.first_notMem] at hf
    exact ⟨u, w, hu, hw, hf⟩
  · rintro ⟨t, w, ht, hw, hf⟩
    refine ⟨t.assign c.first.target w, ?_, ?_⟩
    · exact performed_append_iff.mpr ⟨t, ht, performed_cons_iff.mpr ⟨w, hw, .nil _⟩⟩
    · rw [Assignment.word_assign h.first_notMem, hf]

lemma Independent.blocked_iff (h : c.Independent) :
    c.Blocked s ↔ ∃ t i f, c.block.FailsAt P s t i f ∧ c.Holds c.block i := by
  constructor
  · rintro ⟨t, ht, hfail⟩
    cases hw : c.first.word t with
    | error f => exact ⟨t, _, f, failsAt_first_iff.mpr ⟨ht, hw⟩, rfl, .inl rfl⟩
    | ok w =>
      have hsecond : ∃ f, c.second.word t = .error f := by
        refine hfail.resolve_left ?_
        rintro ⟨f, hf⟩
        rw [hw] at hf
        cases hf
      obtain ⟨f, hf⟩ := hsecond
      obtain ⟨u, hu, hf⟩ := h.reaches_second_iff.mpr ⟨t, w, ht, hw, hf⟩
      exact ⟨u, _, f, failsAt_second_iff.mpr ⟨hu, hf⟩, rfl, .inr rfl⟩
  · rintro ⟨t, i, f, hf, -, rfl | rfl⟩
    · obtain ⟨ht, hf⟩ := failsAt_first_iff.mp hf
      exact ⟨t, ht, .inl ⟨f, hf⟩⟩
    · obtain ⟨u, w, hu, -, hf⟩ := h.reaches_second_iff.mp ⟨t, failsAt_second_iff.mp hf⟩
      exact ⟨u, hu, .inr ⟨f, hf⟩⟩

lemma Independent.execAll_swap (h : c.Independent) {v w : Word} (hv : c.first.word t = .ok v)
    (hw : c.second.word t = .ok w) (as : List Assignment) :
    Assignment.execAll t (c.second :: c.first :: as) =
      Assignment.execAll t (c.first :: c.second :: as) := by
  have hv' : c.first.word (t.assign c.second.target w) = .ok v := by
    rw [Assignment.word_assign h.second_notMem, hv]
  have hw' : c.second.word (t.assign c.first.target v) = .ok w := by
    rw [Assignment.word_assign h.first_notMem, hw]
  simp only [Assignment.execAll, hv, hw, hv', hw', Store.assign_comm h.target_ne]

lemma Independent.exec_swap (h : c.Independent) (hs : ¬ c.Blocked s) :
    P.exec c.swap.block s = P.exec c.block s := by
  have hswap : c.swap.block.assigns = c.before ++ c.second :: c.first :: c.after := rfl
  have hblock : c.block.assigns = c.before ++ c.first :: c.second :: c.after := rfl
  have hall : Assignment.execAll s c.swap.block.assigns =
      Assignment.execAll s c.block.assigns := by
    rw [hswap, hblock, execAll_append, execAll_append]
    rcases hb : Assignment.execAll s c.before with ⟨t, _ | f⟩
    · have ht : Performed s c.before t := execAll_eq_none_iff.mp hb
      cases hv : c.first.word t with
      | error f => exact absurd ⟨t, ht, .inl ⟨f, hv⟩⟩ hs
      | ok v =>
        cases hw : c.second.word t with
        | error f => exact absurd ⟨t, ht, .inr ⟨f, hw⟩⟩ hs
        | ok w => exact h.execAll_swap hv hw c.after
    · rfl
  unfold Program.exec
  rw [hall]
  rfl

/-- Blocked or not is all that matters: a block that is blocked fails, and so does the exchanged
one. -/
lemma Independent.exec_of_blocked (h : c.Independent) (hs : c.Blocked s) :
    ∃ t i f, c.block.FailsAt P s t i f ∧ c.Holds c.block i ∧ P.exec c.block s = ⟨t, .error f⟩ := by
  obtain ⟨t, i, f, hf, hi⟩ := (h.blocked_iff (P := P)).mp hs
  exact ⟨t, i, f, hf, hi, exec_eq_error_iff.mpr ⟨i, hf⟩⟩

variable {Q : Program}

/-- Unless the block of the two assignments is blocked, whatever stands in place of a block goes on
in the second program as the block does in the first. -/
lemma Independent.exec_redirect (h : c.Independent) (hQ : Q.blocks = P.blocks.map c.redirect)
    {b : Block} (hb : ¬ (b = c.block ∧ c.Blocked s)) :
    Q.exec (c.redirect b) s =
      ⟨(P.exec b s).store, (P.exec b s).result.map (Transfer.map c.redirect)⟩ := by
  have hsame : Q.exec (c.redirect b) s = Q.exec b s := by
    by_cases he : b = c.block
    · rw [he, redirect_block]
      exact h.exec_swap fun hs => hb ⟨he, hs⟩
    · rw [redirect_of_ne he]
  rw [hsame]
  exact exec_map (fun l _ => Program.block?_of_map label_redirect hQ l) s

/-- After the exchange a machine is where it was, in the block that stands in place of its block,
unless both have failed. -/
def Exchanged (c : Adjacent) (m m' : Machine) : Prop :=
  m'.blocks = m.blocks ∧
    (m'.store = m.store ∧ m'.phase = m.phase.map c.redirect id ∨
      (∃ f, m.phase = .failed f) ∧ ∃ g, m'.phase = .failed g)

lemma Exchanged.eq_of_pending {b : Block} {k : Nat} {m : Machine}
    (h : c.Exchanged ⟨s, .pending b, k⟩ m) : m = ⟨s, .pending (c.redirect b), k⟩ := by
  obtain ⟨hk, ⟨hs, hp⟩ | ⟨⟨f, hf⟩, -⟩⟩ := h
  · cases m
    cases hk
    cases hs
    cases hp
    rfl
  · cases hf

lemma Independent.exchanged_step (h : c.Independent) (hQ : Q.blocks = P.blocks.map c.redirect)
    (b : Block) (s : Store) (k : Nat) :
    c.Exchanged (Machine.step P ⟨s, .pending b, k⟩)
      (Machine.step Q ⟨s, .pending (c.redirect b), k⟩) := by
  refine ⟨rfl, ?_⟩
  by_cases hb : b = c.block ∧ c.Blocked s
  · obtain ⟨rfl, hs⟩ := hb
    obtain ⟨t, i, f, -, -, hP⟩ := h.exec_of_blocked (P := P) hs
    obtain ⟨u, j, g, -, -, hQ⟩ := h.swap.exec_of_blocked (P := Q) (blocked_swap_iff.mpr hs)
    right
    rw [redirect_block, step_eq_of_exec hP, step_eq_of_exec hQ]
    exact ⟨⟨f, rfl⟩, g, rfl⟩
  · left
    rw [step_eq_of_exec (h.exec_redirect hQ hb), after_transfer_map]
    exact ⟨rfl, rfl⟩

theorem Independent.simulates (h : c.Independent) (hQ : Q.blocks = P.blocks.map c.redirect) :
    Simulates P Q c.Exchanged fun x => [⟨c.redirect x.block, x.store⟩] where
  step := by
    intro s b k m hm
    rw [hm.eq_of_pending]
    exact ⟨_, .single Q s (c.redirect b) k, h.exchanged_step hQ b s k⟩
  answer_ne_nil := by simp
  stopped := by
    rintro m n o ⟨-, ⟨-, hp⟩ | ⟨-, g, hg⟩⟩ ho
    · exact ⟨_, by rw [hp, Phase.outcome?_map, ho]; rfl⟩
    · exact ⟨.error g, by rw [hg]; rfl⟩

lemma exchanged_start (hQ : Q.blocks = P.blocks.map c.redirect) (s : Store) :
    c.Exchanged (.start P s) (.start Q s) :=
  ⟨rfl, .inl ⟨rfl, congrArg Phase.pending (Program.entry_of_map hQ)⟩⟩

section
variable {front back : List Block} (hP : P.blocks = front ++ c.block :: back)
include hP

lemma map_redirect : P.blocks.map c.redirect = front ++ c.swap.block :: back := by
  have hnodup := P.blocks_nodup
  rw [hP, List.nodup_middle, List.nodup_cons, List.mem_append, not_or] at hnodup
  obtain ⟨⟨hfront, hback⟩, -⟩ := hnodup
  have hkeep : ∀ bs : List Block, c.block ∉ bs → bs.map c.redirect = bs := by
    intro bs hbs
    have hmap : bs.map c.redirect = bs.map id :=
      List.map_congr_left fun b hb => redirect_of_ne fun e => hbs (e ▸ hb)
    rw [hmap, List.map_id]
  rw [hP, List.map_append, List.map_cons, hkeep front hfront, hkeep back hback, redirect_block]

lemma exists_build_swap :
    ∃ Q, Program.build P.inputs (front ++ c.swap.block :: back) = .ok Q := by
  have hlabels : (front ++ c.swap.block :: back).map Block.label = P.blocks.map Block.label := by
    simp [hP, block, swap]
  refine Program.exists_build_iff.mpr ⟨P.inputs_nodup, by simp, ?_⟩
  rw [hlabels]
  exact P.labels_nodup

end

end Adjacent

/-- The run `r` from the store `s` fails with `f`, at the statement `i` of its last visit `x`, which
comes after `n` others. -/
structure Run.FailsIn (P : Program) (s : Store) (r : Run) (n : Nat) (x : Visit) (i : Nat)
    (f : Fault) : Prop where
  route : ∃ vs, vs.length = n ∧ Route P (.start P s) (vs ++ [x]) r.machine
  outcome : r.outcome = .error f
  failsAt : x.block.FailsAt P x.store r.machine.store i f

section
variable {P Q : Program} {c : Adjacent} {s : Store} {v : Verbosity} {fuel fuel' : Nat} {r r' : Run}

/-- The last visits of two runs, one of them with the assignments exchanged, are to the same store
and to the block and the one in its place. -/
lemma exists_last_visits (h : c.Independent) (hQ : Q.blocks = P.blocks.map c.redirect)
    (hr : P.run v fuel s = some r) (hr' : Q.run v fuel' s = some r') :
    ∃ vs ws b t, vs.length = ws.length ∧ Route P (.start P s) (vs ++ [⟨b, t⟩]) r.machine ∧
      Route Q (.start Q s) (ws ++ [⟨c.redirect b, t⟩]) r'.machine ∧
      r.machine = Machine.step P ⟨t, .pending b, vs.length⟩ ∧
      r'.machine = Machine.step Q ⟨t, .pending (c.redirect b), vs.length⟩ := by
  obtain ⟨vs, b, t, hv, hlast, hm, ho⟩ := Program.run_exists_last hr
  obtain ⟨n, hw, hn⟩ := (h.simulates hQ).route hv (Adjacent.exchanged_start hQ s)
  rw [hn.eq_of_pending] at hw
  have hw' := hw.append (.single Q t (c.redirect b) vs.length)
  obtain ⟨o, ho⟩ := (h.simulates hQ).stopped (h.exchanged_step hQ b t vs.length) ho
  obtain ⟨us, hu, -, ho', -⟩ := Program.run_eq_some_iff.mp hr'
  obtain ⟨-, hm'⟩ := hw'.unique ho hu ho'
  rw [hm'] at hw'
  exact ⟨vs, _, b, t, by simp, hlast, hw', hm, hm'.symm⟩

/-- Two runs, one of them with the assignments exchanged, end alike, or their last visits are to the
block of the two, which is blocked. -/
lemma same_or_blocked (h : c.Independent) (hQ : Q.blocks = P.blocks.map c.redirect)
    (hr : P.run v fuel s = some r) (hr' : Q.run v fuel' s = some r') {b : Block} {t : Store}
    {k : Nat} (hm : r.machine = Machine.step P ⟨t, .pending b, k⟩)
    (hm' : r'.machine = Machine.step Q ⟨t, .pending (c.redirect b), k⟩) :
    (r'.outcome = r.outcome ∧ r'.machine.store = r.machine.store) ∨
      b = c.block ∧ c.Blocked t := by
  by_cases hb : b = c.block ∧ c.Blocked t
  · exact .inr hb
  · left
    have ho := Program.outcome?_of_run hr
    have ho' := Program.outcome?_of_run hr'
    rw [step_eq_of_exec (h.exec_redirect hQ hb), after_transfer_map] at hm'
    rw [hm, step_pending] at ho
    rw [hm', Phase.outcome?_map, ho] at ho'
    refine ⟨?_, by rw [hm', hm, step_pending]⟩
    rw [← Option.some.inj ho']
    cases r.outcome <;> rfl

/-- What the exchange leaves of a run: its result, and its failures anywhere else. -/
lemma run_of_not_held (h : c.Independent) (hQ : Q.blocks = P.blocks.map c.redirect)
    (hr : P.run v fuel s = some r) (hr' : Q.run v fuel' s = some r')
    (hnot : ∀ n x i f, r.FailsIn P s n x i f → ¬ c.Holds x.block i) :
    r'.outcome = r.outcome ∧ r'.machine.store = r.machine.store := by
  obtain ⟨vs, ws, b, t, -, hv, -, hm, hm'⟩ := exists_last_visits h hQ hr hr'
  refine (same_or_blocked h hQ hr hr' hm hm').resolve_right ?_
  rintro ⟨rfl, hs⟩
  obtain ⟨u, i, f, hf, hi, hexec⟩ := h.exec_of_blocked (P := P) hs
  rw [step_eq_of_exec hexec] at hm
  have ho := Program.outcome?_of_run hr
  rw [hm] at ho
  refine hnot vs.length ⟨c.block, t⟩ i f ⟨⟨vs, rfl, hv⟩, (Option.some.inj ho).symm, ?_⟩ hi
  rw [hm]
  exact hf

lemma Run.exists_failsIn (hr : P.run v fuel s = some r) {f : Fault} (ho : r.outcome = .error f) :
    ∃ n x i, r.FailsIn P s n x i f := by
  obtain ⟨vs, b, t, -, hv, hm, hend⟩ := Program.run_exists_last hr
  rw [ho, outcome?_after_eq_error_iff] at hend
  obtain ⟨i, hi⟩ := exists_failsAt hend
  refine ⟨vs.length, ⟨b, t⟩, i, ⟨vs, rfl, hv⟩, ho, ?_⟩
  rwa [hm, step_pending]

lemma Run.FailsIn.unique {n k : Nat} {x y : Visit} {i j : Nat} {f g : Fault}
    (h : r.FailsIn P s n x i f) (h' : r.FailsIn P s k y j g)
    (hr : P.run v fuel s = some r) : n = k ∧ x = y ∧ i = j ∧ f = g := by
  obtain ⟨⟨vs, rfl, hv⟩, ho, hf⟩ := h
  obtain ⟨⟨ws, rfl, hw⟩, ho', hf'⟩ := h'
  have hend := Program.outcome?_of_run hr
  obtain ⟨hvw, -⟩ := hv.unique hend hw hend
  obtain ⟨rfl, hx⟩ := List.append_inj' hvw rfl
  obtain rfl := List.singleton_inj.mp hx
  rw [ho] at ho'
  exact ⟨rfl, rfl, hf.index_unique hf', Except.error.inj ho'⟩

lemma run_of_ok (h : c.Independent) (hQ : Q.blocks = P.blocks.map c.redirect)
    (hr : P.run v fuel s = some r) (hr' : Q.run v fuel' s = some r') {w : Word}
    (hw : r.outcome = .ok w) : r'.outcome = .ok w ∧ r'.machine.store = r.machine.store := by
  rw [← hw]
  refine run_of_not_held h hQ hr hr' ?_
  intro n x i f hf
  rw [hf.outcome] at hw
  cases hw

lemma run_of_failsIn (h : c.Independent) (hQ : Q.blocks = P.blocks.map c.redirect)
    (hr : P.run v fuel s = some r) (hr' : Q.run v fuel' s = some r') {n : Nat} {x : Visit} {i : Nat}
    {f : Fault} (hf : r.FailsIn P s n x i f) (hi : ¬ c.Holds x.block i) :
    r'.outcome = .error f ∧ r'.machine.store = r.machine.store := by
  rw [← hf.outcome]
  refine run_of_not_held h hQ hr hr' ?_
  intro k y j g hg hj
  obtain ⟨-, rfl, rfl, -⟩ := hf.unique hg hr
  exact hi hj

/-- If one of the two assignments fails, then after the exchange one of them fails in the same
visit. -/
lemma run_of_held (h : c.Independent) (hQ : Q.blocks = P.blocks.map c.redirect)
    (hr : P.run v fuel s = some r) (hr' : Q.run v fuel' s = some r') {n : Nat} {t : Store} {i : Nat}
    {f : Fault} (hf : r.FailsIn P s n ⟨c.block, t⟩ i f) (hi : c.Holds c.block i) :
    ∃ j g, r'.FailsIn Q s n ⟨c.swap.block, t⟩ j g ∧ c.swap.Holds c.swap.block j := by
  obtain ⟨⟨us, rfl, hu⟩, -, hfails⟩ := hf
  obtain ⟨vs, ws, b, t', hlen, hv, hw, hm, hm'⟩ := exists_last_visits h hQ hr hr'
  have hend := Program.outcome?_of_run hr
  obtain ⟨huv, -⟩ := hu.unique hend hv hend
  obtain ⟨rfl, hx⟩ := List.append_inj' huv rfl
  cases hx
  have hs : c.swap.Blocked t :=
    Adjacent.blocked_swap_iff.mpr (h.blocked_iff.mpr ⟨_, i, f, hfails, hi⟩)
  obtain ⟨u, j, g, hg, hj, hexec⟩ := h.swap.exec_of_blocked (P := Q) hs
  rw [Adjacent.redirect_block] at hw hm'
  rw [step_eq_of_exec hexec] at hm'
  have ho := Program.outcome?_of_run hr'
  rw [hm'] at ho
  refine ⟨j, g, ⟨⟨ws, hlen.symm, hw⟩, (Option.some.inj ho).symm, ?_⟩, hj⟩
  rw [hm']
  exact hg

end

/-- Exchanging two independent assignments makes a program again, and its runs are as before: they
end for the same stores after the same number of blocks, with the same result and store where there
is one, and with the same fault and store where a statement other than the two fails. Where one of
the two fails, one of them fails after the exchange as well, in the same visit to their block. No
other way to fail is left: a run that fails does so at a statement of its last visit. -/
theorem run_swap {P : Program} {c : Adjacent} {front back : List Block}
    (hP : P.blocks = front ++ c.block :: back) (hc : c.Independent) :
    ∃ Q, Program.build P.inputs (front ++ c.swap.block :: back) = .ok Q ∧
      ∀ v s, ((∃ fuel r, P.run v fuel s = some r) ↔ ∃ fuel r, Q.run v fuel s = some r) ∧
        ∀ fuel fuel' r r', P.run v fuel s = some r → Q.run v fuel' s = some r' →
          r'.machine.blocks = r.machine.blocks ∧
          (∀ w t, (r.outcome = .ok w ∧ r.machine.store = t) ↔
            r'.outcome = .ok w ∧ r'.machine.store = t) ∧
          (∀ f, r.outcome = .error f → ∃ n x i, r.FailsIn P s n x i f) ∧
          (∀ f, r'.outcome = .error f → ∃ n x i, r'.FailsIn Q s n x i f) ∧
          (∀ n x i f, r.FailsIn P s n x i f → ¬ c.Holds x.block i →
            r'.outcome = .error f ∧ r'.machine.store = r.machine.store) ∧
          (∀ n x i f, r'.FailsIn Q s n x i f → ¬ c.swap.Holds x.block i →
            r.outcome = .error f ∧ r.machine.store = r'.machine.store) ∧
          ∀ n t, (∃ i f, r.FailsIn P s n ⟨c.block, t⟩ i f ∧ c.Holds c.block i) ↔
            ∃ i f, r'.FailsIn Q s n ⟨c.swap.block, t⟩ i f ∧ c.swap.Holds c.swap.block i := by
  obtain ⟨Q, hbuild⟩ := Adjacent.exists_build_swap hP
  refine ⟨Q, hbuild, ?_⟩
  intro v s
  have hblocks : Q.blocks = front ++ c.swap.block :: back := (Program.fields_of_build hbuild).2
  have hQ : Q.blocks = P.blocks.map c.redirect := by
    rw [hblocks, Adjacent.map_redirect hP]
  have hP' : P.blocks = Q.blocks.map c.swap.redirect := by
    rw [hP, Adjacent.map_redirect hblocks]
    rfl
  obtain ⟨hends, hsame⟩ := (hc.simulates hQ).run (.nil _) (Adjacent.exchanged_start hQ s) v
  refine ⟨hends, ?_⟩
  intro fuel fuel' r r' hr hr'
  obtain ⟨⟨hsteps, -⟩, -⟩ := hsame fuel fuel' r r' hr hr'
  refine ⟨hsteps, ?_, fun f => Run.exists_failsIn hr, fun f => Run.exists_failsIn hr', ?_, ?_, ?_⟩
  · intro w t
    constructor
    · rintro ⟨hw, rfl⟩
      exact run_of_ok hc hQ hr hr' hw
    · rintro ⟨hw, rfl⟩
      exact run_of_ok hc.swap hP' hr' hr hw
  · intro n x i f hf hi
    exact run_of_failsIn hc hQ hr hr' hf hi
  · intro n x i f hf hi
    exact run_of_failsIn hc.swap hP' hr' hr hf hi
  · intro n t
    constructor
    · rintro ⟨i, f, hf, hi⟩
      exact run_of_held hc hQ hr hr' hf hi
    · rintro ⟨i, f, hf, hi⟩
      exact run_of_held hc.swap hP' hr' hr hf hi

/-- The assignments of a loop that divides by `n` while it counts `n` and `y` down. -/
def Adjacent.division : Adjacent where
  label := .num 1
  before := [⟨"n", .binary "-" (.var "n") (.const 1)⟩]
  first := ⟨"x", .binary "/" (.const 6) (.var "n")⟩
  second := ⟨"y", .binary "-" (.var "y") (.const 1)⟩
  after := []
  jump := .goto (.num 1)

/-- In a second round that fails at both of two assignments, the one that comes first is the one
that is reported. -/
theorem loop_run_swap :
    let c := Adjacent.division
    let s := Store.ofList [("n", 2), ("y", Int64.minValue + 1)]
    let t := Store.ofList [("n", 1), ("x", 6), ("y", Int64.minValue)]
    c.Independent ∧ ∃ P Q r r', Program.build [] [c.block] = .ok P ∧
      Program.build [] [c.swap.block] = .ok Q ∧
      P.run .off 2 s = some r ∧ Q.run .off 2 s = some r' ∧
      r.outcome = .error .divisionByZero ∧
      r'.outcome = .error (.overflow .sub Int64.minValue 1) ∧
      r'.machine.blocks = r.machine.blocks ∧
      (∃ i f, r.FailsIn P s 1 ⟨c.block, t⟩ i f ∧ c.Holds c.block i) ∧
      ∃ i f, r'.FailsIn Q s 1 ⟨c.swap.block, t⟩ i f ∧ c.swap.Holds c.swap.block i := by
  obtain ⟨P, r, hP, hr, hfails⟩ : ∃ P r, Program.build [] [Adjacent.division.block] = .ok P ∧
      P.run .off 2 (.ofList [("n", 2), ("y", Int64.minValue + 1)]) = some r ∧
      r.FailsIn P (.ofList [("n", 2), ("y", Int64.minValue + 1)]) 1
        ⟨Adjacent.division.block, .ofList [("n", 1), ("x", 6), ("y", Int64.minValue)]⟩ 1
        .divisionByZero := by
    refine ⟨_, _, rfl, rfl, ⟨[_], rfl, .cons (.cons (.nil _))⟩, rfl, ?_⟩
    exact Adjacent.failsAt_first_iff.mpr ⟨.cons rfl (.nil _), rfl⟩
  obtain ⟨Q, r', hQ, hr', ho'⟩ : ∃ P r, Program.build [] [Adjacent.division.swap.block] = .ok P ∧
      P.run .off 2 (.ofList [("n", 2), ("y", Int64.minValue + 1)]) = some r ∧
      r.outcome = .error (.overflow .sub Int64.minValue 1) := ⟨_, _, rfl, rfl, rfl⟩
  intro c s t
  have hc : c.Independent := ⟨by decide, by decide, by decide⟩
  have hblocks : P.blocks = [] ++ c.block :: [] := (Program.fields_of_build hP).2
  obtain ⟨Q', hQ', hruns⟩ := run_swap hblocks hc
  obtain rfl : Q' = Q := by
    rw [(Program.fields_of_build hP).1] at hQ'
    exact Except.ok.inj (hQ'.symm.trans hQ)
  obtain ⟨hsteps, -, -, -, -, -, hsame⟩ := (hruns .off s).2 2 2 r r' hr hr'
  have hheld : ∃ i f, r.FailsIn P s 1 ⟨c.block, t⟩ i f ∧ c.Holds c.block i :=
    ⟨1, _, hfails, rfl, .inl rfl⟩
  refine ⟨hc, P, _, r, r', hP, hQ, hr, hr', hfails.outcome, ho', hsteps, hheld, ?_⟩
  exact (hsame 1 t).mp hheld

end FlowGraph
