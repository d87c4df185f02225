import FlowGraph.Event
import FlowGraph.Proofs.UniqueReading

/-!
# The text of a log

A log consists of levels and texts, and nothing else. This file shows that the entries of four kinds
can be told from all others by how their texts begin: a block that is entered, a pair that is bound,
a jump that is carried out and a result. What such an entry reports stands in the rest of the text.
-/

namespace FlowGraph

namespace Event

def entered? : Event → Option Label
  | entered l => some l
  | _ => none

def binding? : Event → Option (Var × Word)
  | assigned x w => some (x, w)
  | _ => none

def jump? : Event → Option Jump
  | jumping j => some j
  | _ => none

/-- A result, with the counter of blocks. -/
def returned? : Event → Option (Word × UInt64)
  | returned w k => some (w, k)
  | _ => none

/-- An event as it stands in a log. -/
def entry (e : Event) : Level × String :=
  (e.level, e.message)

/-- The words that all texts of a kind of events start with. A reduction starts with a value. -/
def heading? : Event → Option String
  | launched _ _ => some "Running "
  | countMismatch _ _ => some "Program declares "
  | started _ _ => some "Starting interpretation at block "
  | entered _ => some "Executing block "
  | reduced _ => none
  | assigned _ _ => some "Assigning "
  | jumping _ => some "Executing jump: "
  | returned _ _ => some "Program returned "
  | concluded _ => some "Program result: "
  | failed _ => some "Interpretation failed: "

end Event

def headings : List String :=
  ["Running ", "Program declares ", "Starting interpretation at block ", "Executing block ",
    "Assigning ", "Executing jump: ", "Program returned ", "Program result: ",
    "Interpretation failed: "]

def startsWith (head text : String) : Bool :=
  head.toList.isPrefixOf text.toList

/-- The entries of a log whose texts start with `head`, in order. -/
def entriesWith (head : String) (log : List Event) : List (Level × String) :=
  (log.map Event.entry).filter fun e => startsWith head e.2

/-- The text of a value starts with a digit, a minus sign or the first letter of a truth value. -/
lemma Value.head_text {x : Value} {c : Char} {cs : List Char} (h : x.text.toList = c :: cs) :
    c.isDigit = true ∨ c ∈ ['-', 't', 'f'] := by
  cases x with
  | bool b =>
    cases b with
    | false => exact .inr ((List.cons.inj h).1 ▸ by decide)
    | true => exact .inr ((List.cons.inj h).1 ▸ by decide)
  | int w =>
    have hmem : c ∈ Numeral.digits w.toInt := by
      rw [← Numeral.toList_write]
      exact h ▸ List.mem_cons_self
    rw [Numeral.digits] at hmem
    split at hmem
    · rcases List.mem_cons.mp hmem with rfl | hmem
      · exact .inr List.mem_cons_self
      · exact .inl (Numeral.isDigit_of_mem_toDigits hmem)
    · exact .inl (Numeral.isDigit_of_mem_toDigits hmem)

lemma Value.toList_text_ne_nil (x : Value) : x.text.toList ≠ [] := by
  cases x with
  | bool b => cases b <;> nofun
  | int w => exact (isPlain_text w).toList_ne_nil

section
variable {head : String} {e : Event}

lemma startsWith_iff {text : String} :
    startsWith head text = true ↔ head.toList <+: text.toList :=
  List.isPrefixOf_iff_prefix

lemma startsWith_self : startsWith head head = true :=
  startsWith_iff.mpr (List.prefix_refl _)

lemma startsWith_append_right {a b : String} (h : startsWith head a = true) :
    startsWith head (a ++ b) = true := by
  rw [startsWith_iff, String.toList_append]
  exact (startsWith_iff.mp h).trans (List.prefix_append _ _)

lemma mem_headings (h : e.heading? = some head) : head ∈ headings := by
  cases e <;> cases h <;> decide

lemma headings_apart : ∀ a ∈ headings, ∀ b ∈ headings, startsWith a b = true → a = b := by
  decide

lemma headings_letter : ∀ a ∈ headings, ∃ c cs, a.toList = c :: cs ∧ c.isDigit = false ∧
    c ∉ ['-', 't', 'f'] := by
  simp [headings]

lemma startsWith_heading (h : e.heading? = some head) : startsWith head e.message = true := by
  cases e <;> cases h
  all_goals
    repeat apply startsWith_append_right
    exact startsWith_self

lemma not_startsWith_reduction (hhead : head ∈ headings) (r : Reduction) :
    startsWith head r.text = false := by
  obtain ⟨c, cs, hcs, hdigit, hc⟩ := headings_letter head hhead
  obtain ⟨d, ds, hd⟩ := List.exists_cons_of_ne_nil r.left.toList_text_ne_nil
  have hne : c ≠ d := by
    rintro rfl
    rcases Value.head_text hd with h | h
    · rw [hdigit] at h
      cases h
    · exact hc h
  simp only [startsWith, Reduction.text, String.toList_append, hcs, hd, List.cons_append]
  rw [List.isPrefixOf_cons_cons, beq_eq_false_iff_ne.mpr hne, Bool.false_and]

/-- The kind of an event can be told from how its text starts. -/
theorem startsWith_message_iff (hhead : head ∈ headings) :
    startsWith head e.message = true ↔ e.heading? = some head := by
  refine ⟨fun h => ?_, startsWith_heading⟩
  cases he : e.heading? with
  | none =>
    cases e <;> cases he
    exact absurd h (Bool.eq_false_iff.mp (not_startsWith_reduction hhead _))
  | some a =>
    have ha := startsWith_iff.mp (startsWith_heading he)
    rcases List.prefix_or_prefix_of_prefix ha (startsWith_iff.mp h) with hp | hp
    · rw [headings_apart a (mem_headings he) head hhead (startsWith_iff.mpr hp)]
    · rw [headings_apart head hhead a (mem_headings he) (startsWith_iff.mpr hp)]

end

/-- The events that `p` picks out are those with the heading `head`, and what `p` takes from an
event determines its entry. -/
structure Heads {α : Type} (head : String) (p : Event → Option α) (entry : α → Level × String) :
    Prop where
  mem : head ∈ headings
  heading_iff : ∀ e : Event, e.heading? = some head ↔ (p e).isSome
  entry_eq : ∀ (e : Event) (a : α), p e = some a → e.entry = entry a

/-- What the entries with a heading report is what happened. -/
theorem Heads.entriesWith_eq {α : Type} {head : String} {p : Event → Option α}
    {entry : α → Level × String} (h : Heads head p entry) (log : List Event) :
    entriesWith head log = (log.filterMap p).map entry := by
  induction log with
  | nil => rfl
  | cons e log ih =>
    have hs : startsWith head e.entry.2 = true ↔ (p e).isSome :=
      (startsWith_message_iff h.mem).trans (h.heading_iff e)
    rw [entriesWith, List.map_cons, List.filter_cons]
    cases hp : p e with
    | none =>
      rw [if_neg (mt hs.mp (by simp [hp])), List.filterMap_cons_none hp]
      exact ih
    | some a =>
      rw [if_pos (hs.mpr (by simp [hp])), List.filterMap_cons_some hp, List.map_cons,
        h.entry_eq e a hp]
      exact congrArg _ ih

lemma heads_entered :
    Heads "Executing block " Event.entered? fun l => (.debug, "Executing block " ++ l.render) where
  mem := by decide
  heading_iff e := by cases e <;> simp [Event.heading?, Event.entered?]
  entry_eq e l h := by
    cases e <;> cases h
    rfl

lemma heads_binding :
    Heads "Assigning " Event.binding? fun q =>
      (.debug, "Assigning " ++ q.2.text ++ " to " ++ q.1.name) where
  mem := by decide
  heading_iff e := by cases e <;> simp [Event.heading?, Event.binding?]
  entry_eq e q h := by
    cases e <;> cases h
    rfl

lemma heads_jump :
    Heads "Executing jump: " Event.jump? fun j => (.debug, "Executing jump: " ++ j.text) where
  mem := by decide
  heading_iff e := by cases e <;> simp [Event.heading?, Event.jump?]
  entry_eq e j h := by
    cases e <;> cases h
    rfl

lemma heads_returned :
    Heads "Program returned " Event.returned? fun q =>
      (.info, "Program returned " ++ q.1.text ++ " after executing " ++
        Numeral.write q.2.toNat ++ " blocks") where
  mem := by decide
  heading_iff e := by cases e <;> simp [Event.heading?, Event.returned?]
  entry_eq e q h := by
    cases e <;> cases h
    rfl

/-- A pair can be told from the entry that reports it: the word ends where the first blank
stands. -/
lemma binding_entry_injective :
    Function.Injective fun q : Var × Word =>
      (Level.debug, "Assigning " ++ q.2.text ++ " to " ++ q.1.name) := by
  rintro ⟨x, w⟩ ⟨y, u⟩ h
  have htext := congrArg String.toList (Prod.mk.inj h).2
  simp only [String.toList_append, List.append_assoc, List.append_cancel_left_eq] at htext
  obtain ⟨hw, hrest⟩ := append_inj_of_mark (isPlain_text w).not_mark (isPlain_text u).not_mark
    (fun c hc => by cases hc; rfl) (fun c hc => by cases hc; rfl) htext
  have hx : x = y := Var.name_injective (String.toList_inj.mp (List.append_cancel_left hrest))
  rw [hx, Word.text_injective (String.toList_inj.mp hw)]

end FlowGraph
