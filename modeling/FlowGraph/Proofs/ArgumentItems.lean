import FlowGraph.CommandLine
import FlowGraph.Proofs.NumeralLanguage

/-!
# Arguments as items

A sample, a constant and values can be asked for in many ways: the options stand anywhere among the
values, each has several spellings and may be left out for its default, and a terminator may come
before the last values. This file describes these ways, and what is expected of a reader of
arguments: that it takes over one item after another, in whichever form it is written. Such a reader
finds the settings that the arguments were written for.
-/

namespace FlowGraph

namespace CommandLine

/-- A decimal numeral of a word. -/
def IsNumeralOf (text : String) (w : Word) : Prop :=
  Numeral.Denotes text.toList w.toInt

/-- What stands among the arguments: an option with its value, or a value. -/
inductive Item where
  | sample (p : Sample)
  | constant (c : Word)
  | value (w : Word)

namespace Item

def sample? : Item → Option Sample
  | sample p => some p
  | _ => none

def constant? : Item → Option Word
  | constant c => some c
  | _ => none

def value? : Item → Option Word
  | value w => some w
  | _ => none

/-- The ways to write an item, as one argument or as two. -/
inductive Spelled : Item → List String → Prop
  | short (p : Sample) : Spelled (sample p) ["-p", p.name]
  | shortAttached (p : Sample) : Spelled (sample p) ["-p" ++ p.name]
  | shortEquals (p : Sample) : Spelled (sample p) ["-p=" ++ p.name]
  | long (p : Sample) : Spelled (sample p) ["--program", p.name]
  | longEquals (p : Sample) : Spelled (sample p) ["--program=" ++ p.name]
  | constant {text : String} {c : Word} (h : IsNumeralOf text c) :
      Spelled (constant c) ["--constant", text]
  | constantEquals {text : String} {c : Word} (h : IsNumeralOf text c) :
      Spelled (constant c) ["--constant=" ++ text]
  | value {text : String} {w : Word} (h : IsNumeralOf text w) : Spelled (value w) [text]

end Item

/-- The values at the end of the arguments, which are written after a terminator. -/
inductive Trailing : List Word → List String → Prop
  | none : Trailing [] []
  | terminated {texts : List String} {ws : List Word} (h : List.Forall₂ IsNumeralOf texts ws) :
      Trailing ws ("--" :: texts)

/-- An option that is given once, or left out for its default. -/
def Settles {α : Type} (given : List α) (default a : α) : Prop :=
  given = [a] ∨ given = [] ∧ a = default

/-- The settings that items give, with the values `rest` after them. -/
structure Settings.GivenBy (s : Settings) (items : List Item) (rest : List Word) : Prop where
  sample : Settles (items.filterMap Item.sample?) .constant s.sample
  constant : Settles (items.filterMap Item.constant?) 777 s.constant
  values : items.filterMap Item.value? ++ rest = s.values

/-- The arguments are written for the settings: items in any order that give each option at most
once, then values behind a terminator, if any. -/
def WrittenFor (s : Settings) (args : List String) : Prop :=
  ∃ (items : List Item) (pieces : List (List String)) (rest : List Word) (tail : List String),
    args = pieces.flatten ++ tail ∧ List.Forall₂ Item.Spelled items pieces ∧ Trailing rest tail ∧
      s.GivenBy items rest

section Settles
variable {α : Type} {default a : α}

lemma Settles.length_le {given : List α} (h : Settles given default a) : given.length ≤ 1 := by
  rcases h with rfl | ⟨rfl, -⟩
  · exact Nat.le_refl 1
  · exact Nat.zero_le 1

lemma settles_toList_iff {o : Option α} : Settles o.toList default a ↔ o.getD default = a := by
  cases o with
  | none => simp [Settles, eq_comm]
  | some b => simp [Settles]

end Settles

namespace Draft

def take (d : Draft) : Item → Draft
  | .sample p => { d with sample := some p }
  | .constant c => { d with constant := some c }
  | .value w => { d with values := d.values ++ [w] }

/-- The option of the item has not been given yet. -/
def Admits (d : Draft) : Item → Prop
  | .sample _ => d.sample = none
  | .constant _ => d.constant = none
  | .value _ => True

/-- The draft holds what the items say. -/
structure Records (d : Draft) (items : List Item) : Prop where
  sample_eq : d.sample.toList = items.filterMap Item.sample?
  constant_eq : d.constant.toList = items.filterMap Item.constant?
  values_eq : d.values = items.filterMap Item.value?

section Records
variable {d : Draft} {done items : List Item} {item : Item}

lemma Records.admits {s : Settings} {rest : List Word} (h : d.Records done)
    (hs : s.GivenBy (done ++ item :: items) rest) : d.Admits item := by
  have hsample := hs.sample.length_le
  have hconstant := hs.constant.length_le
  rw [List.filterMap_append, List.length_append] at hsample hconstant
  cases item with
  | sample p =>
    rw [← h.sample_eq, List.filterMap_cons_some (f := Item.sample?) rfl,
      List.length_cons] at hsample
    exact Option.toList_eq_nil_iff.mp (List.length_eq_zero_iff.mp (by omega))
  | constant c =>
    rw [← h.constant_eq, List.filterMap_cons_some (f := Item.constant?) rfl,
      List.length_cons] at hconstant
    exact Option.toList_eq_nil_iff.mp (List.length_eq_zero_iff.mp (by omega))
  | value w => trivial

lemma take_eq (h : d.Admits item) :
    (d.take item).sample.toList = d.sample.toList ++ [item].filterMap Item.sample? ∧
      (d.take item).constant.toList = d.constant.toList ++ [item].filterMap Item.constant? ∧
      (d.take item).values = d.values ++ [item].filterMap Item.value? := by
  cases item with
  | sample p =>
    have hnone : d.sample = none := h
    simp [take, hnone, Item.sample?, Item.constant?, Item.value?]
  | constant c =>
    have hnone : d.constant = none := h
    simp [take, hnone, Item.sample?, Item.constant?, Item.value?]
  | value w => simp [take, Item.sample?, Item.constant?, Item.value?]

lemma Records.take (h : d.Records done) (hitem : d.Admits item) :
    (d.take item).Records (done ++ [item]) := by
  obtain ⟨hsample, hconstant, hvalues⟩ := take_eq hitem
  constructor
  · rw [hsample, h.sample_eq, List.filterMap_append]
  · rw [hconstant, h.constant_eq, List.filterMap_append]
  · rw [hvalues, h.values_eq, List.filterMap_append]

lemma Records.givenBy_iff {s : Settings} {rest : List Word} (h : d.Records items) :
    s.GivenBy items rest ↔ { d with values := d.values ++ rest : Draft }.settings = s := by
  constructor
  · rintro ⟨hsample, hconstant, hvalues⟩
    rw [← h.sample_eq, settles_toList_iff] at hsample
    rw [← h.constant_eq, settles_toList_iff] at hconstant
    rw [← h.values_eq] at hvalues
    rw [settings, hsample, hconstant, hvalues]
  · rintro rfl
    constructor
    · rw [← h.sample_eq, settles_toList_iff]
      rfl
    · rw [← h.constant_eq, settles_toList_iff]
      rfl
    · rw [← h.values_eq]
      rfl

end Records

end Draft

/-- A reader of arguments that takes items over into a draft: `after d args` is what it makes of the
arguments `args` when those in front of them have settled `d`. An option is given to it at most
once. -/
structure ReadsItems (read : List String → Reading) (after : Draft → List String → Reading) :
    Prop where
  start : ∀ args, read args = after {} args
  finish : ∀ d, after d [] = .run d.settings
  short : ∀ (d : Draft) (p : Sample) (args : List String), d.sample = none →
    after d ("-p" :: p.name :: args) = after { d with sample := some p } args
  shortAttached : ∀ (d : Draft) (p : Sample) (args : List String), d.sample = none →
    after d (("-p" ++ p.name) :: args) = after { d with sample := some p } args
  shortEquals : ∀ (d : Draft) (p : Sample) (args : List String), d.sample = none →
    after d (("-p=" ++ p.name) :: args) = after { d with sample := some p } args
  long : ∀ (d : Draft) (p : Sample) (args : List String), d.sample = none →
    after d ("--program" :: p.name :: args) = after { d with sample := some p } args
  longEquals : ∀ (d : Draft) (p : Sample) (args : List String), d.sample = none →
    after d (("--program=" ++ p.name) :: args) = after { d with sample := some p } args
  constant : ∀ (d : Draft) (text : String) (c : Word) (args : List String), d.constant = none →
    IsNumeralOf text c →
      after d ("--constant" :: text :: args) = after { d with constant := some c } args
  constantEquals : ∀ (d : Draft) (text : String) (c : Word) (args : List String),
    d.constant = none → IsNumeralOf text c →
      after d (("--constant=" ++ text) :: args) = after { d with constant := some c } args
  value : ∀ (d : Draft) (text : String) (w : Word) (args : List String), IsNumeralOf text w →
    after d (text :: args) = after { d with values := d.values ++ [w] } args
  terminator : ∀ (d : Draft) (texts : List String) (ws : List Word),
    List.Forall₂ IsNumeralOf texts ws →
      after d ("--" :: texts) = .run { d with values := d.values ++ ws : Draft }.settings

namespace ReadsItems

variable {read : List String → Reading} {after : Draft → List String → Reading} {d : Draft}

/-- An item is taken over into the draft, whichever way it is written. -/
lemma after_item (h : ReadsItems read after) {item : Item} {piece : List String}
    (hitem : item.Spelled piece) (hd : d.Admits item) (args : List String) :
    after d (piece ++ args) = after (d.take item) args := by
  cases hitem with
  | short p => exact h.short d p args hd
  | shortAttached p => exact h.shortAttached d p args hd
  | shortEquals p => exact h.shortEquals d p args hd
  | long p => exact h.long d p args hd
  | longEquals p => exact h.longEquals d p args hd
  | constant htext => exact h.constant d _ _ args hd htext
  | constantEquals htext => exact h.constantEquals d _ _ args hd htext
  | value htext => exact h.value d _ _ args htext

lemma after_trailing (h : ReadsItems read after) {ws : List Word} {tail : List String}
    (htail : Trailing ws tail) (d : Draft) :
    after d tail = .run { d with values := d.values ++ ws : Draft }.settings := by
  cases htail with
  | none => rw [h.finish, List.append_nil]
  | terminated htexts => exact h.terminator d _ _ htexts

lemma after_items (h : ReadsItems read after) {s : Settings} {done items : List Item}
    {pieces : List (List String)} {rest : List Word} {tail : List String}
    (hpieces : List.Forall₂ Item.Spelled items pieces) (htail : Trailing rest tail)
    (hd : d.Records done) (hs : s.GivenBy (done ++ items) rest) :
    after d (pieces.flatten ++ tail) = .run s := by
  induction hpieces generalizing d done with
  | nil =>
    rw [List.append_nil, hd.givenBy_iff] at hs
    rw [List.flatten_nil, List.nil_append, h.after_trailing htail, hs]
  | cons hitem _ ih =>
    have hadmits := hd.admits hs
    rw [List.append_cons] at hs
    rw [List.flatten_cons, List.append_assoc, h.after_item hitem hadmits]
    exact ih (hd.take hadmits) hs

/-- Arguments that are written for some settings are read as these settings. -/
theorem read_eq (h : ReadsItems read after) {s : Settings} {args : List String}
    (hargs : WrittenFor s args) : read args = .run s := by
  obtain ⟨items, pieces, rest, tail, rfl, hpieces, htail, hs⟩ := hargs
  have hempty : Draft.Records {} [] := ⟨rfl, rfl, rfl⟩
  rw [h.start]
  exact h.after_items hpieces htail hempty hs

end ReadsItems

end CommandLine

end FlowGraph
