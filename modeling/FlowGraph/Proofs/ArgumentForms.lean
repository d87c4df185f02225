import FlowGraph.Arguments
import FlowGraph.Proofs.ArgumentItems

/-!
# Forms of an argument

The executable classifies an argument by itself, before it is known whether it is the value of an
option. A numeral is a value with any sign; an option stands in full or as its letter, and a value
is attached to it with an equality sign or right behind the letter. This file shows that the reader
of the executable takes over every item in every form.
-/

namespace FlowGraph

namespace CommandLine

section Numerals
variable {text : String} {w : Word}

lemma isNumeralOf_iff : IsNumeralOf text w ↔ Numeral.read text = .ok w :=
  Numeral.readChars_eq_ok_iff.symm

lemma isNumeralOf_text (w : Word) : IsNumeralOf w.text w :=
  isNumeralOf_iff.mpr (Numeral.read_text w)

/-- A numeral is a value and no option, whatever its sign. After a dash it has digits only, so that
neither a second dash nor a letter can follow. -/
lemma ofChars_of_denotes {cs : List Char} {n : Int} (h : Numeral.Denotes cs n) :
    Argument.ofChars cs = .value (String.ofList cs) := by
  unfold Argument.ofChars
  split
  · cases h.isDigit '-' List.mem_cons_self
  · cases h.isDigit '-' List.mem_cons_self
  · next c cs _ _ =>
    have hdigits : (c :: cs).all Char.isDigit = true := List.all_eq_true.mpr h.isDigit
    rw [if_pos hdigits]
  · rfl

lemma IsNumeralOf.ofString_eq (h : IsNumeralOf text w) : Argument.ofString text = .value text := by
  rw [Argument.ofString, ofChars_of_denotes h, String.ofList_toList]

/-- A long option is cut at the first equality sign, whatever the value after it. -/
lemma splitLong_append {name : List Char} (h : '=' ∉ name) (cs : List Char) :
    Argument.splitLong (name ++ '=' :: cs) = (String.ofList name, some (String.ofList cs)) := by
  have hname : ∀ c ∈ name, (c != '=') = true := by
    intro c hc
    rw [bne_iff_ne]
    rintro rfl
    exact h hc
  rw [Argument.splitLong, List.dropWhile_append_of_pos hname, List.takeWhile_append_of_pos hname]
  simp

lemma ofString_constantEquals (text : String) :
    Argument.ofString ("--constant=" ++ text) = .setting .constant (some text) := by
  have hchars : ("--constant=" ++ text).toList =
      '-' :: '-' :: ("constant".toList ++ '=' :: text.toList) := by
    rw [String.toList_append]
    rfl
  rw [Argument.ofString, hchars, Argument.ofChars, Argument.ofLong, splitLong_append (by decide),
    String.ofList_toList, String.ofList_toList]
  · rfl
  · simp

end Numerals

section Drafts
variable {d : Draft} {text : String} {w : Word}

lemma Draft.set_program (hd : d.sample = none) (p : Sample) :
    d.set .program p.name = some { d with sample := some p } := by
  simp only [Draft.set, hd, Sample.ofName?_name, Option.map_some]

lemma Draft.set_constant (hd : d.constant = none) (h : IsNumeralOf text w) :
    d.set .constant text = some { d with constant := some w } := by
  simp only [Draft.set, hd, isNumeralOf_iff.mp h]
  rfl

lemma Draft.add_numeral (h : IsNumeralOf text w) :
    d.add text = some { d with values := d.values ++ [w] } := by
  rw [Draft.add, isNumeralOf_iff.mp h]
  rfl

lemma Draft.addAll_numerals {texts : List String} {ws : List Word}
    (h : List.Forall₂ IsNumeralOf texts ws) :
    d.addAll texts = some { d with values := d.values ++ ws } := by
  induction h generalizing d with
  | nil => rw [Draft.addAll, List.append_nil]
  | cons hw _ ih =>
    rw [Draft.addAll, Draft.add_numeral hw, Option.bind_some, ih]
    simp only [List.append_assoc, List.singleton_append]

end Drafts

section Reading
variable {d d' : Draft} {arg text : String} {o : Setting}

lemma readFrom_attached (harg : Argument.ofString arg = .setting o (some text))
    (hset : d.set o text = some d') (args : List String) :
    readFrom d (arg :: args) = readFrom d' args := by
  rw [readFrom, harg]
  simp only [hset]

lemma readFrom_detached (harg : Argument.ofString arg = .setting o none)
    (htext : Argument.ofString text = .value text) (hset : d.set o text = some d')
    (args : List String) : readFrom d (arg :: text :: args) = readFrom d' args := by
  rw [readFrom, harg]
  simp only [htext, hset]

/-- The reader of the executable takes over all items. -/
theorem readsItems_readArguments : ReadsItems readArguments readFrom where
  start args := rfl
  finish d := by rw [readFrom]
  short d p args hd := by
    refine readFrom_detached (o := .program) (by decide) ?_ (Draft.set_program hd p) args
    cases p <;> decide
  shortAttached d p args hd := by
    refine readFrom_attached ?_ (Draft.set_program hd p) args
    cases p <;> decide
  shortEquals d p args hd := by
    refine readFrom_attached ?_ (Draft.set_program hd p) args
    cases p <;> decide
  long d p args hd := by
    refine readFrom_detached (o := .program) (by decide) ?_ (Draft.set_program hd p) args
    cases p <;> decide
  longEquals d p args hd := by
    refine readFrom_attached ?_ (Draft.set_program hd p) args
    cases p <;> decide
  constant d text c args hd htext :=
    readFrom_detached (by decide) htext.ofString_eq (Draft.set_constant hd htext) args
  constantEquals d text c args hd htext :=
    readFrom_attached (ofString_constantEquals text) (Draft.set_constant hd htext) args
  value d text w args htext := by
    rw [readFrom, htext.ofString_eq]
    simp only [Draft.add_numeral htext]
  terminator d texts ws htexts := by
    have hterminator : Argument.ofString "--" = .terminator := by decide
    rw [readFrom, hterminator]
    simp only [Draft.addAll_numerals htexts]

end Reading

end CommandLine

end FlowGraph
