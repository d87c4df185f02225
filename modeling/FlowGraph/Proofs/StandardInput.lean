import FlowGraph.Arguments
import FlowGraph.Proofs.Spacing

/-!
# Values from the standard input

Values reach a sample program as arguments or, when there are none among the arguments, through the
first line of the standard input. The two ways give the same response whenever the line holds the
values. Nothing after the first newline matters: a byte with the value of a newline is never
part of another character, so the first line is found before anything is decoded.
-/

namespace FlowGraph

/-- The bytes of a text. -/
def utf8 (s : String) : List UInt8 :=
  s.toUTF8.data.toList

section Bytes

lemma toByteArray_utf8 (s : String) : (utf8 s).toByteArray = s.toUTF8 := by
  apply ByteArray.ext
  apply Array.toList_inj.mp
  rw [List.toList_data_toByteArray, utf8]

lemma utf8_append (s t : String) : utf8 (s ++ t) = utf8 s ++ utf8 t := by
  simp only [utf8, String.toUTF8_eq_toByteArray, String.toByteArray_append, ByteArray.data_append,
    Array.toList_append]

lemma utf8_newline : utf8 "\n" = [10] := by
  rfl

lemma utf8_eq_flatMap (s : String) : utf8 s = s.toList.flatMap String.utf8EncodeChar := by
  rw [utf8, String.toUTF8_eq_toByteArray, ← String.utf8Encode_toList, List.utf8Encode,
    List.toList_data_toByteArray]

lemma fromUTF8?_utf8 (s : String) : String.fromUTF8? (utf8 s).toByteArray = some s := by
  have hvalid : s.toUTF8.IsValidUTF8 := s.isValidUTF8
  rw [toByteArray_utf8, String.fromUTF8?, dif_pos hvalid]
  rfl

lemma eq_ten_of_ofNat {k : Nat} (hk : k < 256) (h : (10 : UInt8) = UInt8.ofNat k) : k = 10 := by
  have hmod : 10 = k % 256 := congrArg UInt8.toNat h
  omega

/-- No character but the newline has a byte of its value. -/
lemma eq_newline_of_mem_utf8EncodeChar {c : Char} (h : 10 ∈ String.utf8EncodeChar c) :
    c = '\n' := by
  have hhigh : ∀ k, 128 ≤ k → k < 256 → (10 : UInt8) ≠ UInt8.ofNat k := by
    intro k hlow hk heq
    have hten := eq_ten_of_ofNat hk heq
    omega
  unfold String.utf8EncodeChar at h
  simp only at h
  split at h
  · next hascii =>
    have hv : c.val.toNat = 10 := eq_ten_of_ofNat (by omega) (List.mem_singleton.mp h)
    exact Char.ext (UInt32.toNat_inj.mp hv)
  · exfalso
    split_ifs at h
    all_goals
      simp only [List.mem_cons, List.not_mem_nil, or_false] at h
    · rcases h with h | h
      all_goals exact hhigh _ (by omega) (by omega) h
    · rcases h with h | h | h
      all_goals exact hhigh _ (by omega) (by omega) h
    · rcases h with h | h | h | h
      all_goals exact hhigh _ (by omega) (by omega) h

lemma notMem_utf8 {s : String} (h : '\n' ∉ s.toList) : 10 ∉ utf8 s := by
  rw [utf8_eq_flatMap]
  intro hmem
  obtain ⟨c, hc, hbyte⟩ := List.mem_flatMap.mp hmem
  exact h (eq_newline_of_mem_utf8EncodeChar hbyte ▸ hc)

end Bytes

namespace CommandLine

section FirstLine

lemma firstLine_of_notMem {bytes : List UInt8} (h : 10 ∉ bytes) : firstLine bytes = bytes := by
  induction bytes with
  | nil => rfl
  | cons b bytes ih =>
    rw [List.mem_cons, not_or] at h
    rw [firstLine, if_neg (Ne.symm h.1), ih h.2]

/-- Nothing after a newline belongs to the first line. -/
lemma firstLine_append_newline {bytes : List UInt8} (h : 10 ∉ bytes) (rest : List UInt8) :
    firstLine (bytes ++ 10 :: rest) = bytes ++ [10] := by
  induction bytes with
  | nil => rfl
  | cons b bytes ih =>
    rw [List.mem_cons, not_or] at h
    rw [List.cons_append, firstLine, if_neg (Ne.symm h.1), ih h.2, List.cons_append]

lemma readLine_utf8 {line : String} (h : '\n' ∉ line.toList) :
    readLine (utf8 line) = .ok line := by
  rw [readLine, firstLine_of_notMem (notMem_utf8 h), fromUTF8?_utf8]

lemma readLine_utf8_newline {line : String} (h : '\n' ∉ line.toList) (rest : List UInt8) :
    readLine (utf8 line ++ 10 :: rest) = .ok (line ++ "\n") := by
  rw [readLine, firstLine_append_newline (notMem_utf8 h), ← utf8_newline, ← utf8_append,
    fromUTF8?_utf8]

/-- What is read is a line that holds the same tokens, be it ended by a newline or by the end of
the input. -/
lemma exists_readLine {tokens : List (List Char)} {line : String} {tail : List UInt8}
    (hspaced : Spaced tokens line.toList) (hline : '\n' ∉ line.toList)
    (htail : tail = [] ∨ ∃ rest, tail = 10 :: rest) :
    ∃ text : String, readLine (utf8 line ++ tail) = .ok text ∧ Spaced tokens text.toList := by
  rcases htail with rfl | ⟨rest, rfl⟩
  · rw [List.append_nil]
    exact ⟨line, readLine_utf8 hline, hspaced⟩
  · refine ⟨line ++ "\n", readLine_utf8_newline hline rest, ?_⟩
    rw [String.toList_append]
    exact hspaced.append_blank (List.all_eq_true.mp rfl)

end FirstLine

/-- The exit status and the standard output for a result. -/
def printed : Except Fault Word → UInt8 × String
  | .ok w => (0, w.text ++ "\n")
  | .error _ => (1, "")

section Responses

variable {read : List String → Reading} {p : Sample} {c : Word} {ws : List Word}
  {args : List String}

lemma respond_of_read {s : Settings} (h : read args = .run s) (input : List UInt8)
    (v : Verbosity) (fuel : Nat) :
    respond read args input v fuel = (execute s input v fuel).map (.ofReport s v) := by
  rw [respond, h]

lemma execute_of_ne_nil (hws : ws ≠ []) (input : List UInt8) (v : Verbosity) (fuel : Nat) :
    execute ⟨p, c, ws⟩ input v fuel = (p.program c).runValues v fuel ws := by
  simp only [execute, if_neg hws]

lemma execute_of_spaced {input : List UInt8} {text : String} (hread : readLine input = .ok text)
    (hspaced : Spaced (numerals ws) text.toList) (v : Verbosity) (fuel : Nat) :
    execute ⟨p, c, []⟩ input v fuel = (p.program c).runValues v fuel ws := by
  simp only [execute, if_pos, hread, hspaced.runLine_eq]

/-- Without values among the arguments, only the first line of the input matters. -/
lemma execute_congr {input input' : List UInt8} (h : firstLine input = firstLine input')
    (v : Verbosity) (fuel : Nat) :
    execute ⟨p, c, []⟩ input v fuel = execute ⟨p, c, []⟩ input' v fuel := by
  simp only [execute, readLine, h]

/-- A run on values ends in a response that shows its outcome. -/
lemma map_ofReport_runValues (s : Settings) (v : Verbosity) (fuel : Nat) (ws : List Word) :
    let P := s.sample.program s.constant
    ((P.runValues v fuel ws).map (Response.ofReport s v)).map (fun r => (r.status, r.output)) =
      (P.run v fuel (P.bind ws)).map fun r => printed r.outcome := by
  intro P
  rw [Program.runValues]
  cases P.run v fuel (P.bind ws) with
  | none => rfl
  | some r =>
    obtain ⟨m, outcome, log⟩ := r
    cases outcome <;> rfl

/-- The response is the same by whichever way the values arrive, and shows the outcome of the run
on them, if the arguments are read as they are meant. Without values among the arguments it depends
only on the first line of the input, whatever the bytes of that line. -/
theorem respond_input_eq_positional (hargs : read args = .run ⟨p, c, []⟩) (v : Verbosity) :
    (∀ (ws : List Word) (positional : List String), ws ≠ [] →
      read positional = .run ⟨p, c, ws⟩ →
      ∀ (line : String) (tail unread : List UInt8), Spaced (numerals ws) line.toList →
      '\n' ∉ line.toList → (tail = [] ∨ ∃ rest, tail = 10 :: rest) → ∀ fuel : Nat,
        respond read args (utf8 line ++ tail) v fuel = respond read positional unread v fuel ∧
        (respond read positional unread v fuel).map (fun r => (r.status, r.output)) =
          ((p.program c).run v fuel ((p.program c).bind ws)).map fun r => printed r.outcome) ∧
    ∀ line rest rest' : List UInt8, 10 ∉ line → ∀ fuel : Nat,
      respond read args (line ++ 10 :: rest) v fuel =
        respond read args (line ++ 10 :: rest') v fuel := by
  refine ⟨?_, ?_⟩
  · intro ws positional hws hpositional line tail unread hspaced hline htail fuel
    obtain ⟨text, hread, htext⟩ := exists_readLine hspaced hline htail
    rw [respond_of_read hargs, respond_of_read hpositional, execute_of_spaced hread htext,
      execute_of_ne_nil hws]
    exact ⟨rfl, map_ofReport_runValues ⟨p, c, ws⟩ v fuel ws⟩
  · intro line rest rest' hline fuel
    have hfirst : firstLine (line ++ 10 :: rest) = firstLine (line ++ 10 :: rest') := by
      rw [firstLine_append_newline hline, firstLine_append_newline hline]
    rw [respond_of_read hargs, respond_of_read hargs, execute_congr hfirst]

/-- The divisor of 12 and 18 is printed, whether they are arguments or stand on a line among wide
blanks. The bytes after that line are no text. -/
theorem euclid_input_eq_positional :
    let args := ["-p", "euclid", "--constant", "777"]
    let line := "12\u00a0 18\u2003"
    let input := utf8 line ++ [10, 0xFF, 0xC0]
    let answer := fun args input => respond readArguments args input (.upTo .trace) 9
    readArguments args = .run ⟨.euclid, 777, []⟩ ∧
    readArguments (args ++ ["12", "18"]) = .run ⟨.euclid, 777, [12, 18]⟩ ∧
    Spaced (numerals [12, 18]) line.toList ∧
    answer args input = answer (args ++ ["12", "18"]) [] ∧
    (answer args input).map (fun r => (r.status, r.output)) = some (0, "6\n") ∧
    answer args input = answer args (utf8 line ++ [10]) := by
  intro args line input answer
  have hargs : readArguments args = .run ⟨.euclid, 777, []⟩ := by decide
  have hvalues : readArguments (args ++ ["12", "18"]) = .run ⟨.euclid, 777, [12, 18]⟩ := by decide
  have hspaced : Spaced (numerals [12, 18]) line.toList := by
    have hline : line.toList =
        [] ++ ("12".toList ++ ("\u00a0 ".toList ++ ("18".toList ++ "\u2003".toList))) := by decide
    have hnumerals : numerals [12, 18] = ["12".toList, "18".toList] := by decide
    rw [hline, hnumerals]
    refine .token nofun ?_ (.token ?_ ?_ (.blank ?_))
    · rintro _ ⟨⟩
      rfl
    · exact List.all_eq_true.mp rfl
    · rintro _ ⟨⟩
      rfl
    · exact List.all_eq_true.mp rfl
  obtain ⟨hsame, hfirst⟩ := respond_input_eq_positional hargs (.upTo .trace)
  obtain ⟨heq, hprinted⟩ := hsame [12, 18] _ (by decide) hvalues line [10, 0xFF, 0xC0] [] hspaced
    (by decide) (.inr ⟨_, rfl⟩) 9
  refine ⟨hargs, hvalues, hspaced, heq, ?_, ?_⟩
  · change Option.map _ (respond readArguments args input (.upTo .trace) 9) = _
    rw [heq, hprinted]
    rfl
  · exact hfirst (utf8 line) [0xFF, 0xC0] [] (notMem_utf8 (by decide)) 9

end Responses

end CommandLine

end FlowGraph
