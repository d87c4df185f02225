/-!
# Text for a terminal

A log line may quote arbitrary input, so the control characters that a terminal acts upon are
written as escapes: bell, backspace, form feed, escape and delete as `\x` with two hexadecimal
digits, the controls from U+0080 to U+009F as `\u` with the digits in braces. No such character
is left in the result, and a text without any is unchanged. The escape itself is not escaped,
so it cannot be undone.
-/

namespace FlowGraph

namespace Terminal

/-- The ASCII control characters that are escaped. -/
def asciiControls : List Nat :=
  [0x07, 0x08, 0x0C, 0x1B, 0x7F]

def isLateControl (c : Char) : Bool :=
  0x80 ≤ c.toNat && c.toNat ≤ 0x9F

/-- Whether a terminal acts upon a character. -/
def isActive (c : Char) : Bool :=
  asciiControls.contains c.toNat || isLateControl c

def hexPair (n : Nat) : List Char :=
  [Nat.digitChar (n / 16), Nat.digitChar (n % 16)]

/-- The text that stands for a character. -/
def escapeChar (c : Char) : List Char :=
  if asciiControls.contains c.toNat then ['\\', 'x'] ++ hexPair c.toNat
  else if isLateControl c then ['\\', 'u', '\x7b'] ++ hexPair c.toNat ++ ['\x7d']
  else [c]

/-- Writes a text so that no terminal acts upon it. -/
def escape (s : String) : String :=
  String.ofList (s.toList.flatMap escapeChar)

theorem isActive_digitChar : ∀ d < 16, isActive (Nat.digitChar d) = false := by
  decide

theorem toNat_lt_of_isActive {c : Char} (h : isActive c = true) : c.toNat < 16 * 16 := by
  simp [isActive, isLateControl, asciiControls] at h
  omega

theorem isActive_hexPair {n : Nat} (h : n < 16 * 16) : ∀ c ∈ hexPair n, isActive c = false := by
  simp only [hexPair, List.mem_cons, List.not_mem_nil, or_false]
  rintro c (rfl | rfl)
  · exact isActive_digitChar _ (Nat.div_lt_of_lt_mul h)
  · exact isActive_digitChar _ (Nat.mod_lt _ (by omega))

theorem escapeChar_eq_self {c : Char} (h : isActive c = false) : escapeChar c = [c] := by
  simp only [isActive, Bool.or_eq_false_iff] at h
  simp only [escapeChar, h.1, h.2, Bool.false_eq_true, if_false]

theorem isActive_escapeChar (c : Char) : ∀ d ∈ escapeChar c, isActive d = false := by
  cases h : isActive c with
  | false =>
    rw [escapeChar_eq_self h]
    simpa using h
  | true =>
    have hex := isActive_hexPair (toNat_lt_of_isActive h)
    have fixed : ∀ d ∈ ['\\', 'x', 'u', '\x7b', '\x7d'], isActive d = false := by
      simp only [List.forall_mem_cons]
      exact ⟨rfl, rfl, rfl, rfl, rfl, nofun⟩
    have sub : ∀ d ∈ escapeChar c, d ∈ hexPair c.toNat ∨ d ∈ ['\\', 'x', 'u', '\x7b', '\x7d'] := by
      intro d hd
      simp only [isActive, Bool.or_eq_true] at h
      unfold escapeChar at hd
      grind
    intro d hd
    exact (sub d hd).elim (hex d) (fixed d)

theorem escape_eq_self {s : String} (h : ∀ c ∈ s.toList, isActive c = false) : escape s = s := by
  have : s.toList.flatMap escapeChar = s.toList := by
    generalize s.toList = cs at h
    induction cs with
    | nil => rfl
    | cons c cs ih =>
      rw [List.flatMap_cons, escapeChar_eq_self (h c (by simp)), ih fun d hd => h d (by simp [hd])]
      rfl
  rw [escape, this, String.ofList_toList]

/-- No active character is left. -/
theorem isActive_escape (s : String) : ∀ c ∈ (escape s).toList, isActive c = false := by
  intro c hc
  rw [escape, String.toList_ofList] at hc
  obtain ⟨d, _, hd⟩ := List.mem_flatMap.1 hc
  exact isActive_escapeChar d c hd

end Terminal

end FlowGraph
