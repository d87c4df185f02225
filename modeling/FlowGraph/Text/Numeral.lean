import FlowGraph.Word

/-!
# Decimal numerals

Integers are written with the fewest digits and a minus sign when negative. A numeral that is
read may also carry a plus sign and leading zeros. Reading goes from left to right and stops at
the first character that is no digit, or at the first digit that takes the value out of the
64-bit range, whichever comes first.
-/

namespace FlowGraph

namespace Numeral

/-- The decimal digits of an integer, most significant first, after its sign. -/
def digits (n : Int) : List Char :=
  if n < 0 then '-' :: Nat.toDigits 10 n.natAbs else Nat.toDigits 10 n.natAbs

def write (n : Int) : String :=
  String.ofList (digits n)

/-- Why a text is not the numeral of a word. -/
inductive Malformed where
  /-- A character is no digit, or there is none. -/
  | invalidDigit
  /-- The value exceeds the largest word. -/
  | tooLarge
  /-- The value is below the smallest word. -/
  | tooSmall
deriving DecidableEq, Repr

namespace Malformed

def message : Malformed → String
  | invalidDigit => "invalid digit found in string"
  | tooLarge => "number too large to fit in target type"
  | tooSmall => "number too small to fit in target type"

end Malformed

def digit? (c : Char) : Option Nat :=
  if c.isDigit then some (c.toNat - '0'.toNat) else none

inductive Sign where
  | plus
  | minus
deriving DecidableEq, Repr

namespace Sign

/-- The largest magnitude of a word with this sign. -/
def limit : Sign → Nat
  | plus => Int64.maxValue.toInt.toNat
  | minus => Int64.minValue.toInt.natAbs

def excess : Sign → Malformed
  | plus => .tooLarge
  | minus => .tooSmall

def apply : Sign → Nat → Int
  | plus, n => n
  | minus, n => -n

end Sign

/-- Reads the remaining digits after a magnitude of `n`. A character is checked to be a digit
before the magnitude it gives is checked against the limit. -/
def magnitude (sign : Sign) (n : Nat) : List Char → Except Malformed Nat
  | [] => .ok n
  | c :: cs =>
    match digit? c with
    | none => .error .invalidDigit
    | some d => if 10 * n + d ≤ sign.limit then magnitude sign (10 * n + d) cs else .error sign.excess

def readUnsigned (sign : Sign) : List Char → Except Malformed Word
  | [] => .error .invalidDigit
  | c :: cs => (magnitude sign 0 (c :: cs)).map fun n => Int64.ofInt (sign.apply n)

/-- Reads an optional sign and one or more digits. -/
def readChars : List Char → Except Malformed Word
  | '+' :: cs => readUnsigned .plus cs
  | '-' :: cs => readUnsigned .minus cs
  | cs => readUnsigned .plus cs

def read (s : String) : Except Malformed Word :=
  readChars s.toList

@[simp] theorem toList_write (n : Int) : (write n).toList = digits n :=
  String.toList_ofList

end Numeral

def Word.text (w : Word) : String :=
  Numeral.write w.toInt

end FlowGraph
