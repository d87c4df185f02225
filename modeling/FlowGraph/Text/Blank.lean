/-!
# Blanks and words

A line of values is cut at blanks: the characters with the Unicode property `White_Space`. The
words of a line are its maximal runs of other characters, in order.
-/

namespace FlowGraph

namespace Blank

/-- The code points with the property `White_Space`, as closed intervals in increasing order. -/
def ranges : List (Nat × Nat) :=
  [(0x0009, 0x000D), (0x0020, 0x0020), (0x0085, 0x0085), (0x00A0, 0x00A0), (0x1680, 0x1680),
    (0x2000, 0x200A), (0x2028, 0x2029), (0x202F, 0x202F), (0x205F, 0x205F), (0x3000, 0x3000)]

end Blank

def isBlank (c : Char) : Bool :=
  Blank.ranges.any fun r => r.1 ≤ c.toNat && c.toNat ≤ r.2

/-- The words of `cs`, when `word` holds the characters of an unfinished word, last one first. -/
def wordsFrom (word : List Char) : List Char → List (List Char)
  | [] => if word = [] then [] else [word.reverse]
  | c :: cs =>
    if isBlank c then
      if word = [] then wordsFrom [] cs else word.reverse :: wordsFrom [] cs
    else wordsFrom (c :: word) cs

def words (line : String) : List String :=
  (wordsFrom [] line.toList).map String.ofList

end FlowGraph
