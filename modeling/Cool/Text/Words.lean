/-! Words: the maximal runs of characters between blanks. -/

namespace Cool.Text

/-- The white space of every script: control blanks, the spaces of various widths, and the line
and paragraph separators. -/
def isBlank (c : Char) : Bool :=
  let n := c.toNat
  decide (9 ≤ n ∧ n ≤ 13) || n == 0x20 || n == 0x85 || n == 0xA0 || n == 0x1680 ||
    decide (0x2000 ≤ n ∧ n ≤ 0x200A) || n == 0x2028 || n == 0x2029 || n == 0x202F ||
    n == 0x205F || n == 0x3000

/-- Splits characters into words, where `word` holds the current word backwards. -/
def wordsFrom : List Char → List Char → List String
  | [], [] => []
  | word, [] => [String.ofList word.reverse]
  | [], c :: rest => if isBlank c then wordsFrom [] rest else wordsFrom [c] rest
  | word, c :: rest =>
    if isBlank c then String.ofList word.reverse :: wordsFrom [] rest
    else wordsFrom (c :: word) rest

/-- The words of a text, in order. -/
def words (s : String) : List String :=
  wordsFrom [] s.toList

/-- Writes a number right-aligned in a column of the given width. -/
def padLeft (width : Nat) (s : String) : String :=
  String.ofList (List.replicate (width - s.length) ' ') ++ s

end Cool.Text
