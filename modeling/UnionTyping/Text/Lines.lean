/-
  UnionTyping/Text/Lines.lean
  ===========================
  **The lines of a text, without what ends them.**

  A line ends at a line feed, and a carriage return right before the line feed
  belongs to the end.  A text that ends with a line feed has no further line, so
  the empty text has none.
-/
namespace UnionTyping.Text

/-- The line that was read backwards up to a line feed, without the carriage return
    before it. -/
def closeLine : List Char → List Char
  | '\r' :: line => line.reverse
  | line => line.reverse

/-- The lines of a text; `line` is what was read of the first one, backwards. -/
def linesAfter (line : List Char) : List Char → List (List Char)
  | [] => if line.isEmpty then [] else [line.reverse]
  | '\n' :: rest => closeLine line :: linesAfter [] rest
  | c :: rest => linesAfter (c :: line) rest

def lines (text : List Char) : List (List Char) := linesAfter [] text

end UnionTyping.Text
