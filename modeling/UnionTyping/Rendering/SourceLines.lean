/-
  UnionTyping/Rendering/SourceLines.lean
  ======================================
  **A text as numbered lines of characters.**

  A line ends after a line feed, a carriage return with or without a line feed, a
  vertical tab, a form feed, or one of the Unicode characters next line, line
  separator and paragraph separator, and holds that character.  An empty text is
  one empty line.  Positions are counted in characters here.
-/
import UnionTyping.Text.Blank

namespace UnionTyping

def endsLine (c : Char) : Bool :=
  ['\n', '\r', '\x0b', '\x0c', '\u0085', '\u2028', '\u2029'].contains c

/-- The lines of a text; `line` is what was read of the first one, backwards. -/
def cutLines (line : List Char) : List Char → List (List Char)
  | [] => if line.isEmpty then [] else [line.reverse]
  | '\r' :: '\n' :: rest => ('\n' :: '\r' :: line).reverse :: cutLines [] rest
  | c :: rest =>
    if endsLine c then (c :: line).reverse :: cutLines [] rest else cutLines (c :: line) rest

/-- A line and the position of its first character. -/
structure SourceLine where
  offset : Nat
  chars : List Char
deriving DecidableEq, Repr, Inhabited

def positioned (offset : Nat) : List (List Char) → List SourceLine
  | [] => []
  | line :: rest => ⟨offset, line⟩ :: positioned (offset + line.length) rest

structure SourceText where
  lines : List SourceLine
  /-- The number of characters. -/
  total : Nat
deriving Repr

namespace SourceText

def ofString (source : String) : SourceText :=
  let chars := source.toList
  ⟨positioned 0 (if chars.isEmpty then [[]] else cutLines [] chars), chars.length⟩

/-- The place, from 0, of the last line that begins at or before a position. -/
def lineOf (text : SourceText) (position : Nat) : Nat :=
  (text.lines.takeWhile fun l => decide (l.offset ≤ position)).length - 1

def line (text : SourceText) (n : Nat) : SourceLine := text.lines[n]?.getD ⟨0, []⟩

end SourceText

namespace SourceLine

def stop (l : SourceLine) : Nat := l.offset + l.chars.length

def visible (l : SourceLine) : List Char := Text.trimRight l.chars

/-- The width of the visible character at a column, 1 behind the last one.  A tab
    fills up to the next multiple of 4. -/
def width (l : SourceLine) (column : Nat) : Nat :=
  if l.visible[column]? = some '\t' then 4 - column % 4 else 1

/-- The characters from `column` on with tabs and other white space as spaces. -/
def showFrom (column : Nat) : List Char → List Char
  | [] => []
  | c :: rest =>
    (if c = '\t' then List.replicate (4 - column % 4) ' '
      else if Text.isBlank c then [' '] else [c]) ++ showFrom (column + 1) rest

def shown (l : SourceLine) : List Char := showFrom 0 l.visible

end SourceLine

end UnionTyping
