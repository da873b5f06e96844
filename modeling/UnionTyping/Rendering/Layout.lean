/-
  UnionTyping/Rendering/Layout.lean
  =================================
  **Drawing labels under source lines.**

  Labels are put into groups of neighbouring lines.  A group shows its lines with
  their numbers; under a line with labels each label is underlined, and from the
  middle of each underlined part a bar leads down to its message.  The messages
  are listed from the leftmost bar to the rightmost.  A label that does not lie
  within one line is not drawn.  Lines of a group without a drawn label are left
  out, with one empty line in place of each run of them.
-/
import UnionTyping.Rendering.Span
import UnionTyping.Rendering.SourceLines
import UnionTyping.Text.Lines

namespace UnionTyping

/-- A message about a part of the text, in positions of characters. -/
structure Label where
  span : Span
  message : String
deriving DecidableEq, Repr

namespace Label

def fits (total : Nat) (l : Label) : Bool :=
  decide (l.span.start ≤ total) &&
    !(decide (l.span.start < l.span.stop) && decide (total < l.span.stop - 1))

def isWithin (line : SourceLine) (l : Label) : Bool :=
  decide (line.offset ≤ l.span.start) && decide (l.span.stop ≤ line.stop)

def lineIn (text : SourceText) (l : Label) : Nat := text.lineOf l.span.start

def column (line : SourceLine) (l : Label) : Nat :=
  (l.span.start + l.span.stop) / 2 - line.offset

/-- Whether the message of one label comes before that of another on the line. -/
def comesBefore (line : SourceLine) (a b : Label) : Bool :=
  decide (a.column line < b.column line) ||
    (a.column line == b.column line && decide (b.span.start < a.span.start))

def insertSorted (line : SourceLine) (l : Label) : List Label → List Label
  | [] => [l]
  | m :: ms => if l.comesBefore line m then l :: m :: ms else m :: insertSorted line l ms

def sort (line : SourceLine) (labels : List Label) : List Label :=
  labels.foldl (fun sorted l => insertSorted line l sorted) []

end Label

/-! ### One line with its labels -/

/-- A cell of a drawing: its first character, and the others if it is wider. -/
structure Cell where
  first : Char
  others : Char

/-- The cell of a position in the row right under the text.  `bar` says whether a
    bar goes through it and `underlined` whether it belongs to a label. -/
def underlineCell (bar underlined : Bool) : Cell :=
  match bar, underlined with
  | true, true => ⟨'┬', '─'⟩
  | true, false => ⟨'│', ' '⟩
  | false, true => ⟨'─', '─'⟩
  | false, false => ⟨' ', ' '⟩

/-- The cell of a column in the row that leads to the message of the label whose bar
    is at `target`. -/
def arrowCell (target column : Nat) (bar : Bool) : Cell :=
  if column = target then ⟨'╰', '─'⟩
  else if target < column then ⟨'─', '─'⟩
  else if bar then ⟨'│', ' '⟩
  else ⟨' ', ' '⟩

def drawRow (line : SourceLine) (length : Nat) (cell : Nat → Cell) : List Char :=
  (List.range length).flatMap fun column =>
    let c := cell column
    c.first :: List.replicate (line.width column - 1) c.others

/-- The two rows of each label, given those that still have a bar.  `all` are the
    labels of the line, underlined in the very first row. -/
def labelRows (line : SourceLine) (length : Nat) (all : List Label) :
    (first : Bool) → (labels : List Label) → List (List Char)
  | _, [] => []
  | first, l :: rest =>
    let bar column := (l :: rest).any fun m => m.column line == column
    let underlined column := first && all.any fun m =>
      decide (m.span.start ≤ line.offset + column) && decide (line.offset + column < m.span.stop)
    drawRow line length (fun column => underlineCell (bar column) (underlined column)) ::
      (drawRow line length (fun column => arrowCell (l.column line) column (bar column)) ++
        ' ' :: l.message.toList) ::
      labelRows line length all false rest

/-! ### Groups of lines -/

abbrev LabelGroup := List Label

/-- Cuts the labels into groups: a label on an earlier line than the one before it
    starts a new group. -/
def groupLabels (text : SourceText) : List Label → List LabelGroup
  | [] => []
  | l :: rest =>
    match rest, groupLabels text rest with
    | next :: _, group :: groups =>
      if l.lineIn text ≤ next.lineIn text then (l :: group) :: groups else [l] :: group :: groups
    | _, _ => [[l]]

def LabelGroup.lines (text : SourceText) (group : LabelGroup) : Nat × Nat :=
  let start := (group.map (·.span.start)).foldl min ((group.map (·.span.start)).headD 0)
  let stop := (group.map (·.span.stop)).foldl max 0
  (text.lineOf start, text.lineOf (max (stop - 1) start))

def spaces (n : Nat) : List Char := List.replicate n ' '

/-- The rows of the lines from `line` on.  `skipped` says whether the line before was
    left out; `margin` is the number of digits of a line number. -/
def groupRows (text : SourceText) (margin : Nat) (group : LabelGroup) (skipped : Bool) :
    (count line : Nat) → List (List Char)
  | 0, _ => []
  | count + 1, n =>
    let line := text.line n
    let labels := group.filter (·.isWithin line)
    let bar := spaces (margin + 2) ++ ['│']
    if labels.isEmpty then
      (if skipped then [] else [bar]) ++ groupRows text margin group true count (n + 1)
    else
      let sorted := Label.sort line labels
      let length := (sorted.map fun l => l.span.stop - line.offset).foldl max 0 + 2
      let number := (toString (n + 1)).toList
      (' ' :: spaces (margin - number.length) ++ number ++ [' ', '│', ' '] ++ line.shown) ::
        (labelRows line length sorted true sorted).map (bar ++ ' ' :: ·) ++
        groupRows text margin group false count (n + 1)

/-- The rows of the help, below an empty one.  The second line of the help and those
    after it are set level with the first one. -/
def helpRows (bar : List Char) (help : String) : List (List Char) :=
  match Text.lines help.toList with
  | [] => [bar]
  | line :: rest =>
    bar :: (bar ++ " Help: ".toList ++ line) :: rest.map (bar ++ spaces 7 ++ ·)

/-- The lines of a report on labels of which the first is the main one: a header for
    each group with the place of the main label, and help at the end. -/
def drawGroups (text : SourceText) (margin : Nat) (place : List Char)
    (help : Option String) : (first : Bool) → List LabelGroup → List (List Char)
  | _, [] => []
  | first, group :: rest =>
    let bar := spaces (margin + 2) ++ ['│']
    let (top, bottom) := group.lines text
    let header := spaces (margin + 2) ++ (if first then '╭' else '├') :: '─' :: '[' :: ' ' ::
      place ++ [' ', ']']
    let body := header :: bar :: groupRows text margin group false (bottom + 1 - top) top
    if rest.isEmpty then
      body ++
        (match help with
          | none => []
          | some help => helpRows bar help) ++
        [List.replicate (margin + 2) '─' ++ ['╯']]
    else body ++ bar :: drawGroups text margin place help false rest

/-- The place of a position as it is shown, `line:column`. -/
def showPosition (text : SourceText) (position : Nat) : String :=
  if position ≤ text.total then
    let n := text.lineOf position
    toString (n + 1) ++ ":" ++ toString (position - (text.line n).offset + 1)
  else "?:?"

def drawLabels (text : SourceText) (fileName : String) (main : Label) (others : List Label)
    (help : Option String) : List (List Char) :=
  let groups := groupLabels text ((main :: others).filter (·.fits text.total))
  let margin := (groups.map fun g => (toString ((g.lines text).2 + 1)).length).foldl max 0
  let place := fileName ++ ":" ++ showPosition text main.span.start
  drawGroups text margin place.toList help true groups

end UnionTyping
