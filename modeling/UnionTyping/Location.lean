/-
  UnionTyping/Location.lean
  =========================
  **Places in source files.**

  A location is a file name with a line and a column, both counted from 1.  Line
  0 marks what has not been placed yet.  Locations are ordered by file name,
  then line, then column; file names compare by their characters, which is also
  the order of their encoded bytes.
-/
namespace UnionTyping

structure Location where
  file : String
  line : Nat
  column : Nat
deriving DecidableEq, Repr, Inhabited

namespace Location

/-- The location of what has no place in any file. -/
def unplaced : Location := ⟨"", 0, 0⟩

def isPlaced (l : Location) : Bool := decide (0 < l.line)

/-- How a location is written, `file:line:column`. -/
def text (l : Location) : String :=
  l.file ++ ":" ++ toString l.line ++ ":" ++ toString l.column

/-- By file, then line, then column. -/
def compare (a b : Location) : Ordering :=
  (Ord.compare a.file b.file).then
    ((Ord.compare a.line b.line).then (Ord.compare a.column b.column))

instance : Ord Location := ⟨Location.compare⟩

/-- The location in `file`, when known, and otherwise the place around it. -/
def within (l : Location) (file : String) (outer : Location) : Location :=
  if l.isPlaced then { l with file } else outer

end Location

end UnionTyping
