/-
  UnionTyping/Binding/Worklist.lean
  =================================
  **Units that wait to be checked again.**

  A unit is the top level of a program or one instance of a method.  It is put on
  the worklist when something that it has read widens, together with the
  assignment that caused it, and taken off in the order of arrival.  A unit that
  is waiting already keeps its place and its first cause.
-/
import UnionTyping.Location

namespace UnionTyping

/-- The number of a unit; 0 is the top level of the program. -/
abbrev UnitId := Nat

def topUnit : UnitId := 0

/-- A unit that has to be checked again.  Without a cause it was not an assignment
    that widened something. -/
structure Pending where
  unit : UnitId
  cause : Option Location
deriving DecidableEq, Repr

abbrev Worklist := List Pending

namespace Worklist

def holds (w : Worklist) (unit : UnitId) : Bool := w.any (·.unit == unit)

/-- Puts a unit at the end, unless it is waiting. -/
def enqueue (w : Worklist) (unit : UnitId) (cause : Option Location) : Worklist :=
  if w.holds unit then w else w ++ [⟨unit, cause⟩]

def enqueueAll (w : Worklist) (units : List UnitId) (cause : Option Location) : Worklist :=
  units.foldl (fun w unit => w.enqueue unit cause) w

end Worklist

end UnionTyping
