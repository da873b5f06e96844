/-
  UnionTyping/Syntax/TypeRef.lean
  ===============================
  **Types as they are written in a program.**

  A written type is the name of a class with optional type arguments and the
  place where it stands.
-/
import UnionTyping.Location

namespace UnionTyping

/-- A written type, `Name` or `Name(Arg, …)`. -/
inductive TypeRef where
  | mk (name : String) (args : List TypeRef) (loc : Location)
deriving Repr, Inhabited

namespace TypeRef

def name : TypeRef → String
  | mk name _ _ => name

def args : TypeRef → List TypeRef
  | mk _ args _ => args

def loc : TypeRef → Location
  | mk _ _ loc => loc

end TypeRef

end UnionTyping
