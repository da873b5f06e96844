/-
  UnionTyping/Problem.lean
  ========================
  **What can be wrong with a program, and how it is said.**

  A `Problem` is the cause; `Problem.message` is its wording and `Problem.code`
  its number, both of which tools rely on.  A `Diagnostic` adds the place of the
  failing expression and, for a failure that only came up after a variable had
  widened, the place of the assignment that widened it.
-/
import UnionTyping.Location
import UnionTyping.Signature
import UnionTyping.Text.LowerCase

namespace UnionTyping

inductive Problem where
  /-- A bare name is neither a visible local nor a method. -/
  | undefinedName (name : String)
  /-- There is no such method for the receiver or, without one, anywhere in
      sight. -/
  | undefinedMethod (name : String) (owner : Option String)
  /-- No overload takes so many arguments. -/
  | wrongArgumentCount (name : String) (given : Nat) (expected : Arity)
  /-- No overload accepts this combination of argument types. -/
  | noOverloadMatches (name : String) (args : List Ty)
  /-- An argument of a native function has the wrong type. -/
  | nativeArgumentType (lib function : String) (index : Nat) (expected actual : Ty)
  /-- An argument of a native function should have been passed as `out`. -/
  | nativeArgumentMode (lib function : String) (index : Nat)
  | uninitializedConstant (name : String)
  /-- A class was reopened with another superclass. -/
  | superclassMismatch (className given existing : String)
  | ivarOutsideClass
  | ivarInValueClass (className : String)
  /-- A `break` or `next` outside of a loop. -/
  | strayLoopControl (keyword : String)
  /-- A method of a generic class needs the type argument written out. -/
  | typeArgumentRequired (className method : String)
  | wrongTypeArgumentCount (name : String) (given expected : Nat)
  | pointerOfNonVariable
  | blockNotAccepted (name : String)
  /-- A compound assignment to a local that has no value yet. -/
  | opAssignBeforeDefinition (op name : String)
deriving BEq, Repr

namespace Problem

def message : Problem → String
  | undefinedName name => "undefined local variable or method '" ++ name ++ "'"
  | undefinedMethod name none => "undefined method '" ++ name ++ "'"
  | undefinedMethod name (some owner) => "undefined method '" ++ name ++ "' for " ++ owner
  | wrongArgumentCount name given expected =>
    "wrong number of arguments for '" ++ name ++ "' (" ++ toString given ++ " for " ++
      expected.text ++ ")"
  | noOverloadMatches _ _ => "no overload matches"
  | nativeArgumentType lib function index expected actual =>
    "argument #" ++ toString index ++ " to " ++ lib ++ "." ++ function ++ " must be " ++
      expected.text ++ ", not " ++ actual.text
  | nativeArgumentMode lib function index =>
    "argument #" ++ toString index ++ " to " ++ lib ++ "." ++ function ++
      " must be passed as 'out'"
  | uninitializedConstant name => "uninitialized constant " ++ name
  | superclassMismatch className given existing =>
    "superclass mismatch for class " ++ className ++ " (" ++ given ++ " for " ++ existing ++ ")"
  | ivarOutsideClass => "can't use instance variables at the top level"
  | ivarInValueClass className => "can't use instance variables inside " ++ className
  | strayLoopControl keyword => "Invalid " ++ keyword
  | typeArgumentRequired className method =>
    "can't " ++ method ++ " " ++ Text.lowerCase className ++ " without type, use " ++
      className ++ "(Type)." ++ method ++ "(size)"
  | wrongTypeArgumentCount name given expected =>
    "wrong number of type vars for " ++ name ++ " (given " ++ toString given ++
      ", expected " ++ toString expected ++ ")"
  | pointerOfNonVariable => "can only get 'ptr' of variable or instance variable"
  | blockNotAccepted name => "'" ++ name ++ "' can't receive a block"
  | opAssignBeforeDefinition op name => "'" ++ op ++ "' before definition of '" ++ name ++ "'"

def code : Problem → String
  | undefinedName _ => "E0001"
  | undefinedMethod _ _ => "E0002"
  | wrongArgumentCount _ _ _ => "E0003"
  | noOverloadMatches _ _ => "E0004"
  | nativeArgumentType _ _ _ _ _ => "E0005"
  | nativeArgumentMode _ _ _ => "E0006"
  | uninitializedConstant _ => "E0007"
  | superclassMismatch _ _ _ => "E0008"
  | ivarOutsideClass => "E0009"
  | ivarInValueClass _ => "E0010"
  | strayLoopControl _ => "E0011"
  | typeArgumentRequired _ _ => "E0012"
  | wrongTypeArgumentCount _ _ _ => "E0013"
  | pointerOfNonVariable => "E0014"
  | blockNotAccepted _ => "E0015"
  | opAssignBeforeDefinition _ _ => "E0016"

end Problem

structure Diagnostic where
  problem : Problem
  location : Location
  /-- The assignment that exposed the problem by widening a variable. -/
  related : Option Location
deriving BEq, Repr

namespace Diagnostic

/-- A problem that no widening had to bring up. -/
def of (problem : Problem) (location : Location) : Diagnostic := ⟨problem, location, none⟩

def message (d : Diagnostic) : String := d.problem.message

end Diagnostic

end UnionTyping
