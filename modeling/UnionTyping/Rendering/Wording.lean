/-
  UnionTyping/Rendering/Wording.lean
  ==================================
  **What a report says beside the source line.**

  Next to the message of a problem a report puts a label under the failing
  expression and often a line of help.  The help on a wrong number of arguments
  says how many are missing or too many; there is none to give for a number that
  is not wrong.
-/
import UnionTyping.LineTable
import UnionTyping.Problem

namespace UnionTyping

/-- Why a diagnostic cannot be shown. -/
inductive RenderError where
  /-- The place is so far outside the text that its offset is no 32-bit number. -/
  | overflow
  /-- The diagnostic complains about a number of arguments that is accepted. -/
  | acceptedCount
deriving DecidableEq, Repr

namespace Problem

def label : Problem → String
  | undefinedName name => "`" ++ name ++ "` is neither a local variable nor a method here"
  | undefinedMethod name (some owner) => owner ++ " has no method `" ++ name ++ "`"
  | undefinedMethod name none => "no method `" ++ name ++ "` is visible here"
  | wrongArgumentCount _ _ expected => "expected " ++ expected.text ++ " argument(s)"
  | noOverloadMatches name args =>
    "no overload of `" ++ name ++ "` accepts (" ++
      String.intercalate ", " (args.map Ty.text) ++ ")"
  | nativeArgumentType _ _ _ _ actual => "found " ++ actual.text
  | nativeArgumentMode _ _ _ => "passed by value"
  | uninitializedConstant name => "`" ++ name ++ "` is not declared"
  | superclassMismatch _ _ _ => "superclass given here"
  | ivarOutsideClass => "no enclosing class"
  | ivarInValueClass className => className ++ " is a value type"
  | strayLoopControl _ => "not inside a loop"
  | typeArgumentRequired _ _ => "type argument missing"
  | wrongTypeArgumentCount _ _ expected => "expected " ++ toString expected ++ " type argument(s)"
  | pointerOfNonVariable => "not a variable"
  | blockNotAccepted _ => "block given here"
  | opAssignBeforeDefinition _ name => "`" ++ name ++ "` is not defined yet"

def countHelp (given : Nat) (expected : Arity) : Except RenderError String :=
  if given < expected.min then .ok ("missing " ++ toString (expected.min - given) ++ " argument(s)")
  else if given < expected.max then .error .acceptedCount
  else .ok (toString (given - expected.max) ++ " extra argument(s)")

def help : Problem → Except RenderError (Option String)
  | undefinedName name =>
    .ok (some ("assign `" ++ name ++ "` before this point or define `def " ++ name ++ "`"))
  | wrongArgumentCount _ given expected => (countHelp given expected).map some
  | noOverloadMatches _ _ =>
    .ok (some "every member of a union argument must match some overload")
  | nativeArgumentType _ _ _ expected _ =>
    .ok (some ("the parameter is declared as " ++ expected.text))
  | nativeArgumentMode _ _ _ =>
    .ok (some "write `out var` to let the function assign the variable")
  | superclassMismatch className _ existing =>
    .ok (some ("`" ++ className ++ "` already inherits from " ++ existing))
  | ivarOutsideClass => .ok (some "instance variables can only be used inside class methods")
  | ivarInValueClass _ =>
    .ok (some "value types are copied and cannot hold instance variables")
  | typeArgumentRequired className method =>
    .ok (some ("write `" ++ className ++ "(Type)." ++ method ++ "(size)`"))
  | opAssignBeforeDefinition op name =>
    .ok (some ("assign `" ++ name ++ "` before using `" ++ op ++ "`"))
  | _ => .ok none

end Problem

end UnionTyping
