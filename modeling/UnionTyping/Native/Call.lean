/-
  UnionTyping/Native/Call.lean
  ============================
  **Checking the arguments of a native call.**

  The number of arguments has to be the number of parameters.  Then the
  arguments are looked at in order, and the first that does not fit is reported:
  an `out` parameter needs an `out` argument, whatever its type, and any other
  parameter an argument whose type is assignable to the declared one.  An
  argument without a type yet fits for the time being; the call is then
  `deferred` until the type is known.
-/
import UnionTyping.Native.Function
import UnionTyping.Problem

namespace UnionTyping

/-- An argument at a native call: its type, or for an `out` argument the type of
    the variable. -/
structure NativeArg where
  ty : Ty
  isOut : Bool
deriving Repr

inductive NativeVerdict where
  | accepted
  /-- The type of some argument is still to come. -/
  | deferred
deriving DecidableEq, Repr

namespace NativeFunction

/-- What one argument adds to the verdict on those before it.  `index` counts from
    1. -/
def checkArg (h : Hierarchy) (lib function : String) (index : Nat) (param : NativeParam)
    (arg : NativeArg) (soFar : NativeVerdict) : Except Problem NativeVerdict :=
  match param.mode with
  | .out =>
    if arg.isOut then .ok soFar else .error (.nativeArgumentMode lib function index)
  | .byValue =>
    if arg.ty.isUnresolved then .ok .deferred
    else if h.assignable arg.ty param.ty then .ok soFar
    else .error (.nativeArgumentType lib function index param.ty arg.ty)

/-- The verdict on the arguments from `index` on. -/
def checkArgs (h : Hierarchy) (lib function : String) (index : Nat) (soFar : NativeVerdict) :
    (pairs : List (NativeParam × NativeArg)) → Except Problem NativeVerdict
  | [] => .ok soFar
  | (param, arg) :: rest => do
    let next ← checkArg h lib function index param arg soFar
    checkArgs h lib function (index + 1) next rest

def check (h : Hierarchy) (lib : String) (function : NativeFunction) (args : List NativeArg) :
    Except Problem NativeVerdict :=
  if args.length = function.params.length then
    checkArgs h lib function.name 1 .accepted (function.params.zip args)
  else
    .error (.wrongArgumentCount function.name args.length (Arity.exactly function.params.length))

end NativeFunction

end UnionTyping
