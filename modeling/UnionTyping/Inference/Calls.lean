/-
  UnionTyping/Inference/Calls.lean
  ================================
  **Carrying out a call whose receiver and arguments have their types.**

  A call on a union is made on each member in turn.  The candidates on a member
  are the methods that its class finds, followed by the primitives of that class;
  a call without receiver looks on `self` first and then among the top-level
  methods.  When the number of arguments fits but some argument has no type yet,
  the call waits: it has no type and nothing is noted.  Otherwise overloads are
  resolved and each match is entered: a method as one of its instances, a
  primitive by its fixed type.  The call has the union of the types of its
  matches.
-/
import UnionTyping.Inference.Engine
import UnionTyping.Overload

namespace UnionTyping

inductive Candidate where
  | method (entry : MethodEntry)
  | primitive (p : Primitive)

def Candidate.signature : Candidate → Signature
  | .method entry => entry.method.signature
  | .primitive p => p.signature

/-- The candidates for a call on an instance of a class: the methods that the class
    finds, then its primitives. -/
def Env.candidates (env : Env) (member : Ty) (name : String) : List Candidate :=
  match member with
  | .con className args =>
    let methods := match env.classes.lookup className with
      | some id => env.methods.lookup env.classes id name
      | none => []
    methods.map .method ++ (Primitive.on className args name).map .primitive
  | _ => []

def Overload.Failure.problem (name : String) : Overload.Failure → Problem
  | .wrongArity given expected => .wrongArgumentCount name given expected
  | .noMatch args => .noOverloadMatches name args

namespace Checking

variable (c : Checking)

/-- The unit of an instance of a method and the type it returns so far.  A new
    instance is seen to before its type is read. -/
def instanceOf (site : Location) (method : MethodId) (self : Option Ty) (args : List Ty) :
    WalkM (UnitId × Ty) := do
  let key : Instantiation := ⟨method, self, args⟩
  let engine ← (getThe Engine : EngineM Engine)
  let unit ← match engine.unitOf key with
    | some unit => pure unit
    | none => do
      let unit ← Engine.addUnit key
      c.begin unit (c.cause.getD site)
      pure unit
  let returned ← bindingOf (.returned unit)
  return (unit, ← c.read returned)

/-- Carries a call out for one match; gives the type of its value and what it
    invokes. -/
def enter (site : Location) (self : Option Ty) (name : String) (args : List Ty) :
    Candidate → WalkM (Ty × Callee)
  | .method entry => do
    let (unit, ty) ← c.instanceOf site entry.id self args
    return (ty, .method entry.id unit)
  | .primitive p => return (p.ret, .primitive name)

/-- Carries a call out for all matches; gives the union of the types and `result`. -/
def enterAll (mark : Mark) (self : Option Ty) (name : String) (candidates : List Candidate)
    (result : Ty) : List Overload.Match → WalkM Ty
  | [] => return result
  | found :: rest => do
    match candidates[found.candidate]? with
    | none => enterAll mark self name candidates result rest
    | some candidate =>
      let (ty, target) ← c.enter mark.loc self name found.args candidate
      noteCall mark.id ⟨self, target, found.args, ty⟩
      enterAll mark self name candidates (result.union ty) rest

/-- Resolves a call among candidates and carries it out; gives nothing when that
    failed. -/
def callAmong (mark : Mark) (self : Option Ty) (name : String) (candidates : List Candidate)
    (args : List Ty) : WalkM (Option Ty) := do
  let signatures := candidates.map Candidate.signature
  match Overload.requireArity signatures args.length with
  | .error failure =>
    let _ ← c.fail (failure.problem name) mark.loc
    return none
  | .ok () =>
    if args.any Ty.isUnresolved then return some .unresolved
    match Overload.resolve c.env.hierarchy signatures args with
    | .error failure =>
      let _ ← c.fail (failure.problem name) mark.loc
      return none
    | .ok found => return some (← c.enterAll mark self name candidates .unresolved found)

/-- Calls `name` on each of the receivers; gives the union of the types and
    `result`. -/
def callOnEach (mark : Mark) (name : String) (args : List Ty) (result : Ty) :
    (receivers : List Ty) → WalkM Ty
  | [] => return result
  | member :: rest => do
    let candidates := c.env.candidates member name
    if candidates.isEmpty then
      c.fail (.undefinedMethod name (some member.text)) mark.loc
    else
      match ← c.callAmong mark (some member) name candidates args with
      | none => return .unresolved
      | some ty => callOnEach mark name args (result.union ty) rest

def callOn (mark : Mark) (receiver : Ty) (name : String) (args : List Ty) : WalkM Ty :=
  c.callOnEach mark name args .unresolved receiver.members

/-- Calls a top-level method.  `bare` says that the call could also have been meant
    as a variable. -/
def callTopLevel (mark : Mark) (name : String) (args : List Ty) (bare : Bool) : WalkM Ty := do
  let candidates := (c.env.methods.topLevel name).map Candidate.method
  if candidates.isEmpty then
    c.fail (if bare then .undefinedName name else .undefinedMethod name none) mark.loc
  else
    return (← c.callAmong mark none name candidates args).getD .unresolved

/-- Calls `name` without a receiver: on `self` if it has such a method, and
    otherwise at the top level. -/
def callOnSelf (mark : Mark) (name : String) (args : List Ty) (bare : Bool) : WalkM Ty := do
  match c.self with
  | none => c.callTopLevel mark name args bare
  | some self =>
    let candidates := c.env.candidates self name
    if candidates.isEmpty then c.callTopLevel mark name args bare
    else return (← c.callAmong mark (some self) name candidates args).getD .unresolved

/-! ### Calls on classes -/

/-- Makes a new instance, `Class.new(args)`, on which a visible `initialize` is
    called. -/
def callNew (mark : Mark) (ty : Ty) (args : List Ty) : WalkM Ty := do
  match c.env.classes.classOf ty with
  | none => return .unresolved
  | some id =>
    let initializers :=
      (c.env.methods.lookup c.env.classes id "initialize").map Candidate.method
    if initializers.isEmpty && !args.isEmpty then
      c.fail (.wrongArgumentCount "new" args.length (.exactly 0)) mark.loc
    else
      let entered ←
        if initializers.isEmpty then pure (some .unresolved)
        else c.callAmong mark (some ty) "initialize" initializers args
      match entered with
      | none => return .unresolved
      | some _ =>
        noteCall mark.id ⟨none, .allocate (c.env.classes.nameOf id), args, ty⟩
        return ty

/-- Allocates memory, `Pointer(T).malloc(size)`. -/
def callMalloc (mark : Mark) (ty : Ty) (args : List Ty) : WalkM Ty := do
  match ty with
  | .con className params =>
    match Primitive.malloc className params with
    | .error problem => c.fail problem mark.loc
    | .ok p => return (← c.callAmong mark (some ty) "malloc" [.primitive p] args).getD .unresolved
  | _ => return .unresolved

def callOnClass (mark : Mark) (className : String) (ty : Ty) (name : String) (args : List Ty) :
    WalkM Ty :=
  if name = "new" then c.callNew mark ty args
  else if name = "malloc" ∧ className = "Pointer" then c.callMalloc mark ty args
  else c.fail (.undefinedMethod name (some (className ++ ":Class"))) mark.loc

/-! ### Addresses of variables -/

/-- Takes the address of the variable in `receiver`, `variable.ptr`. -/
def takePointer (mark : Mark) (receiver : Expr) (given : Nat) (hasBlock : Bool) : WalkM Ty := do
  let known ← match receiver with
    | .ident _ name => do
      match ← lookup name with
      | some binding => pure (some binding)
      | none =>
        let _ ← c.fail .pointerOfNonVariable mark.loc
        pure none
    | .ivar m name => c.ivarOf name m.loc
    | _ => do
      let _ ← c.fail .pointerOfNonVariable mark.loc
      pure none
  match known with
  | none => return .unresolved
  | some binding =>
    if given ≠ 0 then c.fail (.wrongArgumentCount "ptr" given (.exactly 0)) mark.loc
    else if hasBlock then c.fail (.blockNotAccepted "ptr") mark.loc
    else
      let element ← c.read binding
      noteType receiver.id element
      if element.isUnresolved then return .unresolved
      noteCall mark.id ⟨some element, .pointer, [], .pointer element⟩
      return .pointer element

/-! ### Native calls -/

def assignOuts : List (Expr × NativeParam) → WalkM Unit
  | [] => return ()
  | (arg, param) :: rest => do
    match arg, param.mode with
    | .out m target, .out =>
      match ← c.bindingToAssign target m.loc with
      | some binding => c.assign binding m.loc param.ty
      | none => pure ()
      noteType m.id param.ty
    | _, _ => pure ()
    assignOuts rest

/-- Calls a native function.  `given` are the types of the arguments `args`. -/
def callNative (mark : Mark) (lib : String) (function : NativeFunction) (args : List Expr)
    (given : List NativeArg) : WalkM Ty := do
  match function.check c.env.hierarchy lib given with
  | .error problem => c.fail problem mark.loc
  | .ok _ =>
    c.assignOuts (args.zip function.params)
    noteCall mark.id ⟨none, .native lib function.name, given.map NativeArg.ty, function.ret⟩
    return function.ret

end Checking

end UnionTyping
