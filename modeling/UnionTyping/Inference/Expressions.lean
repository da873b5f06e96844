/-
  UnionTyping/Inference/Expressions.lean
  ======================================
  **The type of an expression.**

  Expressions are gone through in the order of their evaluation, since an
  assignment makes its name visible to what comes after it.  A name is a variable
  where it is visible and a call otherwise.  Both branches of a conditional and
  both sides of `or` and `and` count, so their types are joined; a loop is nil.
  `break` and `next` belong inside the body of a loop or a block; how many such bodies
  are around an expression is counted on the way.

  The recursion is on the expression.  What an instance of a method does is not
  looked at here; `Checking.begin` sees to it.
-/
import UnionTyping.Inference.Calls

namespace UnionTyping

def Literal.ty : Literal → Ty
  | .nil => .nil
  | .bool => .bool
  | .int => .int
  | .double => .double
  | .char => .char
  | .string => .string

inductive ReceiverKind where
  /-- The name of a declared class. -/
  | ofClass (ref : TypeRef)
  /-- The name of a library, and of no class. -/
  | ofLibrary (library : Library)
  | value

def Env.receiverKind (env : Env) : Expr → ReceiverKind
  | .path _ ref =>
    match env.classes.lookup ref.name with
    | some _ => .ofClass ref
    | none =>
      match (env.libraries.lookup ref.name).bind env.libraries.get? with
      | some library => .ofLibrary library
      | none => .value
  | _ => .value

def Expr.outTarget? : Expr → Option Target
  | .out _ target => some target
  | _ => none

namespace Checking

variable (c : Checking)

def bindLocals : List String → WalkM Unit
  | [] => return ()
  | name :: rest => do
    let _ ← c.bindLocal name
    bindLocals rest

def inLoop (steps : WalkM Ty) : WalkM Ty := do
  WalkM.change fun w => { w with loopDepth := w.loopDepth + 1 }
  let ty ← steps
  WalkM.change fun w => { w with loopDepth := w.loopDepth - 1 }
  return ty

/-- Makes the steps of a block in a scope of its own.  The parameters of a block
    have no type until something assigns them. -/
def inBlock (call : NodeId) (params : List String) (steps : WalkM Ty) : WalkM Unit := do
  WalkM.change fun w => { w with scopes := w.scopes.enter (.block call) }
  c.bindLocals params
  let _ ← inLoop steps
  WalkM.change fun w => { w with scopes := w.scopes.leave }

def loopDepth : WalkM Nat := return (← get).loopDepth

def loopControl (keyword : LoopControl) (loc : Location) : WalkM Ty := do
  if (← loopDepth) = 0 then c.fail (.strayLoopControl keyword.keyword) loc
  else return .nil

/-- The binding that a compound assignment changes. -/
def bindingToUpdate (mark : Mark) (target : Target) (op : String) : WalkM (Option BindingId) := do
  match target with
  | .local name =>
    match ← lookup name with
    | some binding => return some binding
    | none =>
      let _ ← c.fail (.opAssignBeforeDefinition (op ++ "=") name) mark.loc
      return none
  | .ivar name => c.ivarOf name mark.loc

mutual

/-- The type of an expression.  The types of its parts are noted on the way. -/
def infer : Expr → WalkM Ty
  | .literal _ value => return value.ty
  | .ident m name => do
    match ← lookup name with
    | some binding => c.read binding
    | none => c.callOnSelf m name [] true
  | .ivar m name => c.readIvar name m.loc
  | .out m target => c.outType target m.loc
  | .assign m target value => do
    let ty ← typed value.id (infer value)
    match ← c.bindingToAssign target m.loc with
    | some binding =>
      c.assign binding m.loc ty
      return ty
    | none => return .unresolved
  | .opAssign m target op value => do
    match ← c.bindingToUpdate m target op with
    | none => return .unresolved
    | some binding =>
      let current ← c.read binding
      let operand ← typed value.id (infer value)
      let ty ← c.callOn m current op [operand]
      c.assign binding m.loc ty
      return ty
  | .path _ ref => do
    match c.env.classes.typeOf ref with
    | .ok _ => return .classObject
    | .error d => c.fail d.problem d.location
  | .connect _ _ lhs rhs => do
    let left ← typed lhs.id (infer lhs)
    let right ← typed rhs.id (infer rhs)
    return left.union right
  | .ite _ cond thenBody elseBody => do
    let _ ← typed cond.id (infer cond)
    let thenTy ← inferBody .nil thenBody
    let elseTy ← inferBody .nil elseBody
    return thenTy.union elseTy
  | .loop _ cond body => do
    let _ ← typed cond.id (infer cond)
    let _ ← inLoop (inferBody .nil body)
    return .nil
  | .control m keyword => c.loopControl keyword m.loc
  | .call m none name args block parens => do
    let given ← inferArgs args
    inferBlock m.id block
    c.callOnSelf m name given (!parens && args.isEmpty)
  | .call m (some receiver) name args block _ => do
    if name = "ptr" then
      c.takePointer m receiver args.length block.isSome
    else
      match c.env.receiverKind receiver with
      | .ofClass ref =>
        match c.env.classes.typeOf ref with
        | .error d => c.fail d.problem d.location
        | .ok ty =>
          noteType receiver.id .classObject
          let given ← inferArgs args
          inferBlock m.id block
          c.callOnClass m ref.name ty name given
      | .ofLibrary library =>
        noteType receiver.id .classObject
        match library.find? name with
        | none => c.fail (.undefinedMethod name (some library.name)) m.loc
        | some function =>
          let given ← inferNativeArgs args
          inferBlock m.id block
          c.callNative m library.name function args given
      | .value =>
        let self ← typed receiver.id (infer receiver)
        let given ← inferArgs args
        inferBlock m.id block
        c.callOn m self name given
termination_by structural e => e

/-- The type of the last of several expressions, `last` if there is none. -/
def inferBody (last : Ty) : List Expr → WalkM Ty
  | [] => return last
  | e :: es => do
    let ty ← typed e.id (infer e)
    inferBody ty es
termination_by structural es => es

def inferArgs : List Expr → WalkM (List Ty)
  | [] => return []
  | e :: es => do
    let ty ← typed e.id (infer e)
    return ty :: (← inferArgs es)
termination_by structural es => es

def inferBlock (call : NodeId) : Option Block → WalkM Unit
  | none => return ()
  | some (.mk params body) => c.inBlock call params (inferBody .nil body)
termination_by structural b => b

/-- The arguments of a native call.  The variable of an `out` argument need not be
    there yet. -/
def inferNativeArgs : List Expr → WalkM (List NativeArg)
  | [] => return []
  | e :: es => do
    let arg : NativeArg ← match e.outTarget? with
      | some target => do
        let ty ← typed e.id (c.nativeOutType target e.loc)
        pure ⟨ty, true⟩
      | none => do
        let ty ← typed e.id (infer e)
        pure ⟨ty, false⟩
    return arg :: (← inferNativeArgs es)
termination_by structural es => es

end

def check (e : Expr) : WalkM Ty := typed e.id (c.infer e)

end Checking

end UnionTyping
