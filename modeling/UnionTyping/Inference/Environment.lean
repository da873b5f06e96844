/-
  UnionTyping/Inference/Environment.lean
  ======================================
  **What the declarations of a program say before any body is checked.**

  Classes are declared first, in source order, so a method can speak of a class
  that comes later; a superclass has to come before.  Then methods and libraries
  are declared in source order with the types of their parameters.  The first
  declaration with something wrong in it ends the run.
-/
import UnionTyping.Methods
import UnionTyping.Native.Call
import UnionTyping.Primitive
import UnionTyping.Settings

namespace UnionTyping

/-- The declarations of a program, its top-level expressions and the settings of
    the run.  Nothing in it changes while bodies are checked. -/
structure Env where
  settings : Settings
  classes : ClassTable
  /-- Inheritance in `classes` by name. -/
  hierarchy : Hierarchy
  libraries : LibraryTable
  methods : Methods
  topLevel : List Expr

namespace Env

/-! ### Classes -/

def superclassId (classes : ClassTable) (ref : TypeRef) : Except Diagnostic ClassId :=
  match classes.lookup ref.name with
  | some id => .ok id
  | none => .error (.of (.uninitializedConstant ref.name) ref.loc)

def declareClass (roots : Roots) (classes : ClassTable) (decl : ClassDecl) :
    Except Diagnostic ClassTable := do
  let superclass ← decl.superclass.mapM (superclassId classes)
  let fallback := if decl.isStruct then roots.value else roots.object
  match classes.declare decl.name superclass fallback with
  | .ok (_, classes) => return classes
  | .error problem => throw (.of problem decl.loc)

def declareClasses (roots : Roots) (classes : ClassTable) : List Item →
    Except Diagnostic ClassTable
  | [] => return classes
  | .classDecl decl :: rest => do declareClasses roots (← declareClass roots classes decl) rest
  | _ :: rest => declareClasses roots classes rest

/-! ### Methods and libraries -/

def signatureOf (classes : ClassTable) (d : Def) : Except Diagnostic Signature := do
  let params ← d.params.mapM fun p => p.restriction.mapM classes.typeOf
  return ⟨params, d.required⟩

def declareMethod (classes : ClassTable) (owner : Owner) (methods : Methods) (d : Def) :
    Except Diagnostic Methods := do
  let signature ← signatureOf classes d
  return (methods.add ⟨owner, signature, d⟩).2

/-- A native function with its types; without a written one it returns nil. -/
def nativeFunction (classes : ClassTable) (decl : FunctionDecl) :
    Except Diagnostic NativeFunction := do
  let params ← decl.params.mapM fun p => do
    return (⟨p.name, ← classes.typeOf p.ty, if p.isOut then .out else .byValue⟩ : NativeParam)
  let ret ← decl.ret.mapM classes.typeOf
  return ⟨decl.name, params, ret.getD .nil⟩

def declareLibrary (classes : ClassTable) (libraries : LibraryTable) (decl : LibraryDecl) :
    Except Diagnostic LibraryTable :=
  let (id, libraries) := libraries.declare decl.name
  decl.functions.foldlM
    (fun libraries function => do
      return libraries.addFunction id (← nativeFunction classes function))
    libraries

def declareItem (classes : ClassTable) (methods : Methods) (libraries : LibraryTable) :
    Item → Except Diagnostic (Methods × LibraryTable)
  | .method d => return (← declareMethod classes .topLevel methods d, libraries)
  | .classDecl decl =>
    match classes.lookup decl.name with
    | none => return (methods, libraries)
    | some id =>
      return (← decl.methods.foldlM (declareMethod classes (.ofClass id)) methods, libraries)
  | .library decl => return (methods, ← declareLibrary classes libraries decl)
  | .expr _ => return (methods, libraries)

def declareMembers (classes : ClassTable) (methods : Methods) (libraries : LibraryTable) :
    List Item → Except Diagnostic (Methods × LibraryTable)
  | [] => return (methods, libraries)
  | item :: rest => do
    let (methods, libraries) ← declareItem classes methods libraries item
    declareMembers classes methods libraries rest

/-- The environment in which a program is checked, or the first declaration with
    something wrong in it. -/
def ofProgram (settings : Settings) (program : Program) : Except Diagnostic Env := do
  let (roots, builtin) := ClassTable.empty.addBuiltins
  let classes ← declareClasses roots builtin program.items
  let (methods, libraries) ← declareMembers classes .empty .empty program.items
  return ⟨settings, classes, classes.hierarchy, libraries, methods, program.topLevel⟩

end Env

end UnionTyping
