/-
  UnionTyping/Primitive.lean
  ==========================
  **The classes and methods that every program starts with.**

  `Object` is the root of all classes and `Value` of those whose instances are
  copied.  Numbers, characters, booleans, nil and pointers are values.  Their
  operations are primitives: they take part in overload resolution as user
  methods do, but their types are fixed.
-/
import UnionTyping.ClassTable

namespace UnionTyping

/-! ### Builtin classes -/

/-- The two classes that user classes inherit from by default. -/
structure Roots where
  object : ClassId
  value : ClassId
deriving DecidableEq, Repr

/-- A class of the language: its name, superclass, kind and type parameters. -/
structure BuiltinClass where
  name : String
  superclass : Option String
  kind : ClassKind
  typeParams : List String

/-- The classes of the language, superclasses first. -/
def builtinClasses : List BuiltinClass := [
  ⟨"Object", none, .reference, []⟩,
  ⟨"Value", some "Object", .value, []⟩,
  ⟨"Int", some "Value", .value, []⟩,
  ⟨"Double", some "Value", .value, []⟩,
  ⟨"Char", some "Value", .value, []⟩,
  ⟨"Bool", some "Value", .value, []⟩,
  ⟨"Nil", some "Value", .value, []⟩,
  ⟨"String", some "Object", .reference, []⟩,
  ⟨"Class", some "Object", .reference, []⟩,
  ⟨"Pointer", some "Value", .value, ["T"]⟩]

def ClassTable.addBuiltins (t : ClassTable) : Roots × ClassTable :=
  let first := t.classes.length
  (⟨first, first + 1⟩,
    builtinClasses.foldl (fun t c => (t.addBuiltin c.name c.superclass c.kind c.typeParams).2) t)

/-! ### Primitive methods -/

/-- A method of the language with the types of its parameters and of its value. -/
structure Primitive where
  params : List Ty
  ret : Ty
deriving BEq, Repr, Inhabited

namespace Primitive

def signature (p : Primitive) : Signature := .exact (p.params.map some)

def isArithmetic (name : String) : Bool := ["+", "-", "*", "/"].contains name

def isComparison (name : String) : Bool := ["<", "<=", ">", ">=", "=="].contains name

def ofNumber (self : Ty) (name : String) : List Primitive :=
  if isArithmetic name then [⟨[.int], self⟩, ⟨[.double], .double⟩]
  else if isComparison name then [⟨[.int], .bool⟩, ⟨[.double], .bool⟩]
  else if name = "to_i" then [⟨[], .int⟩]
  else if name = "to_d" then [⟨[], .double⟩]
  else []

/-- Operations on a pointer to a value of type `element`; `self` is the type of the
    pointer. -/
def ofPointer (self element : Ty) (name : String) : List Primitive :=
  if name = "value" then [⟨[], element⟩]
  else if name = "value=" then [⟨[element], element⟩]
  else if name = "+" ∨ name = "realloc" then [⟨[.int], self⟩]
  else []

def on (className : String) (args : List Ty) (name : String) : List Primitive :=
  match className with
  | "Int" => if name = "chr" then [⟨[], .char⟩] else ofNumber .int name
  | "Double" => ofNumber .double name
  | "Char" =>
    if name = "ord" then [⟨[], .int⟩]
    else if name = "==" then [⟨[.char], .bool⟩]
    else []
  | "Bool" => if name = "==" then [⟨[.bool], .bool⟩] else []
  | "Pointer" =>
    match args with
    | [] => []
    | element :: _ => ofPointer (.con className args) element name
  | _ => []

/-- The allocation of memory for elements of the first type argument.  The
    argument has to be written. -/
def malloc (className : String) (args : List Ty) : Except Problem Primitive :=
  match args with
  | [] => .error (.typeArgumentRequired className "malloc")
  | element :: _ => .ok ⟨[.int], .pointer element⟩

end Primitive

end UnionTyping
