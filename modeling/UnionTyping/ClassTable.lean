/-
  UnionTyping/ClassTable.lean
  ===========================
  **The classes of a program.**

  Classes form a tree of single inheritance.  A class refers to its superclass by
  its place in the table, and the superclass is there before it, so nothing is
  its own ancestor.  A class is fixed when it is first declared: opening it again
  with another superclass is a mismatch, and opening it without one changes
  nothing.  Instances of a class are values or references, as those of its
  superclass are.

  `typeOf` turns a written type into a type.  A generic class may be written
  without arguments; with arguments their number has to be right.
-/
import UnionTyping.Problem
import UnionTyping.Hierarchy
import UnionTyping.Syntax.TypeRef

namespace UnionTyping

abbrev ClassId := Nat

/-- Instances are shared, or copied and then without instance variables. -/
inductive ClassKind where
  | reference
  | value
deriving DecidableEq, Repr

structure ClassEntry where
  name : String
  superclass : Option ClassId
  kind : ClassKind
  /-- The names of the type parameters, `["T"]` for `Pointer(T)`. -/
  typeParams : List String
deriving DecidableEq, Repr

/-- The classes in the order of their declaration. -/
structure ClassTable where
  classes : List ClassEntry
deriving Repr, Inhabited

def lastIdx? {α : Type} (p : α → Bool) : List α → Option Nat
  | [] => none
  | x :: xs =>
    match lastIdx? p xs with
    | some i => some (i + 1)
    | none => if p x then some 0 else none

namespace ClassTable

def empty : ClassTable := ⟨[]⟩

/-! ### Looking classes up -/

/-- The class of that name; the latest one if a name was added more than once. -/
def lookup (t : ClassTable) (name : String) : Option ClassId :=
  lastIdx? (·.name == name) t.classes

def get? (t : ClassTable) (id : ClassId) : Option ClassEntry := t.classes[id]?

/-- The name of a class; empty for a place outside the table. -/
def nameOf (t : ClassTable) (id : ClassId) : String :=
  ((t.get? id).map ClassEntry.name).getD ""

/-- The kind of a class; a place outside the table counts as a reference class. -/
def kindOf (t : ClassTable) (id : ClassId) : ClassKind :=
  ((t.get? id).map ClassEntry.kind).getD .reference

def parent? (t : ClassTable) (id : ClassId) : Option ClassId :=
  (t.get? id).bind ClassEntry.superclass

/-- The class of the instances of a type, if it is the type of instances of one
    declared class. -/
def classOf (t : ClassTable) (ty : Ty) : Option ClassId :=
  ty.className?.bind t.lookup

def climb (t : ClassTable) : (steps : Nat) → (id : ClassId) → List ClassId
  | 0, id => [id]
  | steps + 1, id =>
    id :: match t.parent? id with
      | none => []
      | some parent => t.climb steps parent

def ancestors (t : ClassTable) (id : ClassId) : List ClassId :=
  t.climb t.classes.length id

def hierarchy (t : ClassTable) : Hierarchy :=
  ⟨t.classes.reverse.map fun c => (c.name, c.superclass.map t.nameOf)⟩

/-! ### Declaring classes -/

def insert (t : ClassTable) (info : ClassEntry) : ClassId × ClassTable :=
  (t.classes.length, ⟨t.classes ++ [info]⟩)

/-- Adds a class of the language itself under the class `superclass`, if there is
    one of that name. -/
def addBuiltin (t : ClassTable) (name : String) (superclass : Option String) (kind : ClassKind)
    (typeParams : List String) : ClassId × ClassTable :=
  t.insert ⟨name, superclass.bind t.lookup, kind, typeParams⟩

/-- Opens a class, which is declared by that if it is new, and gives the table afterwards.
    A new class without a superclass of its own inherits from `fallback`. -/
def openClass (t : ClassTable) (name : String) (superclass : Option ClassId) (fallback : ClassId) :
    Except Problem ClassId × ClassTable :=
  match t.lookup name with
  | some existing =>
    let established := t.parent? existing
    match superclass with
    | none => (.ok existing, t)
    | some given =>
      if established = some given then (.ok existing, t)
      else
        (.error (.superclassMismatch name (t.nameOf given)
          ((established.map t.nameOf).getD "nothing")), t)
  | none =>
    let parent := superclass.getD fallback
    let (id, t) := t.insert ⟨name, some parent, t.kindOf parent, []⟩
    (.ok id, t)

/-- Opens a class for one who does not go on after a failure. -/
def declare (t : ClassTable) (name : String) (superclass : Option ClassId) (fallback : ClassId) :
    Except Problem (ClassId × ClassTable) :=
  match t.openClass name superclass fallback with
  | (.ok id, t) => .ok (id, t)
  | (.error problem, _) => .error problem

/-! ### Written types -/

/-- A class with its type parameters, `Pointer(T)`. -/
def genericName (info : ClassEntry) : String :=
  match info.typeParams with
  | [] => info.name
  | params => info.name ++ "(" ++ String.intercalate ", " params ++ ")"

mutual

/-- The type that is written, or the first thing wrong with it from the outside
    in, at its place. -/
def typeOf (t : ClassTable) : TypeRef → Except Diagnostic Ty
  | .mk name args loc => do
    match (t.lookup name).bind t.get? with
    | none => throw (.of (.uninitializedConstant name) loc)
    | some info =>
      let expected := info.typeParams.length
      if !args.isEmpty && args.length != expected then
        throw (.of (.wrongTypeArgumentCount (genericName info) args.length expected) loc)
      return .con name (← typesOf t args)
termination_by structural x => x

def typesOf (t : ClassTable) : List TypeRef → Except Diagnostic (List Ty)
  | [] => return []
  | r :: rs => do
    let ty ← typeOf t r
    return ty :: (← typesOf t rs)
termination_by structural x => x

end

end ClassTable

end UnionTyping
