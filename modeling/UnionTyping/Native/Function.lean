/-
  UnionTyping/Native/Function.lean
  ================================
  **Functions that are implemented outside the language.**

  A library declares native functions with the type and the passing mode of each
  parameter.  They are never overloaded: a later declaration of the same name in
  the same library replaces the earlier one.  A library can be opened again; its
  functions then go to the library that is already there.
-/
import UnionTyping.Ty.Basic

namespace UnionTyping

inductive Passing where
  | byValue
  /-- The function assigns the variable that is passed. -/
  | out
deriving DecidableEq, Repr

structure NativeParam where
  name : String
  ty : Ty
  mode : Passing
deriving Repr

structure NativeFunction where
  name : String
  params : List NativeParam
  ret : Ty
deriving Repr

/-- A named collection of native functions with different names. -/
structure Library where
  name : String
  functions : List NativeFunction
deriving Repr

namespace Library

def find? (lib : Library) (name : String) : Option NativeFunction :=
  lib.functions.find? (·.name == name)

/-- Adds a function or replaces the one of its name. -/
def add (lib : Library) (function : NativeFunction) : Library :=
  { lib with functions := lib.functions.filter (·.name != function.name) ++ [function] }

end Library

abbrev LibraryId := Nat

/-- The libraries of a program in the order of their first declaration.  The place
    of a library is its identity. -/
structure LibraryTable where
  libraries : List Library
deriving Repr, Inhabited

namespace LibraryTable

def empty : LibraryTable := ⟨[]⟩

def lookup (t : LibraryTable) (name : String) : Option LibraryId :=
  t.libraries.findIdx? (·.name == name)

def get? (t : LibraryTable) (id : LibraryId) : Option Library := t.libraries[id]?

/-- The library of that name, added without functions if there is none. -/
def declare (t : LibraryTable) (name : String) : LibraryId × LibraryTable :=
  match t.lookup name with
  | some id => (id, t)
  | none => (t.libraries.length, ⟨t.libraries ++ [⟨name, []⟩]⟩)

def addFunction (t : LibraryTable) (id : LibraryId) (function : NativeFunction) : LibraryTable :=
  ⟨t.libraries.modify id (·.add function)⟩

end LibraryTable

end UnionTyping
