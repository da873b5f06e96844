/-
  UnionTyping/Methods.lean
  ========================
  **The methods of a program and how a class finds them.**

  Methods are numbered in the order of their declaration.  An owner, a class or
  the top level, can have several methods of one name with different signatures.
  A method with the same owner, name and signature as an earlier one takes the
  place of that one; the earlier one keeps its number but is not found any more.

  A class has its own methods and those of its ancestors, nearest first, apart
  from those whose signature a nearer class uses for the same name.
-/
import UnionTyping.ClassTable
import UnionTyping.Syntax.Item

namespace UnionTyping

/-- The number of a method in the order of declaration. -/
abbrev MethodId := Nat

inductive Owner where
  | topLevel
  | ofClass (id : ClassId)
deriving DecidableEq, Repr

structure Method where
  owner : Owner
  signature : Signature
  definition : Def

def Method.name (m : Method) : String := m.definition.name

def Method.clashes (m other : Method) : Bool :=
  decide (m.owner = other.owner) && m.name == other.name && m.signature == other.signature

structure MethodEntry where
  id : MethodId
  method : Method

/-- All methods in the order of declaration, and those that can still be found. -/
structure Methods where
  declared : List Method
  live : List MethodEntry

namespace Methods

def empty : Methods := ⟨[], []⟩

/-- Puts a method in the place of the one that it replaces, or else at the end. -/
def supersede (entry : MethodEntry) : List MethodEntry → List MethodEntry
  | [] => [entry]
  | e :: es =>
    if e.method.clashes entry.method then entry :: es else e :: supersede entry es

def add (ms : Methods) (method : Method) : MethodId × Methods :=
  let id := ms.declared.length
  (id, ⟨ms.declared ++ [method], supersede ⟨id, method⟩ ms.live⟩)

def get? (ms : Methods) (id : MethodId) : Option Method := ms.declared[id]?

def ownedBy (ms : Methods) (owner : Owner) (name : String) : List MethodEntry :=
  ms.live.filter fun e => decide (e.method.owner = owner) && e.method.name == name

/-- Adds those of the methods whose signature was not used before. -/
def addUnhidden (found : List MethodEntry) : List MethodEntry → List MethodEntry
  | [] => found
  | e :: es =>
    let hidden := found.any (·.method.signature == e.method.signature)
    addUnhidden (if hidden then found else found ++ [e]) es

/-- The methods of that name on instances of a class, nearest class first. -/
def lookup (ms : Methods) (classes : ClassTable) (id : ClassId) (name : String) :
    List MethodEntry :=
  (classes.ancestors id).foldl
    (fun found ancestor => addUnhidden found (ms.ownedBy (.ofClass ancestor) name)) []

def topLevel (ms : Methods) (name : String) : List MethodEntry := ms.ownedBy .topLevel name

end Methods

end UnionTyping
