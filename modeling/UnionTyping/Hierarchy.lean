/-
  UnionTyping/Hierarchy.lean
  ==========================
  **Single inheritance by class name.**

  A hierarchy lists classes with the superclass each of them was given, if any;
  a class that is not listed has none.  `chain c` is `c` followed by its
  ancestors, nearest first, and a class is a subclass of everything on its
  chain.  A chain without repetition visits each listed class at most once, so
  as many steps as there are entries reach its end; a hierarchy in which some
  class is its own ancestor is cut off there.
-/
namespace UnionTyping

/-- Classes with their superclass; the first entry of a name counts. -/
structure Hierarchy where
  entries : List (String × Option String)
deriving Repr, Inhabited

namespace Hierarchy

/-- The direct superclass of a class; none for a root and for a class that is
    not listed. -/
def parent? (h : Hierarchy) (name : String) : Option String :=
  (h.entries.lookup name).join

def climb (h : Hierarchy) : (steps : Nat) → (name : String) → List String
  | 0, name => [name]
  | steps + 1, name =>
    name :: match h.parent? name with
      | none => []
      | some parent => h.climb steps parent

def chain (h : Hierarchy) (name : String) : List String :=
  h.climb h.entries.length name

/-- Whether `sub` is `sup` or one of its descendants. -/
def isSubclass (h : Hierarchy) (sub sup : String) : Bool :=
  (h.chain sub).contains sup

def Parent (h : Hierarchy) (child parent : String) : Prop :=
  h.parent? child = some parent

/-- No class is its own ancestor. -/
def Acyclic (h : Hierarchy) : Prop :=
  ∀ name, ¬ Relation.TransGen h.Parent name name

end Hierarchy

end UnionTyping
