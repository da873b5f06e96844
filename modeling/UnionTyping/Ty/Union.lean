/-
  UnionTyping/Ty/Union.lean
  =========================
  **Joining types, keeping a part of one, and settling what stayed open.**

  `union a b` holds the members of `a` and then those of `b`, each once, at the
  place where it was first seen; one member stands for itself and none is the
  unresolved type, which is therefore neutral.  Everything that grows in this
  library (the type of a variable, of a call, of a branch) grows by `union`.

  `filter` keeps the members that pass a test, and `settled` gives what is
  still unresolved at the end the type `Nil`: what nothing was ever assigned to
  holds nil.
-/
import UnionTyping.Ty.Basic

namespace UnionTyping.Ty

/-! ### Union -/

/-- The types `known` followed by those of the others it does not yet hold, each
    once. -/
def addNew (known : List Ty) : List Ty → List Ty
  | [] => known
  | t :: ts => addNew (if known.any (· == t) then known else known ++ [t]) ts

def ofMembers : List Ty → Ty
  | [] => unresolved
  | [t] => t
  | ts => oneOf ts

/-- The members of either type, in the order in which they are first seen. -/
def union (a b : Ty) : Ty :=
  ofMembers (addNew [] (a.members ++ b.members))

def unionAll (ts : List Ty) : Ty :=
  ts.foldl union unresolved

def filter (keep : Ty → Bool) (t : Ty) : Ty :=
  unionAll (t.members.filter keep)

/-! ### Settling -/

mutual

/-- Puts `Nil` for the unresolved type at any depth. -/
def settled : Ty → Ty
  | unresolved => nil
  | con name args => con name (settledEach args)
  | oneOf ms => unionAll (settledEach ms)
termination_by structural x => x

def settledEach : List Ty → List Ty
  | [] => []
  | t :: ts => settled t :: settledEach ts
termination_by structural x => x

end

theorem settledEach_eq_map (ts : List Ty) : settledEach ts = ts.map settled := by
  induction ts with
  | nil => rfl
  | cons t ts ih => rw [settledEach, ih]; rfl

end UnionTyping.Ty
