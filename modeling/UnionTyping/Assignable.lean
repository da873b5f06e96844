/-
  UnionTyping/Assignable.lean
  ===========================
  **When a value of one type may be used where another is expected.**

  A union is assignable when each of its members is.  An instance of a class is
  assignable to a union when it is to one of the members, and to an instance of
  a class when it is of that class or a descendant and the type arguments are
  the same; an expected class without arguments accepts any.  The unresolved
  type has no members, so it is assignable to everything, and no instance is
  assignable to it.
-/
import UnionTyping.Ty.Union
import UnionTyping.Hierarchy

namespace UnionTyping.Hierarchy

mutual

/-- Whether an instance of the class `name` with type arguments `args` may be
    used as `target`. -/
def accepts (h : Hierarchy) (name : String) (args : List Ty) : (target : Ty) → Bool
  | .unresolved => false
  | .con expected params => (params.isEmpty || args == params) && h.isSubclass name expected
  | .oneOf targets => acceptsSome h name args targets
termination_by structural target => target

def acceptsSome (h : Hierarchy) (name : String) (args : List Ty) : (targets : List Ty) → Bool
  | [] => false
  | t :: ts => accepts h name args t || acceptsSome h name args ts
termination_by structural ts => ts

end

mutual

/-- Whether a value of type `source` may be used as `target`. -/
def assignable (h : Hierarchy) (source target : Ty) : Bool :=
  match source with
  | .unresolved => true
  | .con name args => h.accepts name args target
  | .oneOf ms => allAssignable h ms target
termination_by structural source

def allAssignable (h : Hierarchy) (sources : List Ty) (target : Ty) : Bool :=
  match sources with
  | [] => true
  | t :: ts => assignable h t target && allAssignable h ts target
termination_by structural sources

end

theorem acceptsSome_eq_any (h : Hierarchy) (name : String) (args ts : List Ty) :
    h.acceptsSome name args ts = ts.any (h.accepts name args) := by
  induction ts with
  | nil => rfl
  | cons t ts ih => rw [acceptsSome, ih]; rfl

theorem allAssignable_eq_all (h : Hierarchy) (ts : List Ty) (target : Ty) :
    h.allAssignable ts target = ts.all (h.assignable · target) := by
  induction ts with
  | nil => rfl
  | cons t ts ih => rw [allAssignable, ih]; rfl

end UnionTyping.Hierarchy
