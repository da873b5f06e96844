/-
  UnionTyping/Signature.lean
  ==========================
  **The shape of the parameters of a callable.**

  A signature says which type each parameter is restricted to, if any, and how
  many arguments a call has to give.  Parameters with a default value make the
  accepted count a range, its `Arity`.  One signature is more specific than
  another when its restrictions can all be used as the other's but not the
  other way round.
-/
import UnionTyping.Assignable

namespace UnionTyping

/-- A range of accepted argument counts. -/
structure Arity where
  min : Nat
  max : Nat
deriving DecidableEq, Repr, Inhabited

namespace Arity

def exactly (n : Nat) : Arity := ⟨n, n⟩

def contains (a : Arity) (given : Nat) : Bool :=
  decide (a.min ≤ given) && decide (given ≤ a.max)

/-- How a range is written: `2` for a fixed count and `1..2` otherwise. -/
def text (a : Arity) : String :=
  if a.min = a.max then toString a.min else toString a.min ++ ".." ++ toString a.max

end Arity

/-- The restriction of each parameter, `none` where anything is accepted, and the
    number of parameters without a default value. -/
structure Signature where
  params : List (Option Ty)
  required : Nat
deriving BEq, Repr, Inhabited

namespace Signature

def exact (params : List (Option Ty)) : Signature := ⟨params, params.length⟩

def arity (s : Signature) : Arity := ⟨s.required, s.params.length⟩

def takes (s : Signature) (given : Nat) : Bool := s.arity.contains given

def restrictionCount (s : Signature) : Nat := s.params.countP Option.isSome

/-- Whether an argument of type `arg` may be passed for a parameter with the
    given restriction. -/
def allows (h : Hierarchy) (restriction : Option Ty) (arg : Ty) : Bool :=
  match restriction with
  | none => true
  | some expected => h.assignable arg expected

def accepts (h : Hierarchy) (s : Signature) (args : List Ty) : Bool :=
  (s.params.zip args).all fun (restriction, arg) => allows h restriction arg

/-- Whether a parameter restricted to `mine` is at least as narrow as one
    restricted to `theirs`. -/
def narrows (h : Hierarchy) : (mine theirs : Option Ty) → Bool
  | _, none => true
  | some mine, some theirs => h.assignable mine theirs
  | none, some _ => false

/-- Whether each parameter is at least as narrow as the one of `other` at its
    place. -/
def fitsWithin (h : Hierarchy) (s other : Signature) : Bool :=
  (s.params.zip other.params).all fun (mine, theirs) => narrows h mine theirs

def beats (h : Hierarchy) (s other : Signature) : Bool :=
  fitsWithin h s other && !fitsWithin h other s

end Signature

end UnionTyping
