/-
  UnionTyping/Scopes.lean
  =======================
  **Which local names are visible where.**

  A method or program body has one frame of names, and each block that is being
  checked has one inside it.  A name means its binding in the innermost frame
  that declares it.  Leaving a block forgets its names; the frame of the body
  stays for good, which is why it is not one of the frames that can be left.
-/
import UnionTyping.Syntax.Expr

namespace UnionTyping

/-- The place of a binding in its store. -/
abbrev BindingId := Nat

/-- What opened a frame: a body, or the block of the call with this number. -/
inductive Scope where
  | body
  | block (call : NodeId)
deriving DecidableEq, Repr

/-- Names with their bindings; of two entries for a name the first counts. -/
abbrev Names := List (String × BindingId)

structure Frame where
  owner : Scope
  names : Names
deriving DecidableEq, Repr

/-- The frames that are open, innermost first, around them the names of the
    body. -/
structure Scopes where
  inner : List Frame
  body : Names
deriving DecidableEq, Repr, Inhabited

namespace Scopes

def empty : Scopes := ⟨[], []⟩

def enter (s : Scopes) (owner : Scope) : Scopes := { s with inner := ⟨owner, []⟩ :: s.inner }

/-- Leaves the innermost frame, unless it is that of the body. -/
def leave (s : Scopes) : Scopes := { s with inner := s.inner.tail }

def owner (s : Scopes) : Scope :=
  match s.inner with
  | [] => .body
  | frame :: _ => frame.owner

def declare (s : Scopes) (name : String) (binding : BindingId) : Scopes :=
  match s.inner with
  | [] => { s with body := (name, binding) :: s.body }
  | frame :: outer =>
    { s with inner := { frame with names := (name, binding) :: frame.names } :: outer }

def lookupIn (name : String) : List Frame → Option BindingId
  | [] => none
  | frame :: outer => frame.names.lookup name <|> lookupIn name outer

def lookup (s : Scopes) (name : String) : Option BindingId :=
  lookupIn name s.inner <|> s.body.lookup name

end Scopes

end UnionTyping
