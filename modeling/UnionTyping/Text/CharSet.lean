/-
  UnionTyping/Text/CharSet.lean
  =============================
  **Sets of characters given by where they start and stop.**

  A set is an ascending list of code points at which membership changes: the
  first one starts a run of members, the second ends it, and so on.  A character
  belongs to the set when the number of changes up to it is odd.  The Unicode
  properties that this library needs are written down in this form, as of
  version 17.0 of the standard.
-/
namespace UnionTyping.Text

/-- A set of characters by the code points at which membership changes. -/
structure CharSet where
  changes : List Nat

namespace CharSet

/-- Whether the number of leading changes up to `code` is odd. -/
def oddUpTo (code : Nat) : List Nat → Bool
  | [] => false
  | change :: rest => if code < change then false else !oddUpTo code rest

def contains (s : CharSet) (c : Char) : Bool := oddUpTo c.toNat s.changes

def ascending : List Nat → Bool
  | a :: b :: rest => decide (a < b) && ascending (b :: rest)
  | _ => true

end CharSet

end UnionTyping.Text
