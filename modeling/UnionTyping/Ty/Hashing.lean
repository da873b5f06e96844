/-
  UnionTyping/Ty/Hashing.lean
  ===========================
  **What a type feeds to a hash function.**

  Types are keys of tables, so types that are the same have to hash alike.  An
  instance of a class writes its name and its arguments in order.  A union must
  not show the order of its members: each member is hashed on its own by some
  function `digest` to 64 bits, and the union writes the wrapping sum of these
  digests and the number of its members.

  `writes` is the sequence of writes for an arbitrary `digest`; the `Hashable`
  instance is one choice of it.
-/
import UnionTyping.Ty.Basic

namespace UnionTyping.Ty

/-- One item that is fed to a hash function. -/
inductive Write where
  | tag (n : Nat)
  | text (s : String)
  | count (n : Nat)
  | digestSum (d : UInt64)
deriving DecidableEq, Repr, Hashable

mutual

def writes (digest : List Write → UInt64) : Ty → List Write
  | unresolved => [.tag 0]
  | con name args => .tag 1 :: .text name :: .count args.length :: writesEach digest args
  | oneOf ms => [.tag 2, .digestSum (sumDigests digest ms), .count ms.length]
termination_by structural x => x

def writesEach (digest : List Write → UInt64) : List Ty → List Write
  | [] => []
  | t :: ts => writes digest t ++ writesEach digest ts
termination_by structural x => x

/-- The sum of the digests of the types, each hashed on its own. -/
def sumDigests (digest : List Write → UInt64) : List Ty → UInt64
  | [] => 0
  | t :: ts => digest (writes digest t) + sumDigests digest ts
termination_by structural x => x

end

instance : Hashable Ty := ⟨fun t => hash (t.writes hash)⟩

/-- Whether a table that holds `stored` finds `key`: they hash alike and are the
    same type. -/
def findsKey (stored key : Ty) : Bool := hash stored == hash key && key == stored

end UnionTyping.Ty
