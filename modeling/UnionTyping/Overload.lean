/-
  UnionTyping/Overload.lean
  =========================
  **Which of several signatures a call with union arguments reaches.**

  A call fails on the argument count first: when no signature accepts it, the
  arity of the first one is reported.  Then each union argument is spread over
  its members, and each combination of members, in the order of the members
  with the last argument varying fastest, has to be accepted by some signature;
  the first combination without one is reported.

  Of the signatures that accept a combination the first is chosen to which no
  other of them is more specific.  They are tried with the most restricted
  parameters first and in the order of declaration otherwise.
-/
import UnionTyping.Signature

namespace UnionTyping.Overload

/-- The signature, by its place in the overload set, that one combination of
    argument types selects. -/
structure Match where
  candidate : Nat
  args : List Ty
deriving BEq, Repr, Inhabited

inductive Failure where
  | wrongArity (given : Nat) (expected : Arity)
  | noMatch (args : List Ty)
deriving BEq, Repr

def requireArity (signatures : List Signature) (given : Nat) : Except Failure Unit :=
  if signatures.any (·.takes given) then .ok ()
  else .error (.wrongArity given ((signatures.head?.map Signature.arity).getD (Arity.exactly 0)))

/-- Every way of choosing one member of each type.  There is one way for no types,
    and none when some type is unresolved. -/
def choices : List Ty → List (List Ty)
  | [] => [[]]
  | t :: ts => t.members.flatMap fun m => (choices ts).map (m :: ·)

/-- Puts a signature before the first that has no more restricted parameters than
    it. -/
def insertRanked (c : Nat × Signature) : List (Nat × Signature) → List (Nat × Signature)
  | [] => [c]
  | d :: ds =>
    if d.2.restrictionCount ≤ c.2.restrictionCount then c :: d :: ds else d :: insertRanked c ds

/-- The signatures that take so many arguments with their places, those with more
    restricted parameters first and in the order of declaration otherwise. -/
def ranked (signatures : List Signature) (given : Nat) : List (Nat × Signature) :=
  let fitting := signatures.zipIdx.filter fun (s, _) => s.takes given
  fitting.foldr (fun (s, i) sorted => insertRanked (i, s) sorted) []

/-- The first of the candidates to which no other is more specific, or else the
    first of them. -/
def mostSpecific (h : Hierarchy) (candidates : List (Nat × Signature)) : Option Nat :=
  let unbeaten := candidates.find? fun c =>
    !candidates.any fun other => other.2.beats h c.2
  (unbeaten <|> candidates.head?).map (·.1)

/-- The signature that one combination of argument types selects among the ranked
    ones. -/
def choose (h : Hierarchy) (order : List (Nat × Signature)) (args : List Ty) : Option Nat :=
  mostSpecific h (order.filter fun c => c.2.accepts h args)

/-- Selects a signature for each combination, collecting distinct matches. -/
def matchAll (h : Hierarchy) (order : List (Nat × Signature)) (found : List Match) :
    (combos : List (List Ty)) → Except Failure (List Match)
  | [] => .ok found
  | args :: rest =>
    match choose h order args with
    | none => .error (.noMatch args)
    | some candidate =>
      let hit : Match := ⟨candidate, args⟩
      matchAll h order (if found.any (· == hit) then found else found ++ [hit]) rest

/-- The matches of a call with these argument types, one for each combination of
    their members. -/
def resolve (h : Hierarchy) (signatures : List Signature) (args : List Ty) :
    Except Failure (List Match) := do
  requireArity signatures args.length
  matchAll h (ranked signatures args.length) [] (choices args)

end UnionTyping.Overload
