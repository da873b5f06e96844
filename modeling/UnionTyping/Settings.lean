/-
  UnionTyping/Settings.lean
  =========================
  **Limits of a run, and the name shown in reports.**
-/
namespace UnionTyping

structure Settings where
  /-- How many checks of units are made before the run is given up. -/
  maxIterations : Nat := 10000
  /-- How deep new instances of methods are checked inside the check of their first
      caller.  Deeper ones wait on the worklist. -/
  maxNesting : Nat := 64
  /-- The source name in reports; without it the file of the diagnostic. -/
  fileName : Option String := none
deriving DecidableEq, Repr, Inhabited

end UnionTyping
