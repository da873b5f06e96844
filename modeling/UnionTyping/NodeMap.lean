/-
  UnionTyping/NodeMap.lean
  ========================
  **Tables with one entry for a node.**

  The entries are kept in ascending order of the node numbers, so two tables with
  the same entries are equal and reading a table out gives it in program order.
-/
import UnionTyping.Syntax.Expr

namespace UnionTyping

/-- A finite map from nodes, ascending. -/
structure NodeMap (α : Type) where
  entries : List (NodeId × α)
deriving Repr

namespace NodeMap

variable {α : Type}

def empty : NodeMap α := ⟨[]⟩

instance : Inhabited (NodeMap α) := ⟨empty⟩

def find? (m : NodeMap α) (node : NodeId) : Option α := m.entries.lookup node

/-- Changes the entry of a node in an ascending list; `f` gets the entry there
    is. -/
def alterEntries (node : NodeId) (f : Option α → α) : List (NodeId × α) → List (NodeId × α)
  | [] => [(node, f none)]
  | (n, a) :: rest =>
    if node < n then (node, f none) :: (n, a) :: rest
    else if node = n then (n, f (some a)) :: rest
    else (n, a) :: alterEntries node f rest

/-- Changes the entry of a node; `f` gets the entry there is. -/
def alter (m : NodeMap α) (node : NodeId) (f : Option α → α) : NodeMap α :=
  ⟨alterEntries node f m.entries⟩

def insert (m : NodeMap α) (node : NodeId) (a : α) : NodeMap α := m.alter node fun _ => a

def map {β : Type} (f : α → β) (m : NodeMap α) : NodeMap β :=
  ⟨m.entries.map fun (n, a) => (n, f a)⟩

end NodeMap

end UnionTyping
