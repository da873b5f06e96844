/-
  UnionTyping/Syntax/Nodes.lean
  =============================
  **The expression nodes of a program in the order in which they are written.**

  `children` are the direct parts of an expression in the order of their
  evaluation.  `nodes` lists an expression and everything below it, each node
  before its children.  The nodes of a program are those of its items in order;
  in a method the default values come before the body.

  `count` goes from a node to its children and counts each of them.  It ends since
  the children are smaller, by a `size` that is told for each form of expression.
-/
import UnionTyping.Syntax.Item

namespace UnionTyping

namespace Expr

def children : Expr → List Expr
  | assign _ _ value | opAssign _ _ _ value => [value]
  | call _ receiver _ args block _ => receiver.toList ++ args ++ Block.bodyOf block
  | connect _ _ lhs rhs => [lhs, rhs]
  | ite _ cond thenBody elseBody => cond :: thenBody ++ elseBody
  | loop _ cond body => cond :: body
  | literal _ _ | ident _ _ | ivar _ _ | path _ _ | out _ _ | control _ _ => []

mutual

def size : Expr → Nat
  | assign _ _ value | opAssign _ _ _ value => 1 + size value
  | call _ receiver _ args block _ =>
    1 + ((match receiver with | none => 0 | some r => size r) + sizes args +
      (match block with | none => 0 | some (.mk _ body) => sizes body))
  | connect _ _ lhs rhs => 1 + (size lhs + size rhs)
  | ite _ cond thenBody elseBody => 1 + (size cond + sizes thenBody + sizes elseBody)
  | loop _ cond body => 1 + (size cond + sizes body)
  | literal _ _ | ident _ _ | ivar _ _ | path _ _ | out _ _ | control _ _ => 1
termination_by structural e => e

def sizes : List Expr → Nat
  | [] => 0
  | e :: es => size e + sizes es
termination_by structural es => es

end

mutual

/-- The expression and all expressions below it, each before its children. -/
def nodes (e : Expr) : List Expr :=
  e :: match e with
    | assign _ _ value | opAssign _ _ _ value => nodes value
    | call _ receiver _ args block _ =>
      (match receiver with | none => [] | some r => nodes r) ++ nodesOf args ++
        (match block with | none => [] | some (.mk _ body) => nodesOf body)
    | connect _ _ lhs rhs => nodes lhs ++ nodes rhs
    | ite _ cond thenBody elseBody => nodes cond ++ nodesOf thenBody ++ nodesOf elseBody
    | loop _ cond body => nodes cond ++ nodesOf body
    | literal _ _ | ident _ _ | ivar _ _ | path _ _ | out _ _ | control _ _ => []
termination_by structural e

def nodesOf : List Expr → List Expr
  | [] => []
  | e :: es => nodes e ++ nodesOf es
termination_by structural es => es

end

theorem sizes_append (as bs : List Expr) : sizes (as ++ bs) = sizes as + sizes bs := by
  induction as with
  | nil => simp [sizes]
  | cons a as ih => simp [sizes, ih, Nat.add_assoc]

theorem nodesOf_append (as bs : List Expr) : nodesOf (as ++ bs) = nodesOf as ++ nodesOf bs := by
  induction as with
  | nil => simp [nodesOf]
  | cons a as ih => simp [nodesOf, ih]

/-- A node counts once, and then its children count. -/
theorem size_eq (e : Expr) : e.size = 1 + sizes e.children := by
  cases e with
  | call m receiver name args block parens =>
    cases receiver <;> rcases block with _ | ⟨ps, body⟩ <;>
      simp [size, children, sizes, sizes_append, Block.bodyOf, Nat.add_assoc]
  | ite m c t f => simp [size, children, sizes, sizes_append, Nat.add_assoc]
  | _ => simp [size, children, sizes]

/-- The nodes of an expression are itself and then the nodes of its children. -/
theorem nodes_eq (e : Expr) : e.nodes = e :: nodesOf e.children := by
  cases e with
  | call m receiver name args block parens =>
    cases receiver <;> rcases block with _ | ⟨ps, body⟩ <;>
      simp [nodes, children, nodesOf, nodesOf_append, Block.bodyOf]
  | ite m c t f => simp [nodes, children, nodesOf, nodesOf_append]
  | _ => simp [nodes, children, nodesOf]

theorem size_le_sizes {e : Expr} {es : List Expr} (h : e ∈ es) : e.size ≤ sizes es := by
  induction es with
  | nil => cases h
  | cons e' es ih =>
    rw [sizes]
    rcases List.mem_cons.mp h with rfl | h
    · exact Nat.le_add_right _ _
    · exact Nat.le_trans (ih h) (Nat.le_add_left _ _)

theorem size_lt_of_mem_children {e child : Expr} (h : child ∈ e.children) :
    child.size < e.size := by
  have hle := size_le_sizes h
  rw [size_eq e]
  omega

def count (e : Expr) : Nat := 1 + (e.children.attach.map fun child => child.1.count).foldr (· + ·) 0
termination_by e.size
decreasing_by exact size_lt_of_mem_children child.2

end Expr

/-! ### Nodes of declarations and programs -/

def Param.exprs (p : Param) : List Expr := p.default.toList

def Def.exprs (d : Def) : List Expr := d.params.flatMap Param.exprs ++ d.body

def Item.exprs : Item → List Expr
  | .method d => d.exprs
  | .classDecl c => c.methods.flatMap Def.exprs
  | .library _ => []
  | .expr e => [e]

def Program.nodes (p : Program) : List Expr := Expr.nodesOf (p.items.flatMap Item.exprs)

/-! ### Counting -/

def Def.count (d : Def) : Nat :=
  ((d.params.filterMap Param.default).map Expr.count).foldr (· + ·) 0 +
    (d.body.map Expr.count).foldr (· + ·) 0

def Item.count : Item → Nat
  | .expr e => e.count
  | .method d => d.count
  | .classDecl c => (c.methods.map Def.count).foldr (· + ·) 0
  | .library _ => 0

def Program.nodeCount (p : Program) : Nat := (p.items.map Item.count).foldr (· + ·) 0

end UnionTyping
