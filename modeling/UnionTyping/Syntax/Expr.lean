/-
  UnionTyping/Syntax/Expr.lean
  ============================
  **Expressions.**

  Every construct of the language is an expression, apart from the declarations
  of methods, classes and libraries.  Each node carries a mark with its number
  and its place; the number is the key under which the checker reports what it
  finds out.  Of a literal only its class is kept, since its value has no part in
  its type.
-/
import UnionTyping.Syntax.TypeRef

namespace UnionTyping

/-- The number of an expression node, unique within a program. -/
abbrev NodeId := Nat

/-- The identity and the place of a node. -/
structure Mark where
  id : NodeId
  loc : Location
deriving DecidableEq, Repr, Inhabited

inductive Literal where
  | nil | bool | int | double | char | string
deriving DecidableEq, Repr

/-- What can be assigned to: a local or an instance variable (without the `@`). -/
inductive Target where
  | local (name : String)
  | ivar (name : String)
deriving DecidableEq, Repr

def Target.name : Target → String
  | .local name => name
  | .ivar name => name

/-- The two operators that choose between the values of their sides. -/
inductive Connective where
  | or | and
deriving DecidableEq, Repr

inductive LoopControl where
  | break | next
deriving DecidableEq, Repr

def LoopControl.keyword : LoopControl → String
  | .break => "break"
  | .next => "next"

mutual

inductive Expr where
  | literal (mark : Mark) (value : Literal)
  /-- A bare name: a local variable or a call without arguments. -/
  | ident (mark : Mark) (name : String)
  | ivar (mark : Mark) (name : String)
  | assign (mark : Mark) (target : Target) (value : Expr)
  /-- A compound assignment, `target op= value`. -/
  | opAssign (mark : Mark) (target : Target) (op : String) (value : Expr)
  /-- A call, `receiver.name(args) { block }`.  Without a receiver it is a call on
      `self` or of a top-level method.  `parens` says whether parentheses were
      written. -/
  | call (mark : Mark) (receiver : Option Expr) (name : String) (args : List Expr)
      (block : Option Block) (parens : Bool)
  /-- A constant such as `Foo` or `Pointer(Int)`. -/
  | path (mark : Mark) (ref : TypeRef)
  /-- An argument that a native function assigns. -/
  | out (mark : Mark) (target : Target)
  | connect (mark : Mark) (op : Connective) (lhs rhs : Expr)
  | ite (mark : Mark) (cond : Expr) (thenBody elseBody : List Expr)
  | loop (mark : Mark) (cond : Expr) (body : List Expr)
  | control (mark : Mark) (keyword : LoopControl)

/-- A block that is passed to a call, `{ |params| body }`. -/
inductive Block where
  | mk (params : List String) (body : List Expr)

end

namespace Expr

def mark : Expr → Mark
  | literal m _ | ident m _ | ivar m _ | assign m _ _ | opAssign m _ _ _ | call m _ _ _ _ _
  | path m _ | out m _ | connect m _ _ _ | ite m _ _ _ | loop m _ _ | control m _ => m

def id (e : Expr) : NodeId := e.mark.id

def loc (e : Expr) : Location := e.mark.loc

/-- Whether the expression reads a variable by name, so that it could be assigned
    as well. -/
def isVariable : Expr → Bool
  | ident _ _ | ivar _ _ => true
  | _ => false

end Expr

def Block.bodyOf : Option Block → List Expr
  | none => []
  | some (.mk _ body) => body

end UnionTyping
