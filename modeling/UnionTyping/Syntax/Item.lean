/-
  UnionTyping/Syntax/Item.lean
  ============================
  **Declarations and programs.**

  A program is a file name with items in source order: methods, classes with
  their methods, libraries of native functions, and expressions to be run.
-/
import UnionTyping.Syntax.Expr

namespace UnionTyping

/-- A formal parameter, `name : restriction = default`. -/
structure Param where
  name : String
  restriction : Option TypeRef
  default : Option Expr

/-- A method, `def name(params) body end`. -/
structure Def where
  name : String
  params : List Param
  body : List Expr
  loc : Location

def Def.required (d : Def) : Nat := d.params.countP (·.default.isNone)

/-- A class or, with `isStruct`, a class of values. -/
structure ClassDecl where
  name : String
  superclass : Option TypeRef
  isStruct : Bool
  methods : List Def
  loc : Location

structure FunctionParam where
  name : String
  ty : TypeRef
  isOut : Bool

/-- The declaration of a native function, `fun name(params) : ret`. -/
structure FunctionDecl where
  name : String
  params : List FunctionParam
  ret : Option TypeRef
  loc : Location

structure LibraryDecl where
  name : String
  functions : List FunctionDecl
  loc : Location

inductive Item where
  | method (d : Def)
  | classDecl (c : ClassDecl)
  | library (l : LibraryDecl)
  | expr (e : Expr)

def Item.loc : Item → Location
  | .method d => d.loc
  | .classDecl c => c.loc
  | .library l => l.loc
  | .expr e => e.loc

structure Program where
  file : String
  items : List Item

def Program.topLevel (p : Program) : List Expr :=
  p.items.filterMap fun
    | .expr e => some e
    | _ => none

/-! ### Properties -/

/-- The reader and the writer that a property of a class stands for:

    ```text
    def name; @name; end
    def name=(name); @name = name; end
    ```
    -/
def Def.ofProperty (name : String) : List Def :=
  let unplaced : Mark := ⟨0, .unplaced⟩
  [⟨name, [], [.ivar unplaced name], .unplaced⟩,
   ⟨name ++ "=", [⟨name, none, none⟩],
    [.assign unplaced (.ivar name) (.ident unplaced name)], .unplaced⟩]

end UnionTyping
