/-
  UnionTyping/Syntax/Placement.lean
  =================================
  **Giving every node of a program a place.**

  A node that was given a line keeps its line and column.  Any other node takes
  the place of the node around it, and an item without a place stands at the
  start of the line whose number is its position in the program.  All places are
  in the file of the program.
-/
import UnionTyping.Syntax.Nodes

namespace UnionTyping

mutual

def TypeRef.place (file : String) (outer : Location) : TypeRef → TypeRef
  | .mk name args loc => .mk name (TypeRef.placeAll file (loc.within file outer) args)
      (loc.within file outer)
termination_by structural r => r

def TypeRef.placeAll (file : String) (outer : Location) : List TypeRef → List TypeRef
  | [] => []
  | r :: rs => TypeRef.place file outer r :: TypeRef.placeAll file outer rs
termination_by structural rs => rs

end

def Mark.place (file : String) (outer : Location) (m : Mark) : Mark :=
  ⟨m.id, m.loc.within file outer⟩

namespace Expr

mutual

/-- Places an expression inside `outer` and its parts inside it. -/
def place (file : String) (outer : Location) : Expr → Expr
  | literal m value => literal (m.place file outer) value
  | ident m name => ident (m.place file outer) name
  | ivar m name => ivar (m.place file outer) name
  | assign m target value =>
    assign (m.place file outer) target (place file (m.loc.within file outer) value)
  | opAssign m target op value =>
    opAssign (m.place file outer) target op (place file (m.loc.within file outer) value)
  | call m receiver name args block parens =>
    call (m.place file outer)
      (match receiver with
        | none => none
        | some r => some (place file (m.loc.within file outer) r))
      name (placeAll file (m.loc.within file outer) args)
      (match block with
        | none => none
        | some (.mk params body) =>
          some (.mk params (placeAll file (m.loc.within file outer) body)))
      parens
  | path m ref => path (m.place file outer) (ref.place file (m.loc.within file outer))
  | out m target => out (m.place file outer) target
  | connect m op lhs rhs =>
    connect (m.place file outer) op (place file (m.loc.within file outer) lhs)
      (place file (m.loc.within file outer) rhs)
  | ite m cond thenBody elseBody =>
    ite (m.place file outer) (place file (m.loc.within file outer) cond)
      (placeAll file (m.loc.within file outer) thenBody)
      (placeAll file (m.loc.within file outer) elseBody)
  | loop m cond body =>
    loop (m.place file outer) (place file (m.loc.within file outer) cond)
      (placeAll file (m.loc.within file outer) body)
  | control m keyword => control (m.place file outer) keyword
termination_by structural e => e

def placeAll (file : String) (outer : Location) : List Expr → List Expr
  | [] => []
  | e :: es => place file outer e :: placeAll file outer es
termination_by structural es => es

end

end Expr

def Param.place (file : String) (outer : Location) (p : Param) : Param :=
  { p with
    restriction := p.restriction.map (·.place file outer)
    default := p.default.map (·.place file outer) }

def Def.place (file : String) (outer : Location) (d : Def) : Def :=
  let loc := d.loc.within file outer
  { d with params := d.params.map (·.place file loc), body := Expr.placeAll file loc d.body, loc }

def ClassDecl.place (file : String) (outer : Location) (c : ClassDecl) : ClassDecl :=
  let loc := c.loc.within file outer
  { c with
    superclass := c.superclass.map (·.place file loc)
    methods := c.methods.map (·.place file loc)
    loc }

def FunctionDecl.place (file : String) (outer : Location) (f : FunctionDecl) : FunctionDecl :=
  let loc := f.loc.within file outer
  { f with
    params := f.params.map fun p => { p with ty := p.ty.place file loc }
    ret := f.ret.map (·.place file loc)
    loc }

def LibraryDecl.place (file : String) (outer : Location) (l : LibraryDecl) : LibraryDecl :=
  let loc := l.loc.within file outer
  { l with functions := l.functions.map (·.place file loc), loc }

/-- Places an item; `outer` is where it stands without a place of its own. -/
def Item.place (file : String) (outer : Location) : Item → Item
  | .method d => .method (d.place file outer)
  | .classDecl c => .classDecl (c.place file outer)
  | .library l => .library (l.place file outer)
  | .expr e => .expr (e.place file outer)

def Item.placeAll (file : String) (items : List Item) : List Item :=
  items.mapIdx fun index item => item.place file ⟨file, index + 1, 1⟩

end UnionTyping
