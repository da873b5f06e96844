/-
  UnionTyping/Syntax/Numbering.lean
  =================================
  **Numbering the expression nodes of a program.**

  A counter starts at 0 and goes along through the items in order.  A node takes
  the next number before its children do, and in a method the default values of the
  parameters are numbered before the body.  `Program.ofItems` places and numbers the
  items of a file.
-/
import UnionTyping.Syntax.Placement

namespace UnionTyping

abbrev NumberM := StateM NodeId

def NumberM.take : NumberM NodeId := modifyGet fun next => (next, next + 1)

namespace Expr

mutual

def number : Expr → NumberM Expr
  | literal m value => return literal ⟨← NumberM.take, m.loc⟩ value
  | ident m name => return ident ⟨← NumberM.take, m.loc⟩ name
  | ivar m name => return ivar ⟨← NumberM.take, m.loc⟩ name
  | assign m target value => do
    let id ← NumberM.take
    return assign ⟨id, m.loc⟩ target (← number value)
  | opAssign m target op value => do
    let id ← NumberM.take
    return opAssign ⟨id, m.loc⟩ target op (← number value)
  | call m receiver name args block parens => do
    let id ← NumberM.take
    let receiver ← match receiver with
      | none => pure none
      | some r => do pure (some (← number r))
    let args ← numberAll args
    let block ← match block with
      | none => pure none
      | some (.mk params body) => do pure (some (.mk params (← numberAll body)))
    return call ⟨id, m.loc⟩ receiver name args block parens
  | path m ref => return path ⟨← NumberM.take, m.loc⟩ ref
  | out m target => return out ⟨← NumberM.take, m.loc⟩ target
  | connect m op lhs rhs => do
    let id ← NumberM.take
    let lhs ← number lhs
    return connect ⟨id, m.loc⟩ op lhs (← number rhs)
  | ite m cond thenBody elseBody => do
    let id ← NumberM.take
    let cond ← number cond
    let thenBody ← numberAll thenBody
    return ite ⟨id, m.loc⟩ cond thenBody (← numberAll elseBody)
  | loop m cond body => do
    let id ← NumberM.take
    let cond ← number cond
    return loop ⟨id, m.loc⟩ cond (← numberAll body)
  | control m keyword => return control ⟨← NumberM.take, m.loc⟩ keyword
termination_by structural e => e

def numberAll : List Expr → NumberM (List Expr)
  | [] => return []
  | e :: es => do
    let e ← number e
    return e :: (← numberAll es)
termination_by structural es => es

end

end Expr

def Param.number (p : Param) : NumberM Param := do
  match p.default with
  | none => return p
  | some value => return { p with default := some (← value.number) }

def Def.number (d : Def) : NumberM Def := do
  let params ← d.params.mapM Param.number
  return { d with params, body := ← Expr.numberAll d.body }

def Item.number : Item → NumberM Item
  | .method d => return .method (← d.number)
  | .classDecl c => return .classDecl { c with methods := ← c.methods.mapM Def.number }
  | .library l => return .library l
  | .expr e => return .expr (← e.number)

/-- The program with these items, all of its nodes placed in the file and
    numbered. -/
def Program.ofItems (file : String) (items : List Item) : Program :=
  ⟨file, (((Item.placeAll file items).mapM Item.number).run 0).1⟩

end UnionTyping
