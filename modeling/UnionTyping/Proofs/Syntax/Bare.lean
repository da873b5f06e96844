/-
  UnionTyping/Proofs/Syntax/Bare.lean
  ===================================
  **Placement and numbering change nothing but places and numbers.**

  The bare form of a part of a program is what is left of it without the places and the
  numbers.  A file that is placed and numbered has the bare form of what was written
  (`Program.bare_ofItems`).
-/
import UnionTyping.Proofs.Syntax.Places

namespace UnionTyping

/-! ### Written types -/

namespace TypeRef

mutual

def bare : TypeRef → TypeRef
  | .mk name args _ => .mk name (bareAll args) .unplaced
termination_by structural r => r

def bareAll : List TypeRef → List TypeRef
  | [] => []
  | r :: rs => r.bare :: bareAll rs
termination_by structural rs => rs

end

mutual

theorem bare_place (r : TypeRef) {file : String} {outer : Location} :
    (r.place file outer).bare = r.bare := by
  match r with
  | .mk name args loc => rw [place, bare, bare, bare_placeAll args]
termination_by structural r

theorem bare_placeAll (rs : List TypeRef) {file : String} {outer : Location} :
    bareAll (placeAll file outer rs) = bareAll rs := by
  match rs with
  | [] => rfl
  | r :: rs => rw [placeAll, bareAll, bareAll, bare_place r, bare_placeAll rs]
termination_by structural rs

end

end TypeRef

/-! ### Expressions -/

def Mark.blank : Mark := ⟨0, .unplaced⟩

namespace Expr

mutual

def bare : Expr → Expr
  | literal _ value => literal .blank value
  | ident _ name => ident .blank name
  | ivar _ name => ivar .blank name
  | assign _ target value => assign .blank target (bare value)
  | opAssign _ target op value => opAssign .blank target op (bare value)
  | call _ receiver name args block parens =>
    call .blank
      (match receiver with
        | none => none
        | some r => some (bare r))
      name (bareAll args)
      (match block with
        | none => none
        | some (.mk params body) => some (.mk params (bareAll body)))
      parens
  | path _ ref => path .blank ref.bare
  | out _ target => out .blank target
  | connect _ op lhs rhs => connect .blank op (bare lhs) (bare rhs)
  | ite _ cond thenBody elseBody => ite .blank (bare cond) (bareAll thenBody) (bareAll elseBody)
  | loop _ cond body => loop .blank (bare cond) (bareAll body)
  | control _ keyword => control .blank keyword
termination_by structural e => e

def bareAll : List Expr → List Expr
  | [] => []
  | e :: es => bare e :: bareAll es
termination_by structural es => es

end

theorem bareAll_eq_map (es : List Expr) : bareAll es = es.map bare := by
  induction es with
  | nil => rfl
  | cons e es ih => rw [bareAll, ih, List.map_cons]

mutual

theorem bare_place {file : String} {outer : Location} (e : Expr) :
    (e.place file outer).bare = e.bare := by
  match e with
  | .literal _ _ | .ident _ _ | .ivar _ _ | .out _ _ | .control _ _ => rfl
  | .path m ref => rw [place, bare, bare, ref.bare_place]
  | .assign m target value => rw [place, bare, bare, bare_place value]
  | .opAssign m target op value => rw [place, bare, bare, bare_place value]
  | .connect m op lhs rhs => rw [place, bare, bare, bare_place lhs, bare_place rhs]
  | .ite m cond thenBody elseBody =>
    rw [place, bare, bare, bare_place cond, bare_placeAll thenBody, bare_placeAll elseBody]
  | .loop m cond body => rw [place, bare, bare, bare_place cond, bare_placeAll body]
  | .call m none name args none parens => rw [place, bare, bare, bare_placeAll args]
  | .call m (some r) name args none parens =>
    simp only [place, bare, bare_place r, bare_placeAll args]
  | .call m none name args (some (.mk params body)) parens =>
    simp only [place, bare, bare_placeAll args, bare_placeAll body]
  | .call m (some r) name args (some (.mk params body)) parens =>
    simp only [place, bare, bare_place r, bare_placeAll args, bare_placeAll body]
termination_by structural e

theorem bare_placeAll {file : String} {outer : Location} (es : List Expr) :
    bareAll (placeAll file outer es) = bareAll es := by
  match es with
  | [] => rfl
  | e :: es => rw [placeAll, bareAll, bareAll, bare_place e, bare_placeAll es]
termination_by structural es

end

mutual

theorem bare_numberFrom {next : NodeId} (e : Expr) : (e.numberFrom next).bare = e.bare := by
  match e with
  | .literal _ _ | .ident _ _ | .ivar _ _ | .path _ _ | .out _ _ | .control _ _ => rfl
  | .assign m target value => rw [numberFrom, bare, bare, bare_numberFrom value]
  | .opAssign m target op value => rw [numberFrom, bare, bare, bare_numberFrom value]
  | .connect m op lhs rhs => rw [numberFrom, bare, bare, bare_numberFrom lhs, bare_numberFrom rhs]
  | .ite m cond thenBody elseBody =>
    rw [numberFrom, bare, bare, bare_numberFrom cond, bare_numberAllFrom thenBody,
      bare_numberAllFrom elseBody]
  | .loop m cond body => rw [numberFrom, bare, bare, bare_numberFrom cond, bare_numberAllFrom body]
  | .call m none name args none parens => rw [numberFrom, bare, bare, bare_numberAllFrom args]
  | .call m (some r) name args none parens =>
    simp only [numberFrom, bare, bare_numberFrom r, bare_numberAllFrom args]
  | .call m none name args (some (.mk params body)) parens =>
    simp only [numberFrom, bare, bare_numberAllFrom args, bare_numberAllFrom body]
  | .call m (some r) name args (some (.mk params body)) parens =>
    simp only [numberFrom, bare, bare_numberFrom r, bare_numberAllFrom args,
      bare_numberAllFrom body]
termination_by structural e

theorem bare_numberAllFrom {next : NodeId} (es : List Expr) :
    bareAll (numberAllFrom next es) = bareAll es := by
  match es with
  | [] => rfl
  | e :: es => rw [numberAllFrom, bareAll, bareAll, bare_numberFrom e, bare_numberAllFrom es]
termination_by structural es

end

theorem children_bare (e : Expr) : e.bare.children = e.children.map bare := by
  rw [← bareAll_eq_map]
  cases e with
  | call m receiver name args block parens =>
    cases receiver <;> rcases block with _ | ⟨params, body⟩ <;>
      simp [bare, children, bareAll_eq_map, Block.bodyOf]
  | ite m cond thenBody elseBody => simp [bare, children, bareAll_eq_map]
  | _ => rfl

/-- The nodes of the bare form are the bare forms of the nodes. -/
theorem nodes_bare (e : Expr) : e.bare.nodes = e.nodes.map bare := by
  rw [nodes_eq, nodes_eq e, children_bare, nodesOf_eq, nodesOf_eq, List.map_cons, List.flatMap_map,
    List.map_flatMap]
  congr 1
  refine List.flatMap_congr fun child hchild => ?_
  have hlt := size_lt_of_mem_children hchild
  exact nodes_bare child
termination_by e.size

theorem nodesOf_bareAll (es : List Expr) : nodesOf (bareAll es) = (nodesOf es).map bare := by
  induction es with
  | nil => rfl
  | cons e es ih => rw [bareAll, nodesOf, nodesOf, nodes_bare, ih, List.map_append]

end Expr

/-! ### Declarations and programs -/

def Param.bare (p : Param) : Param :=
  { p with restriction := p.restriction.map TypeRef.bare, default := p.default.map Expr.bare }

def Def.bare (d : Def) : Def :=
  { d with params := d.params.map Param.bare, body := Expr.bareAll d.body, loc := .unplaced }

def ClassDecl.bare (c : ClassDecl) : ClassDecl :=
  { c with
    superclass := c.superclass.map TypeRef.bare
    methods := c.methods.map Def.bare
    loc := .unplaced }

def FunctionParam.bare (p : FunctionParam) : FunctionParam := { p with ty := p.ty.bare }

def FunctionDecl.bare (f : FunctionDecl) : FunctionDecl :=
  { f with
    params := f.params.map FunctionParam.bare
    ret := f.ret.map TypeRef.bare
    loc := .unplaced }

def LibraryDecl.bare (l : LibraryDecl) : LibraryDecl :=
  { l with functions := l.functions.map FunctionDecl.bare, loc := .unplaced }

def Item.bare : Item → Item
  | .method d => .method d.bare
  | .classDecl c => .classDecl c.bare
  | .library l => .library l.bare
  | .expr e => .expr e.bare

section

variable {file : String} {outer : Location}

theorem Param.bare_place (p : Param) : (p.place file outer).bare = p.bare := by
  simp only [place, bare, Option.map_map, Function.comp_def, TypeRef.bare_place, Expr.bare_place]

theorem Def.bare_place (d : Def) : (d.place file outer).bare = d.bare := by
  simp only [place, bare, List.map_map, Function.comp_def, Param.bare_place, Expr.bare_placeAll]

theorem FunctionDecl.bare_place (f : FunctionDecl) : (f.place file outer).bare = f.bare := by
  have hparam (p : FunctionParam) :
      FunctionParam.bare { p with ty := p.ty.place file (f.loc.within file outer) } = p.bare := by
    rw [FunctionParam.bare, TypeRef.bare_place, FunctionParam.bare]
  simp only [place, bare, List.map_map, Option.map_map, Function.comp_def, hparam,
    TypeRef.bare_place]

theorem Item.bare_place (i : Item) : (i.place file outer).bare = i.bare := by
  cases i with
  | method d => simp only [place, bare, Def.bare_place]
  | classDecl c =>
    simp only [place, bare, ClassDecl.place, ClassDecl.bare, List.map_map, Option.map_map,
      Function.comp_def, TypeRef.bare_place, Def.bare_place]
  | library l =>
    simp only [place, bare, LibraryDecl.place, LibraryDecl.bare, List.map_map, Function.comp_def,
      FunctionDecl.bare_place]
  | expr e => simp only [place, bare, Expr.bare_place]

end

theorem Param.bare_numberAllFrom {next : NodeId} (ps : List Param) :
    (numberAllFrom next ps).map bare = ps.map bare := by
  induction ps generalizing next with
  | nil => rfl
  | cons p ps ih =>
    simp only [numberAllFrom, List.map_cons, ih, bare, Option.map_map, Function.comp_def,
      Expr.bare_numberFrom]

theorem Def.bare_numberFrom {next : NodeId} (d : Def) : (d.numberFrom next).bare = d.bare := by
  simp only [numberFrom, bare, Param.bare_numberAllFrom, Expr.bare_numberAllFrom]

theorem Def.bare_numberAllFrom {next : NodeId} (ds : List Def) :
    (numberAllFrom next ds).map bare = ds.map bare := by
  induction ds generalizing next with
  | nil => rfl
  | cons d ds ih => rw [numberAllFrom, List.map_cons, List.map_cons, bare_numberFrom, ih]

theorem Item.bare_numberFrom {next : NodeId} (i : Item) : (i.numberFrom next).bare = i.bare := by
  cases i with
  | method d => simp only [numberFrom, bare, Def.bare_numberFrom]
  | classDecl c => simp only [numberFrom, bare, ClassDecl.bare, Def.bare_numberAllFrom]
  | library l => rfl
  | expr e => simp only [numberFrom, bare, Expr.bare_numberFrom]

theorem Item.bare_numberAllFrom {next : NodeId} (items : List Item) :
    (numberAllFrom next items).map bare = items.map bare := by
  induction items generalizing next with
  | nil => rfl
  | cons i items ih => rw [numberAllFrom, List.map_cons, List.map_cons, bare_numberFrom, ih]

/-- A program says what its items say. -/
theorem Program.bare_ofItems (file : String) (items : List Item) :
    (Program.ofItems file items).items.map Item.bare = items.map Item.bare := by
  rw [ofItems_eq, Item.bare_numberAllFrom, Item.placeAll]
  refine List.ext_getElem? fun index => ?_
  simp only [List.getElem?_map, List.getElem?_mapIdx, Option.map_map, Function.comp_def,
    Item.bare_place]

theorem Param.exprs_bare (p : Param) : p.bare.exprs = p.exprs.map Expr.bare := by
  rw [exprs, bare, Option.toList_map]
  rfl

theorem Def.exprs_bare (d : Def) : d.bare.exprs = d.exprs.map Expr.bare := by
  simp only [exprs, bare, List.flatMap_map, List.map_append, List.map_flatMap, Param.exprs_bare,
    Expr.bareAll_eq_map]

theorem Item.exprs_bare (i : Item) : i.bare.exprs = i.exprs.map Expr.bare := by
  cases i with
  | method d => exact d.exprs_bare
  | classDecl c =>
    simp only [exprs, bare, ClassDecl.bare, List.flatMap_map, List.map_flatMap, Def.exprs_bare]
  | library l => rfl
  | expr e => rfl

theorem Item.map_bare_nodesOf (items : List Item) :
    (Expr.nodesOf (items.flatMap Item.exprs)).map Expr.bare =
      Expr.nodesOf ((items.map Item.bare).flatMap Item.exprs) := by
  rw [← Expr.nodesOf_bareAll, Expr.bareAll_eq_map, List.map_flatMap, List.flatMap_map]
  simp only [Item.exprs_bare]

/-- The nodes of a program are those that were written. -/
theorem Program.map_bare_nodes (file : String) (items : List Item) :
    (Program.ofItems file items).nodes.map Expr.bare =
      (Expr.nodesOf (items.flatMap Item.exprs)).map Expr.bare := by
  rw [nodes, Item.map_bare_nodesOf, Item.map_bare_nodesOf, bare_ofItems]

end UnionTyping
