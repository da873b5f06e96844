/-
  UnionTyping/Proofs/Syntax/Places.lean
  =====================================
  **Where the parts of a program stand.**

  The locations of a program are those of its items, methods, native functions,
  written types and expression nodes.  Placement gives the children of a node places
  inside it (`Expr.children_place`), and numbering leaves all places alone
  (`Item.map_locations_numberAllFrom`).
-/
import UnionTyping.Proofs.Syntax.Numbering

namespace UnionTyping

/-! ### The locations of a program -/

mutual

def TypeRef.locations : TypeRef → List Location
  | .mk _ args loc => loc :: TypeRef.locationsOf args
termination_by structural r => r

def TypeRef.locationsOf : List TypeRef → List Location
  | [] => []
  | r :: rs => r.locations ++ TypeRef.locationsOf rs
termination_by structural rs => rs

end

def Expr.ownLocations : Expr → List Location
  | path m ref => m.loc :: ref.locations
  | e => [e.loc]

def Expr.locationsOf (es : List Expr) : List Location := (nodesOf es).flatMap ownLocations

def Param.locations (p : Param) : List Location :=
  TypeRef.locationsOf p.restriction.toList ++ Expr.locationsOf p.exprs

def Def.locations (d : Def) : List Location :=
  d.loc :: d.params.flatMap Param.locations ++ Expr.locationsOf d.body

def FunctionDecl.locations (f : FunctionDecl) : List Location :=
  f.loc :: TypeRef.locationsOf (f.params.map FunctionParam.ty) ++ TypeRef.locationsOf f.ret.toList

def Item.locations : Item → List Location
  | .method d => d.locations
  | .classDecl c =>
    c.loc :: TypeRef.locationsOf c.superclass.toList ++ c.methods.flatMap Def.locations
  | .library l => l.loc :: l.functions.flatMap FunctionDecl.locations
  | .expr e => Expr.locationsOf [e]

def Program.locations (p : Program) : List Location := p.items.flatMap Item.locations

theorem TypeRef.mem_locationsOf {refs : List TypeRef} {l : Location} :
    l ∈ locationsOf refs ↔ ∃ r ∈ refs, l ∈ r.locations := by
  induction refs with
  | nil => simp [locationsOf]
  | cons r refs ih => simp [locationsOf, ih]

theorem TypeRef.loc_mem_locations (r : TypeRef) : r.loc ∈ r.locations := by
  obtain ⟨name, args, loc⟩ := r
  exact List.mem_cons_self

theorem Expr.loc_mem_ownLocations (e : Expr) : e.loc ∈ e.ownLocations := by
  cases e <;> exact List.mem_cons_self

theorem Expr.mem_locationsOf {es : List Expr} {l : Location} :
    l ∈ locationsOf es ↔ ∃ n ∈ nodesOf es, l ∈ n.ownLocations :=
  List.mem_flatMap

theorem Expr.mem_locationsOf_iff {es : List Expr} {l : Location} :
    l ∈ locationsOf es ↔ ∃ e ∈ es, l ∈ locationsOf [e] := by
  simp only [mem_locationsOf, mem_nodesOf_iff, List.mem_singleton, exists_eq_left]
  constructor
  · rintro ⟨n, ⟨e, he, hn⟩, hl⟩
    exact ⟨e, he, n, hn, hl⟩
  · rintro ⟨e, he, n, hn, hl⟩
    exact ⟨n, ⟨e, he, hn⟩, hl⟩

/-- The locations of a method are its own, those of its restrictions and those in its
    expressions. -/
theorem Def.mem_locations {d : Def} {l : Location} :
    l ∈ d.locations ↔ l = d.loc ∨ (∃ p ∈ d.params, l ∈ TypeRef.locationsOf p.restriction.toList) ∨
      l ∈ Expr.locationsOf d.exprs := by
  have hexprs : l ∈ Expr.locationsOf d.exprs ↔
      (∃ p ∈ d.params, l ∈ Expr.locationsOf p.exprs) ∨ l ∈ Expr.locationsOf d.body := by
    rw [Expr.mem_locationsOf_iff, Def.exprs]
    simp only [List.mem_append, List.mem_flatMap, or_and_right, exists_or]
    refine or_congr ?_ Expr.mem_locationsOf_iff.symm
    constructor
    · rintro ⟨e, ⟨p, hp, he⟩, hl⟩
      exact ⟨p, hp, Expr.mem_locationsOf_iff.mpr ⟨e, he, hl⟩⟩
    · rintro ⟨p, hp, hl⟩
      obtain ⟨e, he, hl⟩ := Expr.mem_locationsOf_iff.mp hl
      exact ⟨e, ⟨p, hp, he⟩, hl⟩
  rw [hexprs]
  simp only [locations, List.cons_append, List.mem_cons, List.mem_append, List.mem_flatMap,
    Param.locations, and_or_left, exists_or, or_assoc]

/-! ### Placement -/

def Location.StandsIn (file : String) (l : Location) : Prop := l.file = file ∧ l.isPlaced = true

theorem Location.standsIn_within {file : String} {outer : Location} (h : outer.StandsIn file)
    (l : Location) : (l.within file outer).StandsIn file := by
  unfold within
  split
  · rename_i hplaced
    exact ⟨rfl, hplaced⟩
  · exact h

theorem TypeRef.placeAll_eq_map {file : String} {outer : Location} (rs : List TypeRef) :
    placeAll file outer rs = rs.map (·.place file outer) := by
  induction rs with
  | nil => rfl
  | cons r rs ih => rw [placeAll, ih, List.map_cons]

namespace Expr

variable {file : String} {outer : Location}

theorem placeAll_append (as bs : List Expr) :
    placeAll file outer (as ++ bs) = placeAll file outer as ++ placeAll file outer bs := by
  induction as with
  | nil => rfl
  | cons a as ih => simp [placeAll, ih]

theorem placeAll_eq_map (es : List Expr) :
    placeAll file outer es = es.map (·.place file outer) := by
  induction es with
  | nil => rfl
  | cons e es ih => rw [placeAll, ih, List.map_cons]

/-- The children of a placed node are placed inside it. -/
theorem children_place (e : Expr) :
    (e.place file outer).children = placeAll file (e.loc.within file outer) e.children := by
  cases e with
  | call m receiver name args block parens =>
    cases receiver <;> rcases block with _ | ⟨params, body⟩ <;>
      simp only [place, children, Option.toList, Block.bodyOf, placeAll_append, placeAll] <;> rfl
  | ite m cond thenBody elseBody =>
    simp only [place, children, placeAll, List.cons_append, placeAll_append]
    rfl
  | _ => rfl

end Expr

/-! ### Numbering -/

theorem Expr.ownLocations_numberFrom (next : NodeId) (e : Expr) :
    (e.numberFrom next).ownLocations = e.ownLocations := by
  cases e with
  | call m receiver name args block parens =>
    cases receiver <;> rcases block with _ | ⟨params, body⟩ <;> rfl
  | _ => rfl

theorem Expr.map_ownLocations_numberAllFrom_of {es : List Expr}
    (h : ∀ e ∈ es, ∀ next, (e.numberFrom next).nodes.map ownLocations = e.nodes.map ownLocations)
    (next : NodeId) :
    (nodesOf (numberAllFrom next es)).map ownLocations = (nodesOf es).map ownLocations := by
  induction es generalizing next with
  | nil => rfl
  | cons e es ih =>
    obtain ⟨he, hes⟩ := List.forall_mem_cons.mp h
    rw [numberAllFrom, nodesOf, nodesOf, List.map_append, List.map_append, he, ih hes]

theorem Expr.map_ownLocations_numberFrom (next : NodeId) (e : Expr) :
    (e.numberFrom next).nodes.map ownLocations = e.nodes.map ownLocations := by
  have hchild : ∀ child ∈ e.children, ∀ next,
      (child.numberFrom next).nodes.map ownLocations = child.nodes.map ownLocations := by
    intro child hmem next
    have hlt := size_lt_of_mem_children hmem
    exact map_ownLocations_numberFrom next child
  rw [nodes_eq, nodes_eq, List.map_cons, List.map_cons, children_numberFrom,
    ownLocations_numberFrom,
    map_ownLocations_numberAllFrom_of hchild]
termination_by e.size

theorem Expr.locationsOf_numberAllFrom (next : NodeId) (es : List Expr) :
    locationsOf (numberAllFrom next es) = locationsOf es := by
  have hall := map_ownLocations_numberAllFrom_of (fun e (_ : e ∈ es) next =>
    map_ownLocations_numberFrom next e) next
  rw [locationsOf, locationsOf, List.flatMap_def, List.flatMap_def, hall]

theorem Param.locations_numberAllFrom (next : NodeId) (ps : List Param) :
    (numberAllFrom next ps).flatMap locations = ps.flatMap locations := by
  induction ps generalizing next with
  | nil => rfl
  | cons p ps ih =>
    rw [numberAllFrom, List.flatMap_cons, List.flatMap_cons, ih]
    congr 1
    obtain ⟨name, restriction, default⟩ := p
    cases default with
    | none => rfl
    | some value =>
      have hvalue := Expr.locationsOf_numberAllFrom next [value]
      simp only [locations, exprs, Option.map_some, Option.toList_some]
      exact congrArg (TypeRef.locationsOf restriction.toList ++ ·) hvalue

theorem Def.locations_numberFrom (next : NodeId) (d : Def) :
    (d.numberFrom next).locations = d.locations := by
  rw [locations, locations, numberFrom, Param.locations_numberAllFrom,
    Expr.locationsOf_numberAllFrom]

theorem Def.locations_numberAllFrom (next : NodeId) (ds : List Def) :
    (numberAllFrom next ds).flatMap locations = ds.flatMap locations := by
  induction ds generalizing next with
  | nil => rfl
  | cons d ds ih =>
    rw [numberAllFrom, List.flatMap_cons, List.flatMap_cons, ih, locations_numberFrom]

theorem Item.locations_numberFrom (next : NodeId) (i : Item) :
    (i.numberFrom next).locations = i.locations := by
  cases i with
  | method d => exact d.locations_numberFrom next
  | classDecl c => simp only [numberFrom, locations, Def.locations_numberAllFrom]
  | library decl => rfl
  | expr e => exact Expr.locationsOf_numberAllFrom next [e]

theorem Item.map_locations_numberAllFrom (next : NodeId) (items : List Item) :
    (numberAllFrom next items).map locations = items.map locations := by
  induction items generalizing next with
  | nil => rfl
  | cons i items ih => rw [numberAllFrom, List.map_cons, List.map_cons, ih, locations_numberFrom]

end UnionTyping
