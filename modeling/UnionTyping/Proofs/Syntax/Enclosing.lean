/-
  UnionTyping/Proofs/Syntax/Enclosing.lean
  ========================================
  **A part without a place of its own stands where the part around it stands.**

  The chain of a part of an item consists of its location and those of the parts around it, from
  the inside out.  Placement gives each part the first known location of its chain, and the line of
  the item where none is known (`Item.locations_place`).  So all parts of a program stand in its
  file (`Program.locations_ofItems`), and what stands there stays as it is
  (`Item.place_of_standsIn`): a program that is made of its own items again is the same
  (`Program.ofItems_inherits`).
-/
import UnionTyping.Proofs.Syntax.Bare

namespace UnionTyping

namespace Location

variable {file : String} {start : Location}

/-- The first known location of a chain, in the file, and `start` when none is known. -/
def nearest (file : String) (start : Location) (chain : List Location) : Location :=
  match chain.find? isPlaced with
  | some l => { l with file }
  | none => start

/-- A location inside others is looked for among these when it is not known itself. -/
theorem nearest_cons (l : Location) (chain : List Location) :
    nearest file start (l :: chain) = l.within file (nearest file start chain) := by
  unfold nearest within
  rw [List.find?_cons]
  cases l.isPlaced <;> rfl

theorem standsIn_nearest (h : start.StandsIn file) (chain : List Location) :
    (nearest file start chain).StandsIn file := by
  induction chain with
  | nil => exact h
  | cons l chain ih =>
    rw [nearest_cons]
    exact standsIn_within ih l

theorem within_of_standsIn {l outer : Location} (h : l.StandsIn file) :
    l.within file outer = l := by
  obtain ⟨hfile, hplaced⟩ := h
  rw [within, if_pos hplaced, ← hfile]

end Location

/-! ### The locations around a part -/

mutual

/-- The chains of a written type and of its arguments, when the locations around it are given
    from the inside out. -/
def TypeRef.chains (around : List Location) : TypeRef → List (List Location)
  | .mk _ args loc => (loc :: around) :: TypeRef.chainsOf (loc :: around) args
termination_by structural r => r

def TypeRef.chainsOf (around : List Location) : List TypeRef → List (List Location)
  | [] => []
  | r :: rs => r.chains around ++ TypeRef.chainsOf around rs
termination_by structural rs => rs

end

namespace Expr

def ownChains (around : List Location) : Expr → List (List Location)
  | path m ref => (m.loc :: around) :: ref.chains (m.loc :: around)
  | e => [e.loc :: around]

def chains (around : List Location) (e : Expr) : List (List Location) :=
  e.ownChains around ++ e.children.attach.flatMap fun child => child.1.chains (e.loc :: around)
termination_by e.size
decreasing_by exact size_lt_of_mem_children child.2

theorem chains_eq (around : List Location) (e : Expr) :
    e.chains around = e.ownChains around ++ e.children.flatMap (chains (e.loc :: around)) := by
  rw [chains, List.flatMap_subtype (fun _ _ => rfl), List.unattach_attach]

end Expr

def Param.chains (around : List Location) (p : Param) : List (List Location) :=
  TypeRef.chainsOf around p.restriction.toList ++ p.exprs.flatMap (Expr.chains around)

def Def.chains (around : List Location) (d : Def) : List (List Location) :=
  let inside := d.loc :: around
  inside :: d.params.flatMap (Param.chains inside) ++ d.body.flatMap (Expr.chains inside)

def FunctionDecl.chains (around : List Location) (f : FunctionDecl) : List (List Location) :=
  let inside := f.loc :: around
  inside :: TypeRef.chainsOf inside (f.params.map FunctionParam.ty) ++
    TypeRef.chainsOf inside f.ret.toList

def Item.chains : Item → List (List Location)
  | .method d => d.chains []
  | .classDecl c =>
    [c.loc] :: TypeRef.chainsOf [c.loc] c.superclass.toList ++
      c.methods.flatMap (Def.chains [c.loc])
  | .library l => [l.loc] :: l.functions.flatMap (FunctionDecl.chains [l.loc])
  | .expr e => e.chains []

/-! ### The parts that chains begin with -/

mutual

theorem TypeRef.head_chains (r : TypeRef) (around : List Location) :
    (r.chains around).map List.head? = r.locations.map some := by
  match r with
  | .mk name args loc =>
    rw [chains, locations, List.map_cons, List.map_cons, head_chainsOf args, List.head?_cons]
termination_by structural r

theorem TypeRef.head_chainsOf (rs : List TypeRef) (around : List Location) :
    (chainsOf around rs).map List.head? = (locationsOf rs).map some := by
  match rs with
  | [] => rfl
  | r :: rs =>
    rw [chainsOf, locationsOf, List.map_append, List.map_append, head_chains r, head_chainsOf rs]
termination_by structural rs

end

theorem Expr.head_ownChains (e : Expr) (around : List Location) :
    (e.ownChains around).map List.head? = e.ownLocations.map some := by
  cases e with
  | path m ref =>
    rw [ownChains, ownLocations, List.map_cons, List.map_cons, ref.head_chains, List.head?_cons]
  | _ => rfl

theorem Expr.head_chains (e : Expr) (around : List Location) :
    (e.chains around).map List.head? = (e.nodes.flatMap ownLocations).map some := by
  rw [nodes_eq, List.flatMap_cons, nodesOf_eq, List.flatMap_assoc, chains_eq, List.map_append,
    List.map_append, head_ownChains, List.map_flatMap, List.map_flatMap]
  congr 1
  refine List.flatMap_congr fun child hchild => ?_
  have hlt := size_lt_of_mem_children hchild
  exact head_chains child (e.loc :: around)
termination_by e.size

theorem Expr.head_flatMap_chains (es : List Expr) (around : List Location) :
    (es.flatMap (chains around)).map List.head? = (locationsOf es).map some := by
  simp only [locationsOf, nodesOf_eq, List.flatMap_assoc, List.map_flatMap, head_chains]

theorem Param.head_chains (p : Param) (around : List Location) :
    (p.chains around).map List.head? = p.locations.map some := by
  rw [chains, locations, List.map_append, List.map_append, TypeRef.head_chainsOf,
    Expr.head_flatMap_chains]

theorem Def.head_chains (d : Def) (around : List Location) :
    (d.chains around).map List.head? = d.locations.map some := by
  have hparams : (d.params.flatMap (Param.chains (d.loc :: around))).map List.head? =
      (d.params.flatMap Param.locations).map some := by
    simp only [List.map_flatMap, Param.head_chains]
  simp only [chains, locations, List.map_append, List.map_cons, List.head?_cons, hparams,
    Expr.head_flatMap_chains]

theorem FunctionDecl.head_chains (f : FunctionDecl) (around : List Location) :
    (f.chains around).map List.head? = f.locations.map some := by
  simp only [chains, locations, List.map_append, List.map_cons, List.head?_cons,
    TypeRef.head_chainsOf]

/-- The chains of an item begin with its locations, in the same order. -/
theorem Item.head_chains (i : Item) : i.chains.map List.head? = i.locations.map some := by
  cases i with
  | method d => exact d.head_chains []
  | classDecl c =>
    simp only [chains, locations, List.map_append, List.map_cons, List.map_flatMap,
      List.head?_cons, TypeRef.head_chainsOf, Def.head_chains]
  | library l =>
    simp only [chains, locations, List.map_cons, List.map_flatMap, List.head?_cons,
      FunctionDecl.head_chains]
  | expr e =>
    have he := Expr.head_flatMap_chains [e] []
    rw [List.flatMap_singleton] at he
    exact he

/-! ### Placement -/

section

variable {file : String} {start : Location}

mutual

theorem TypeRef.locations_place (r : TypeRef) (around : List Location) :
    (r.place file (.nearest file start around)).locations =
      (r.chains around).map (.nearest file start) := by
  match r with
  | .mk name args loc =>
    rw [place, locations, chains, List.map_cons, ← Location.nearest_cons,
      locationsOf_placeAll args]
termination_by structural r

theorem TypeRef.locationsOf_placeAll (rs : List TypeRef) (around : List Location) :
    locationsOf (placeAll file (.nearest file start around) rs) =
      (chainsOf around rs).map (.nearest file start) := by
  match rs with
  | [] => rfl
  | r :: rs =>
    rw [placeAll, locationsOf, chainsOf, List.map_append, locations_place r,
      locationsOf_placeAll rs]
termination_by structural rs

end

theorem TypeRef.locationsOf_map_place (rs : List TypeRef) (around : List Location) :
    locationsOf (rs.map (·.place file (.nearest file start around))) =
      (chainsOf around rs).map (.nearest file start) := by
  rw [← placeAll_eq_map, locationsOf_placeAll]

theorem Expr.ownLocations_place (e : Expr) (around : List Location) :
    (e.place file (.nearest file start around)).ownLocations =
      (e.ownChains around).map (.nearest file start) := by
  have hloc : [e.loc.within file (.nearest file start around)] =
      [Location.nearest file start (e.loc :: around)] := by
    rw [Location.nearest_cons]
  cases e with
  | path m ref =>
    rw [place, ownLocations, ownChains, List.map_cons, Location.nearest_cons, Mark.place,
      ← Location.nearest_cons, TypeRef.locations_place]
  | call m receiver name args block parens =>
    cases receiver <;> rcases block with _ | ⟨params, body⟩ <;> exact hloc
  | _ => exact hloc

theorem Expr.locations_place (e : Expr) (around : List Location) :
    (e.place file (.nearest file start around)).nodes.flatMap ownLocations =
      (e.chains around).map (.nearest file start) := by
  rw [nodes_eq, List.flatMap_cons, ownLocations_place, children_place, nodesOf_eq,
    placeAll_eq_map, List.flatMap_map, List.flatMap_assoc, chains_eq, List.map_append,
    List.map_flatMap, ← Location.nearest_cons]
  congr 1
  refine List.flatMap_congr fun child hchild => ?_
  have hlt := size_lt_of_mem_children hchild
  exact locations_place child (e.loc :: around)
termination_by e.size

theorem Expr.locationsOf_placeAll (es : List Expr) (around : List Location) :
    locationsOf (placeAll file (.nearest file start around) es) =
      (es.flatMap (chains around)).map (.nearest file start) := by
  simp only [locationsOf, nodesOf_eq, placeAll_eq_map, List.flatMap_map, List.flatMap_assoc,
    List.map_flatMap, locations_place]

theorem Param.locations_place (p : Param) (around : List Location) :
    (p.place file (.nearest file start around)).locations =
      (p.chains around).map (.nearest file start) := by
  rw [locations, chains, List.map_append, ← TypeRef.locationsOf_map_place,
    ← Expr.locationsOf_placeAll, Expr.placeAll_eq_map, exprs, exprs, place, Option.toList_map,
    Option.toList_map]

theorem Def.locations_place (d : Def) (around : List Location) :
    (d.place file (.nearest file start around)).locations =
      (d.chains around).map (.nearest file start) := by
  simp only [locations, chains, place, ← Location.nearest_cons, List.map_append, List.map_cons,
    List.map_flatMap, List.flatMap_map, Param.locations_place, Expr.locationsOf_placeAll]

theorem FunctionDecl.locations_place (f : FunctionDecl) (around : List Location) :
    (f.place file (.nearest file start around)).locations =
      (f.chains around).map (.nearest file start) := by
  have hparams (outer : Location) :
      (f.params.map fun p => { p with ty := p.ty.place file outer }).map FunctionParam.ty =
        (f.params.map FunctionParam.ty).map (·.place file outer) := by
    simp only [List.map_map]
    rfl
  simp only [locations, chains, place, ← Location.nearest_cons, List.map_append, List.map_cons,
    hparams, Option.toList_map, TypeRef.locationsOf_map_place]

/-- The parts of an item that is placed stand at the first known locations of their chains. -/
theorem Item.locations_place (i : Item) :
    (i.place file start).locations = i.chains.map (.nearest file start) := by
  cases i with
  | method d => exact d.locations_place []
  | classDecl c =>
    have hloc : c.loc.within file start = Location.nearest file start [c.loc] := by
      rw [Location.nearest_cons]
      rfl
    simp only [place, ClassDecl.place, locations, chains, hloc, List.map_append, List.map_cons,
      Option.toList_map, TypeRef.locationsOf_map_place, List.flatMap_map, List.map_flatMap,
      Def.locations_place]
  | library l =>
    have hloc : l.loc.within file start = Location.nearest file start [l.loc] := by
      rw [Location.nearest_cons]
      rfl
    simp only [place, LibraryDecl.place, locations, chains, hloc, List.map_cons, List.flatMap_map,
      List.map_flatMap, FunctionDecl.locations_place]
  | expr e =>
    have he : Expr.locationsOf (Expr.placeAll file start [e]) =
        ([e].flatMap (Expr.chains [])).map (.nearest file start) :=
      Expr.locationsOf_placeAll [e] []
    rw [List.flatMap_singleton] at he
    exact he

end

/-! ### What stands in the file already -/

section

variable {file : String} {outer : Location}

/-- Parts that are left as they are one by one are so in a list. -/
theorem Location.map_of_standsIn {α : Type} {locations : α → List Location} {f : α → α}
    {as : List α} (hf : ∀ a, (∀ l ∈ locations a, l.StandsIn file) → f a = a)
    (h : ∀ l ∈ as.flatMap locations, l.StandsIn file) : as.map f = as := by
  refine (List.map_congr_left fun a ha => ?_).trans (List.map_id' _)
  exact hf a fun l hl => h l (List.mem_flatMap.mpr ⟨a, ha, hl⟩)

theorem Mark.place_of_standsIn {m : Mark} (h : m.loc.StandsIn file) : m.place file outer = m := by
  rw [place, Location.within_of_standsIn h]

mutual

theorem TypeRef.place_of_standsIn (r : TypeRef) (h : ∀ l ∈ r.locations, l.StandsIn file)
    {outer : Location} : r.place file outer = r := by
  match r with
  | .mk name args loc =>
    obtain ⟨hloc, hargs⟩ := List.forall_mem_cons.mp h
    rw [place, Location.within_of_standsIn hloc, placeAll_of_standsIn args hargs]
termination_by structural r

theorem TypeRef.placeAll_of_standsIn (rs : List TypeRef)
    (h : ∀ l ∈ locationsOf rs, l.StandsIn file) {outer : Location} :
    placeAll file outer rs = rs := by
  match rs with
  | [] => rfl
  | r :: rs =>
    obtain ⟨hr, hrs⟩ := List.forall_mem_append.mp h
    rw [placeAll, place_of_standsIn r hr, placeAll_of_standsIn rs hrs]
termination_by structural rs

end

namespace Expr

theorem forall_locationsOf_append {es es' : List Expr} {P : Location → Prop} :
    (∀ l ∈ locationsOf (es ++ es'), P l) ↔
      (∀ l ∈ locationsOf es, P l) ∧ ∀ l ∈ locationsOf es', P l := by
  rw [locationsOf, nodesOf_append, List.flatMap_append, List.forall_mem_append]
  rfl

theorem forall_locationsOf_cons {e : Expr} {es : List Expr} {P : Location → Prop} :
    (∀ l ∈ locationsOf (e :: es), P l) ↔
      (∀ l ∈ locationsOf [e], P l) ∧ ∀ l ∈ locationsOf es, P l :=
  @forall_locationsOf_append [e] es P

/-- The locations in an expression are its own and those in its children. -/
theorem forall_locationsOf_singleton {e : Expr} {P : Location → Prop} :
    (∀ l ∈ locationsOf [e], P l) ↔
      (∀ l ∈ e.ownLocations, P l) ∧ ∀ l ∈ locationsOf e.children, P l := by
  rw [locationsOf, nodesOf, nodesOf, List.append_nil, nodes_eq, List.flatMap_cons,
    List.forall_mem_append]
  rfl

mutual

theorem place_of_standsIn (e : Expr) (h : ∀ l ∈ locationsOf [e], l.StandsIn file)
    {outer : Location} : e.place file outer = e := by
  obtain ⟨hown, hchildren⟩ := forall_locationsOf_singleton.mp h
  have hmark (m : Mark) (hm : e.mark = m) : m.place file outer = m := by
    subst hm
    exact Mark.place_of_standsIn (hown _ (loc_mem_ownLocations e))
  match e with
  | .literal m _ | .ident m _ | .ivar m _ | .out m _ | .control m _ => rw [place, hmark m rfl]
  | .path m ref =>
    rw [place, hmark m rfl, ref.place_of_standsIn (List.forall_mem_cons.mp hown).2]
  | .assign m target value => rw [place, hmark m rfl, place_of_standsIn value hchildren]
  | .opAssign m target op value => rw [place, hmark m rfl, place_of_standsIn value hchildren]
  | .connect m op lhs rhs =>
    obtain ⟨hlhs, hrhs⟩ := forall_locationsOf_cons.mp hchildren
    rw [place, hmark m rfl, place_of_standsIn lhs hlhs, place_of_standsIn rhs hrhs]
  | .ite m cond thenBody elseBody =>
    obtain ⟨hcond, hbodies⟩ := forall_locationsOf_cons.mp hchildren
    obtain ⟨hthen, helse⟩ := forall_locationsOf_append.mp hbodies
    rw [place, hmark m rfl, place_of_standsIn cond hcond, placeAll_of_standsIn thenBody hthen,
      placeAll_of_standsIn elseBody helse]
  | .loop m cond body =>
    obtain ⟨hcond, hbody⟩ := forall_locationsOf_cons.mp hchildren
    rw [place, hmark m rfl, place_of_standsIn cond hcond, placeAll_of_standsIn body hbody]
  | .call m none name args none parens =>
    obtain ⟨hargs, -⟩ := forall_locationsOf_append.mp hchildren
    rw [place, hmark m rfl, placeAll_of_standsIn args hargs]
  | .call m (some r) name args none parens =>
    obtain ⟨hr, hargs⟩ := forall_locationsOf_cons.mp (forall_locationsOf_append.mp hchildren).1
    simp only [place, hmark m rfl, place_of_standsIn r hr, placeAll_of_standsIn args hargs]
  | .call m none name args (some (.mk params body)) parens =>
    obtain ⟨hargs, hbody⟩ := forall_locationsOf_append.mp hchildren
    simp only [place, hmark m rfl, placeAll_of_standsIn args hargs,
      placeAll_of_standsIn body hbody]
  | .call m (some r) name args (some (.mk params body)) parens =>
    obtain ⟨hfirst, hbody⟩ := forall_locationsOf_append.mp hchildren
    obtain ⟨hr, hargs⟩ := forall_locationsOf_cons.mp hfirst
    simp only [place, hmark m rfl, place_of_standsIn r hr, placeAll_of_standsIn args hargs,
      placeAll_of_standsIn body hbody]
termination_by structural e

theorem placeAll_of_standsIn (es : List Expr) (h : ∀ l ∈ locationsOf es, l.StandsIn file)
    {outer : Location} : placeAll file outer es = es := by
  match es with
  | [] => rfl
  | e :: es =>
    obtain ⟨he, hes⟩ := forall_locationsOf_cons.mp h
    rw [placeAll, place_of_standsIn e he, placeAll_of_standsIn es hes]
termination_by structural es

end

end Expr

theorem TypeRef.map_place_of_standsIn (r : Option TypeRef)
    (h : ∀ l ∈ locationsOf r.toList, l.StandsIn file) : r.map (·.place file outer) = r := by
  cases r with
  | none => rfl
  | some r =>
    obtain ⟨hr, -⟩ := List.forall_mem_append.mp h
    rw [Option.map_some, r.place_of_standsIn hr]

theorem Param.place_of_standsIn (p : Param) (h : ∀ l ∈ p.locations, l.StandsIn file) :
    p.place file outer = p := by
  obtain ⟨name, restriction, default⟩ := p
  obtain ⟨hrestriction, hdefault⟩ := List.forall_mem_append.mp h
  rw [place, TypeRef.map_place_of_standsIn _ hrestriction]
  cases default with
  | none => rfl
  | some value => rw [Option.map_some, value.place_of_standsIn hdefault]

theorem Def.place_of_standsIn (d : Def) (h : ∀ l ∈ d.locations, l.StandsIn file) :
    d.place file outer = d := by
  obtain ⟨hhead, hbody⟩ := List.forall_mem_append.mp h
  obtain ⟨hloc, hparams⟩ := List.forall_mem_cons.mp hhead
  have hplaced : d.params.map (·.place file d.loc) = d.params :=
    Location.map_of_standsIn Param.place_of_standsIn hparams
  simp only [place, Location.within_of_standsIn hloc, hplaced,
    Expr.placeAll_of_standsIn d.body hbody]

theorem FunctionDecl.place_of_standsIn (f : FunctionDecl)
    (h : ∀ l ∈ f.locations, l.StandsIn file) : f.place file outer = f := by
  obtain ⟨hhead, hret⟩ := List.forall_mem_append.mp h
  obtain ⟨hloc, hparams⟩ := List.forall_mem_cons.mp hhead
  have hplaced : (f.params.map fun p => { p with ty := p.ty.place file f.loc }) = f.params := by
    refine (List.map_congr_left fun p hp => ?_).trans (List.map_id' _)
    have hty : ∀ l ∈ p.ty.locations, l.StandsIn file := fun l hl =>
      hparams l (TypeRef.mem_locationsOf.mpr ⟨p.ty, List.mem_map_of_mem hp, hl⟩)
    rw [p.ty.place_of_standsIn hty]
  simp only [place, Location.within_of_standsIn hloc, hplaced,
    TypeRef.map_place_of_standsIn _ hret]

/-- An item all of whose parts stand in the file is left as it is. -/
theorem Item.place_of_standsIn (i : Item) (h : ∀ l ∈ i.locations, l.StandsIn file) :
    i.place file outer = i := by
  cases i with
  | method d => rw [place, d.place_of_standsIn h]
  | classDecl c =>
    obtain ⟨hhead, hmethods⟩ := List.forall_mem_append.mp h
    obtain ⟨hloc, hsuperclass⟩ := List.forall_mem_cons.mp hhead
    have hplaced : c.methods.map (·.place file c.loc) = c.methods :=
      Location.map_of_standsIn Def.place_of_standsIn hmethods
    simp only [place, ClassDecl.place, Location.within_of_standsIn hloc, hplaced,
      TypeRef.map_place_of_standsIn _ hsuperclass]
  | library decl =>
    obtain ⟨hloc, hfunctions⟩ := List.forall_mem_cons.mp h
    have hplaced : decl.functions.map (·.place file decl.loc) = decl.functions :=
      Location.map_of_standsIn FunctionDecl.place_of_standsIn hfunctions
    simp only [place, LibraryDecl.place, Location.within_of_standsIn hloc, hplaced]
  | expr e => rw [place, e.place_of_standsIn h]

end

/-! ### Programs -/

theorem Item.locations_placeAll (file : String) (items : List Item) :
    (placeAll file items).map locations =
      items.mapIdx fun index i => i.chains.map (.nearest file ⟨file, index + 1, 1⟩) := by
  refine List.ext_getElem? fun index => ?_
  simp only [placeAll, List.getElem?_map, List.getElem?_mapIdx, Option.map_map, Function.comp_def,
    locations_place]

/-- The locations in a program, item by item. -/
theorem Program.map_locations_ofItems (file : String) (items : List Item) :
    (Program.ofItems file items).items.map Item.locations =
      items.mapIdx fun index i => i.chains.map (.nearest file ⟨file, index + 1, 1⟩) := by
  rw [ofItems_eq, Item.map_locations_numberAllFrom, Item.locations_placeAll]

/-- Everything in a program that is made of items stands in its file. -/
theorem Program.locations_ofItems (file : String) (items : List Item) :
    ∀ l ∈ (Program.ofItems file items).locations, l.StandsIn file := by
  intro l hl
  rw [locations, List.flatMap_def, map_locations_ofItems] at hl
  obtain ⟨placed, hplaced, hl⟩ := List.mem_flatten.mp hl
  obtain ⟨index, hindex, rfl⟩ := List.mem_mapIdx.mp hplaced
  obtain ⟨chain, _, rfl⟩ := List.mem_map.mp hl
  have hline : (⟨file, index + 1, 1⟩ : Location).StandsIn file :=
    ⟨rfl, decide_eq_true (Nat.succ_pos index)⟩
  exact Location.standsIn_nearest hline chain

theorem Item.placeAll_of_standsIn {file : String} {items : List Item}
    (h : ∀ l ∈ items.flatMap locations, l.StandsIn file) : placeAll file items = items := by
  refine List.ext_getElem? fun index => ?_
  rw [placeAll, List.getElem?_mapIdx]
  cases hi : items[index]? with
  | none => rfl
  | some i =>
    have hmem := List.mem_of_getElem? hi
    rw [Option.map_some, i.place_of_standsIn fun l hl => h l (List.mem_flatMap.mpr ⟨i, hmem, hl⟩)]

/-- In a program every item, method, native function, written type and expression node stands in
    its file, on a known line.  What was placed keeps its line and column, and any other part has
    those of the nearest part around it that was placed; where there is none it stands at the
    start of the line that has the number of the item.  Nothing else is changed apart from the
    numbers, and making a program of its items again changes nothing. -/
theorem Program.ofItems_inherits (file : String) (items : List Item) :
    let p := Program.ofItems file items
    (∀ l ∈ p.locations, l.file = file ∧ 0 < l.line) ∧
      p.items.map Item.bare = items.map Item.bare ∧
      p.items.map Item.locations =
        items.mapIdx (fun index i => i.chains.map (.nearest file ⟨file, index + 1, 1⟩)) ∧
      (∀ i : Item, i.chains.map List.head? = i.locations.map some) ∧
      Program.ofItems file p.items = p := by
  intro p
  have hstands : ∀ l ∈ p.locations, l.StandsIn file := Program.locations_ofItems file items
  refine ⟨fun l hl => ?_, bare_ofItems file items, map_locations_ofItems file items,
    Item.head_chains, ?_⟩
  · obtain ⟨hfile, hplaced⟩ := hstands l hl
    exact ⟨hfile, of_decide_eq_true hplaced⟩
  · rw [ofItems_eq, Item.placeAll_of_standsIn hstands]
    simp only [p, ofItems_eq, Item.numberAllFrom_numberAllFrom]

/-- The first item has no place; the argument of the second has none either. -/
example :
    (Program.ofItems "t.qz" [.expr (.literal .blank .int),
      .expr (.call ⟨0, ⟨"", 4, 2⟩⟩ none "foo" [.literal .blank .int] none true)]).locations =
      [⟨"t.qz", 1, 1⟩, ⟨"t.qz", 4, 2⟩, ⟨"t.qz", 4, 2⟩] := by
  decide

end UnionTyping
