/-
  UnionTyping/Proofs/Syntax/Preorder.lean
  =======================================
  **The numbers of a program go through its nodes in preorder.**

  The numbering and the list of `nodes` tell for each form of expression what to go on with;
  the count goes from a node to its `children`, and so does the listing in preorder here.  What
  all of them should go through is said by the places at which an expression can stand: in
  another one (`Expr.Part`) and in an item (`Item.Holds`).  They go through exactly that, in
  one order (`Program.ofItems_preorder`).
-/
import Mathlib.Logic.Relation
import UnionTyping.Proofs.Syntax.Bare

namespace UnionTyping

/-! ### Where an expression can stand -/

/-- The second expression stands directly in the first. -/
inductive Expr.Part : Expr → Expr → Prop where
  | assigned (m : Mark) (target : Target) (value : Expr) : Part (.assign m target value) value
  | operand (m : Mark) (target : Target) (op : String) (value : Expr) :
    Part (.opAssign m target op value) value
  | receiver (m : Mark) (r : Expr) (name : String) (args : List Expr) (block : Option Block)
    (parens : Bool) : Part (.call m (some r) name args block parens) r
  | argument (m : Mark) (receiver : Option Expr) (name : String) {args : List Expr} {arg : Expr}
    (block : Option Block) (parens : Bool) (given : arg ∈ args) :
    Part (.call m receiver name args block parens) arg
  | block (m : Mark) (receiver : Option Expr) (name : String) (args : List Expr)
    (params : List String) {body : List Expr} {e : Expr} (parens : Bool) (inside : e ∈ body) :
    Part (.call m receiver name args (some (.mk params body)) parens) e
  | left (m : Mark) (op : Connective) (lhs rhs : Expr) : Part (.connect m op lhs rhs) lhs
  | right (m : Mark) (op : Connective) (lhs rhs : Expr) : Part (.connect m op lhs rhs) rhs
  | condition (m : Mark) (cond : Expr) (thenBody elseBody : List Expr) :
    Part (.ite m cond thenBody elseBody) cond
  | thenBody (m : Mark) (cond : Expr) {thenBody : List Expr} {e : Expr} (elseBody : List Expr)
    (inside : e ∈ thenBody) : Part (.ite m cond thenBody elseBody) e
  | elseBody (m : Mark) (cond : Expr) (thenBody : List Expr) {elseBody : List Expr} {e : Expr}
    (inside : e ∈ elseBody) : Part (.ite m cond thenBody elseBody) e
  | round (m : Mark) (cond : Expr) (body : List Expr) : Part (.loop m cond body) cond
  | loopBody (m : Mark) (cond : Expr) {body : List Expr} {e : Expr} (inside : e ∈ body) :
    Part (.loop m cond body) e

/-- The expression stands in the item, and in no other expression there. -/
inductive Item.Holds : Item → Expr → Prop where
  | expr (e : Expr) : Holds (.expr e) e
  | default {d : Def} {p : Param} {value : Expr} (param : p ∈ d.params)
    (given : p.default = some value) : Holds (.method d) value
  | body {d : Def} {e : Expr} (inside : e ∈ d.body) : Holds (.method d) e
  | method {c : ClassDecl} {d : Def} {e : Expr} (declared : d ∈ c.methods)
    (holds : Holds (.method d) e) : Holds (.classDecl c) e

namespace Expr

theorem mem_children_iff {e part : Expr} : part ∈ e.children ↔ e.Part part := by
  constructor
  · intro h
    cases e with
    | literal | ident | ivar | path | out | control => cases h
    | assign m target value =>
      cases List.mem_singleton.mp h
      exact .assigned m target part
    | opAssign m target op value =>
      cases List.mem_singleton.mp h
      exact .operand m target op part
    | call m receiver name args block parens =>
      rcases List.mem_append.mp h with h | h
      · rcases List.mem_append.mp h with h | h
        · cases Option.mem_toList.mp h
          exact .receiver m part name args block parens
        · exact .argument m receiver name block parens h
      · obtain _ | ⟨params, body⟩ := block
        · cases h
        · exact .block m receiver name args params parens h
    | connect m op lhs rhs =>
      rcases List.mem_pair.mp h with rfl | rfl
      · exact .left m op part rhs
      · exact .right m op lhs part
    | ite m cond thenBody elseBody =>
      rcases List.mem_append.mp h with h | h
      · rcases List.mem_cons.mp h with rfl | h
        · exact .condition m part thenBody elseBody
        · exact .thenBody m cond elseBody h
      · exact .elseBody m cond thenBody h
    | loop m cond body =>
      rcases List.mem_cons.mp h with rfl | h
      · exact .round m part body
      · exact .loopBody m cond h
  · intro h
    cases h <;> simp_all [children, Block.bodyOf]

/-- What is listed below a node is what is reached from it part by part. -/
theorem mem_nodes_iff {e n : Expr} : n ∈ e.nodes ↔ Relation.ReflTransGen Part e n := by
  constructor
  · intro h
    rw [nodes_eq] at h
    rcases List.mem_cons.mp h with rfl | h
    · exact .refl
    · obtain ⟨child, hchild, hn⟩ := mem_nodesOf_iff.mp h
      have hlt := size_lt_of_mem_children hchild
      exact .head (mem_children_iff.mp hchild) (mem_nodes_iff.mp hn)
  · intro h
    induction h with
    | refl =>
      rw [nodes_eq]
      exact List.mem_cons_self
    | @tail n k _ hpart hn =>
      refine mem_nodes_trans hn ?_
      rw [nodes_eq]
      refine List.mem_cons_of_mem _ (mem_nodesOf_iff.mpr ⟨k, mem_children_iff.mpr hpart, ?_⟩)
      rw [nodes_eq]
      exact List.mem_cons_self
termination_by e.size

/-! ### Listing in preorder -/

/-- The node and what its children list, one after the other. -/
def preorder (e : Expr) : List Expr := e :: e.children.attach.flatMap fun child => child.1.preorder
termination_by e.size
decreasing_by exact size_lt_of_mem_children child.2

theorem preorder_eq (e : Expr) : e.preorder = e :: e.children.flatMap preorder := by
  rw [preorder, List.flatMap_subtype (g := preorder) fun _ _ => rfl, List.unattach_attach]

theorem preorder_eq_nodes (e : Expr) : e.preorder = e.nodes := by
  rw [preorder_eq, nodes_eq, nodesOf_eq]
  congr 1
  refine List.flatMap_congr fun child hchild => ?_
  have hlt := size_lt_of_mem_children hchild
  exact preorder_eq_nodes child
termination_by e.size

theorem flatMap_preorder (es : List Expr) : es.flatMap preorder = nodesOf es := by
  rw [nodesOf_eq]
  exact List.flatMap_congr fun e _ => e.preorder_eq_nodes

end Expr

def Def.preorder (d : Def) : List Expr :=
  (d.params.filterMap Param.default).flatMap Expr.preorder ++ d.body.flatMap Expr.preorder

def Item.preorder : Item → List Expr
  | .expr e => e.preorder
  | .method d => d.preorder
  | .classDecl c => c.methods.flatMap Def.preorder
  | .library _ => []

theorem Def.preorder_eq_nodesOf (d : Def) : d.preorder = Expr.nodesOf d.exprs := by
  rw [preorder, d.filterMap_default, exprs, Expr.nodesOf_append, Expr.flatMap_preorder,
    Expr.flatMap_preorder]

theorem Item.preorder_eq_nodesOf (i : Item) : i.preorder = Expr.nodesOf i.exprs := by
  cases i with
  | method d => exact d.preorder_eq_nodesOf
  | classDecl c =>
    rw [preorder, exprs, Expr.nodesOf_eq, List.flatMap_assoc]
    exact List.flatMap_congr fun d _ => d.preorder_eq_nodesOf.trans (Expr.nodesOf_eq _)
  | library l => rfl
  | expr e =>
    rw [preorder, exprs, e.preorder_eq_nodes, Expr.nodesOf_eq, List.flatMap_singleton]

theorem Item.preorderAll_eq (items : List Item) :
    items.flatMap preorder = Expr.nodesOf (items.flatMap exprs) := by
  rw [Expr.nodesOf_eq, List.flatMap_assoc]
  exact List.flatMap_congr fun i _ => i.preorder_eq_nodesOf.trans (Expr.nodesOf_eq _)

theorem Item.mem_exprs_iff {i : Item} {e : Expr} : e ∈ i.exprs ↔ i.Holds e := by
  have hdef : ∀ d : Def, e ∈ d.exprs ↔ Item.Holds (.method d) e := by
    intro d
    rw [Def.exprs, ← d.filterMap_default, List.mem_append, List.mem_filterMap]
    constructor
    · rintro (⟨p, hp, hvalue⟩ | hbody)
      · exact .default hp hvalue
      · exact .body hbody
    · intro h
      cases h with
      | default hp hvalue => exact .inl ⟨_, hp, hvalue⟩
      | body hbody => exact .inr hbody
  cases i with
  | method d => exact hdef d
  | classDecl c =>
    rw [exprs, List.mem_flatMap]
    constructor
    · rintro ⟨d, hd, he⟩
      exact .method hd ((hdef d).mp he)
    · intro h
      cases h with
      | method hd he => exact ⟨_, hd, (hdef _).mpr he⟩
  | library l =>
    constructor <;> intro h <;> cases h
  | expr e' =>
    rw [exprs, List.mem_singleton]
    constructor
    · rintro rfl
      exact .expr e
    · intro h
      cases h
      rfl

/-! ### The numbers -/

/-- The counter ends at the number of nodes. -/
theorem Program.run_number (file : String) (items : List Item) :
    ((Item.placeAll file items).mapM Item.number).run 0 =
      ((Program.ofItems file items).items, (Program.ofItems file items).nodeCount) := by
  have hlength := congrArg List.length (Program.map_id_nodes file items)
  have hsizes := congrArg List.length (Program.ids_ofItems file items)
  rw [List.length_map, List.length_range] at hlength
  rw [List.length_map, hlength, List.length_range'] at hsizes
  rw [Item.run_mapM_number, hsizes, Nat.zero_add, Program.ofItems_eq]

/-- The numbering of a program runs a counter from 0 to the number of nodes, as these are
    counted.  The nodes in preorder, item after item and in a method the default values before
    the body, have the numbers from 0 on, in the order in which they were written, and no two
    share one.  They are exactly the expressions that stand somewhere in an item.  The
    numbering and the listing go from an expression to the same parts in the same order as the
    count: to its children, and these are all that stand in it. -/
theorem Program.ofItems_preorder (file : String) (items : List Item) :
    let p := Program.ofItems file items
    let listed := p.items.flatMap Item.preorder
    let written := items.flatMap Item.preorder
    ((Item.placeAll file items).mapM Item.number).run 0 = (p.items, p.nodeCount) ∧
      listed.map (fun n => (n.bare, n.id)) = (written.map Expr.bare).zipIdx ∧
      listed.map Expr.id = List.range p.nodeCount ∧ (listed.map Expr.id).Nodup ∧
      listed.length = p.nodeCount ∧ written.length = p.nodeCount ∧
      (∀ n, n ∈ listed ↔
        ∃ i ∈ p.items, ∃ e, i.Holds e ∧ Relation.ReflTransGen Expr.Part e n) ∧
      ∀ e : Expr, (∀ part, part ∈ e.children ↔ e.Part part) ∧
        e.preorder = e :: e.children.flatMap Expr.preorder ∧
        e.count = 1 + (e.children.map Expr.count).foldr (· + ·) 0 ∧
        ∀ next, ∃ e', e.number.run next = (e', next + e.count) ∧ e'.bare = e.bare ∧
          e'.preorder.map Expr.id = List.range' next e.count := by
  intro p listed written
  have hlisted : listed = p.nodes := Item.preorderAll_eq p.items
  have hbare : listed.map Expr.bare = written.map Expr.bare := by
    rw [hlisted, Program.map_bare_nodes]
    exact congrArg (List.map Expr.bare) (Item.preorderAll_eq items).symm
  have hids : listed.map Expr.id = List.range p.nodeCount := by
    rw [hlisted]
    exact Program.map_id_nodes file items
  have hlength : listed.length = p.nodeCount := by
    rw [hlisted]
    exact p.length_nodes
  have hwritten : written.length = p.nodeCount := by
    rw [← hlength, ← List.length_map Expr.bare, ← hbare, List.length_map]
  -- placing and numbering change marks only, so the nodes are those that were written
  refine ⟨Program.run_number file items, ?_, hids, ?_, hlength, hwritten, fun n => ?_, fun e =>
    ⟨fun _ => Expr.mem_children_iff, e.preorder_eq, e.count_eq, fun next => ?_⟩⟩
  · rw [List.zipIdx_eq_zip_range', List.length_map, hwritten, ← List.range_eq_range', ← hbare,
      ← hids, List.zip_map']
  · rw [hids]
    exact List.nodup_range
  · rw [hlisted, Program.nodes, Expr.mem_nodesOf_iff]
    simp only [List.mem_flatMap, Item.mem_exprs_iff, Expr.mem_nodes_iff]
    constructor
    · rintro ⟨e, ⟨i, hi, he⟩, hn⟩
      exact ⟨i, hi, e, he, hn⟩
    · rintro ⟨i, hi, e, he, hn⟩
      exact ⟨e, ⟨i, hi, he⟩, hn⟩
  · refine ⟨e.numberFrom next, ?_, e.bare_numberFrom, ?_⟩
    · rw [e.run_number, e.count_eq_size]
    · rw [Expr.preorder_eq_nodes, Expr.ids_numberFrom, e.count_eq_size]

end UnionTyping
