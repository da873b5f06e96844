/-
  UnionTyping/Proofs/Syntax/Numbering.lean
  ========================================
  **Every node of a program has a number of its own.**

  The nodes of a numbered program have the numbers from 0 on, in the order in which
  they are listed (`Program.ids_ofItems`), and these are as many as are counted
  (`Program.length_nodes`).  So no two nodes share a number, and the nodes of different
  expressions, or of different items, have different numbers.  The numbers that nodes had
  before play no part (`Item.numberAllFrom_numberAllFrom`).
-/
import Mathlib.Data.List.Flatten
import Mathlib.Data.List.Nodup
import Mathlib.Data.List.Pairwise
import UnionTyping.Syntax.Numbering

namespace UnionTyping

namespace Expr

/-! ### Nodes below nodes -/

theorem nodesOf_eq (es : List Expr) : nodesOf es = es.flatMap nodes := by
  induction es with
  | nil => rw [nodesOf, List.flatMap_nil]
  | cons e es ih => rw [nodesOf, ih, List.flatMap_cons]

theorem mem_nodesOf_iff {n : Expr} {es : List Expr} : n ∈ nodesOf es ↔ ∃ e ∈ es, n ∈ e.nodes := by
  rw [nodesOf_eq, List.mem_flatMap]

theorem forall_nodes {e : Expr} {P : Expr → Prop} :
    (∀ n ∈ e.nodes, P n) ↔ P e ∧ ∀ n ∈ nodesOf e.children, P n := by
  rw [nodes_eq, List.forall_mem_cons]

theorem forall_nodesOf_cons {e : Expr} {es : List Expr} {P : Expr → Prop} :
    (∀ n ∈ nodesOf (e :: es), P n) ↔ (∀ n ∈ e.nodes, P n) ∧ ∀ n ∈ nodesOf es, P n := by
  rw [nodesOf, List.forall_mem_append]

theorem forall_nodesOf_append {as bs : List Expr} {P : Expr → Prop} :
    (∀ n ∈ nodesOf (as ++ bs), P n) ↔ (∀ n ∈ nodesOf as, P n) ∧ ∀ n ∈ nodesOf bs, P n := by
  rw [nodesOf_append, List.forall_mem_append]

theorem length_nodesOf_of {es : List Expr} (h : ∀ e ∈ es, e.nodes.length = e.size) :
    (nodesOf es).length = sizes es := by
  induction es with
  | nil => rfl
  | cons e es ih =>
    obtain ⟨he, hes⟩ := List.forall_mem_cons.mp h
    rw [nodesOf, sizes, List.length_append, he, ih hes]

/-- The size counts the nodes. -/
theorem length_nodes (e : Expr) : e.nodes.length = e.size := by
  have hchildren : (nodesOf e.children).length = sizes e.children :=
    length_nodesOf_of fun child hchild => by
      have hlt := size_lt_of_mem_children hchild
      exact length_nodes child
  rw [nodes_eq, List.length_cons, hchildren, size_eq, Nat.add_comm]
termination_by e.size

theorem length_nodesOf (es : List Expr) : (nodesOf es).length = sizes es :=
  length_nodesOf_of fun e _ => length_nodes e

theorem sum_eq_sizes_of {es : List Expr} (h : ∀ e ∈ es, e.count = e.size) :
    (es.map count).foldr (· + ·) 0 = sizes es := by
  induction es with
  | nil => rfl
  | cons e es ih =>
    obtain ⟨he, hes⟩ := List.forall_mem_cons.mp h
    rw [List.map_cons, List.foldr_cons, he, ih hes, sizes]

theorem count_eq (e : Expr) : e.count = 1 + (e.children.map count).foldr (· + ·) 0 := by
  rw [count, List.attach_map_val]

/-- Counting the children of every node and adding up the sizes of the parts come to the
    same. -/
theorem count_eq_size (e : Expr) : e.count = e.size := by
  have hchildren : (e.children.map count).foldr (· + ·) 0 = sizes e.children :=
    sum_eq_sizes_of fun child hchild => by
      have hlt := size_lt_of_mem_children hchild
      exact count_eq_size child
  rw [count_eq, hchildren, size_eq]
termination_by e.size

theorem sum_eq_sizes (es : List Expr) : (es.map count).foldr (· + ·) 0 = sizes es :=
  sum_eq_sizes_of fun e _ => count_eq_size e

/-- What is below a node is below what the node is below. -/
theorem mem_nodes_trans {e n k : Expr} (hn : n ∈ e.nodes) (hk : k ∈ n.nodes) : k ∈ e.nodes := by
  rw [nodes_eq] at hn ⊢
  rcases List.mem_cons.mp hn with rfl | hn
  · rw [nodes_eq] at hk
    exact hk
  · obtain ⟨child, hchild, hn⟩ := mem_nodesOf_iff.mp hn
    have hlt := size_lt_of_mem_children hchild
    exact List.mem_cons_of_mem _ (mem_nodesOf_iff.mpr ⟨child, hchild, mem_nodes_trans hn hk⟩)
termination_by e.size

def ids (es : List Expr) : List NodeId := (nodesOf es).map Expr.id

theorem mem_nodesOf_trans {es : List Expr} {n k : Expr} (hn : n ∈ nodesOf es) (hk : k ∈ n.nodes) :
    k ∈ nodesOf es := by
  obtain ⟨e, he, hbelow⟩ := mem_nodesOf_iff.mp hn
  exact mem_nodesOf_iff.mpr ⟨e, he, mem_nodes_trans hbelow hk⟩

theorem ids_append (as bs : List Expr) : ids (as ++ bs) = ids as ++ ids bs := by
  rw [ids, nodesOf_append, List.map_append]
  rfl

theorem ids_cons (e : Expr) (es : List Expr) : ids (e :: es) = e.nodes.map Expr.id ++ ids es := by
  rw [ids, nodesOf, List.map_append]
  rfl

theorem map_id_nodes (e : Expr) : e.nodes.map Expr.id = e.id :: ids e.children := by
  rw [nodes_eq, List.map_cons]
  rfl

theorem ids_flatMap {α : Type} (f : α → List Expr) (as : List α) :
    ids (as.flatMap f) = as.flatMap fun a => ids (f a) := by
  induction as with
  | nil => rfl
  | cons a as ih => rw [List.flatMap_cons, ids_append, ih, List.flatMap_cons]

theorem nodesOf_sublist {as bs : List Expr} (h : as.Sublist bs) :
    (nodesOf as).Sublist (nodesOf bs) := by
  rw [nodesOf_eq, nodesOf_eq]
  exact h.flatMap nodes

theorem mem_ids_of_mem {n : Expr} {es : List Expr} (h : n ∈ nodesOf es) : n.id ∈ ids es :=
  List.mem_map.mpr ⟨n, h, rfl⟩

/-- Parts that stand in different places share no number. -/
theorem ne_of_nodup_ids {α : Type} {f : α → List Expr} {as : List α}
    (h : (ids (as.flatMap f)).Nodup)
    {a a' : α} (ha : a ∈ as) (ha' : a' ∈ as) (hne : a ≠ a') {n n' : Expr} (hn : n ∈ nodesOf (f a))
    (hn' : n' ∈ nodesOf (f a')) : n.id ≠ n'.id := by
  rw [ids_flatMap] at h
  have hdisjoint := (List.nodup_flatMap.mp h).2
  have : Std.Symm (Function.onFun List.Disjoint fun a => ids (f a)) :=
    ⟨fun _ _ hd _ hb ha => hd ha hb⟩
  have hapart : (ids (f a)).Disjoint (ids (f a')) := hdisjoint.forall ha ha' hne
  exact fun heq => hapart (mem_ids_of_mem hn) (heq ▸ mem_ids_of_mem hn')

/-- A node has another number than those below it. -/
theorem id_ne_of_mem_below {e n : Expr} (h : (e.nodes.map Expr.id).Nodup)
    (hn : n ∈ nodesOf e.children) : n.id ≠ e.id := by
  rw [map_id_nodes] at h
  exact fun heq => (List.nodup_cons.mp h).1 (heq ▸ mem_ids_of_mem hn)

/-- The nodes of a node are listed with those of the expression it is in. -/
theorem nodes_sublist {e n : Expr} (hn : n ∈ e.nodes) : n.nodes.Sublist e.nodes := by
  rw [nodes_eq] at hn
  rcases List.mem_cons.mp hn with rfl | hn
  · exact List.Sublist.refl _
  · obtain ⟨child, hchild, hn⟩ := mem_nodesOf_iff.mp hn
    have hlt := size_lt_of_mem_children hchild
    have hbelow : child.nodes.Sublist (nodesOf e.children) := by
      rw [nodesOf_eq]
      exact List.sublist_flatten_of_mem (List.mem_map_of_mem hchild)
    rw [nodes_eq e]
    exact (nodes_sublist hn).trans (hbelow.trans (List.sublist_cons_self _ _))
termination_by e.size

theorem nodup_nodes {es : List Expr} (h : (ids es).Nodup) {n : Expr} (hn : n ∈ nodesOf es) :
    (n.nodes.map Expr.id).Nodup := by
  obtain ⟨e, he, hn⟩ := mem_nodesOf_iff.mp hn
  have hbelow : e.nodes.Sublist (nodesOf es) := by
    rw [nodesOf_eq]
    exact List.sublist_flatten_of_mem (List.mem_map_of_mem he)
  exact (((nodes_sublist hn).trans hbelow).map Expr.id).nodup h

/-! ### The numbers that are given -/

mutual

/-- The expression with the numbers from `next` on.  The first number of each part is told
    beforehand, by the sizes of the parts in front of it. -/
def numberFrom (next : NodeId) : Expr → Expr
  | literal m value => literal ⟨next, m.loc⟩ value
  | ident m name => ident ⟨next, m.loc⟩ name
  | ivar m name => ivar ⟨next, m.loc⟩ name
  | assign m target value => assign ⟨next, m.loc⟩ target (numberFrom (next + 1) value)
  | opAssign m target op value => opAssign ⟨next, m.loc⟩ target op (numberFrom (next + 1) value)
  | call m receiver name args block parens =>
    let afterReceiver := next + 1 + sizes receiver.toList
    call ⟨next, m.loc⟩
      (match receiver with
        | none => none
        | some r => some (numberFrom (next + 1) r))
      name (numberAllFrom afterReceiver args)
      (match block with
        | none => none
        | some (.mk params body) =>
            some (.mk params (numberAllFrom (afterReceiver + sizes args) body)))
      parens
  | path m ref => path ⟨next, m.loc⟩ ref
  | out m target => out ⟨next, m.loc⟩ target
  | connect m op lhs rhs =>
    connect ⟨next, m.loc⟩ op (numberFrom (next + 1) lhs) (numberFrom (next + 1 + size lhs) rhs)
  | ite m cond thenBody elseBody =>
    let afterCond := next + 1 + size cond
    ite ⟨next, m.loc⟩ (numberFrom (next + 1) cond) (numberAllFrom afterCond thenBody)
      (numberAllFrom (afterCond + sizes thenBody) elseBody)
  | loop m cond body =>
    loop ⟨next, m.loc⟩ (numberFrom (next + 1) cond) (numberAllFrom (next + 1 + size cond) body)
  | control m keyword => control ⟨next, m.loc⟩ keyword
termination_by structural e => e

def numberAllFrom (next : NodeId) : List Expr → List Expr
  | [] => []
  | e :: es => numberFrom next e :: numberAllFrom (next + size e) es
termination_by structural es => es

end

theorem run_take (next : NodeId) : NumberM.take.run next = (next, next + 1) := rfl

mutual

/-- The counter gives the numbers that the sizes tell, and goes on by the size. -/
theorem run_number (e : Expr) (next : NodeId) :
    e.number.run next = (e.numberFrom next, next + e.size) := by
  match e with
  | .literal _ _ | .ident _ _ | .ivar _ _ | .path _ _ | .out _ _ | .control _ _ => rfl
  | .assign m target value | .opAssign m target op value =>
    simp only [number, numberFrom, size, StateT.run_bind, run_take, run_number value,
      ← Nat.add_assoc]
    rfl
  | .connect m op lhs rhs =>
    simp only [number, numberFrom, size, StateT.run_bind, run_take, run_number lhs, run_number rhs,
      ← Nat.add_assoc]
    rfl
  | .ite m cond thenBody elseBody =>
    simp only [number, numberFrom, size, StateT.run_bind, run_take, run_number cond,
      run_numberAll thenBody, run_numberAll elseBody, ← Nat.add_assoc]
    rfl
  | .loop m cond body =>
    simp only [number, numberFrom, size, StateT.run_bind, run_take, run_number cond,
      run_numberAll body, ← Nat.add_assoc]
    rfl
  | .call m none name args none parens =>
    simp only [number, numberFrom, size, StateT.run_bind, StateT.run_pure, run_take,
      run_numberAll args, Option.toList, sizes, Nat.add_zero, Nat.zero_add, ← Nat.add_assoc]
    rfl
  | .call m (some r) name args none parens =>
    simp only [number, numberFrom, size, StateT.run_bind, StateT.run_pure, run_take, run_number r,
      run_numberAll args, Option.toList, sizes, Nat.add_zero, ← Nat.add_assoc]
    rfl
  | .call m none name args (some (.mk params body)) parens =>
    simp only [number, numberFrom, size, StateT.run_bind, StateT.run_pure, run_take,
      run_numberAll args, run_numberAll body, Option.toList, sizes, Nat.add_zero, Nat.zero_add,
      ← Nat.add_assoc]
    rfl
  | .call m (some r) name args (some (.mk params body)) parens =>
    simp only [number, numberFrom, size, StateT.run_bind, StateT.run_pure, run_take, run_number r,
      run_numberAll args, run_numberAll body, Option.toList, sizes, Nat.add_zero, ← Nat.add_assoc]
    rfl
termination_by structural e

theorem run_numberAll (es : List Expr) (next : NodeId) :
    (numberAll es).run next = (numberAllFrom next es, next + sizes es) := by
  match es with
  | [] => rfl
  | e :: es =>
    simp only [numberAll, numberAllFrom, sizes, StateT.run_bind, run_number e, run_numberAll es,
      ← Nat.add_assoc]
    rfl
termination_by structural es

end

theorem numberAllFrom_append (next : NodeId) (as bs : List Expr) :
    numberAllFrom next (as ++ bs) =
      numberAllFrom next as ++ numberAllFrom (next + sizes as) bs := by
  induction as generalizing next with
  | nil => rfl
  | cons a as ih =>
    rw [List.cons_append, numberAllFrom, numberAllFrom, ih, sizes, Nat.add_assoc]
    rfl

theorem id_numberFrom (next : NodeId) (e : Expr) : (e.numberFrom next).id = next := by
  cases e with
  | call m receiver name args block parens =>
    cases receiver <;> rcases block with _ | ⟨params, body⟩ <;> rfl
  | _ => rfl

/-- The children of a numbered node have the numbers that follow. -/
theorem children_numberFrom (next : NodeId) (e : Expr) :
    (e.numberFrom next).children = numberAllFrom (next + 1) e.children := by
  cases e with
  | call m receiver name args block parens =>
    have hargs : ∀ n, numberAllFrom n (args ++ Block.bodyOf block) =
        numberAllFrom n args ++ numberAllFrom (n + sizes args) (Block.bodyOf block) := fun n =>
      numberAllFrom_append n args _
    cases receiver with
    | none =>
      rcases block with _ | ⟨params, body⟩
      · simp only [numberFrom, children, Option.toList, List.nil_append, sizes, Nat.add_zero, hargs]
        rfl
      · simp only [numberFrom, children, Option.toList, List.nil_append, sizes, Nat.add_zero, hargs]
        rfl
    | some r =>
      rcases block with _ | ⟨params, body⟩
      · simp only [numberFrom, children, Option.toList, List.cons_append, List.nil_append, sizes,
          Nat.add_zero, numberAllFrom, hargs]
        rfl
      · simp only [numberFrom, children, Option.toList, List.cons_append, List.nil_append, sizes,
          Nat.add_zero, numberAllFrom, hargs]
        rfl
  | ite m cond thenBody elseBody =>
    simp only [numberFrom, children, numberAllFrom, List.cons_append, numberAllFrom_append]
  | _ => rfl

theorem ids_numberAllFrom_of {next : NodeId} {es : List Expr}
    (h : ∀ e ∈ es, ∀ next, (e.numberFrom next).nodes.map Expr.id = List.range' next e.size) :
    ids (numberAllFrom next es) = List.range' next (sizes es) := by
  induction es generalizing next with
  | nil => rfl
  | cons e es ih =>
    obtain ⟨he, hes⟩ := List.forall_mem_cons.mp h
    rw [numberAllFrom, ids_cons, he, ih hes, List.range'_append_1, sizes]

/-- The nodes of a numbered expression have consecutive numbers. -/
theorem ids_numberFrom (next : NodeId) (e : Expr) :
    (e.numberFrom next).nodes.map Expr.id = List.range' next e.size := by
  have hchildren : ids (numberAllFrom (next + 1) e.children) =
      List.range' (next + 1) (sizes e.children) :=
    ids_numberAllFrom_of fun child hchild next => by
      have hlt := size_lt_of_mem_children hchild
      exact ids_numberFrom next child
  rw [map_id_nodes, id_numberFrom, children_numberFrom, hchildren, size_eq, Nat.add_comm 1,
    List.range'_succ]
termination_by e.size

theorem ids_numberAllFrom (next : NodeId) (es : List Expr) :
    ids (numberAllFrom next es) = List.range' next (sizes es) :=
  ids_numberAllFrom_of fun e _ next => ids_numberFrom next e

end Expr

/-! ### Declarations and programs -/

def Param.numberAllFrom (next : NodeId) : List Param → List Param
  | [] => []
  | p :: ps =>
    { p with default := p.default.map (·.numberFrom next) } ::
      Param.numberAllFrom (next + Expr.sizes p.exprs) ps

def Def.numberFrom (next : NodeId) (d : Def) : Def :=
  { d with
    params := Param.numberAllFrom next d.params
    body := Expr.numberAllFrom (next + Expr.sizes (d.params.flatMap Param.exprs)) d.body }

def Def.numberAllFrom (next : NodeId) : List Def → List Def
  | [] => []
  | d :: ds => d.numberFrom next :: Def.numberAllFrom (next + Expr.sizes d.exprs) ds

def Item.numberFrom (next : NodeId) : Item → Item
  | .method d => .method (d.numberFrom next)
  | .classDecl c => .classDecl { c with methods := Def.numberAllFrom next c.methods }
  | .library l => .library l
  | .expr e => .expr (e.numberFrom next)

def Item.numberAllFrom (next : NodeId) : List Item → List Item
  | [] => []
  | i :: is => i.numberFrom next :: Item.numberAllFrom (next + Expr.sizes i.exprs) is

section

variable {next : NodeId}

theorem Param.run_number (p : Param) :
    p.number.run next =
      ({ p with default := p.default.map (·.numberFrom next) }, next + Expr.sizes p.exprs) := by
  obtain ⟨name, restriction, default⟩ := p
  cases default with
  | none => rfl
  | some value =>
    simp only [number, StateT.run_bind, Expr.run_number value]
    rfl

theorem Param.run_mapM_number (ps : List Param) :
    (ps.mapM number).run next =
      (numberAllFrom next ps, next + Expr.sizes (ps.flatMap exprs)) := by
  induction ps generalizing next with
  | nil => rfl
  | cons p ps ih =>
    rw [List.mapM_cons, List.flatMap_cons, Expr.sizes_append, ← Nat.add_assoc]
    simp only [StateT.run_bind, p.run_number, ih]
    rfl

theorem Def.run_number (d : Def) :
    d.number.run next = (d.numberFrom next, next + Expr.sizes d.exprs) := by
  rw [exprs, Expr.sizes_append, ← Nat.add_assoc]
  simp only [number, StateT.run_bind, Param.run_mapM_number, Expr.run_numberAll]
  rfl

theorem Def.run_mapM_number (ds : List Def) :
    (ds.mapM number).run next = (numberAllFrom next ds, next + Expr.sizes (ds.flatMap exprs)) := by
  induction ds generalizing next with
  | nil => rfl
  | cons d ds ih =>
    rw [List.mapM_cons, List.flatMap_cons, Expr.sizes_append, ← Nat.add_assoc]
    simp only [StateT.run_bind, d.run_number, ih]
    rfl

theorem Item.run_number (i : Item) :
    i.number.run next = (i.numberFrom next, next + Expr.sizes i.exprs) := by
  cases i with
  | method d =>
    simp only [number, StateT.run_bind, d.run_number]
    rfl
  | classDecl c =>
    simp only [number, StateT.run_bind, Def.run_mapM_number]
    rfl
  | library l => rfl
  | expr e =>
    simp only [number, StateT.run_bind, e.run_number]
    rfl

theorem Item.run_mapM_number (items : List Item) :
    (items.mapM number).run next =
      (numberAllFrom next items, next + Expr.sizes (items.flatMap exprs)) := by
  induction items generalizing next with
  | nil => rfl
  | cons i items ih =>
    rw [List.mapM_cons, List.flatMap_cons, Expr.sizes_append, ← Nat.add_assoc]
    simp only [StateT.run_bind, i.run_number, ih]
    rfl

end

/-- The numbers of the nodes of a file are told by the sizes. -/
theorem Program.ofItems_eq (file : String) (items : List Item) :
    ofItems file items = ⟨file, Item.numberAllFrom 0 (Item.placeAll file items)⟩ := by
  rw [ofItems, Item.run_mapM_number]

theorem Param.ids_numberAllFrom (next : NodeId) (ps : List Param) :
    Expr.ids ((Param.numberAllFrom next ps).flatMap Param.exprs) =
      List.range' next (Expr.sizes (ps.flatMap Param.exprs)) := by
  induction ps generalizing next with
  | nil => rfl
  | cons p ps ih =>
    have hone : Expr.ids (Param.exprs { p with default := p.default.map (·.numberFrom next) }) =
        List.range' next (Expr.sizes p.exprs) := by
      cases hd : p.default with
      | none => simp only [Param.exprs, hd, Option.map_none]; rfl
      | some value =>
        have hvalue := Expr.ids_numberAllFrom next [value]
        simp only [Param.exprs, hd, Option.map_some]
        exact hvalue
    rw [Param.numberAllFrom, List.flatMap_cons, List.flatMap_cons, Expr.ids_append, hone, ih,
      List.range'_append_1, Expr.sizes_append]

theorem Def.ids_numberFrom (next : NodeId) (d : Def) :
    Expr.ids (d.numberFrom next).exprs = List.range' next (Expr.sizes d.exprs) := by
  have hparams := Param.ids_numberAllFrom next d.params
  have hbody := Expr.ids_numberAllFrom (next + Expr.sizes (d.params.flatMap Param.exprs)) d.body
  rw [Def.exprs, Def.exprs, Expr.ids_append, Expr.sizes_append, ← List.range'_append_1, ← hparams,
    ← hbody]
  rfl

theorem Def.ids_numberAllFrom (next : NodeId) (ds : List Def) :
    Expr.ids ((Def.numberAllFrom next ds).flatMap Def.exprs) =
      List.range' next (Expr.sizes (ds.flatMap Def.exprs)) := by
  induction ds generalizing next with
  | nil => rfl
  | cons d ds ih =>
    rw [Def.numberAllFrom, List.flatMap_cons, List.flatMap_cons, Expr.ids_append,
      Def.ids_numberFrom, ih,
      List.range'_append_1, Expr.sizes_append]

theorem Item.ids_numberFrom (next : NodeId) (i : Item) :
    Expr.ids (i.numberFrom next).exprs = List.range' next (Expr.sizes i.exprs) := by
  cases i with
  | method d => exact d.ids_numberFrom next
  | classDecl c => exact Def.ids_numberAllFrom next c.methods
  | library l => rfl
  | expr e => exact Expr.ids_numberAllFrom next [e]

theorem Item.ids_numberAllFrom (next : NodeId) (items : List Item) :
    Expr.ids ((Item.numberAllFrom next items).flatMap Item.exprs) =
      List.range' next (Expr.sizes (items.flatMap Item.exprs)) := by
  induction items generalizing next with
  | nil => rfl
  | cons i items ih =>
    rw [Item.numberAllFrom, List.flatMap_cons, List.flatMap_cons, Expr.ids_append,
      Item.ids_numberFrom, ih,
      List.range'_append_1, Expr.sizes_append]

/-- The nodes of a program are numbered from 0 on. -/
theorem Program.ids_ofItems (file : String) (items : List Item) :
    (Program.ofItems file items).nodes.map Expr.id =
      List.range' 0 (Expr.sizes ((Item.placeAll file items).flatMap Item.exprs)) := by
  rw [Program.ofItems_eq]
  exact Item.ids_numberAllFrom 0 (Item.placeAll file items)

theorem Def.filterMap_default (d : Def) :
    d.params.filterMap Param.default = d.params.flatMap Param.exprs := by
  induction d.params with
  | nil => rfl
  | cons p ps ih =>
    obtain ⟨name, restriction, default⟩ := p
    cases default with
    | none => exact ih
    | some value => exact congrArg (value :: ·) ih

theorem Def.count_eq (d : Def) : d.count = Expr.sizes d.exprs := by
  rw [count, d.filterMap_default, Expr.sum_eq_sizes, Expr.sum_eq_sizes, exprs, Expr.sizes_append]

theorem Def.sum_eq_sizes (ds : List Def) :
    (ds.map count).foldr (· + ·) 0 = Expr.sizes (ds.flatMap exprs) := by
  induction ds with
  | nil => rfl
  | cons d ds ih =>
    rw [List.map_cons, List.foldr_cons, ih, d.count_eq, List.flatMap_cons, Expr.sizes_append]

theorem Item.count_eq (i : Item) : i.count = Expr.sizes i.exprs := by
  cases i with
  | method d => exact d.count_eq
  | classDecl c => exact Def.sum_eq_sizes c.methods
  | library l => rfl
  | expr e =>
    rw [count, e.count_eq_size]
    rfl

theorem Program.nodeCount_eq (p : Program) :
    p.nodeCount = Expr.sizes (p.items.flatMap Item.exprs) := by
  rw [nodeCount]
  induction p.items with
  | nil => rfl
  | cons i items ih =>
    rw [List.map_cons, List.foldr_cons, ih, i.count_eq, List.flatMap_cons, Expr.sizes_append]

theorem Program.length_nodes (p : Program) : p.nodes.length = p.nodeCount := by
  rw [nodeCount_eq]
  exact Expr.length_nodesOf _

/-- The numbers are those below the number of nodes, in order. -/
theorem Program.map_id_nodes (file : String) (items : List Item) :
    (Program.ofItems file items).nodes.map Expr.id =
      List.range (Program.ofItems file items).nodeCount := by
  have hids := Program.ids_ofItems file items
  have hlength := congrArg List.length hids
  rw [List.length_map, List.length_range', Program.length_nodes] at hlength
  rw [hids, ← hlength, List.range_eq_range']

/-- No two nodes of a program share a number. -/
theorem Program.nodup_ids (file : String) (items : List Item) :
    ((Program.ofItems file items).nodes.map Expr.id).Nodup := by
  rw [Program.ids_ofItems]
  exact List.nodup_range'

/-! ### Numbering again -/

namespace Expr

theorem size_numberFrom (next : NodeId) (e : Expr) : (e.numberFrom next).size = e.size := by
  have hids := congrArg List.length (ids_numberFrom next e)
  rwa [List.length_map, length_nodes, List.length_range'] at hids

/-- What has consecutive numbers has as many nodes. -/
theorem sizes_of_ids {es : List Expr} {next count : Nat} (h : ids es = List.range' next count) :
    sizes es = count := by
  have hlength := congrArg List.length h
  rwa [ids, List.length_map, length_nodesOf, List.length_range'] at hlength

theorem sizes_numberAllFrom (next : NodeId) (es : List Expr) :
    sizes (numberAllFrom next es) = sizes es :=
  sizes_of_ids (ids_numberAllFrom next es)

mutual

theorem numberFrom_numberFrom (e : Expr) {next next' : NodeId} :
    (e.numberFrom next).numberFrom next' = e.numberFrom next' := by
  match e with
  | .literal _ _ | .ident _ _ | .ivar _ _ | .path _ _ | .out _ _ | .control _ _ => rfl
  | .assign m target value => simp only [numberFrom, numberFrom_numberFrom value]
  | .opAssign m target op value => simp only [numberFrom, numberFrom_numberFrom value]
  | .connect m op lhs rhs =>
    simp only [numberFrom, numberFrom_numberFrom lhs, numberFrom_numberFrom rhs, size_numberFrom]
  | .ite m cond thenBody elseBody =>
    simp only [numberFrom, numberFrom_numberFrom cond, numberAllFrom_numberAllFrom thenBody,
      numberAllFrom_numberAllFrom elseBody, size_numberFrom, sizes_numberAllFrom]
  | .loop m cond body =>
    simp only [numberFrom, numberFrom_numberFrom cond, numberAllFrom_numberAllFrom body,
      size_numberFrom]
  | .call m none name args none parens =>
    simp only [numberFrom, numberAllFrom_numberAllFrom args, Option.toList]
  | .call m (some r) name args none parens =>
    simp only [numberFrom, numberFrom_numberFrom r, numberAllFrom_numberAllFrom args, Option.toList,
      sizes, size_numberFrom]
  | .call m none name args (some (.mk params body)) parens =>
    simp only [numberFrom, numberAllFrom_numberAllFrom args, numberAllFrom_numberAllFrom body,
      Option.toList,
      sizes_numberAllFrom]
  | .call m (some r) name args (some (.mk params body)) parens =>
    simp only [numberFrom, numberFrom_numberFrom r, numberAllFrom_numberAllFrom args,
      numberAllFrom_numberAllFrom body,
      Option.toList, sizes, size_numberFrom, sizes_numberAllFrom]
termination_by structural e

theorem numberAllFrom_numberAllFrom (es : List Expr) {next next' : NodeId} :
    numberAllFrom next' (numberAllFrom next es) = numberAllFrom next' es := by
  match es with
  | [] => rfl
  | e :: es =>
    rw [numberAllFrom, numberAllFrom, numberAllFrom, numberFrom_numberFrom e,
      numberAllFrom_numberAllFrom es, size_numberFrom]
termination_by structural es

end

end Expr

theorem Param.numberAllFrom_numberAllFrom (ps : List Param) {next next' : NodeId} :
    numberAllFrom next' (numberAllFrom next ps) = numberAllFrom next' ps := by
  induction ps generalizing next next' with
  | nil => rfl
  | cons p ps ih =>
    obtain ⟨name, restriction, default⟩ := p
    cases default with
    | none => rw [numberAllFrom, numberAllFrom, numberAllFrom, ih]; rfl
    | some value =>
      simp only [numberAllFrom, ih, Option.map_some, exprs, Option.toList,
        Expr.numberFrom_numberFrom,
        Expr.sizes, Expr.size_numberFrom]

theorem Def.numberFrom_numberFrom (d : Def) {next next' : NodeId} :
    (d.numberFrom next).numberFrom next' = d.numberFrom next' := by
  have hparams := Expr.sizes_of_ids (Param.ids_numberAllFrom next d.params)
  simp only [numberFrom, Param.numberAllFrom_numberAllFrom, Expr.numberAllFrom_numberAllFrom,
    hparams]

theorem Def.numberAllFrom_numberAllFrom (ds : List Def) {next next' : NodeId} :
    numberAllFrom next' (numberAllFrom next ds) = numberAllFrom next' ds := by
  induction ds generalizing next next' with
  | nil => rfl
  | cons d ds ih =>
    rw [numberAllFrom, numberAllFrom, numberAllFrom, ih, numberFrom_numberFrom,
      Expr.sizes_of_ids (Def.ids_numberFrom next d)]

theorem Item.numberFrom_numberFrom (i : Item) {next next' : NodeId} :
    (i.numberFrom next).numberFrom next' = i.numberFrom next' := by
  cases i with
  | method d => rw [numberFrom, numberFrom, numberFrom, d.numberFrom_numberFrom]
  | classDecl c => simp only [numberFrom, Def.numberAllFrom_numberAllFrom]
  | library l => rfl
  | expr e => rw [numberFrom, numberFrom, numberFrom, e.numberFrom_numberFrom]

theorem Item.numberAllFrom_numberAllFrom (items : List Item) {next next' : NodeId} :
    numberAllFrom next' (numberAllFrom next items) = numberAllFrom next' items := by
  induction items generalizing next next' with
  | nil => rfl
  | cons i items ih =>
    rw [numberAllFrom, numberAllFrom, numberAllFrom, ih, numberFrom_numberFrom,
      Expr.sizes_of_ids (Item.ids_numberFrom next i)]

/-! ### Methods and expressions of a program -/

def Item.defs : Item → List Def
  | .method d => [d]
  | .classDecl c => c.methods
  | .library _ => []
  | .expr _ => []

theorem Item.mem_exprs_of_mem_defs {i : Item} {d : Def} (hd : d ∈ i.defs) {e : Expr}
    (he : e ∈ d.exprs) : e ∈ i.exprs := by
  cases i with
  | method d' =>
    rw [List.mem_singleton.mp hd] at he
    exact he
  | classDecl c => exact List.mem_flatMap.mpr ⟨d, hd, he⟩
  | library l => cases hd
  | expr e' => cases hd

namespace Program

variable {p : Program}

theorem mem_topLevel {e : Expr} : e ∈ p.topLevel ↔ .expr e ∈ p.items := by
  unfold topLevel
  rw [List.mem_filterMap]
  constructor
  · rintro ⟨i, hi, heq⟩
    cases i with
    | expr e' =>
      cases heq
      exact hi
    | _ => cases heq
  · exact fun h => ⟨_, h, rfl⟩

theorem nodup_topLevel (h : (p.nodes.map Expr.id).Nodup) : (Expr.ids p.topLevel).Nodup := by
  have hsub : ∀ items : List Item, (Expr.ids (Program.topLevel ⟨p.file, items⟩)).Sublist
      (Expr.ids (items.flatMap Item.exprs)) := by
    intro items
    induction items with
    | nil => exact List.Sublist.refl _
    | cons i items ih =>
      rw [List.flatMap_cons, Expr.ids_append]
      cases i with
      | expr e =>
        change (Expr.ids ([e] ++ Program.topLevel ⟨p.file, items⟩)).Sublist _
        rw [Expr.ids_append]
        exact (List.Sublist.refl _).append ih
      | _ => exact ih.trans (List.sublist_append_right _ _)
  exact (hsub p.items).nodup h

/-- No two nodes of a method share a number. -/
theorem nodup_def (h : (p.nodes.map Expr.id).Nodup) {i : Item} (hi : i ∈ p.items) {d : Def}
    (hd : d ∈ i.defs) : (Expr.ids d.exprs).Nodup := by
  have hitem : d.exprs.Sublist i.exprs := by
    cases i with
    | method d' =>
      rw [List.mem_singleton.mp hd]
      exact List.Sublist.refl _
    | classDecl c => exact List.sublist_flatten_of_mem (List.mem_map_of_mem hd)
    | library l => cases hd
    | expr e => cases hd
  have hsub := hitem.trans (List.sublist_flatten_of_mem (List.mem_map_of_mem hi))
  rw [← List.flatMap_def] at hsub
  exact ((Expr.nodesOf_sublist hsub).map Expr.id).nodup h

/-- The nodes of the methods have other numbers than those outside of declarations. -/
theorem ne_of_mem_defs (h : (p.nodes.map Expr.id).Nodup) {i : Item} (hi : i ∈ p.items) {d : Def}
    (hd : d ∈ i.defs) {n k : Expr} (hn : n ∈ Expr.nodesOf d.exprs)
    (hk : k ∈ Expr.nodesOf p.topLevel) : n.id ≠ k.id := by
  obtain ⟨e, he, hne⟩ := Expr.mem_nodesOf_iff.mp hn
  obtain ⟨e', he', hke⟩ := Expr.mem_nodesOf_iff.mp hk
  have hdiffer : i ≠ .expr e' := by
    rintro rfl
    cases hd
  refine Expr.ne_of_nodup_ids (f := Item.exprs) h hi (mem_topLevel.mp he') hdiffer
    (Expr.mem_nodesOf_iff.mpr ⟨e, Item.mem_exprs_of_mem_defs hd he, hne⟩) ?_
  exact Expr.mem_nodesOf_iff.mpr ⟨e', List.mem_singleton_self _, hke⟩

/-- Different methods share no number. -/
theorem eq_of_mem_defs (h : (p.nodes.map Expr.id).Nodup) {i i' : Item} (hi : i ∈ p.items)
    (hi' : i' ∈ p.items) {d d' : Def} (hd : d ∈ i.defs) (hd' : d' ∈ i'.defs) {n n' : Expr}
    (hn : n ∈ Expr.nodesOf d.exprs) (hn' : n' ∈ Expr.nodesOf d'.exprs) (hid : n.id = n'.id) :
    d = d' := by
  have hnodes : ∀ {i : Item} {d : Def} {n : Expr}, d ∈ i.defs → n ∈ Expr.nodesOf d.exprs →
      n ∈ Expr.nodesOf i.exprs := by
    intro i d n hd hn
    obtain ⟨e, he, hn⟩ := Expr.mem_nodesOf_iff.mp hn
    exact Expr.mem_nodesOf_iff.mpr ⟨e, Item.mem_exprs_of_mem_defs hd he, hn⟩
  by_cases hitem : i = i'
  · subst hitem
    cases i with
    | method d₀ => rw [List.mem_singleton.mp hd, List.mem_singleton.mp hd']
    | classDecl decl =>
      have hsub : (decl.methods.flatMap Def.exprs).Sublist (p.items.flatMap Item.exprs) := by
        have hmem : decl.methods.flatMap Def.exprs ∈ p.items.map Item.exprs :=
          List.mem_map_of_mem hi
        exact List.sublist_flatten_of_mem hmem
      by_contra hne
      exact Expr.ne_of_nodup_ids (((Expr.nodesOf_sublist hsub).map Expr.id).nodup h) hd hd' hne hn
        hn' hid
    | library | expr => cases hd
  · exact absurd hid (Expr.ne_of_nodup_ids h hi hi' hitem (hnodes hd hn) (hnodes hd' hn'))

end Program

end UnionTyping
