/-
  UnionTyping/Proofs/Inference/Reached.lean
  =========================================
  **What the last check finds out about a node stays.**

  Nodes have numbers of their own, so what is noted for a node and those below it
  is noted in the check of that very node and is not touched before or after it
  (`Visited`).  Every node is visited in this sense, at any depth, unless the check of the
  expression that it is a child of passes over it (`Frozen.visited`).  Likewise the calls
  that are noted were carried out at the nodes that are gone through (`Passes.carried`).
-/
import UnionTyping.Proofs.Inference.Visits

namespace UnionTyping

open Ty (Over Proper Known)

variable {c : Checking} {s : Engine} {w w₁ w₂ w' : Walk} {own : NodeId → Prop}
  {L : NodeId → Resolution → Prop}

/-- At rest every expression has the type of a value. -/
theorem Rest.valued (hrest : Rest c s) (e : Expr) : Valued c s e := by
  intro w w' t h
  refine (h.of_infer hrest fun child hchild => ?_).2
  have hlt := Expr.size_lt_of_mem_children hchild
  exact hrest.valued child
termination_by e.size

/-- Somewhere between the findings `w` and `w'` the node was checked and its type noted.  What
    was found out about it and the nodes below it before is what `w` holds, and afterwards
    what `w'` holds. -/
def Visited (c : Checking) (s : Engine) (n : Expr) (w w' : Walk) : Prop :=
  ∃ w₁ t w₂, Frozen s (c.infer n) w₁ t w₂ ∧
    (∀ k ∈ n.nodes, w₁.found k.id = w.found k.id) ∧
    (∀ k ∈ Expr.nodesOf n.children, w'.found k.id = w₂.found k.id) ∧
    w'.calls.find? n.id = w₂.calls.find? n.id ∧ w'.types.find? n.id = some t

namespace Visited

variable {n : Expr}

theorem earlier (h : Visited c s n w₁ w') (hsame : ∀ k ∈ n.nodes, w₁.found k.id = w.found k.id) :
    Visited c s n w w' := by
  obtain ⟨w₀, t, w₂, hrun, hbefore, hafter⟩ := h
  exact ⟨w₀, t, w₂, hrun, fun k hk => (hbefore k hk).trans (hsame k hk), hafter⟩

theorem later (h : Visited c s n w w₁) (hsame : ∀ k ∈ n.nodes, w'.found k.id = w₁.found k.id) :
    Visited c s n w w' := by
  obtain ⟨w₀, t, w₂, hrun, hbefore, hafter, hcalls, htype⟩ := h
  have hself := hsame n n.mem_nodes_self
  refine ⟨w₀, t, w₂, hrun, hbefore, fun k hk => (hsame k ?_).trans (hafter k hk),
    (congrArg Prod.snd hself).trans hcalls, (congrArg Prod.fst hself).trans htype⟩
  rw [Expr.nodes_eq]
  exact List.mem_cons_of_mem _ hk

end Visited

/-- The check of an expression touches nothing for a node below its children that it does not
    pass over. -/
theorem Expr.not_touches {e n : Expr} (h : (e.nodes.map Expr.id).Nodup)
    (hn : n ∈ nodesOf e.children) (hpassed : n ∈ e.children → ¬ e.passesOver n) :
    ∀ k ∈ n.nodes, ¬ e.touches k.id := by
  obtain ⟨child, hchild, hnc⟩ := mem_nodesOf_iff.mp hn
  rintro k hk (hself | ⟨leaf, hleaf, hover, heq⟩)
  · exact id_ne_of_mem_below h (mem_nodesOf_iff.mpr ⟨child, hchild, mem_nodes_trans hnc hk⟩) hself
  · -- the child that is passed over is another one than that which the node is below
    have hdiffer : child ≠ leaf := by
      rintro rfl
      rw [nodes_eq, hover.children_eq_nil] at hnc
      obtain rfl := List.mem_singleton.mp hnc
      exact hpassed hchild hover
    rw [map_id_nodes] at h
    have hids := (List.nodup_cons.mp h).2
    rw [ids, nodesOf_eq] at hids
    have hnodup : (ids (e.children.flatMap fun e => [e])).Nodup := by
      rw [List.flatMap_singleton', ids, nodesOf_eq]
      exact hids
    exact ne_of_nodup_ids hnodup hchild hleaf hdiffer
      (mem_nodesOf_iff.mpr ⟨child, List.mem_singleton_self _, mem_nodes_trans hnc hk⟩)
      (mem_nodesOf_iff.mpr ⟨leaf, List.mem_singleton_self _, leaf.mem_nodes_self⟩) heq

/-! ### What is not touched -/

theorem Walk.found_insert (hw : w.types.Ascending) {node other : NodeId} {t : Ty}
    (hne : other ≠ node) :
    Walk.found { w with types := w.types.insert node t } other = w.found other := by
  rw [found, NodeMap.find?_insert hw, if_neg hne]
  rfl

theorem Walk.found_noted (hw : w.calls.Ascending) {node other : NodeId} {call : Resolution}
    (hne : other ≠ node) : (w.noted node call).found other = w.found other := by
  rw [found, noted, NodeMap.find?_alter hw, if_neg hne]
  rfl

/-- What holds of the findings after the check of an expression. -/
theorem Frozen.findings (hrest : Still c s) {e : Expr} {t : Ty}
    (h : Frozen s (c.infer e) w t w') :
    w'.Ok (Over Proper) (.only fun _ => True) s.store.bindings.length := by
  have L := hrest.lockstep (.only fun _ => True)
  have hspeaks : (Vocabulary.only fun _ => True).speaks e.nodes :=
    Vocabulary.speaks_only fun _ _ => trivial
  exact (h.achieves hrest (L.infer e hspeaks _)).findings

theorem Frozen.ascending (hrest : Still c s) {e : Expr} {t : Ty}
    (h : Frozen s (c.infer e) w t w') : w'.types.Ascending :=
  (h.findings hrest).typesAscending

theorem Frozen.found_typed (hrest : Still c s) {e : Expr} {t : Ty}
    (h : Frozen s (Checking.typed e.id (c.infer e)) w t w') {node : NodeId}
    (hnode : node ∉ e.nodes.map Expr.id) : w'.found node = w.found node := by
  have L₀ := hrest.lockstep (.only (· ∈ e.nodes.map Expr.id))
  have hspeaks : (Vocabulary.only (· ∈ e.nodes.map Expr.id)).speaks e.nodes :=
    Vocabulary.speaks_only fun n hn => List.mem_map.mpr ⟨n, hn, rfl⟩
  exact h.untouched hrest (L₀.typed (Vocabulary.ids_of_speaks hspeaks)
    (L₀.infer e hspeaks _)) hnode

theorem Passes.found (hrest : Rest c s) {es : List Expr} (h : Passes c s own L w es w')
    {node : NodeId} (hown : ¬ own node) (hnode : node ∉ Expr.ids es) :
    w'.found node = w.found node := by
  induction h with
  | done => rfl
  | own touched _ _ ih => rw [ih hnode, touched node hown]
  | leaf _ _ _ ih =>
    rw [Expr.ids_cons] at hnode
    exact ih fun hmem => hnode (List.mem_append_right _ hmem)
  | child frozen _ ih =>
    rw [Expr.ids_cons] at hnode
    rw [ih fun hmem => hnode (List.mem_append_right _ hmem),
      frozen.found_typed hrest fun hmem => hnode (List.mem_append_left _ hmem)]

/-! ### Going down to a node -/

/-- A node is visited when its check is made and its type noted. -/
theorem Frozen.visited_self (hrest : Still c s) {n : Expr} {t : Ty}
    (h : Frozen s (Checking.typed n.id (c.infer n)) w t w')
    (hnodup : (n.nodes.map Expr.id).Nodup) : Visited c s n w w' := by
  obtain ⟨w₂, hinfer, rfl⟩ := h.of_typed
  have hasc := hinfer.ascending hrest
  refine ⟨w, t, w₂, hinfer, fun _ _ => rfl, fun k hk => ?_, rfl, ?_⟩
  · exact Walk.found_insert hasc (Expr.id_ne_of_mem_below hnodup hk)
  · exact (NodeMap.find?_insert hasc).trans (if_pos rfl)

/-- A node below one of the expressions is visited when they are gone through. -/
theorem Passes.visited (hrest : Rest c s) {n : Expr} {es : List Expr}
    (h : Passes c s own L w es w') (hnodup : (Expr.ids es).Nodup) (hn : n ∈ Expr.nodesOf es)
    (hown : ∀ k ∈ n.nodes, ¬ own k.id)
    (hes : ∀ e ∈ es, ∀ w t w', Frozen s (Checking.typed e.id (c.infer e)) w t w' →
      (e.nodes.map Expr.id).Nodup → n ∈ e.nodes → Visited c s n w w') :
    Visited c s n w w' := by
  induction h with
  | done => cases hn
  | own touched _ _ ih =>
    exact (ih hnodup hn hes).earlier fun k hk => touched k.id (hown k hk)
  | leaf children isOwn _ ih =>
    rename_i e es _
    obtain ⟨_, hes⟩ := List.forall_mem_cons.mp hes
    rw [Expr.ids_cons] at hnodup
    rw [Expr.nodesOf] at hn
    rcases List.mem_append.mp hn with hn | hn
    · rw [Expr.nodes_eq, children, Expr.nodesOf, List.mem_singleton] at hn
      subst hn
      exact absurd isOwn (hown n n.mem_nodes_self)
    · exact ih (List.nodup_append.mp hnodup).2.1 hn hes
  | child frozen rest ih =>
    rename_i w w₁ w' t e es
    obtain ⟨he, hes⟩ := List.forall_mem_cons.mp hes
    rw [Expr.ids_cons] at hnodup
    obtain ⟨hfirst, hothers, hapart⟩ := List.nodup_append.mp hnodup
    rw [Expr.nodesOf] at hn
    rcases List.mem_append.mp hn with hn | hn
    · -- the node is below the first expression; nothing below it is touched afterwards
      exact (he w t w₁ frozen hfirst hn).later fun k hk =>
        rest.found hrest (hown k hk) fun hmem =>
          hapart k.id (List.mem_map.mpr ⟨k, Expr.mem_nodes_trans hn hk, rfl⟩) k.id hmem rfl
    · have hsame : ∀ k ∈ n.nodes, w₁.found k.id = w.found k.id := fun k hk =>
        frozen.found_typed hrest fun hmem => by
          refine hapart k.id hmem k.id ?_ rfl
          obtain ⟨e', he', hn'⟩ := Expr.mem_nodesOf_iff.mp hn
          exact Expr.mem_ids_of_mem
            (Expr.mem_nodesOf_iff.mpr ⟨e', he', Expr.mem_nodes_trans hn' hk⟩)
      exact (ih hothers hn hes).earlier hsame

/-- A node below an expression is visited in the check of the expression. -/
theorem Frozen.visited (hrest : Rest c s) {n e : Expr} {w w' : Walk} {t : Ty}
    (h : Frozen s (Checking.typed e.id (c.infer e)) w t w')
    (hnodup : (e.nodes.map Expr.id).Nodup) (hn : n ∈ e.nodes)
    (hpassed : ∀ k ∈ e.nodes, n ∈ k.children → ¬ k.passesOver n) : Visited c s n w w' := by
  rw [Expr.nodes_eq] at hn
  rcases List.mem_cons.mp hn with rfl | hbelow
  · exact h.visited_self hrest hnodup
  · obtain ⟨w₁, hinfer, rfl⟩ := h.of_typed
    have hpasses := (hinfer.of_infer hrest fun child _ => hrest.valued child).1
    have hids := hnodup
    rw [Expr.map_id_nodes] at hids
    have hvisited : Visited c s n w w₁ := by
      refine hpasses.visited hrest (List.nodup_cons.mp hids).2 hbelow
        (Expr.not_touches hnodup hbelow (hpassed e e.mem_nodes_self))
        fun child hchild w t w' hrun hnodup hn => ?_
      have hlt := Expr.size_lt_of_mem_children hchild
      refine hrun.visited hrest hnodup hn fun k hk => hpassed k ?_
      rw [Expr.nodes_eq]
      exact List.mem_cons_of_mem _ (Expr.mem_nodesOf_iff.mpr ⟨child, hchild, hk⟩)
    exact hvisited.later fun k hk => Walk.found_insert (hinfer.ascending hrest)
      (Expr.id_ne_of_mem_below hnodup (Expr.mem_nodesOf_trans hbelow hk))
termination_by e.size

/-- A node below one of the expressions that are gone through is visited. -/
theorem Passes.visited_below (hrest : Rest c s) {n : Expr} {es : List Expr}
    (h : Passes c s (fun _ => False) L w es w') (hnodup : (Expr.ids es).Nodup)
    (hn : n ∈ Expr.nodesOf es)
    (hpassed : ∀ k ∈ Expr.nodesOf es, n ∈ k.children → ¬ k.passesOver n) : Visited c s n w w' :=
  h.visited hrest hnodup hn (fun _ _ => id) fun e he _ _ _ hrun hnodup hn =>
    hrun.visited hrest hnodup hn fun k hk => hpassed k (Expr.mem_nodesOf_iff.mpr ⟨e, he, hk⟩)

/-! ### The calls of all nodes -/

def Expr.CarriedBelow (c : Checking) (s : Engine) (es : List Expr) (node : NodeId)
    (call : Resolution) : Prop :=
  ∃ n ∈ Expr.nodesOf es, n.Carries c s node call

theorem Expr.CarriedBelow.mono {es fs : List Expr}
    (hes : ∀ n ∈ Expr.nodesOf es, n ∈ Expr.nodesOf fs) {node : NodeId} {call : Resolution}
    (h : CarriedBelow c s es node call) : CarriedBelow c s fs node call := by
  obtain ⟨n, hn, hcarries⟩ := h
  exact ⟨n, hes n hn, hcarries⟩

/-- The calls that are noted while expressions are gone through are the own ones and those of
    the expressions. -/
theorem Passes.adds {es fs : List Expr} (h : Passes c s own L w es w')
    (hL : ∀ node call, L node call → Expr.CarriedBelow c s fs node call)
    (hes : ∀ e ∈ es, ∀ w t w', Frozen s (c.infer e) w t w' →
      Adds (Expr.CarriedBelow c s fs) w w') :
    Adds (Expr.CarriedBelow c s fs) w w' := by
  induction h with
  | done => exact .of_calls rfl
  | own _ noted _ ih => exact (noted.mono hL).trans (ih hes)
  | leaf _ _ _ ih => exact ih (List.forall_mem_cons.mp hes).2
  | child frozen _ ih =>
    obtain ⟨he, hes⟩ := List.forall_mem_cons.mp hes
    obtain ⟨w₀, hinfer, rfl⟩ := frozen.of_typed
    exact ((he _ _ _ hinfer).trans (.of_calls rfl)).trans (ih hes)

/-- The check of an expression notes calls that were carried out at the expression and at the
    nodes below it. -/
theorem Frozen.carried (hrest : Rest c s) {e : Expr} {w w' : Walk} {t : Ty}
    (h : Frozen s (c.infer e) w t w') : Adds (Expr.CarriedBelow c s [e]) w w' := by
  have hself : e.nodes = Expr.nodesOf [e] := (List.append_nil _).symm
  refine (h.of_infer hrest fun child _ => hrest.valued child).1.adds (fun node call hcall => ?_)
    fun child hchild w t w' hrun => ?_
  · exact ⟨e, by rw [← hself]; exact e.mem_nodes_self, hcall⟩
  · have hlt := Expr.size_lt_of_mem_children hchild
    refine (hrun.carried hrest).mono fun node call => Expr.CarriedBelow.mono fun n hn => ?_
    rw [← hself, Expr.nodes_eq]
    refine List.mem_cons_of_mem _ (Expr.mem_nodesOf_iff.mpr ⟨child, hchild, ?_⟩)
    rw [Expr.nodesOf, Expr.nodesOf, List.append_nil] at hn
    exact hn
termination_by e.size

/-- The calls that are noted while expressions are gone through were carried out at them. -/
theorem Passes.carried (hrest : Rest c s) {es : List Expr}
    (h : Passes c s own (fun _ _ => False) w es w') : Adds (Expr.CarriedBelow c s es) w w' := by
  refine h.adds (fun _ _ => False.elim) fun e he w t w' hrun => ?_
  refine (hrun.carried hrest).mono fun node call => Expr.CarriedBelow.mono fun n hn => ?_
  rw [Expr.nodesOf, Expr.nodesOf, List.append_nil] at hn
  exact Expr.mem_nodesOf_iff.mpr ⟨e, he, hn⟩

/-- Going through other expressions notes no call for a node. -/
theorem Passes.fresh (hrest : Rest c s) {es : List Expr}
    (h : Passes c s own (fun _ _ => False) w es w') {node : NodeId} (hnode : node ∉ Expr.ids es)
    (hw : w.callsAt node = []) : w'.callsAt node = [] := by
  rw [List.eq_nil_iff_forall_not_mem]
  intro call hcall
  rcases h.carried hrest node call hcall with hbefore | ⟨n, hn, _, heq, _⟩
  · rw [hw] at hbefore
    cases hbefore
  · exact hnode (heq ▸ Expr.mem_ids_of_mem hn)

/-! ### Calls -/

theorem Frozen.types_of_inferArgs (hrest : Rest c s) {ts : List Ty} {es : List Expr}
    (hnodup : (Expr.ids es).Nodup) (h : Frozen s (c.inferArgs es) w ts w') :
    List.Forall₂ (fun e t => w'.types.find? e.id = some t) es ts := by
  induction es generalizing w ts with
  | nil =>
    rw [Checking.inferArgs] at h
    obtain ⟨rfl, _⟩ := h.of_pure
    exact .nil
  | cons e es ih =>
    obtain ⟨t, ts', w₁, rfl, _, hfirst, hothers⟩ := h.parts_inferArgs hrest
    rw [Expr.ids_cons] at hnodup
    obtain ⟨_, hnodup', hapart⟩ := List.nodup_append.mp hnodup
    refine .cons ?_ (ih hnodup' hothers)
    -- what follows does not touch the first expression
    have hpasses : Passes c s (fun _ => False) (fun _ _ => False) w₁ es w' :=
      (hothers.of_inferArgs hrest fun e _ => hrest.valued e).1
    have hsame : w'.found e.id = w₁.found e.id := hpasses.found hrest id fun hmem =>
      hapart e.id (List.mem_map.mpr ⟨e, e.mem_nodes_self, rfl⟩) e.id hmem rfl
    obtain ⟨w₀, hinfer, rfl⟩ := hfirst.of_typed
    have htype : w'.types.find? e.id = (w₀.types.insert e.id t).find? e.id :=
      congrArg Prod.fst hsame
    rw [htype, NodeMap.find?_insert (hinfer.ascending hrest), if_pos rfl]

/-- A receiver and arguments have the types `base` and `given` of values, and at a call one
    way of carrying it out is noted for each member of `base` and each choice of members
    of `given`. -/
structure Dispatched (types : NodeMap Ty) (calls : NodeMap (List Resolution))
    (call receiver : NodeId) (args : List Expr) (base : Ty) (given : List Ty) : Prop where
  baseNoted : types.find? receiver = some base
  givenNoted : List.Forall₂ (fun arg t => types.find? arg.id = some t) args given
  baseKnown : base.Known
  givenKnown : ∀ t ∈ given, t.Known
  choices : ((calls.find? call).getD []).map Resolution.choice =
    base.members.flatMap fun r => (Overload.choices given).map fun as => (some r, as)

/-- Tables with the same entries for the nodes that matter. -/
theorem Dispatched.of_same {types types' : NodeMap Ty} {calls calls' : NodeMap (List Resolution)}
    {call receiver : NodeId} {args : List Expr} {base : Ty} {given : List Ty}
    (h : Dispatched types calls call receiver args base given)
    (hreceiver : types'.find? receiver = types.find? receiver)
    (hargs : ∀ arg ∈ args, types'.find? arg.id = types.find? arg.id)
    (hcalls : calls'.find? call = calls.find? call) :
    Dispatched types' calls' call receiver args base given where
  baseNoted := hreceiver.trans h.baseNoted
  givenNoted := by
    have hnoted := h.givenNoted
    rw [List.forall₂_iff_get] at hnoted ⊢
    refine ⟨hnoted.1, fun i hi hi' => ?_⟩
    exact (hargs _ (List.get_mem _ _)).trans (hnoted.2 i hi hi')
  baseKnown := h.baseKnown
  givenKnown := h.givenKnown
  choices := by rw [hcalls, h.choices]

/-- A call on a value that is checked in a frozen state does not wait for a type. -/
theorem Frozen.dispatched (hrest : Rest c s) {m : Mark} {receiver : Expr} {name : String}
    {args : List Expr} {block : Option Block} {parens : Bool} {t : Ty}
    (hname : name ≠ "ptr") (hkind : c.env.receiverKind receiver = .value)
    (hnodup : ((Expr.call m (some receiver) name args block parens).nodes.map Expr.id).Nodup)
    (hnew : w.choicesAt m.id = [])
    (h : Frozen s (c.infer (.call m (some receiver) name args block parens)) w t w') :
    ∃ base given, Dispatched w'.types w'.calls m.id receiver.id args base given := by
  obtain ⟨self, given, w₁, w₂, w₃, _, _, hself, hgiven, hbody, hcall⟩ :=
    h.parts_call hrest hname hkind
  have L₀ := hrest.lockstep (.only (· = m.id))
  have hselfKnown := hself.valued_typed (hrest.valued receiver)
  obtain ⟨hargs, hgivenKnown⟩ :
      Passes c s (fun _ => False) (fun _ _ => False) w₁ args w₂ ∧ ∀ t ∈ given, t.Known :=
    hgiven.of_inferArgs hrest fun e _ => hrest.valued e
  have hblock : Passes c s (fun _ => False) (fun _ _ => False) w₂ (Block.bodyOf block) w₃ :=
    hbody.of_inferBlock hrest fun e _ => hrest.valued e
  have hover := SameType.forall₂_iff.mpr ⟨rfl, fun t ht => (hgivenKnown t ht).isOver⟩
  -- the parts of the call have other numbers, each its own
  rw [Expr.map_id_nodes] at hnodup
  obtain ⟨hcallNew, hparts⟩ := List.nodup_cons.mp hnodup
  change (Expr.ids (receiver :: (args ++ Block.bodyOf block))).Nodup at hparts
  change m.id ∉ Expr.ids (receiver :: (args ++ Block.bodyOf block)) at hcallNew
  rw [Expr.ids_cons, Expr.ids_append] at hparts hcallNew
  obtain ⟨_, hothers, hreceiverApart⟩ := List.nodup_append.mp hparts
  obtain ⟨hargsNodup, _, hargsApart⟩ := List.nodup_append.mp hothers
  have hreceiverMem : receiver.id ∈ receiver.nodes.map Expr.id :=
    List.mem_map.mpr ⟨receiver, receiver.mem_nodes_self, rfl⟩
  have hargMem : ∀ arg ∈ args, arg.id ∈ Expr.ids args := fun arg harg =>
    Expr.mem_ids_of_mem (Expr.mem_nodesOf harg)
  have hlast : ∀ node, node ≠ m.id → w'.found node = w₃.found node := fun node hne =>
    hcall.untouched hrest (L₀.callOn rfl (.self hselfKnown.isOver) hover) hne
  have hafter : ∀ node, node ∉ Expr.ids (Block.bodyOf block) → w₃.found node = w₂.found node :=
    fun node hnode => hblock.found hrest id hnode
  refine ⟨self, given, ?_, ?_, hselfKnown, hgivenKnown, ?_⟩
  · -- the type of the receiver is noted first
    have hne : receiver.id ≠ m.id := fun heq =>
      hcallNew (heq ▸ List.mem_append_left _ hreceiverMem)
    have hnotArgs : receiver.id ∉ Expr.ids args := fun hmem =>
      hreceiverApart _ hreceiverMem _ (List.mem_append_left _ hmem) rfl
    have hnotBlock : receiver.id ∉ Expr.ids (Block.bodyOf block) := fun hmem =>
      hreceiverApart _ hreceiverMem _ (List.mem_append_right _ hmem) rfl
    have hsame : w'.found receiver.id = w₁.found receiver.id := by
      rw [hlast _ hne, hafter _ hnotBlock, hargs.found hrest id hnotArgs]
    obtain ⟨w₀, hinfer, rfl⟩ := hself.of_typed
    have htype : w'.types.find? receiver.id =
        (w₀.types.insert receiver.id self).find? receiver.id := congrArg Prod.fst hsame
    rw [htype, NodeMap.find?_insert (hinfer.ascending hrest), if_pos rfl]
  · have htypes := hgiven.types_of_inferArgs hrest hargsNodup
    have hsame : ∀ arg ∈ args, w'.found arg.id = w₂.found arg.id := by
      intro arg harg
      rw [hlast _ fun heq => hcallNew (heq ▸ List.mem_append_right _
          (List.mem_append_left _ (hargMem arg harg))),
        hafter _ fun hmem => hargsApart _ (hargMem arg harg) _ hmem rfl]
    rw [List.forall₂_iff_get] at htypes ⊢
    refine ⟨htypes.1, fun i hi hi' => ?_⟩
    exact (congrArg Prod.fst (hsame _ (List.get_mem _ _))).trans (htypes.2 i hi hi')
  · -- nothing is noted at the call before it is resolved
    refine hcall.choicesAt_callOn hrest hgivenKnown hselfKnown ?_
    have hnotArgs : m.id ∉ Expr.ids args := fun hmem =>
      hcallNew (List.mem_append_right _ (List.mem_append_left _ hmem))
    have hnotBlock : m.id ∉ Expr.ids (Block.bodyOf block) := fun hmem =>
      hcallNew (List.mem_append_right _ (List.mem_append_right _ hmem))
    have hsame : w₃.found m.id = w.found m.id := by
      rw [hafter _ hnotBlock, hargs.found hrest id hnotArgs,
        hself.found_typed hrest fun hmem => hcallNew (List.mem_append_left _ hmem)]
    rw [Walk.choicesAt_eq hsame, hnew]

/-- What is noted when the call is visited stays. -/
theorem Visited.dispatched (hrest : Rest c s) {m : Mark} {receiver : Expr} {name : String}
    {args : List Expr} {block : Option Block} {parens : Bool} (hname : name ≠ "ptr")
    (hkind : c.env.receiverKind receiver = .value)
    (hnodup : ((Expr.call m (some receiver) name args block parens).nodes.map Expr.id).Nodup)
    (hnew : w.choicesAt m.id = [])
    (h : Visited c s (.call m (some receiver) name args block parens) w w') :
    ∃ base given, Dispatched w'.types w'.calls m.id receiver.id args base given := by
  obtain ⟨w₁, t, w₂, hrun, hbefore, hafter, hcalls, _⟩ := h
  have hnew₁ : w₁.choicesAt m.id = [] :=
    (Walk.choicesAt_eq (hbefore _ (Expr.mem_nodes_self _))).trans hnew
  obtain ⟨base, given, hdispatched⟩ := hrun.dispatched hrest hname hkind hnodup hnew₁
  have hsame : ∀ child ∈ receiver :: args, w'.types.find? child.id = w₂.types.find? child.id := by
    intro child hchild
    refine congrArg Prod.fst (hafter child (Expr.mem_nodesOf ?_))
    exact List.mem_append_left _ hchild
  obtain ⟨hreceiver, hargs⟩ := List.forall_mem_cons.mp hsame
  exact ⟨base, given, hdispatched.of_same hreceiver hargs hcalls⟩

end UnionTyping
