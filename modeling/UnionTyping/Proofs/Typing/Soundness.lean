/-
  UnionTyping/Proofs/Typing/Soundness.lean
  ========================================
  **The check of an expression gives a type that the rules derive.**

  Each form of expression is checked by the steps that its rule speaks of, so when the
  parts of an expression are derivable, the expression is (`Derivable.of_children`), and by
  induction on the size every expression is (`derivable`).  The same is true of the
  parameters and the body of a method, and so of every unit (`types_unitBody`).
-/
import UnionTyping.Proofs.Inference.Accepted
import UnionTyping.Proofs.Typing.Derivation

namespace UnionTyping

open Ty (Over Proper)

variable {T : Typing} {c : Checking} {s : Engine} {w w' : Walk}

theorem Expr.ids_singleton (e : Expr) : Expr.ids [e] = e.nodes.map Expr.id :=
  (ids_cons e []).trans (List.append_nil _)

/-- The parts of a call with a receiver. -/
theorem Expr.ids_call (m : Mark) (receiver : Expr) (name : String) (args : List Expr)
    (block : Option Block) (parens : Bool) :
    Expr.ids (Expr.call m (some receiver) name args block parens).children =
      receiver.nodes.map Expr.id ++ Expr.ids (args ++ Block.bodyOf block) :=
  ids_cons receiver (args ++ Block.bodyOf block)

section

variable (hT : T.Describes c s) (hstill : Still c s) {m : Mark}
include hT hstill

/-! ### Assignments -/

theorem Derivable.assign {target : Target} {value : Expr} (hvalue : Derivable T c s value) :
    Derivable T c s (.assign m target value) := by
  intro w w' t hnamed hnodup h hagrees _
  rw [Expr.map_id_nodes, Expr.children, Expr.ids_singleton] at hnodup
  rw [Expr.children, Expr.ids_singleton] at hagrees
  obtain ⟨i, w₁, w₂, ht, _, hvisit, hbinding, hassign⟩ := h.parts_assign hstill
  have hsame := hbinding.found_assigned hassign
  obtain ⟨htyped, hnoted, hnamed₁⟩ := hvalue.typed hstill hnamed (List.nodup_cons.mp hnodup).2
    (fun node hnode => (hagrees node hnode).before (hsame node)) hvisit
  obtain ⟨p, j, hplace, hij, hid, hnamed₂, _⟩ := hT.of_bindingToAssign hnamed₁ hbinding
  cases hij
  obtain ⟨htakes, rfl⟩ := hT.takes hstill hid ht hassign
  exact ⟨.assign htyped hnoted hplace htakes, hnamed₂⟩

theorem Derivable.opAssign {target : Target} {op : String} {value : Expr}
    (hvalue : Derivable T c s value) : Derivable T c s (.opAssign m target op value) := by
  intro w w' t hnamed hnodup h hagrees hcalled
  rw [Expr.map_id_nodes, Expr.children, Expr.ids_singleton] at hnodup
  rw [Expr.children, Expr.ids_singleton] at hagrees
  obtain ⟨i, current, operand, w₁, w₂, w₃, w₄, _, hcurrent, hoperand, ht, hbinding, hread, hvisit,
    hon, hassign⟩ := h.parts_opAssign hstill
  obtain ⟨p, j, hplace, hij, hid, rfl⟩ := hT.of_bindingToUpdate hnamed hbinding
  cases hij
  obtain ⟨hreads, _, rfl⟩ := hT.reads hstill hid hread
  obtain ⟨htakes, rfl⟩ := hT.takes hstill hid ht hassign
  obtain ⟨_, hanswers⟩ :=
    hT.answersOn hstill (List.forall_mem_singleton.mpr hoperand) hcalled hcurrent hon
  have L₀ := hstill.lockstep (.only (· = m.id))
  obtain ⟨htyped, hnoted, hnamed'⟩ := hvalue.typed hstill hnamed (List.nodup_cons.mp hnodup).2
    (fun node hnode => (hagrees node hnode).before (hon.untouched hstill
      (L₀.callOn rfl (.self hcurrent) (.cons (.self hoperand) .nil)) fun heq => by
        subst heq
        exact (List.nodup_cons.mp hnodup).1 hnode)) hvisit
  have hscopes := hon.keeps (p := Walk.scopes) (keepsScopes.callOn _)
  rw [hscopes]
  exact ⟨.opAssign hplace hreads htyped hnoted hanswers htakes, hnamed'⟩

/-! ### Choices and loops -/

omit hT in
theorem Derivable.connect {op : Connective} {lhs rhs : Expr} (hlhs : Derivable T c s lhs)
    (hrhs : Derivable T c s rhs) : Derivable T c s (.connect m op lhs rhs) := by
  intro w w' t hnamed hnodup h hagrees _
  rw [Expr.map_id_nodes, Expr.children, Expr.ids_cons, Expr.ids_singleton] at hnodup
  rw [Expr.children, Expr.ids_cons, Expr.ids_singleton] at hagrees
  obtain ⟨hagreesLeft, hagreesRight⟩ := List.forall_mem_append.mp hagrees
  have hparts := (List.nodup_cons.mp hnodup).2
  obtain ⟨left, right, w₁, _, rfl, hvisit, hvisit'⟩ := h.parts_connect hstill
  obtain ⟨htyped, hnoted, hnamed₁⟩ := hlhs.typed hstill hnamed (List.nodup_append.mp hparts).1
    (fun node hnode => (hagreesLeft node hnode).before
      (hvisit'.found_typed hstill (List.disjoint_of_nodup_append hparts hnode))) hvisit
  obtain ⟨htyped', hnoted', hnamed'⟩ :=
    hrhs.typed hstill hnamed₁ (List.nodup_append.mp hparts).2.1 hagreesRight hvisit'
  rw [hvisit.inLoop_typed] at htyped'
  exact ⟨.connect htyped hnoted htyped' hnoted', hnamed'⟩

omit hT in
theorem Derivable.ite {cond : Expr} {thenBody elseBody : List Expr} (hcond : Derivable T c s cond)
    (hthen : ∀ e ∈ thenBody, Derivable T c s e) (helse : ∀ e ∈ elseBody, Derivable T c s e) :
    Derivable T c s (.ite m cond thenBody elseBody) := by
  intro w w' t hnamed hnodup h hagrees _
  rw [Expr.map_id_nodes, Expr.children, List.cons_append, Expr.ids_cons, Expr.ids_append] at hnodup
  rw [Expr.children, List.cons_append, Expr.ids_cons, Expr.ids_append] at hagrees
  obtain ⟨hagreesCond, hagreesBodies⟩ := List.forall_mem_append.mp hagrees
  obtain ⟨hagreesThen, hagreesElse⟩ := List.forall_mem_append.mp hagreesBodies
  have hparts := (List.nodup_cons.mp hnodup).2
  obtain ⟨hnodupCond, hnodupBodies, _⟩ := List.nodup_append.mp hparts
  obtain ⟨hnodupThen, hnodupElse, _⟩ := List.nodup_append.mp hnodupBodies
  obtain ⟨condTy, thenTy, elseTy, w₁, w₂, rfl, hvisit, hfirst, hlast⟩ := h.parts_ite hstill
  have hnil : Over Proper .nil := (Ty.proper_plain "Nil").isOver
  have hsame : ∀ node, node ∉ Expr.ids elseBody → w'.found node = w₂.found node := fun node hnode =>
    hlast.found_inferBody hstill hnode hnil
  obtain ⟨htyped, hnoted, hnamed₁⟩ := hcond.typed hstill hnamed hnodupCond
    (fun node hnode => by
      have hnotBodies := List.disjoint_of_nodup_append hparts hnode
      refine (hagreesCond node hnode).before ((hsame node fun hmem => ?_).trans
        (hfirst.found_inferBody hstill (fun hmem => ?_) hnil))
      · exact hnotBodies (List.mem_append_right _ hmem)
      · exact hnotBodies (List.mem_append_left _ hmem)) hvisit
  obtain ⟨ts, hall, rfl, hnamed₂⟩ := Derivable.body hstill hthen hnamed₁ hnodupThen hnil
    (fun node hnode => (hagreesThen node hnode).before
      (hsame node (List.disjoint_of_nodup_append hnodupBodies hnode))) hfirst
  obtain ⟨us, hall', rfl, hnamed'⟩ :=
    Derivable.body hstill helse hnamed₂ hnodupElse hnil hagreesElse hlast
  rw [hfirst.inLoop_inferBody, hvisit.inLoop_typed] at hall'
  rw [hvisit.inLoop_typed] at hall
  exact ⟨.ite htyped hnoted hall hall', hnamed'⟩

omit hT in
theorem Derivable.loop {cond : Expr} {body : List Expr} (hcond : Derivable T c s cond)
    (hbody : ∀ e ∈ body, Derivable T c s e) : Derivable T c s (.loop m cond body) := by
  intro w w' t hnamed hnodup h hagrees _
  rw [Expr.map_id_nodes, Expr.children, Expr.ids_cons] at hnodup
  rw [Expr.children, Expr.ids_cons] at hagrees
  obtain ⟨hagreesCond, hagreesBody⟩ := List.forall_mem_append.mp hagrees
  have hparts := (List.nodup_cons.mp hnodup).2
  obtain ⟨hnodupCond, hnodupBody, _⟩ := List.nodup_append.mp hparts
  obtain ⟨condTy, last, w₁, rfl, hvisit, hlast⟩ := h.parts_loop hstill
  obtain ⟨htyped, hnoted, hnamed₁⟩ := hcond.typed hstill hnamed hnodupCond
    (fun node hnode => (hagreesCond node hnode).before
      (hlast.found_bodyInLoop hstill (List.disjoint_of_nodup_append hparts hnode))) hvisit
  obtain ⟨ts, hall, hnamed'⟩ :=
    Derivable.bodyInLoop hstill hbody hnamed₁ hnodupBody hagreesBody hlast
  exact ⟨.loop htyped hnoted hall, hnamed'⟩

/-! ### Calls -/

section

variable {args : List Expr} {block : Option Block}
  (hargs : ∀ e ∈ args, Derivable T c s e) (hbody : ∀ e ∈ Block.bodyOf block, Derivable T c s e)
include hargs hbody

omit hT in
/-- The arguments and the block of a call, before the call itself. -/
theorem Derivable.arguments {given : List Ty} {w₁ w₂ : Walk} {call : NodeId}
    (hnamed : w.scopes.Named s.store c.unit)
    (hnodup : (Expr.ids (args ++ Block.bodyOf block)).Nodup)
    (hagrees : ∀ node ∈ Expr.ids (args ++ Block.bodyOf block), T.AgreesAt w₂ node)
    (hgiven : Frozen s (c.inferArgs args) w given w₁)
    (hblock : Frozen s (c.inferBlock call block) w₁ () w₂) :
    T.TypesAll w.inLoop w.scopes.outline args given w₂.scopes.outline ∧
      T.TypesBlock call w₂.scopes.outline block ∧ w₂.scopes.Named s.store c.unit := by
  rw [Expr.ids_append] at hnodup hagrees
  obtain ⟨hagreesArgs, hagreesBlock⟩ := List.forall_mem_append.mp hagrees
  obtain ⟨hall, hnamed₁⟩ := Derivable.args hstill hargs hnamed (List.nodup_append.mp hnodup).1
    (fun node hnode => (hagreesArgs node hnode).before
      (hblock.found_inferBlock hstill (List.disjoint_of_nodup_append hnodup hnode))) hgiven
  obtain ⟨htyped, hscopes, hnamed₂⟩ := Derivable.block hstill hbody hnamed₁
    (List.nodup_append.mp hnodup).2.1 hagreesBlock hblock
  rw [hscopes]
  exact ⟨hall, htyped, hnamed₂⟩

omit hT hargs hbody in
/-- The arguments and the block note nothing for other nodes. -/
theorem Frozen.found_arguments {given : List Ty} {w₁ w₂ : Walk} {call node : NodeId}
    (hgiven : Frozen s (c.inferArgs args) w given w₁)
    (hblock : Frozen s (c.inferBlock call block) w₁ () w₂)
    (hnode : node ∉ Expr.ids (args ++ Block.bodyOf block)) : w₂.found node = w.found node := by
  rw [Expr.ids_append, List.mem_append, not_or] at hnode
  exact (hblock.found_inferBlock hstill hnode.2).trans (hgiven.found_inferArgs hstill hnode.1)

theorem Derivable.callSelf {name : String} {parens : Bool} :
    Derivable T c s (.call m none name args block parens) := by
  intro w w' t hnamed hnodup h hagrees hcalled
  obtain ⟨given, w₁, w₂, hover, hgiven, hblock, hcall⟩ := h.parts_callSelf hstill
  rw [Expr.map_id_nodes] at hnodup
  obtain ⟨hown, hparts⟩ := List.nodup_cons.mp hnodup
  have L₀ := hstill.lockstep (.only (· = m.id))
  have hsame : ∀ node ∈ Expr.ids (args ++ Block.bodyOf block), w'.found node = w₂.found node :=
    fun node hnode => hcall.untouched hstill
      (L₀.callOnSelf rfl (SameType.forall₂_iff.mpr ⟨rfl, hover⟩)) fun heq => by
        subst heq
        exact hown hnode
  obtain ⟨hall, htyped, hnamed₂⟩ := Derivable.arguments hstill hargs hbody hnamed hparts
    (fun node hnode => (hagrees node hnode).before (hsame node hnode)) hgiven hblock
  obtain ⟨_, hanswers⟩ := hT.answersSelf hstill hover hcalled hcall
  rw [hcall.keeps (p := Walk.scopes) (keepsScopes.callOnSelf _)]
  exact ⟨.callSelf hall htyped hanswers, hnamed₂⟩

theorem Derivable.callValue {receiver : Expr} {name : String} {parens : Bool}
    (hname : name ≠ "ptr") (hkind : c.env.receiverKind receiver = .value)
    (hreceiver : Derivable T c s receiver) :
    Derivable T c s (.call m (some receiver) name args block parens) := by
  intro w w' t hnamed hnodup h hagrees hcalled
  obtain ⟨self, given, w₁, w₂, w₃, hself, hover, hvisit, hgiven, hblock, hcall⟩ :=
    h.parts_call hstill hname hkind
  rw [Expr.map_id_nodes, Expr.ids_call] at hnodup
  rw [Expr.ids_call] at hagrees
  obtain ⟨hown, hbelow⟩ := List.nodup_cons.mp hnodup
  obtain ⟨hagreesReceiver, hagreesParts⟩ := List.forall_mem_append.mp hagrees
  obtain ⟨hnodupReceiver, hparts, _⟩ := List.nodup_append.mp hbelow
  -- the call itself notes nothing for the nodes below it
  have hsame : ∀ node ∈ receiver.nodes.map Expr.id ++ Expr.ids (args ++ Block.bodyOf block),
      w'.found node = w₃.found node := fun node hnode =>
    hcall.untouched hstill ((hstill.lockstep (.only (· = m.id))).callOn rfl (.self hself)
      (SameType.forall₂_iff.mpr ⟨rfl, hover⟩)) fun heq => by
        subst heq
        exact hown hnode
  obtain ⟨htypedReceiver, hnoted, hnamed₁⟩ := hreceiver.typed hstill hnamed hnodupReceiver
    (fun node hnode => (hagreesReceiver node hnode).before
      ((hsame node (List.mem_append_left _ hnode)).trans (hgiven.found_arguments hstill hblock
        (List.disjoint_of_nodup_append hbelow hnode)))) hvisit
  obtain ⟨hall, htyped, hnamed'⟩ := Derivable.arguments hstill hargs hbody hnamed₁ hparts
    (fun node hnode => (hagreesParts node hnode).before
      (hsame node (List.mem_append_right _ hnode))) hgiven hblock
  rw [hvisit.inLoop_typed] at hall
  obtain ⟨_, hanswers⟩ := hT.answersOn hstill hover hcalled hself hcall
  rw [hcall.keeps (p := Walk.scopes) (keepsScopes.callOn _)]
  have hkind' : T.env.receiverKind receiver = .value := by rw [hT.env]; exact hkind
  exact ⟨.callValue hname hkind' htypedReceiver hnoted hall htyped hanswers, hnamed'⟩

theorem Derivable.callClass {receiver : Expr} {name : String} {parens : Bool} {ref : TypeRef}
    (hname : name ≠ "ptr") (hkind : c.env.receiverKind receiver = .ofClass ref) :
    Derivable T c s (.call m (some receiver) name args block parens) := by
  intro w w' t hnamed hnodup h hagrees hcalled
  obtain ⟨ty, given, w₁, w₂, hty, hover, hgiven, hblock, hcall⟩ :=
    h.parts_callClass hstill hname hkind
  rw [Expr.map_id_nodes, Expr.ids_call] at hnodup
  rw [Expr.ids_call] at hagrees
  obtain ⟨hown, hbelow⟩ := List.nodup_cons.mp hnodup
  obtain ⟨hagreesReceiver, hagreesParts⟩ := List.forall_mem_append.mp hagrees
  have hsame : ∀ node ∈ receiver.nodes.map Expr.id ++ Expr.ids (args ++ Block.bodyOf block),
      w'.found node = w₂.found node := fun node hnode =>
    hcall.untouched hstill ((hstill.lockstep (.only (· = m.id))).callOnClass rfl trivial hty
      (SameType.forall₂_iff.mpr ⟨rfl, hover⟩)) fun heq => by
        subst heq
        exact hown hnode
  have hnoted : T.noted receiver.id = some .classObject := by
    have hmem : receiver.id ∈ receiver.nodes.map Expr.id :=
      List.mem_map.mpr ⟨receiver, receiver.mem_nodes_self, rfl⟩
    have hagree := (hagreesReceiver receiver.id hmem).before
      ((hsame receiver.id (List.mem_append_left _ hmem)).trans
        (hgiven.found_arguments hstill hblock (List.disjoint_of_nodup_append hbelow hmem)))
    exact hagree.noted_last h.start.typesAscending
  have hnamed₀ : Scopes.Named s.store c.unit
      { w with types := w.types.insert receiver.id .classObject }.scopes := hnamed
  obtain ⟨hall, htyped, hnamed'⟩ := Derivable.arguments hstill hargs hbody hnamed₀
    (List.nodup_append.mp hbelow).2.1 (fun node hnode => (hagreesParts node hnode).before
      (hsame node (List.mem_append_right _ hnode))) hgiven hblock
  obtain ⟨_, hanswers⟩ := hT.answersClass hstill hover hcalled hty hcall
  rw [hcall.keeps (p := Walk.scopes) (keepsScopes.callOnClass _ _)]
  have hkind' : T.env.receiverKind receiver = .ofClass ref := by rw [hT.env]; exact hkind
  have hwritten : T.env.classes.typeOf ref = .ok ty := by rw [hT.env]; exact hty
  exact ⟨.callClass hname hkind' hwritten hnoted hall htyped hanswers, hnamed'⟩

theorem Derivable.callNative {receiver : Expr} {name : String} {parens : Bool} {library : Library}
    (hname : name ≠ "ptr") (hkind : c.env.receiverKind receiver = .ofLibrary library) :
    Derivable T c s (.call m (some receiver) name args block parens) := by
  intro w w' t hnamed hnodup h hagrees _
  obtain ⟨f, given, w₁, w₂, hf, hgivenTypes, hgiven, hblock, hcall⟩ :=
    h.parts_callNative hstill hname hkind
  obtain ⟨verdict, w₃, hfits, rfl, houts, rfl⟩ := hcall.of_callNative
  have hparams : ∀ pair ∈ args.zip f.params, pair.2.ty.Over Proper := fun pair hpair =>
    ((hstill.libraries library (Env.receiverKind_ofLibrary hkind) f
      (List.mem_of_find?_eq_some hf)).1 pair.2 (List.of_mem_zip hpair).2).proper.isOver
  rw [Expr.map_id_nodes, Expr.ids_call] at hnodup
  rw [Expr.ids_call] at hagrees
  obtain ⟨hown, hbelow⟩ := List.nodup_cons.mp hnodup
  obtain ⟨hagreesReceiver, hagreesParts⟩ := List.forall_mem_append.mp hagrees
  -- the call itself notes nothing for the nodes below it
  have hsame : ∀ node ∈ receiver.nodes.map Expr.id ++ Expr.ids (args ++ Block.bodyOf block),
      (w₃.noted m.id
        ⟨none, .native library.name f.name, given.map NativeArg.ty, f.ret⟩).found node =
        w₃.found node := fun node hnode => Walk.found_noted (by
      rw [houts.keeps (p := Walk.calls) (NotesNoCall.assignOuts _)]
      exact houts.start.callsAscending) fun heq => by
        subst heq
        exact hown hnode
  have hparts := (List.nodup_append.mp hbelow).2.1
  rw [Expr.ids_append] at hbelow hparts hsame hagreesParts
  have hagreesParts' : ∀ node ∈ Expr.ids args ++ Expr.ids (Block.bodyOf block),
      T.AgreesAt w₃ node := fun node hnode =>
    (hagreesParts node hnode).before (hsame node (List.mem_append_right _ hnode))
  have hnoted : T.noted receiver.id = some .classObject := by
    have hmem : receiver.id ∈ receiver.nodes.map Expr.id :=
      List.mem_map.mpr ⟨receiver, receiver.mem_nodes_self, rfl⟩
    obtain ⟨hnotArgs, hnotBlock⟩ := not_or.mp fun hor =>
      List.disjoint_of_nodup_append hbelow hmem (List.mem_append.mpr hor)
    have hagree := (hagreesReceiver receiver.id hmem).before
      ((hsame receiver.id (List.mem_append_left _ hmem)).trans
        ((houts.found_assignOuts hstill hparams fun hfilled => hnotArgs hfilled.mem_ids).trans
          ((hblock.found_inferBlock hstill hnotBlock).trans
            (hgiven.found_inferNativeArgs hstill hnotArgs))))
    exact hagree.noted_last h.start.typesAscending
  have hnamed₀ : Scopes.Named s.store c.unit
      { w with types := w.types.insert receiver.id .classObject }.scopes := hnamed
  obtain ⟨hall, hnamed₁⟩ := Derivable.nativeArgs hT hstill hargs hnamed₀
    (List.nodup_append.mp hparts).1 (fun node hnode hkept =>
      (hagreesParts' node (List.mem_append_left _ hnode)).before
        ((houts.found_assignOuts hstill hparams hkept).trans
          (hblock.found_inferBlock hstill (List.disjoint_of_nodup_append hparts hnode)))) hgiven
  obtain ⟨htyped, hscopes, hnamed₂⟩ := Derivable.block hstill hbody hnamed₁
    (List.nodup_append.mp hparts).2.1 (fun node hnode =>
      (hagreesParts' node (List.mem_append_right _ hnode)).before
        (houts.found_assignOuts hstill hparams fun hfilled =>
          List.disjoint_of_nodup_append hparts hfilled.mem_ids hnode)) hblock
  obtain ⟨hfills, hnamed₃⟩ := Derivable.fills hT hstill hnamed₂ hparams
    (nodup_zip_ids (List.nodup_append.mp hparts).1 _)
    (fun node hfilled => hagreesParts' node (List.mem_append_left _ hfilled.mem_ids)) houts
  rw [hscopes] at hfills
  have hkind' : T.env.receiverKind receiver = .ofLibrary library := by rw [hT.env]; exact hkind
  have hfits' : f.check T.env.hierarchy library.name given = .ok verdict := by
    rw [hT.env]
    exact hfits
  exact ⟨.callNative hname hkind' hnoted hf hall htyped hfits' hfills, hnamed₃⟩

omit hargs hbody in
theorem Derivable.pointer {receiver : Expr} {parens : Bool} :
    Derivable T c s (.call m (some receiver) "ptr" args block parens) := by
  intro w w' t hnamed hnodup h hagrees _
  rw [Checking.infer, if_pos rfl] at h
  obtain ⟨hgiven, hnone, hscopes, target, p, element, hvariable, hplace, hreads, rfl, hfound⟩ :=
    hT.of_takePointer hstill hnamed h
  cases List.eq_nil_of_length_eq_zero hgiven
  cases Option.isNone_iff_eq_none.mp (Option.isSome_eq_false_iff.mp hnone)
  have hagree := hagrees receiver.id (by
    rw [Expr.ids_call]
    exact List.mem_append_left _ (List.mem_map.mpr ⟨receiver, receiver.mem_nodes_self, rfl⟩))
  rw [hscopes]
  exact ⟨.pointer hvariable hplace hreads (hagree.1.symm.trans hfound), hnamed⟩

/-- A call is derivable when its parts are. -/
theorem Derivable.call {receiver : Option Expr} {name : String} {parens : Bool}
    (hreceiver : ∀ e ∈ receiver, Derivable T c s e) :
    Derivable T c s (.call m receiver name args block parens) := by
  cases receiver with
  | none => exact Derivable.callSelf hT hstill hargs hbody
  | some receiver =>
    by_cases hname : name = "ptr"
    · rw [hname]
      exact Derivable.pointer hT hstill
    · cases hkind : c.env.receiverKind receiver with
      | value =>
        exact Derivable.callValue hT hstill hargs hbody hname hkind (hreceiver receiver rfl)
      | ofClass ref => exact Derivable.callClass hT hstill hargs hbody hname hkind
      | ofLibrary library => exact Derivable.callNative hT hstill hargs hbody hname hkind

end

/-! ### Names -/

/-- A name is read where it is visible and is called otherwise. -/
theorem Derivable.ident {name : String} : Derivable T c s (.ident m name) := by
  intro w w' t hnamed _ h _ hcalled
  rcases h.parts_ident with ⟨i, hi, hread⟩ | ⟨hi, hself⟩
  · obtain ⟨p, hplace, hid⟩ := hT.exists_place hnamed hi
    obtain ⟨hreads, _, rfl⟩ := hT.reads hstill hid hread
    exact ⟨.localVar hplace hreads, hnamed⟩
  · have hnone : ∀ a ∈ ([] : List Ty), a.Over Proper := List.forall_mem_nil _
    obtain ⟨_, hanswers⟩ := hT.answersSelf hstill hnone hcalled hself
    obtain ⟨call, hcall⟩ := List.exists_mem_of_ne_nil _ (hself.noted_of_callOnSelf hstill)
    rw [hself.keeps (p := Walk.scopes) (keepsScopes.callOnSelf _)]
    exact ⟨.name (hnamed.lookup_eq_none hi) ⟨call, hcalled call hcall⟩ hanswers, hnamed⟩

/-! ### All expressions -/

theorem Derivable.of_children {e : Expr} (he : ∀ child ∈ e.children, Derivable T c s child) :
    Derivable T c s e := by
  cases e with
  | literal m value =>
    intro w w' t hnamed _ h _ _
    rw [Checking.infer] at h
    obtain ⟨rfl, rfl⟩ := h.of_pure
    exact ⟨.literal, hnamed⟩
  | ident m name => exact Derivable.ident hT hstill
  | ivar m name =>
    intro w w' t hnamed _ h _ _
    rw [Checking.infer] at h
    obtain ⟨p, hplace, hreads, rfl⟩ := hT.of_readIvar hstill h
    exact ⟨.ivar hplace hreads, hnamed⟩
  | out m target =>
    intro w w' t hnamed _ h _ _
    rw [Checking.infer] at h
    obtain ⟨p, hplace, hreads, rfl⟩ := hT.of_outType hstill hnamed h
    exact ⟨.out hplace hreads, hnamed⟩
  | path m ref =>
    intro w w' t hnamed _ h _ _
    rw [Checking.infer] at h
    cases hty : c.env.classes.typeOf ref with
    | error d =>
      rw [hty] at h
      exact absurd h Frozen.not_fail
    | ok ty =>
      rw [hty] at h
      obtain ⟨rfl, rfl⟩ := h.of_pure
      have hwritten : T.env.classes.typeOf ref = .ok ty := by rw [hT.env]; exact hty
      exact ⟨.path hwritten, hnamed⟩
  | control m keyword =>
    intro w w' t hnamed _ h _ _
    rw [Checking.infer] at h
    obtain ⟨hdepth, rfl, rfl⟩ := h.of_loopControl
    have hinside : w'.inLoop = true := decide_eq_true (Nat.pos_of_ne_zero hdepth)
    rw [hinside]
    exact ⟨.control, hnamed⟩
  | assign m target value => exact Derivable.assign hT hstill (he value List.mem_cons_self)
  | opAssign m target op value => exact Derivable.opAssign hT hstill (he value List.mem_cons_self)
  | connect m op lhs rhs =>
    exact Derivable.connect hstill (he lhs List.mem_cons_self)
      (he rhs (List.mem_cons_of_mem _ List.mem_cons_self))
  | ite m cond thenBody elseBody =>
    obtain ⟨hcond, hbodies⟩ := List.forall_mem_cons.mp he
    obtain ⟨hthen, helse⟩ := List.forall_mem_append.mp hbodies
    exact Derivable.ite hstill hcond hthen helse
  | loop m cond body =>
    obtain ⟨hcond, hbody⟩ := List.forall_mem_cons.mp he
    exact Derivable.loop hstill hcond hbody
  | call m receiver name args block parens =>
    obtain ⟨hparts, hbody⟩ := List.forall_mem_append.mp he
    obtain ⟨hreceiver, hargs⟩ := List.forall_mem_append.mp hparts
    exact Derivable.call hT hstill hargs hbody fun e hmem =>
      hreceiver e (Option.mem_toList.mpr hmem)

/-- The check of an expression gives a type that the rules derive. -/
theorem derivable (e : Expr) : Derivable T c s e := by
  refine Derivable.of_children hT hstill fun child hchild => ?_
  have hlt := Expr.size_lt_of_mem_children hchild
  exact derivable child
termination_by e.size

/-! ### Units -/

omit hT in
theorem Frozen.found_bindParams {site : Location} {args : List Ty} {params : List Param} {u : Unit}
    (hargs : ∀ a ∈ args, a.Over Proper) (h : Frozen s (c.bindParams site args params) w u w')
    {node : NodeId} (hnode : node ∉ Expr.ids (params.flatMap Param.exprs)) :
    w'.found node = w.found node :=
  h.found_of_speaks hstill (fun ids hes => (hstill.lockstep (.only ids)).bindParams
    (fun _ _ => trivial) hes (SameType.forall₂_iff.mpr ⟨rfl, hargs⟩)) hnode

/-- The parameters of a method are declared one after the other. -/
theorem types_bindParams {site : Location} {args : List Ty} {params : List Param}
    (hargs : ∀ a ∈ args, a.Over Proper) (hnamed : w.scopes.Named s.store c.unit)
    (hout : w.inLoop = false) (hnodup : (Expr.ids (params.flatMap Param.exprs)).Nodup)
    (hagrees : ∀ node ∈ Expr.ids (params.flatMap Param.exprs), T.AgreesAt w' node)
    (h : Frozen s (c.bindParams site args params) w () w') :
    T.Params w.scopes.outline args params w'.scopes.outline ∧ w'.scopes.Named s.store c.unit := by
  induction params generalizing w args with
  | nil =>
    unfold Checking.bindParams at h
    obtain ⟨_, rfl⟩ := h.of_pure
    exact ⟨.nil, hnamed⟩
  | cons p ps ih =>
    obtain ⟨t, i, w₁, w₂, w₃, ht, _, hgiven, hbind, hassign, hothers⟩ :=
      h.parts_bindParams hstill hargs
    have htail : ∀ a ∈ args.tail, a.Over Proper := fun a ha => hargs a (List.mem_of_mem_tail ha)
    obtain ⟨hfind, rfl⟩ := hbind.of_bindLocal
    obtain ⟨htakes, rfl⟩ := hT.takes hstill ((Engine.idAt_local hT.unit _ _).trans hfind) ht hassign
    rw [List.flatMap_cons, Expr.ids_append] at hnodup hagrees
    obtain ⟨hagreesDefault, hagreesRest⟩ := List.forall_mem_append.mp hagrees
    -- what comes after the default value notes nothing for it
    have hsame : ∀ node ∈ Expr.ids p.exprs, w'.found node = w₁.found node := fun node hnode =>
      hothers.found_bindParams hstill htail (List.disjoint_of_nodup_append hnodup hnode)
    have hrest : ∀ {w₁ : Walk}, w₁.scopes.Named s.store c.unit → w₁.inLoop = false →
        s.store.find (.local c.unit w₁.scopes.owner p.name) = some i →
        Frozen s (c.bindParams site args.tail ps)
          { w₁ with scopes := w₁.scopes.declare p.name i } () w' →
        T.Params (w₁.scopes.outline.declare p.name) args.tail ps w'.scopes.outline ∧
          w'.scopes.Named s.store c.unit := by
      intro w₁ hnamed₁ hout₁ hfind hothers
      rw [← Scopes.outline_declare w₁.scopes p.name i]
      exact ih (w := { w₁ with scopes := w₁.scopes.declare p.name i }) htail
        (hnamed₁.declare hfind) hout₁ (List.nodup_append.mp hnodup).2.1 hagreesRest hothers
    rw [← Scopes.owner_outline] at htakes
    cases hgiven with
    | argument =>
      obtain ⟨hparams, hnamed'⟩ := hrest hnamed hout hfind hothers
      exact ⟨.given htakes hparams, hnamed'⟩
    | missing hdefault =>
      obtain ⟨hparams, hnamed'⟩ := hrest hnamed hout hfind hothers
      exact ⟨.missing hdefault hparams, hnamed'⟩
    | @default value t w w₁ hdefault hvalue =>
      have hexprs : Expr.ids p.exprs = value.nodes.map Expr.id := by
        rw [Param.exprs, hdefault]
        exact Expr.ids_singleton value
      rw [hexprs] at hnodup hagreesDefault hsame
      obtain ⟨htyped, hnoted, hnamed₁⟩ := (derivable hT hstill value).typed hstill hnamed
        (List.nodup_append.mp hnodup).1
        (fun node hnode => (hagreesDefault node hnode).before (hsame node hnode)) hvalue
      obtain ⟨hparams, hnamed'⟩ :=
        hrest hnamed₁ (hvalue.inLoop_typed.trans hout) hfind hothers
      rw [hout] at htyped
      exact ⟨.default hdefault htyped hnoted htakes hparams, hnamed'⟩

/-- The check of a unit gives a type that the rules derive. -/
theorem types_unitBody {t : Ty} (hargs : ∀ key, T.key = some key → ∀ a ∈ key.args, a.Over Proper)
    (hnodup : (Expr.ids (c.env.exprsOf T.key)).Nodup)
    (hagrees : ∀ node ∈ Expr.ids (c.env.exprsOf T.key), T.AgreesAt w' node)
    (h : Frozen s (c.unitBody T.key) .start t w') : T.TypesUnit t := by
  have hnil : Over Proper .nil := (Ty.proper_plain "Nil").isOver
  have hderivable : ∀ es : List Expr, ∀ e ∈ es, Derivable T c s e := fun _ e _ =>
    derivable hT hstill e
  have hunit := hT.unit
  unfold Typing.TypesUnit
  revert hargs hnodup hagrees h hunit
  cases T.key with
  | none =>
    intro _ hnodup hagrees h _
    obtain ⟨ts, hall, ht, _⟩ := Derivable.body hstill (hderivable _) .empty hnodup hnil hagrees h
    simp only [hT.env]
    exact ⟨ts, _, hall, ht⟩
  | some key =>
    intro hargs hnodup hagrees h hunit
    unfold Checking.unitBody at h
    simp only [hT.env] at h ⊢
    cases hm : c.env.methods.get? key.method with
    | none => trivial
    | some m =>
      rw [hm] at h
      have hexprs : c.env.exprsOf (some key) = m.definition.exprs := by
        rw [Env.exprsOf, hm]
        rfl
      rw [hexprs, Def.exprs, Expr.ids_append] at hnodup hagrees
      obtain ⟨hagreesParams, hagreesBody⟩ := List.forall_mem_append.mp hagrees
      obtain ⟨i, w₁, w₂, ht, hfind, hparams, hbody, hassign⟩ :=
        h.parts_methodBody hstill (hargs key rfl)
      obtain ⟨htakes, rfl⟩ := hT.takes hstill ((Engine.idAt_returned hunit).trans hfind) ht hassign
      obtain ⟨hgiven, hnamed₁⟩ := types_bindParams hT hstill (hargs key rfl) .empty rfl
        (List.nodup_append.mp hnodup).1 (fun node hnode => (hagreesParams node hnode).before
          (hbody.found_inferBody hstill (List.disjoint_of_nodup_append hnodup hnode) hnil)) hparams
      obtain ⟨ts, hall, hlast, _⟩ := Derivable.body hstill (hderivable _) hnamed₁
        (List.nodup_append.mp hnodup).2.1 hnil hagreesBody hbody
      rw [hparams.inLoop_eq (c.loopDepth_bindParams _ _ _)] at hall
      exact ⟨_, ts, _, hgiven, hall, hlast, htakes⟩

end

end UnionTyping
