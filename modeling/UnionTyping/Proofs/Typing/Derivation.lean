/-
  UnionTyping/Proofs/Typing/Derivation.lean
  =========================================
  **The last check of a unit is a typing derivation.**

  When the check of an expression is frozen, its type is derived by the rules, in the
  context of the state and with the types that the check notes (`derivable`).  The
  induction is on the size of the expression.  What is noted for the nodes of one part is
  not touched by the other parts, since nodes have numbers of their own; so the notes at
  the end of the check are those at the end of each part.
-/
import UnionTyping.Proofs.Inference.LoopDepth
import UnionTyping.Proofs.Inference.Reached
import UnionTyping.Proofs.Typing.CallRules

namespace UnionTyping

open Ty (Over Proper)

/-- What is true of several types is true of the last one. -/
theorem Ty.of_getLastD {P : Ty → Prop} {ts : List Ty} {last : Ty} (hlast : P last)
    (h : ∀ t ∈ ts, P t) : P (ts.getLastD last) :=
  List.forall_mem_cons.mpr ⟨hlast, h⟩ _ List.getLastD_mem_cons

/-! ### Names that become visible -/

namespace Typing

variable {T : Typing}

theorem grows_assigned {sc sc' : Outline} {target : Target} {p : Place}
    (h : T.assigned? sc target = some (p, sc')) : sc.Grows sc' := by
  cases target with
  | «local» name =>
    rw [assigned?] at h
    split at h
    · cases h
      exact .refl sc
    · cases h
      exact .declare sc name
  | ivar name =>
    obtain ⟨p', _, hp⟩ := Option.map_eq_some_iff.mp h
    cases hp
    exact .refl sc

theorem Fills.grows {sc sc' : Outline} {pairs : List (Expr × NativeParam)}
    (h : T.Fills sc pairs sc') : sc.Grows sc' := by
  induction h with
  | done => exact .refl _
  | fill _ place _ _ _ ih => exact (grows_assigned place).trans ih
  | skip _ _ ih => exact ih

mutual

/-- An expression makes names visible in the innermost frame, and it hides none. -/
theorem Types.grows {inLoop : Bool} {sc sc' : Outline} {e : Expr} {t : Ty} :
    T.Types inLoop sc e t sc' → sc.Grows sc'
  | .literal | .localVar _ _ | .name _ _ _ | .ivar _ _ | .out _ _ | .path _ | .control
  | .pointer _ _ _ _ => .refl _
  | .assign typed _ place _ => typed.grows.trans (grows_assigned place)
  | .opAssign _ _ typed _ _ _ => typed.grows
  | .connect left _ right _ => left.grows.trans right.grows
  | .ite typed _ typedThen typedElse => typed.grows.trans (typedThen.grows.trans typedElse.grows)
  | .loop typed _ typedBody => typed.grows.trans typedBody.grows
  | .callSelf typedArgs _ _ => typedArgs.grows
  | .callClass _ _ _ _ typedArgs _ _ => typedArgs.grows
  | .callNative _ _ _ _ typedArgs _ _ fills => typedArgs.grows.trans fills.grows
  | .callValue _ _ typed _ typedArgs _ _ => typed.grows.trans typedArgs.grows

theorem TypesAll.grows {inLoop : Bool} {sc sc' : Outline} {es : List Expr} {ts : List Ty} :
    T.TypesAll inLoop sc es ts sc' → sc.Grows sc'
  | .nil => .refl _
  | .cons head _ tail => head.grows.trans tail.grows

theorem TypesNative.grows {inLoop : Bool} {sc sc' : Outline} {params : List NativeParam}
    {es : List Expr} {given : List NativeArg} :
    T.TypesNative inLoop sc params es given sc' → sc.Grows sc'
  | .nil => .refl _
  | .out _ _ _ tail => tail.grows
  | .value _ head _ tail => head.grows.trans tail.grows

end

end Typing

/-! ### Notes -/

def Typing.AgreesAt (T : Typing) (w : Walk) (node : NodeId) : Prop :=
  w.types.find? node = T.noted node ∧ ∀ call ∈ w.callsAt node, T.called node call

theorem Typing.AgreesAt.before {T : Typing} {w w' : Walk} {node : NodeId} (h : T.AgreesAt w' node)
    (hsame : w'.found node = w.found node) : T.AgreesAt w node := by
  have htypes : w'.types.find? node = w.types.find? node := congrArg Prod.fst hsame
  have hcalls : w'.calls.find? node = w.calls.find? node := congrArg Prod.snd hsame
  rw [AgreesAt, htypes, Walk.callsAt, hcalls] at h
  exact h

/-- The type that was noted last for a node is the one in the typing. -/
theorem Typing.AgreesAt.noted_last {T : Typing} {w : Walk} {node : NodeId} {ty : Ty}
    (h : T.AgreesAt { w with types := w.types.insert node ty } node) (hw : w.types.Ascending) :
    T.noted node = some ty := by
  have htypes := h.1
  rw [NodeMap.find?_insert hw, if_pos rfl] at htypes
  exact htypes.symm

variable {T : Typing} {c : Checking} {s : Engine} {w w₁ w' : Walk}

namespace Frozen

/-- What a frozen step finds out is about the nodes that it goes through. -/
theorem found_of_speaks (hstill : Still c s) {α : Type} {x : WalkM α} {a : α} {es : List Expr}
    {Q : Nat → α → α → Prop}
    (hx : ∀ ids : NodeId → Prop, (Vocabulary.only ids).speaks (Expr.nodesOf es) →
      c.Keeps (.only ids) s.store.bindings.length Q x x)
    (h : Frozen s x w a w') {node : NodeId} (hnode : node ∉ Expr.ids es) :
    w'.found node = w.found node :=
  h.untouched hstill
    (hx (· ∈ Expr.ids es) (Vocabulary.speaks_only fun _ hn => Expr.mem_ids_of_mem hn)) hnode

section

variable (hstill : Still c s) {es : List Expr} {node : NodeId}
  (hnode : node ∉ Expr.ids es)
include hstill hnode

theorem found_inferBody {last t : Ty} (hlast : last.Over Proper)
    (h : Frozen s (c.inferBody last es) w t w') : w'.found node = w.found node :=
  h.found_of_speaks hstill
    (fun ids hes => (hstill.lockstep (.only ids)).inferBody es hes _ (.self hlast)) hnode

theorem found_bodyInLoop {t : Ty} (h : Frozen s (Checking.inLoop (c.inferBody .nil es)) w t w') :
    w'.found node = w.found node := by
  obtain ⟨w₁, hbody, rfl⟩ := h.of_inLoop
  have hsame : w₁.found node = Walk.found { w with loopDepth := w.loopDepth + 1 } node :=
    hbody.found_inferBody hstill hnode (Ty.proper_plain "Nil").isOver
  exact hsame

theorem found_inferArgs {ts : List Ty} (h : Frozen s (c.inferArgs es) w ts w') :
    w'.found node = w.found node :=
  h.found_of_speaks hstill
    (fun ids hes => (hstill.lockstep (.only ids)).inferArgs es hes _) hnode

theorem found_inferNativeArgs {given : List NativeArg}
    (h : Frozen s (c.inferNativeArgs es) w given w') : w'.found node = w.found node :=
  h.found_of_speaks hstill
    (fun ids hes => (hstill.lockstep (.only ids)).inferNativeArgs es hes _) hnode

omit hnode in
theorem found_inferBlock {call : NodeId} {block : Option Block} {u : Unit}
    (h : Frozen s (c.inferBlock call block) w u w') (hnode : node ∉ Expr.ids (Block.bodyOf block)) :
    w'.found node = w.found node :=
  h.found_of_speaks hstill (fun ids hes => (hstill.lockstep (.only ids)).inferBlock block hes _
    fun _ _ _ => ⟨trivial, fun _ _ => trivial⟩) hnode

end

end Frozen

/-! ### Parts of an expression -/

def Walk.inLoop (w : Walk) : Bool := decide (0 < w.loopDepth)

theorem Walk.inLoop_raised (w : Walk) :
    inLoop { w with loopDepth := w.loopDepth + 1 } = true :=
  decide_eq_true (Nat.succ_pos _)

theorem Frozen.inLoop_eq {α : Type} {x : WalkM α} {a : α} (h : Frozen s x w a w')
    (hx : Leaves Walk.loopDepth x) : w'.inLoop = w.inLoop :=
  congrArg (fun depth => decide (0 < depth)) (h.keeps hx)

theorem Frozen.inLoop_inferBody {es : List Expr} {last t : Ty}
    (h : Frozen s (c.inferBody last es) w t w') : w'.inLoop = w.inLoop :=
  h.inLoop_eq (c.loopDepth_inferBody last es)

theorem Frozen.inLoop_typed {e : Expr} {t : Ty}
    (h : Frozen s (Checking.typed e.id (c.infer e)) w t w') : w'.inLoop = w.inLoop :=
  h.inLoop_eq (c.loopDepth_typed e)

/-- Whenever the check of the expression is frozen, and what it notes is what the typing
    notes, its type is derived. -/
def Derivable (T : Typing) (c : Checking) (s : Engine) (e : Expr) : Prop :=
  ∀ (w w' : Walk) (t : Ty), w.scopes.Named s.store c.unit →
    (e.nodes.map Expr.id).Nodup → Frozen s (c.infer e) w t w' →
    (∀ node ∈ Expr.ids e.children, T.AgreesAt w' node) →
    (∀ call ∈ w'.callsAt e.id, T.called e.id call) →
    T.Types w.inLoop w.scopes.outline e t w'.scopes.outline ∧ w'.scopes.Named s.store c.unit

/-- An expression whose type is noted. -/
theorem Derivable.typed (hstill : Still c s) {e : Expr} (he : Derivable T c s e)
    {t : Ty} (hnamed : w.scopes.Named s.store c.unit) (hnodup : (e.nodes.map Expr.id).Nodup)
    (hagrees : ∀ node ∈ e.nodes.map Expr.id, T.AgreesAt w' node)
    (h : Frozen s (Checking.typed e.id (c.infer e)) w t w') :
    T.Types w.inLoop w.scopes.outline e t w'.scopes.outline ∧ T.noted e.id = some t ∧
      w'.scopes.Named s.store c.unit := by
  obtain ⟨w₀, hinfer, rfl⟩ := h.of_typed
  have hascending := hinfer.ascending hstill
  rw [Expr.map_id_nodes] at hagrees
  obtain ⟨hself, hbelow⟩ := List.forall_mem_cons.mp hagrees
  obtain ⟨htyped, hnamed'⟩ := he w w₀ t hnamed hnodup hinfer
    (fun node hnode => (hbelow node hnode).before (Walk.found_insert hascending fun heq => by
      rw [Expr.map_id_nodes] at hnodup
      exact (List.nodup_cons.mp hnodup).1 (heq ▸ hnode)))
    hself.2
  refine ⟨htyped, ?_, hnamed'⟩
  have hnoted := hself.1
  rw [NodeMap.find?_insert hascending, if_pos rfl] at hnoted
  exact hnoted.symm

section

variable (hstill : Still c s) {es : List Expr}
  (hes : ∀ e ∈ es, Derivable T c s e)
  (hnamed : w.scopes.Named s.store c.unit) (hnodup : (Expr.ids es).Nodup)
include hstill hes hnamed hnodup

theorem Derivable.body {last t : Ty} (hlast : last.Over Proper)
    (hagrees : ∀ node ∈ Expr.ids es, T.AgreesAt w' node)
    (h : Frozen s (c.inferBody last es) w t w') :
    ∃ ts, T.TypesAll w.inLoop w.scopes.outline es ts w'.scopes.outline ∧ t = ts.getLastD last ∧
      w'.scopes.Named s.store c.unit := by
  induction es generalizing w last with
  | nil =>
    rw [Checking.inferBody] at h
    obtain ⟨rfl, rfl⟩ := h.of_pure
    exact ⟨[], .nil, rfl, hnamed⟩
  | cons e es ih =>
    obtain ⟨u, w₁, hu, hfirst, hrun⟩ := h.parts_inferBody hstill
    obtain ⟨he, hes⟩ := List.forall_mem_cons.mp hes
    rw [Expr.ids_cons] at hnodup hagrees
    obtain ⟨hagreesHead, hagreesTail⟩ := List.forall_mem_append.mp hagrees
    obtain ⟨htyped, hnoted, hnamed₁⟩ := he.typed hstill hnamed (List.nodup_append.mp hnodup).1
      (fun node hnode => (hagreesHead node hnode).before
        (hrun.found_inferBody hstill (List.disjoint_of_nodup_append hnodup hnode) hu)) hfirst
    obtain ⟨ts, hall, rfl, hnamed'⟩ :=
      ih hes hnamed₁ (List.nodup_append.mp hnodup).2.1 hu hagreesTail hrun
    rw [hfirst.inLoop_typed] at hall
    exact ⟨u :: ts, .cons htyped hnoted hall, (List.getLastD_cons ..).symm, hnamed'⟩

/-- The body of a loop or a block. -/
theorem Derivable.bodyInLoop {t : Ty} (hagrees : ∀ node ∈ Expr.ids es, T.AgreesAt w' node)
    (h : Frozen s (Checking.inLoop (c.inferBody .nil es)) w t w') :
    ∃ ts, T.TypesAll true w.scopes.outline es ts w'.scopes.outline ∧
      w'.scopes.Named s.store c.unit := by
  obtain ⟨w₁, hbody, rfl⟩ := h.of_inLoop
  have hagrees₁ : ∀ node ∈ Expr.ids es, T.AgreesAt w₁ node := hagrees
  obtain ⟨ts, hall, _, hnamed'⟩ := Derivable.body (w := { w with loopDepth := w.loopDepth + 1 })
    hstill hes hnamed hnodup (Ty.proper_plain "Nil").isOver hagrees₁ hbody
  rw [Walk.inLoop_raised] at hall
  exact ⟨ts, hall, hnamed'⟩

theorem Derivable.args {ts : List Ty} (hagrees : ∀ node ∈ Expr.ids es, T.AgreesAt w' node)
    (h : Frozen s (c.inferArgs es) w ts w') :
    T.TypesAll w.inLoop w.scopes.outline es ts w'.scopes.outline ∧
      w'.scopes.Named s.store c.unit := by
  induction es generalizing w ts with
  | nil =>
    rw [Checking.inferArgs] at h
    obtain ⟨rfl, rfl⟩ := h.of_pure
    exact ⟨.nil, hnamed⟩
  | cons e es ih =>
    obtain ⟨u, us, w₁, rfl, _, hfirst, hothers⟩ := h.parts_inferArgs hstill
    obtain ⟨he, hes⟩ := List.forall_mem_cons.mp hes
    rw [Expr.ids_cons] at hnodup hagrees
    obtain ⟨hagreesHead, hagreesTail⟩ := List.forall_mem_append.mp hagrees
    obtain ⟨htyped, hnoted, hnamed₁⟩ := he.typed hstill hnamed (List.nodup_append.mp hnodup).1
      (fun node hnode => (hagreesHead node hnode).before
        (hothers.found_inferArgs hstill (List.disjoint_of_nodup_append hnodup hnode))) hfirst
    obtain ⟨hall, hnamed'⟩ :=
      ih hes hnamed₁ (List.nodup_append.mp hnodup).2.1 hagreesTail hothers
    rw [hfirst.inLoop_typed] at hall
    exact ⟨.cons htyped hnoted hall, hnamed'⟩

end

/-! ### Blocks -/

theorem Frozen.of_bindLocals {names : List String} {u : Unit}
    (hstill : Still c s) (hnamed : w.scopes.Named s.store c.unit)
    (h : Frozen s (c.bindLocals names) w u w') :
    w'.scopes.outline = w.scopes.outline.declareAll names ∧ w'.scopes.Named s.store c.unit := by
  have L := hstill.lockstep .full
  induction names generalizing w with
  | nil =>
    obtain ⟨_, rfl⟩ := h.of_pure
    exact ⟨rfl, hnamed⟩
  | cons name names ih =>
    obtain ⟨i, w₁, _, hbind, hrun⟩ := h.bind hstill (L.bindLocal trivial) fun _ _ _ _ _ =>
      L.bindLocals fun _ _ => trivial
    obtain ⟨hfind, rfl⟩ := hbind.of_bindLocal
    obtain ⟨houtline, hnamed'⟩ := ih (hnamed.declare hfind) hrun
    rw [Scopes.outline_declare] at houtline
    exact ⟨houtline, hnamed'⟩

theorem Derivable.block (hstill : Still c s) {call : NodeId} {block : Option Block} {u : Unit}
    (hbody : ∀ e ∈ Block.bodyOf block, Derivable T c s e) (hnamed : w.scopes.Named s.store c.unit)
    (hnodup : (Expr.ids (Block.bodyOf block)).Nodup)
    (hagrees : ∀ node ∈ Expr.ids (Block.bodyOf block), T.AgreesAt w' node)
    (h : Frozen s (c.inferBlock call block) w u w') :
    T.TypesBlock call w.scopes.outline block ∧ w'.scopes.outline = w.scopes.outline ∧
      w'.scopes.Named s.store c.unit := by
  match block with
  | none =>
    rw [Checking.inferBlock] at h
    obtain ⟨_, rfl⟩ := h.of_pure
    exact ⟨.none, rfl, hnamed⟩
  | some (.mk params body) =>
    obtain ⟨t, w₁, w₂, hlocals, hrun, rfl⟩ := h.parts_inferBlock hstill
    obtain ⟨hopened, hnamed₁⟩ := hlocals.of_bindLocals hstill (hnamed.enter (.block call))
    have hsteps : ∀ e ∈ body, Derivable T c s e := hbody
    have hnoted : ∀ node ∈ Expr.ids body, T.AgreesAt w₂ node := hagrees
    obtain ⟨ts, hall, hnamed₂⟩ :=
      Derivable.bodyInLoop hstill hsteps hnamed₁ hnodup hnoted hrun
    rw [hopened, Scopes.outline_enter] at hall
    refine ⟨.some hall, ?_, hnamed₂.leave⟩
    rw [Scopes.outline_leave]
    exact hall.grows.leave_eq ⟨params, rfl⟩

/-! ### Native calls -/

def FilledBy (pairs : List (Expr × NativeParam)) (node : NodeId) : Prop :=
  ∃ m target param, (.out m target, param) ∈ pairs ∧ param.mode = .out ∧ node = m.id

theorem FilledBy.mem_ids {args : List Expr} {params : List NativeParam} {node : NodeId}
    (h : FilledBy (args.zip params) node) : node ∈ Expr.ids args := by
  obtain ⟨m, target, param, hmem, _, rfl⟩ := h
  exact Expr.mem_ids_of_mem (n := .out m target) (Expr.mem_nodesOf (List.of_mem_zip hmem).1)

theorem FilledBy.cons {pairs : List (Expr × NativeParam)} {node : NodeId} (h : FilledBy pairs node)
    (pair : Expr × NativeParam) : FilledBy (pair :: pairs) node := by
  obtain ⟨m, target, param, hmem, hmode⟩ := h
  exact ⟨m, target, param, List.mem_cons_of_mem _ hmem, hmode⟩

/-- What is assigned is the first argument, if it is an `out` argument and its parameter is
    one, or among the others. -/
theorem filledBy_zip_cons {e : Expr} {es : List Expr} {params : List NativeParam} {node : NodeId} :
    FilledBy ((e :: es).zip params) node ↔
      (∃ m target param, e = .out m target ∧ params.head? = some param ∧ param.mode = .out ∧
        node = m.id) ∨ FilledBy (es.zip params.tail) node := by
  cases params with
  | nil => simp [FilledBy]
  | cons p ps =>
    constructor
    · rintro ⟨m, target, param, hmem, hmode, rfl⟩
      rcases List.mem_cons.mp hmem with hsame | hmem
      · cases hsame
        exact .inl ⟨m, target, p, rfl, rfl, hmode, rfl⟩
      · exact .inr ⟨m, target, param, hmem, hmode, rfl⟩
    · rintro (⟨m, target, param, rfl, hhead, hmode, rfl⟩ | h)
      · cases hhead
        exact ⟨m, target, p, List.mem_cons_self, hmode, rfl⟩
      · exact h.cons (e, p)

/-- The other nodes keep what is noted for them. -/
theorem Frozen.found_assignOuts (hstill : Still c s) {pairs : List (Expr × NativeParam)} {u : Unit}
    (hparams : ∀ pair ∈ pairs, pair.2.ty.Over Proper)
    (h : Frozen s (c.assignOuts pairs) w u w') {node : NodeId} (hnode : ¬ FilledBy pairs node) :
    w'.found node = w.found node :=
  h.untouched hstill ((hstill.lockstep (.only (FilledBy pairs))).assignOuts
    (fun m target param hmem hmode => ⟨⟨m, target, param, hmem, hmode, rfl⟩, trivial⟩)
    fun p hp => .self (hparams p hp)) hnode

section

variable (hT : T.Describes c s) (hstill : Still c s)
include hT hstill

theorem Derivable.nativeArgs {es : List Expr} {params : List NativeParam}
    {given : List NativeArg} (hes : ∀ e ∈ es, Derivable T c s e)
    (hnamed : w.scopes.Named s.store c.unit) (hnodup : (Expr.ids es).Nodup)
    (hagrees : ∀ node ∈ Expr.ids es, ¬ FilledBy (es.zip params) node → T.AgreesAt w' node)
    (h : Frozen s (c.inferNativeArgs es) w given w') :
    T.TypesNative w.inLoop w.scopes.outline params es given w'.scopes.outline ∧
      w'.scopes.Named s.store c.unit := by
  induction es generalizing w given params with
  | nil =>
    rw [Checking.inferNativeArgs] at h
    obtain ⟨rfl, rfl⟩ := h.of_pure
    exact ⟨.nil, hnamed⟩
  | cons e es ih =>
    obtain ⟨t, rest, w₁, rfl, _, hfirst, hrun⟩ := h.parts_inferNativeArgs hstill
    obtain ⟨he, hothersDerivable⟩ := List.forall_mem_cons.mp hes
    rw [Expr.ids_cons] at hnodup
    have htail : (Expr.ids es).Nodup := (List.nodup_append.mp hnodup).2.1
    have hagreesTail : ∀ node ∈ Expr.ids es, ¬ FilledBy (es.zip params.tail) node →
        T.AgreesAt w' node := by
      intro node hnode hkept
      refine hagrees node (by rw [Expr.ids_cons]; exact List.mem_append_right _ hnode) ?_
      intro hfilled
      -- the node is not the first argument, since it has another number
      rcases filledBy_zip_cons.mp hfilled with ⟨m, target, _, rfl, _, _, rfl⟩ | hfilled
      · exact List.disjoint_of_nodup_append hnodup
          (List.mem_map.mpr ⟨.out m target, Expr.mem_nodes_self _, rfl⟩) hnode
      · exact hkept hfilled
    unfold Checking.inferNativeArg at hfirst
    cases htarget : e.outTarget? with
    | some target =>
      obtain ⟨m, rfl⟩ := Expr.outTarget?_eq_some htarget
      obtain ⟨w₀, hread, rfl⟩ := hfirst.of_typed
      obtain ⟨hreads, hunknown, rfl⟩ := hT.of_nativeOutType hstill hnamed hread
      have hnamed₁ : Scopes.Named s.store c.unit
          { w₀ with types := w₀.types.insert (Expr.out m target).id t }.scopes := hnamed
      obtain ⟨hall, hnamed'⟩ := ih hothersDerivable hnamed₁ htail hagreesTail hrun
      have hhead : (Expr.out m target).id ∈ (Expr.out m target).nodes.map Expr.id :=
        List.mem_map.mpr ⟨_, Expr.mem_nodes_self _, rfl⟩
      refine ⟨.out hreads hunknown (fun hmode => ?_) hall, hnamed'⟩
      have hkept : ¬ FilledBy ((Expr.out m target :: es).zip params) (Expr.out m target).id := by
        intro hfilled
        rcases filledBy_zip_cons.mp hfilled with ⟨_, _, param, _, hparam, hfill, _⟩ | hfilled
        · rw [hmode param hparam] at hfill
          cases hfill
        · exact List.disjoint_of_nodup_append hnodup hhead hfilled.mem_ids
      have hagree := hagrees (Expr.out m target).id
        (by rw [Expr.ids_cons]; exact List.mem_append_left _ hhead) hkept
      have hread' := hagree.before (hrun.found_inferNativeArgs hstill
        (List.disjoint_of_nodup_append hnodup hhead))
      exact hread'.noted_last hread.start.typesAscending
    | none =>
      rw [htarget] at hfirst
      have hkept : ∀ node ∈ e.nodes.map Expr.id, ¬ FilledBy ((e :: es).zip params) node := by
        intro node hnode hfilled
        rcases filledBy_zip_cons.mp hfilled with ⟨_, _, _, rfl, _⟩ | hfilled
        · cases htarget
        · exact List.disjoint_of_nodup_append hnodup hnode hfilled.mem_ids
      have hagreesHead : ∀ node ∈ e.nodes.map Expr.id, T.AgreesAt w₁ node := fun node hnode =>
        (hagrees node (by rw [Expr.ids_cons]; exact List.mem_append_left _ hnode)
          (hkept node hnode)).before
          (hrun.found_inferNativeArgs hstill (List.disjoint_of_nodup_append hnodup hnode))
      obtain ⟨htyped, hnoted, hnamed₁⟩ :=
        he.typed hstill hnamed (List.nodup_append.mp hnodup).1 hagreesHead hfirst
      obtain ⟨hall, hnamed'⟩ := ih hothersDerivable hnamed₁ htail hagreesTail hrun
      rw [hfirst.inLoop_typed] at hall
      exact ⟨.value htarget htyped hnoted hall, hnamed'⟩

/-- The variables that are assigned by a native function. -/
theorem Derivable.fills {pairs : List (Expr × NativeParam)} {u : Unit}
    (hnamed : w.scopes.Named s.store c.unit) (hparams : ∀ pair ∈ pairs, pair.2.ty.Over Proper)
    (hnodup : (pairs.map fun pair => pair.1.id).Nodup)
    (hagrees : ∀ node, FilledBy pairs node → T.AgreesAt w' node)
    (h : Frozen s (c.assignOuts pairs) w u w') :
    T.Fills w.scopes.outline pairs w'.scopes.outline ∧ w'.scopes.Named s.store c.unit := by
  have L := hstill.lockstep .full
  induction pairs generalizing w with
  | nil =>
    obtain ⟨_, rfl⟩ := h.of_pure
    exact ⟨.done _, hnamed⟩
  | cons pair pairs ih =>
    obtain ⟨arg, param⟩ := pair
    obtain ⟨hty, hparamsRest⟩ := List.forall_mem_cons.mp hparams
    obtain ⟨hnew, hnodupRest⟩ := List.nodup_cons.mp hnodup
    have hagreesRest : ∀ node, FilledBy pairs node → T.AgreesAt w' node := fun node hnode =>
      hagrees node (hnode.cons (arg, param))
    have hothers : ∀ n, c.Keeps .full n (fun _ _ _ => True) (c.assignOuts pairs)
        (c.assignOuts pairs) := fun n =>
      L.assignOuts (fun _ _ _ _ _ => ⟨trivial, trivial⟩) fun p hp => .self (hparamsRest p hp)
    have hnoted : ∀ m n, c.Keeps .full n (fun _ _ _ => True)
        (do Checking.noteType m param.ty; c.assignOuts pairs)
        (do Checking.noteType m param.ty; c.assignOuts pairs) := fun m n =>
      L.seq (L.noteType trivial (.self hty)) fun n' _ _ _ _ => hothers n'
    simp only [Checking.assignOuts] at h
    split at h
    · rename_i m target hmode
      obtain ⟨o, w₁, _, hbinding, h⟩ := h.bind hstill (L.bindingToAssign trivial)
        fun n o o' _ ho => by
          cases ho with
          | none => exact hnoted m.id n
          | some hij => exact L.seq (L.assign hij (.self hty)) fun n' _ _ _ _ => hnoted m.id n'
      obtain ⟨p, i, hplace, rfl, hid, hnamed₁, _⟩ := hT.of_bindingToAssign hnamed hbinding
      obtain ⟨_, w₂, _, hassign, hlast⟩ := h.bind hstill
        (L.assign ⟨rfl, Engine.lt_of_idAt hid⟩ (.self hty)) fun n _ _ _ _ => hnoted m.id n
      obtain ⟨htakes, rfl⟩ := hT.takes hstill hid hty hassign
      have hrest := hlast.of_noteType hty
      have hnamed₂ : Scopes.Named s.store c.unit
          { w₂ with types := w₂.types.insert m.id param.ty }.scopes := hnamed₁
      obtain ⟨hfills, hnamed'⟩ := ih hnamed₂ hparamsRest hnodupRest hagreesRest hrest
      refine ⟨.fill hmode hplace htakes ?_ hfills, hnamed'⟩
      -- no other argument has the number of this one
      have hkept : ¬ FilledBy pairs m.id := by
        rintro ⟨m', target', param', hmem, _, heq⟩
        exact hnew (List.mem_map.mpr ⟨(.out m' target', param'), hmem, heq.symm⟩)
      have hagree := (hagrees m.id ⟨m, target, param, List.mem_cons_self, hmode, rfl⟩).before
        (hrest.found_assignOuts hstill hparamsRest hkept)
      exact hagree.noted_last hlast.start.typesAscending
    · rename_i arg _ _ hkept
      have hrest : Frozen s (c.assignOuts pairs) w u w' := ⟨h.start, h.run, h.silent⟩
      obtain ⟨hfills, hnamed'⟩ := ih hnamed hparamsRest hnodupRest hagreesRest hrest
      refine ⟨.skip ?_ hfills, hnamed'⟩
      cases htarget : arg.outTarget? with
      | none => exact Or.inl rfl
      | some target =>
        right
        obtain ⟨m, rfl⟩ := Expr.outTarget?_eq_some htarget
        cases hmode : param.mode with
        | byValue => rfl
        | out => exact absurd hmode (hkept m target rfl)

end

theorem nodup_zip_ids {args : List Expr} (h : (Expr.ids args).Nodup) (params : List NativeParam) :
    ((args.zip params).map fun pair => pair.1.id).Nodup := by
  induction args generalizing params with
  | nil => exact List.nodup_nil
  | cons e es ih =>
    rw [Expr.ids_cons] at h
    cases params with
    | nil => exact List.nodup_nil
    | cons p ps =>
      rw [List.zip_cons_cons, List.map_cons]
      refine List.nodup_cons.mpr ⟨fun hmem => ?_, ih (List.nodup_append.mp h).2.1 ps⟩
      obtain ⟨pair, hpair, heq⟩ := List.mem_map.mp hmem
      refine List.disjoint_of_nodup_append h
        (List.mem_map.mpr ⟨e, e.mem_nodes_self, rfl⟩) ?_
      rw [← heq]
      exact Expr.mem_ids_of_mem (Expr.mem_nodesOf (List.of_mem_zip hpair).1)

end UnionTyping
