/-
  UnionTyping/Proofs/Typing/StaysBelow.lean
  =========================================
  **Checks that stay below a model: expressions and units.**

  The check of an expression goes along the derivation of its type in the model: each rule
  is about one form of expression, and what the check does there stays below the model
  (`Typing.Types.stays`).  So does the check of a unit, and with it the checks of the new
  units that it meets (`Engine.below_checkNested`).
-/
import UnionTyping.Proofs.Typing.FinalTyping
import UnionTyping.Proofs.Typing.StaysCalls

namespace UnionTyping

open Ty (Over Plain)

variable {M : Model} {key : Option Instantiation} {c : Checking} {e₀ : Engine}
    {pending : List NodeId}
  {sc sc' : Outline}

/-! ### Expressions -/

/-- The types of several expressions are noted. -/
theorem Typing.TypesAll.over_plain (hM : M.Closed) {inLoop : Bool} {sc sc' : Outline}
    {es : List Expr} {ts : List Ty} :
    (M.typing key).TypesAll inLoop sc es ts sc' → ∀ t ∈ ts, t.Over Plain
  | .nil => List.forall_mem_nil _
  | .cons _ noted tail => List.forall_mem_cons.mpr ⟨hM.noted noted, tail.over_plain hM⟩

namespace Typing

mutual

/-- The check of an expression stays below the model and gives part of the type that the
    expression has there. -/
theorem Types.stays {depth : Nat} {inLoop : Bool} {sc sc' : Outline} {e : Expr} {t : Ty}
    (hM : M.Runs key c)
    (hdepth : inLoop = true → 0 < depth) (e₀ : Engine) (pending : List NodeId) :
    (M.typing key).Types inLoop sc e t sc' →
      Vocabulary.addressFree.speaks e.nodes →
      Stays M key c depth e₀ pending pending sc sc' (fun _ a => a.PartOf t) (c.infer e)
  | @Types.literal _ _ _ _ value => fun _ => by
    rw [Checking.infer]
    exact Stays.pure fun _ _ => .of_plain value.plain
  | .localVar place reads => fun _ => by
    rw [Checking.infer]
    exact Stays.readLocal hM reads place
  | .name unknown _ call => fun _ => by
    rw [Checking.infer]
    refine (Stays.lookup_none unknown).bind fun e₁ o _ ho => ?_
    rw [ho]
    exact Stays.callOnSelf hM .nil call
  | .ivar place reads => fun _ => by
    rw [Checking.infer]
    exact Stays.readIvar hM reads place
  | .out place reads => fun _ => by
    rw [Checking.infer]
    exact Stays.outType hM reads place
  | .assign typed noted place takes => fun hv => by
    rw [Checking.infer]
    have hvalue := (Vocabulary.speaks_nodesOf_cons.mp (Vocabulary.speaks_nodes.mp hv).2).1
    refine (Stays.typed noted (typed.stays hM hdepth e₀ pending hvalue)).bind fun e₁ a _ ha => ?_
    refine (Stays.bindingToAssign hM place).bind fun e₂ o _ ho => ?_
    obtain ⟨i, rfl, hid⟩ := ho
    exact (Stays.assign hid ha takes).bind fun _ _ _ _ => Stays.pure fun _ _ => ha
  | .opAssign place reads typed noted call takes => fun hv => by
    rw [Checking.infer]
    have hvalue := (Vocabulary.speaks_nodesOf_cons.mp (Vocabulary.speaks_nodes.mp hv).2).1
    refine (Stays.bindingToUpdate hM place).bind fun e₁ o _ ho => ?_
    obtain ⟨i, rfl, hid⟩ := ho
    refine (Stays.read hM.closed hid reads).bind fun e₂ current hext₂ hcurrent => ?_
    refine (Stays.typed noted (typed.stays hM hdepth e₂ pending hvalue)).bind
      fun e₃ operand hext₃ ho => ?_
    refine (Stays.callOn hM (.cons ho .nil) hcurrent call).bind fun e₄ a hext₄ ha => ?_
    have hid' := (hext₂.trans (hext₃.trans hext₄)).idAt hid
    exact (Stays.assign hid' ha takes).bind fun _ _ _ _ => Stays.pure fun _ _ => ha
  | .path written => fun _ => by
    have hclasses : (M.typing key).env.classes = c.env.classes := hM.env.classes.symm
    rw [hclasses] at written
    rw [Checking.infer, written]
    exact Stays.pure fun _ _ => .classObject
  | .connect typedLeft notedLeft typedRight notedRight => fun hv => by
    rw [Checking.infer]
    obtain ⟨hlhs, hrest⟩ := Vocabulary.speaks_nodesOf_cons.mp (Vocabulary.speaks_nodes.mp hv).2
    have hrhs := (Vocabulary.speaks_nodesOf_cons.mp hrest).1
    refine (Stays.typed notedLeft (typedLeft.stays hM hdepth e₀ pending hlhs)).bind
      fun e₁ a _ ha => ?_
    refine (Stays.typed notedRight (typedRight.stays hM hdepth e₁ pending hrhs)).bind
      fun e₂ b _ hb => ?_
    exact Stays.pure fun _ _ => ha.union_union hb (hM.closed.noted notedLeft)
      (hM.closed.noted notedRight)
  | .ite typed noted typedThen typedElse => fun hv => by
    rw [Checking.infer]
    have hkids := (Vocabulary.speaks_nodes.mp hv).2
    simp only [Expr.children, List.cons_append, Vocabulary.speaks_nodesOf_cons,
      Expr.nodesOf_append, Vocabulary.speaks_append] at hkids
    obtain ⟨hcond, hthen, helse⟩ := hkids
    refine (Stays.typed noted (typed.stays hM hdepth e₀ pending hcond)).bind fun e₁ _ _ _ => ?_
    refine ((typedThen.stays hM hdepth e₁ pending hthen).1 _ _ .nil).bind fun e₂ a _ ha => ?_
    refine ((typedElse.stays hM hdepth e₂ pending helse).1 _ _ .nil).bind fun e₃ b _ hb => ?_
    exact Stays.pure fun _ _ => ha.union_union hb
      (Ty.of_getLastD Ty.PartOf.nil.isOver (typedThen.over_plain hM.closed))
      (Ty.of_getLastD Ty.PartOf.nil.isOver (typedElse.over_plain hM.closed))
  | .loop typed noted typedBody => fun hv => by
    rw [Checking.infer]
    obtain ⟨hcond, hbody⟩ := Vocabulary.speaks_nodesOf_cons.mp (Vocabulary.speaks_nodes.mp hv).2
    refine (Stays.typed noted (typed.stays hM hdepth e₀ pending hcond)).bind fun e₁ _ _ _ => ?_
    refine ((typedBody.stays hM (fun _ => Nat.succ_pos depth) e₁ pending
      hbody).1 _ _ .nil).inLoop.bind fun e₂ _ _ _ => ?_
    exact Stays.pure fun _ _ => .nil
  | .control => fun _ => by
    rw [Checking.infer]
    exact Stays.loopControl (hdepth rfl)
  | .callSelf typedArgs typedBlock call => fun hv => by
    rw [Checking.infer]
    obtain ⟨hargs, hblock⟩ := Vocabulary.speaks_callSelf.mp (Vocabulary.speaks_nodes.mp hv).2
    refine (typedArgs.stays hM hdepth e₀ pending hargs).2.bind fun e₁ as _ has => ?_
    refine (typedBlock.stays hM e₁ pending hblock).bind fun e₂ _ _ _ => ?_
    exact Stays.callOnSelf hM has call
  | .pointer _ _ _ _ => fun hv => ((Vocabulary.admits_of_speaks hv).2.1 rfl rfl).elim
  | .callClass notPtr kind written noted typedArgs typedBlock call => fun hv => by
    obtain ⟨_, hargs, hblock⟩ := Vocabulary.speaks_call.mp (Vocabulary.speaks_nodes.mp hv).2
    have hclasses : (M.typing key).env.classes = c.env.classes := hM.env.classes.symm
    have hkind : c.env.receiverKind _ = _ := (hM.env.receiverKind _).trans kind
    rw [hclasses] at written
    rw [Checking.infer, if_neg notPtr, hkind]
    simp only [written]
    refine (Stays.note Ty.PartOf.classObject noted).bind fun e₁ _ _ _ => ?_
    refine (typedArgs.stays hM hdepth e₁ pending hargs).2.bind fun e₂ as _ has => ?_
    refine (typedBlock.stays hM e₂ pending hblock).bind fun e₃ _ _ _ => ?_
    exact Stays.callOnClass hM has written call
  | .callNative notPtr kind noted function typedArgs typedBlock fits fills => fun hv => by
    obtain ⟨_, hargs, hblock⟩ := Vocabulary.speaks_call.mp (Vocabulary.speaks_nodes.mp hv).2
    have hkind : c.env.receiverKind _ = _ := (hM.env.receiverKind _).trans kind
    have hplain := hM.closed.libraries _ (Env.receiverKind_ofLibrary kind) _
      (List.mem_of_find?_eq_some function)
    rw [Checking.infer, if_neg notPtr, hkind]
    simp only [function]
    refine (Stays.note Ty.PartOf.classObject noted).bind fun e₁ _ _ _ => ?_
    refine (typedArgs.stays hM hdepth e₁ pending hargs).bind fun e₂ given _ hgiven => ?_
    refine (typedBlock.stays hM e₂ _ hblock).bind fun e₃ _ _ _ => ?_
    exact Stays.callNative hM hplain.1 hplain.2 hgiven fits fills
  | .callValue notPtr kind typed noted typedArgs typedBlock call => fun hv => by
    obtain ⟨hreceiver, hargs, hblock⟩ := Vocabulary.speaks_call.mp (Vocabulary.speaks_nodes.mp hv).2
    have hkind : c.env.receiverKind _ = _ := (hM.env.receiverKind _).trans kind
    rw [Checking.infer, if_neg notPtr, hkind]
    refine (Stays.typed noted (typed.stays hM hdepth e₀ pending hreceiver)).bind fun e₁ r _ hr => ?_
    refine (typedArgs.stays hM hdepth e₁ pending hargs).2.bind fun e₂ as _ has => ?_
    refine (typedBlock.stays hM e₂ pending hblock).bind fun e₃ _ _ _ => ?_
    exact Stays.callOn hM has hr call

/-- Several expressions, as a body and as arguments. -/
theorem TypesAll.stays {depth : Nat} {inLoop : Bool} {sc sc' : Outline} {es : List Expr}
    {ts : List Ty}
    (hM : M.Runs key c) (hdepth : inLoop = true → 0 < depth) (e₀ : Engine)
    (pending : List NodeId) :
    (M.typing key).TypesAll inLoop sc es ts sc' → Vocabulary.addressFree.speaks (Expr.nodesOf es) →
      (∀ last last' : Ty, last'.PartOf last → Stays M key c depth e₀ pending pending sc sc'
        (fun _ a => a.PartOf (ts.getLastD last)) (c.inferBody last' es)) ∧
      Stays M key c depth e₀ pending pending sc sc' (fun _ as => List.Forall₂ Ty.PartOf as ts)
        (c.inferArgs es)
  | .nil => fun _ => by
    constructor
    · intro last last' hlast
      rw [Checking.inferBody]
      exact Stays.pure fun _ _ => hlast
    · rw [Checking.inferArgs]
      exact Stays.pure fun _ _ => .nil
  | .cons head noted tail => fun hv => by
    obtain ⟨he, hes⟩ := Vocabulary.speaks_nodesOf_cons.mp hv
    have hhead := Stays.typed noted (head.stays hM hdepth e₀ pending he)
    constructor
    · intro last last' _
      rw [Checking.inferBody]
      refine hhead.bind fun e₁ a _ ha => ?_
      rw [List.getLastD_cons]
      exact (tail.stays hM hdepth e₁ pending hes).1 _ _ ha
    · rw [Checking.inferArgs]
      refine hhead.bind fun e₁ a _ ha => ?_
      exact (tail.stays hM hdepth e₁ pending hes).2.map fun _ as has => .cons ha has

/-- The arguments of a native call.  What is noted for a variable that the function assigns
    will be replaced. -/
theorem TypesNative.stays {depth : Nat} {inLoop : Bool} {sc sc' : Outline}
    {params : List NativeParam}
    {es : List Expr} {given : List NativeArg} (hM : M.Runs key c)
    (hdepth : inLoop = true → 0 < depth) (e₀ : Engine)
    (pending : List NodeId) : (M.typing key).TypesNative inLoop sc params es given sc' →
      Vocabulary.addressFree.speaks (Expr.nodesOf es) →
      Stays M key c depth e₀ pending (assignedOuts (es.zip params) ++ pending) sc sc'
        (fun _ given' => List.Forall₂ NativeArg.PartOf given' given)
        (c.inferNativeArgs es)
  | .nil => fun _ => by
    rw [Checking.inferNativeArgs]
    exact Stays.pure fun _ _ => .nil
  | @TypesNative.out _ _ sc _ params m target es t given reads unknown noted tail => fun hv => by
    obtain ⟨_, hes⟩ := Vocabulary.speaks_nodesOf_cons.mp hv
    rw [Checking.inferNativeArgs]
    simp only [Expr.outTarget?, pure_bind]
    have hout : Stays M key c depth e₀ pending pending sc sc (fun _ a => a.PartOf t)
        (c.nativeOutType target m.loc) := Stays.nativeOutType hM reads unknown
    have hrest : ∀ {e₁ : Engine} {exempt : List NodeId} {a : Ty}, a.PartOf t →
        Stays M key c depth e₁ exempt (assignedOuts (es.zip params.tail) ++ exempt) sc sc'
          (fun _ given' => List.Forall₂ NativeArg.PartOf given' (⟨t, true⟩ :: given))
          (do return ⟨a, true⟩ :: (← c.inferNativeArgs es)) := fun {e₁ exempt _} ha =>
      (tail.stays hM hdepth e₁ exempt hes).map fun _ _ hgiven => .cons ⟨ha, rfl⟩ hgiven
    by_cases hfilled : ∃ param, params.head? = some param ∧ param.mode = .out
    · obtain ⟨param, hparam, hmode⟩ := hfilled
      obtain ⟨rest, rfl⟩ := List.head?_eq_some_iff.mp hparam
      rw [List.zip_cons_cons, assignedOuts_out hmode]
      refine hout.typed_pending.bind fun e₁ a _ ha => (hrest ha).mono ?_
      exact List.perm_middle.subset
    · have hvalue : ∀ param, params.head? = some param → param.mode = .byValue := by
        intro param hparam
        cases hmode : param.mode with
        | byValue => rfl
        | out => exact absurd ⟨param, hparam, hmode⟩ hfilled
      refine (Stays.typed (noted hvalue) hout).bind fun e₁ a _ ha => (hrest ha).mono ?_
      cases params with
      | nil =>
        rw [List.tail_nil, List.zip_nil_right]
        exact List.Subset.refl _
      | cons param params =>
        rw [List.zip_cons_cons, assignedOuts_skip (.inr (hvalue param rfl))]
        exact List.Subset.refl _
  | @TypesNative.value _ _ _ _ _ params e es t given notOut head noted tail => fun hv => by
    obtain ⟨he, hes⟩ := Vocabulary.speaks_nodesOf_cons.mp hv
    rw [Checking.inferNativeArgs]
    simp only [notOut, pure_bind]
    refine (Stays.typed noted (head.stays hM hdepth e₀ pending he)).bind fun e₁ a _ ha => ?_
    refine ((tail.stays hM hdepth e₁ pending hes).mono ?_).map fun _ given' hgiven =>
      .cons ⟨ha, rfl⟩ hgiven
    cases params with
    | nil =>
      rw [List.tail_nil, List.zip_nil_right]
      exact List.Subset.refl _
    | cons param params =>
      rw [List.zip_cons_cons, assignedOuts_skip (.inl notOut)]
      exact List.Subset.refl _

/-- The block of a call. -/
theorem TypesBlock.stays {depth : Nat} {call : NodeId} {sc : Outline} {block : Option Block}
    (hM : M.Runs key c)
    (e₀ : Engine) (pending : List NodeId) : (M.typing key).TypesBlock call sc block →
      Vocabulary.addressFree.speaks (Expr.nodesOf (Block.bodyOf block)) →
      Stays M key c depth e₀ pending pending sc sc (fun _ _ => True) (c.inferBlock call block)
  | .none => fun _ => by
    rw [Checking.inferBlock]
    exact Stays.pure fun _ _ => trivial
  | .some typed => fun hv => by
    rw [Checking.inferBlock]
    exact Stays.inBlock (fun e₁ _ => (typed.stays hM (fun _ => Nat.succ_pos depth)
      e₁ pending hv).1 _ _ .nil) typed.grows

end

/-! ### Units -/

/-- The parameters of an instance take the types of the arguments and of the defaults. -/
theorem Params.stays {site : Location} {args : List Ty} {params : List Param} (hM : M.Runs key c)
    (hargs : ∀ a ∈ args, a.Plain)
    (hv : Vocabulary.addressFree.speaks (Expr.nodesOf (params.flatMap Param.exprs)))
    (h : (M.typing key).Params sc args params sc') :
    Stays M key c 0 e₀ pending pending sc sc' (fun _ _ => True)
      (c.bindParams site args params) := by
  induction h generalizing e₀ with
  | nil =>
    unfold Checking.bindParams
    exact Stays.pure fun _ _ => trivial
  | given takes rest ih =>
    obtain ⟨harg, hargs⟩ := List.forall_mem_cons.mp hargs
    rw [List.flatMap_cons, Expr.nodesOf_append, Vocabulary.speaks_append] at hv
    unfold Checking.bindParams
    simp only [pure_bind]
    refine Stays.bindLocal.bind fun e₁ i _ hid => ?_
    exact (Stays.assign hid (.of_plain harg) takes).bind fun e₂ _ _ _ => ih hargs hv.2
  | @default sc _ _ p _ _ _ default typed noted takes rest ih =>
    rw [List.flatMap_cons, Param.exprs, default, Expr.nodesOf_append,
      Vocabulary.speaks_append] at hv
    have hvalue := (Vocabulary.speaks_nodesOf_cons.mp hv.1).1
    unfold Checking.bindParams
    simp only [default]
    have hdepth : false = true → 0 < 0 := fun hout => absurd hout Bool.false_ne_true
    refine (Stays.typed noted (typed.stays hM hdepth e₀ pending hvalue)).bind
      fun e₁ a _ ha => ?_
    refine Stays.bindLocal.bind fun e₂ i _ hid => ?_
    exact (Stays.assign hid ha takes).bind fun e₃ _ _ _ => ih hargs hv.2
  | missing default rest ih =>
    rw [List.flatMap_cons, Expr.nodesOf_append, Vocabulary.speaks_append] at hv
    unfold Checking.bindParams
    simp only [default, pure_bind]
    refine Stays.bindLocal.bind fun e₁ i _ hid => ?_
    exact (Stays.assign (t := .unresolved) hid (.unresolved _) (List.forall_mem_nil _)).bind
      fun e₂ _ _ _ => ih hargs hv.2

/-- The check of a unit stays below the model and gives part of the type that the unit has
    there. -/
theorem TypesUnit.stays {t : Ty} (hM : M.Runs key c)
    (hv : Vocabulary.addressFree.speaksUnit c.env key) (hunit : e₀.unitAt key = some c.unit)
    (h : (M.typing key).TypesUnit t) :
    ∃ sc', Stays M key c 0 e₀ [] [] .empty sc' (fun _ a => a.PartOf t) (c.unitBody key) := by
  cases key with
  | none =>
    obtain ⟨ts, sc', hall, rfl⟩ := h
    have htop : (M.typing none).env.topLevel = c.env.topLevel := hM.env.topLevel.symm
    rw [htop] at hall
    exact ⟨sc', (hall.stays hM (fun hout => absurd hout Bool.false_ne_true) e₀ [] hv).1 _ _ .nil⟩
  | some k =>
    have hmethods : (M.typing (some k)).env.methods = c.env.methods := hM.env.methods.symm
    unfold Typing.TypesUnit at h
    simp only [Model.typing] at h hmethods
    rw [hmethods] at h
    unfold Checking.unitBody
    cases hm : c.env.methods.get? k.method with
    | none =>
      simp only [hm]
      exact ⟨.empty, Stays.pure fun _ _ => Ty.PartOf.unresolved t⟩
    | some m =>
      rw [hm] at h
      obtain ⟨sc₁, ts, sc', hparams, hall, rfl, htakes⟩ := h
      have hexprs := (hv m hm).2
      rw [Def.exprs, Expr.nodesOf_append, Vocabulary.speaks_append] at hexprs
      simp only [hm]
      refine ⟨sc', ?_⟩
      refine (hparams.stays hM (hM.plain k rfl).args hexprs.1).bind fun e₁ _ hext₁ _ => ?_
      have hdepth : false = true → 0 < 0 := fun hout => absurd hout Bool.false_ne_true
      refine ((hall.stays hM hdepth e₁ [] hexprs.2).1 _ _ .nil).bind fun e₂ a hext₂ ha => ?_
      have hslot : e₂.slotAt (.returned k) = some (.returned c.unit) := by
        have hunit₂ := Engine.unitOf_of_prefix (hext₁.trans hext₂).keys hunit
        rw [Engine.slotAt, hunit₂]
        rfl
      have hlt := Engine.unitOf_lt (Engine.unitOf_of_prefix (hext₁.trans hext₂).keys hunit)
      refine (Stays.bindingOf hslot hlt).bind fun e₃ i _ hid => ?_
      exact (Stays.assign hid ha htakes).bind fun _ _ _ _ => Stays.pure fun _ _ => ha

end Typing

/-! ### Checks of units -/

theorem Begins.any {env : Env} {C : Ty → Prop} {v : Vocabulary} {I : Engine → Prop}
    {begin : UnitId → Location → EngineM Unit} (h : Begins env C v I begin) :
    Begins env C v (fun _ => True) begin := by
  intro e key loc r e' hok hnew hkey hr
  obtain ⟨hok', hgrows, hkeys, _⟩ := h e key loc r e' hok hnew hkey hr
  exact ⟨hok', hgrows, hkeys, fun _ _ => trivial⟩

namespace Engine

variable {env : Env} {e e' : Engine}

/-- What bindings and units are looked at is the same. -/
theorem Below.of_eq (h : e.Below M) (hkeys : e'.keys = e.keys)
    (hbindings : e'.store.bindings = e.store.bindings)
    (hsilent : ∀ u ∈ e'.units, u.diagnostics = []) : e'.Below M where
  top := hkeys ▸ h.top
  keys := hkeys ▸ h.keys
  bindings := by
    rw [hbindings]
    intro b hb
    obtain ⟨p, hslot, hadmits⟩ := h.bindings b hb
    exact ⟨p, slotAt_of_prefix (hkeys ▸ List.prefix_rfl) hslot, hadmits⟩
  silent := hsilent

/-- The model enters the new instance. -/
theorem Below.add (h : e.Below M) {k : Instantiation} (hk : k.Plain)
    (hentered : M.context.entered k) : (e.add k).Below M where
  top := h.top.trans (keys_add e k ▸ List.prefix_append _ _)
  keys := by
    intro key hkey
    rw [keys_add, List.mem_append] at hkey
    rcases hkey with hkey | hkey
    · exact h.keys key hkey
    · cases List.mem_singleton.mp hkey
      exact ⟨hk, hentered⟩
  bindings := by
    intro b hb
    obtain ⟨p, hslot, hadmits⟩ := h.bindings b hb
    exact ⟨p, slotAt_of_prefix (keys_add e k ▸ List.prefix_append _ _) hslot, hadmits⟩
  silent := List.forall_mem_append.mpr ⟨h.silent, List.forall_mem_singleton.mpr rfl⟩

/-- The check of a unit that the model enters leads to a state below the model. -/
theorem below_checkOnce (hM : M.Closed) (henv : M.env.SameDeclarations env)
    (hkeeps : env.KeepsTo Plain .addressFree) {begin : Begin} {recheck : Bool}
    (hbegin : Begins env Plain .addressFree (fun _ => True) (begin recheck))
    (hhandles : M.Handles env (begin recheck)) {unit : UnitId} {cause : Option Location}
    (hok : e.Ok env Plain .addressFree) (hbelow : e.Below M) (hunit : unit < e.units.length)
    (hr : runEngine (checkOnce env begin unit cause recheck) e = (.ok (), e')) : e'.Below M := by
  obtain ⟨_, result, walk, e₁, hrun, rfl⟩ := exists_unitBody_of_checkOnce hr
  have hkey : ∀ k, e.keyOf unit = some k → k.Plain ∧ M.context.entered k := fun k hk =>
    hbelow.keys k (mem_keys hk)
  have hruns : M.Runs (e.keyOf unit) (e.checkingOf env begin unit cause recheck) :=
    ⟨hM, henv, rfl, fun k hk => (hkey k hk).1, hbegin, hhandles⟩
  have hown : e.count.unitAt (e.keyOf unit) = some unit := hok.unitAt_keyOf hbelow.top hunit
  obtain ⟨t, ht⟩ := hM.typed (e.keyOf unit) hkey
  obtain ⟨sc', hstays⟩ := ht.stays hruns (hkeeps.speaks _) hown
  have hstart : Situated M (e.keyOf unit) (e.checkingOf env begin unit cause recheck) 0 []
      .empty .start e.count :=
    { engine := hok.count
      findings := Walk.ok_start
      below := hbelow.of_eq rfl rfl hbelow.silent
      own := hown
      unit := hunit
      named := .empty
      outline := rfl
      loopDepth := rfl
      silent := rfl
      noted := fun _ _ hnone => nomatch hnone }
  obtain ⟨hend, _, _⟩ := hstays _ _ (.refl _) hstart _ _ _ hrun
  exact hend.below.of_eq (keys_record ..) rfl
    (Store.forall_mem_modify hend.below.silent fun _ _ => hend.silent)

/-- New instances are seen to below the model at every level of nesting. -/
theorem handles_nested (hM : M.Closed) (henv : M.env.SameDeclarations env)
    (hkeeps : env.KeepsTo Plain .addressFree) (depth : Nat) (recheck : Bool) :
    M.Handles env (nestedBegin env depth recheck) := by
  induction depth generalizing recheck with
  | zero =>
    intro e k loc e' hok hbelow hnew hk hplain hentered hr
    cases hr
    exact (hbelow.add hplain hentered).of_eq rfl rfl (hbelow.add hplain hentered).silent
  | succ depth ih =>
    intro e k loc e' hok hbelow hnew hk hplain hentered hr
    have hlt : e.units.length < (e.add k).units.length := by
      rw [Engine.add, List.length_append]
      exact Nat.lt_succ_self _
    change runEngine (checkNested env depth e.units.length (some loc) recheck) _ = _ at hr
    rw [checkNested_eq] at hr
    exact below_checkOnce hM henv hkeeps ((begins_nested hkeeps depth recheck []).any) (ih recheck)
      (hok.add hk hnew) (hbelow.add hplain hentered) hlt hr

theorem below_checkNested (hM : M.Closed) (henv : M.env.SameDeclarations env)
    (hkeeps : env.KeepsTo Plain .addressFree) {depth : Nat} {unit : UnitId}
    {cause : Option Location} {recheck : Bool} (hok : e.Ok env Plain .addressFree)
    (hbelow : e.Below M) (hunit : unit < e.units.length)
    (hr : runEngine (checkNested env depth unit cause recheck) e = (.ok (), e')) : e'.Below M := by
  rw [checkNested_eq] at hr
  exact below_checkOnce hM henv hkeeps ((begins_nested hkeeps depth recheck []).any)
    (handles_nested hM henv hkeeps depth recheck) hok hbelow hunit hr

end Engine

end UnionTyping
