/-
  UnionTyping/Proofs/Typing/Stays.lean
  ====================================
  **Steps that stay below a model: variables.**

  A check is `Situated` below a model when its state is below the model, the names that it
  sees are those of an outline, and what it has noted is part of what the model notes.
  `Stays` says of a step that it leads from such a situation to such a situation.  Steps in
  a row stay below the model when each does (`Stays.bind`).

  A step is only looked at when it comes to its end.
-/
import UnionTyping.Proofs.Typing.Model

namespace UnionTyping

open Ty (Over Plain)

/-! ### Situations -/

/-- Seeing to a new instance that the model enters leads to a state below the model. -/
def Model.Handles (M : Model) (env : Env) (begin : UnitId → Location → EngineM Unit) : Prop :=
  ∀ (e : Engine) (k : Instantiation) (loc : Location) (e' : Engine),
    e.Ok env Plain .addressFree → e.Below M → e.unitOf k = none → k.Ok env (Over Plain) →
    k.Plain → M.context.entered k → runEngine (begin e.units.length loc) (e.add k) = (.ok (), e') →
    e'.Below M

/-- The check is that of a unit of the model, and new instances are seen to below the
    model. -/
structure Model.Runs (M : Model) (key : Option Instantiation) (c : Checking) : Prop where
  closed : M.Closed
  env : M.env.SameDeclarations c.env
  self : c.self = key.bind Instantiation.self
  plain : ∀ k, key = some k → k.Plain
  begins : Begins c.env Plain .addressFree (fun _ => True) c.begin
  handles : M.Handles c.env c.begin

/-- What a check begins with whose state is below the model.  What is noted for the nodes in
    `pending` will be replaced. -/
structure Situated (M : Model) (key : Option Instantiation) (c : Checking) (depth : Nat)
    (pending : List NodeId) (sc : Outline) (w : Walk) (e : Engine) : Prop where
  engine : e.Ok c.env Plain .addressFree
  findings : w.Ok (Over Plain) .addressFree e.store.bindings.length
  below : e.Below M
  own : e.unitAt key = some c.unit
  unit : c.unit < e.units.length
  named : w.scopes.Named e.store c.unit
  outline : w.scopes.outline = sc
  loopDepth : w.loopDepth = depth
  silent : w.diagnostics = []
  noted : ∀ node t, w.types.find? node = some t → node ∈ pending ∨
    ∃ t', M.noted key node = some t' ∧ t.PartOf t'

/-- When the step comes to its end it leads from below the model to below the model, and `Q`
    is true of its result. -/
def Stays (M : Model) (key : Option Instantiation) (c : Checking) (depth : Nat) (e₀ : Engine)
    (pending pending' : List NodeId) (sc sc' : Outline) {α : Type} (Q : Engine → α → Prop)
    (x : WalkM α) : Prop :=
  ∀ w e, e₀.Extends e → Situated M key c depth pending sc w e → ∀ a w' e',
    runWalk x w e = (.ok (a, w'), e') →
      Situated M key c depth pending' sc' w' e' ∧ e.Extends e' ∧ Q e' a

variable {M : Model} {key : Option Instantiation} {c : Checking} {depth : Nat} {e₀ : Engine}
  {pending pending₁ pending' : List NodeId} {sc sc₁ sc' : Outline} {α β : Type}
  {Q : Engine → α → Prop} {S : Engine → β → Prop} {x : WalkM α} {f : α → WalkM β}

/-! ### Steps one after the other -/

theorem Stays.pure {a : α} (h : ∀ e, e₀.Extends e → Q e a) :
    Stays M key c depth e₀ pending pending sc sc Q (Pure.pure a) := by
  intro w e hext hs a' w' e' hr
  rw [runWalk_pure] at hr
  cases hr
  exact ⟨hs, .refl e, h e hext⟩

theorem Stays.bind (hx : Stays M key c depth e₀ pending pending₁ sc sc₁ Q x)
    (hf : ∀ e₁ a, e₀.Extends e₁ → Q e₁ a →
      Stays M key c depth e₁ pending₁ pending' sc₁ sc' S (f a)) :
    Stays M key c depth e₀ pending pending' sc sc' S (x >>= f) := by
  intro w e hext hs b w' e' hr
  obtain ⟨a, w₁, e₁, hrx, hrf⟩ := runWalk_bind_eq_ok hr
  obtain ⟨hs₁, hext₁, hQ⟩ := hx w e hext hs a w₁ e₁ hrx
  obtain ⟨hs', hext', hS⟩ := hf e₁ a (hext.trans hext₁) hQ w₁ e₁ (.refl e₁) hs₁ b w' e' hrf
  exact ⟨hs', hext₁.trans hext', hS⟩

/-- A step whose result is given another form. -/
theorem Stays.map {g : α → β} (hx : Stays M key c depth e₀ pending pending' sc sc' Q x)
    (hg : ∀ e a, Q e a → S e (g a)) :
    Stays M key c depth e₀ pending pending' sc sc' S (x >>= fun a => Pure.pure (g a)) := by
  intro w e hext hs b w' e' hr
  obtain ⟨a, w₁, e₁, hrx, hrf⟩ := runWalk_bind_eq_ok hr
  rw [runWalk_pure] at hrf
  cases hrf
  obtain ⟨hs', hext', hQ⟩ := hx w e hext hs a w' e' hrx
  exact ⟨hs', hext', hg e' a hQ⟩

/-- A situation is still one in a later state that is below the model. -/
theorem Situated.later {w : Walk} {e e' : Engine} (h : Situated M key c depth pending sc w e)
    (hext : e.Extends e') (hok : e'.Ok c.env Plain .addressFree) (hbelow : e'.Below M) :
    Situated M key c depth pending sc w e' where
  engine := hok
  findings := h.findings.mono hext.bindings_le
  below := hbelow
  own := Engine.unitAt_of_prefix hext.keys h.own
  unit := Nat.lt_of_lt_of_le h.unit hext.units_le
  named := h.named.mono hext.bindings
  outline := h.outline
  loopDepth := h.loopDepth
  silent := h.silent
  noted := h.noted

/-! ### Steps on the store -/

/-- A step on the store alone. -/
theorem Stays.onStore {op : Operation} {g : Store → α × Store}
    (hok : ∀ w e, e₀.Extends e → Situated M key c depth pending sc w e →
      (g e.store).2.Ok Plain (Slot.Fits c.env .addressFree e.units.length) e.units.length)
    (hgrows : ∀ e, (e : Engine).Ok c.env Plain .addressFree → e.store.Extends (g e.store).2)
    (hbelow : ∀ w e, e₀.Extends e → Situated M key c depth pending sc w e →
      ∀ b ∈ (g e.store).2.bindings, ∃ p, e.slotAt p = some b.slot ∧ M.context.Admits p b)
    (hQ : ∀ w e, e₀.Extends e → Situated M key c depth pending sc w e →
      Q { e with store := (g e.store).2 } (g e.store).1) :
    Stays M key c depth e₀ pending pending sc sc Q (liftM (Engine.onStore op g) : WalkM α) := by
  intro w e hext hs a w' e' hr
  rw [runWalk_onStore] at hr
  cases hr
  have hext' : e.Extends { e with store := (g e.store).2 } := ⟨hgrows e hs.engine, List.prefix_rfl⟩
  refine ⟨hs.later hext' ?_ ?_, hext', hQ w e hext hs⟩
  · exact hs.engine.of_store (hok w e hext hs)
  · exact hs.below.of_store (hbelow w e hext hs)

/-- Reading a binding gives part of what its place gives. -/
theorem Stays.read (hM : M.Closed) {p : Place} {i : BindingId} {t : Ty} (hid : e₀.idAt p = some i)
    (hreads : M.context.reads p t) :
    Stays M key c depth e₀ pending pending sc sc (fun _ a => a.PartOf t) (c.read i) := by
  refine Stays.onStore (fun w e _ hs => hs.engine.store.read i hs.unit)
    (fun e _ => (e.store.grows_read i c.unit).bindings) (fun w e hext hs => ?_)
      fun w e hext hs => ?_
  · refine Store.forall_read hs.below.bindings fun b hb => ?_
    obtain ⟨hslot, hadmits⟩ := hs.below.admits (hext.idAt hid) hb
    exact ⟨p, hslot, hadmits.holds, fun _ => ⟨t, hreads⟩⟩
  · obtain ⟨slot, _, hfind⟩ := Option.bind_eq_some_iff.mp (hext.idAt hid)
    obtain ⟨b, hb, _⟩ := Store.find_eq_some hfind
    obtain ⟨_, hadmits⟩ := hs.below.admits (hext.idAt hid) hb
    rw [Store.read, Store.typeOf_eq hb]
    exact ⟨(hs.engine.store.getElem? hb).isOver, fun m hm => hM.covers hreads (hadmits.holds m hm)⟩

/-- A place takes part of what it may hold. -/
theorem Stays.assign {p : Place} {i : BindingId} {a t : Ty} {site : Location}
    (hid : e₀.idAt p = some i) (ha : a.PartOf t) (htakes : M.context.Takes p t) :
    Stays M key c depth e₀ pending pending sc sc (fun _ _ => True) (c.assign i site a) := by
  have hcon : ∀ m : Ty, m.Plain → m.IsCon := fun _ hm => hm.isCon
  refine Stays.onStore (fun w e _ hs => hs.engine.store.assign hcon i ha.isOver site _)
    (fun e he => (Store.grows_assign hcon he.store i ha.isOver site _).bindings)
    (fun w e hext hs => ?_) fun _ _ _ _ => trivial
  refine Store.forall_assign hs.below.bindings fun _ b hb => ?_
  obtain ⟨hslot, hadmits⟩ := hs.below.admits (hext.idAt hid) hb
  have hover := hs.engine.store.getElem? hb
  refine ⟨p, hslot, fun m hm => ?_, hadmits.reads⟩
  rw [Binding.current_assigned hcon hover ha.isOver] at hm
  rcases (Ty.mem_union_iff hover.isOver ha.isOver).mp hm with hm | hm
  · exact hadmits.holds m hm
  · exact htakes m (ha.mem m hm)

/-- The binding of a place. -/
theorem Stays.bindingOf {p : Place} {slot : Slot} (hslot : e₀.slotAt p = some slot)
    (hfits : slot.Fits c.env .addressFree e₀.units.length) :
    Stays M key c depth e₀ pending pending sc sc (fun e i => e.idAt p = some i)
      (Checking.bindingOf slot) := by
  refine Stays.onStore (fun w e hext hs => hs.engine.store.intern (hfits.mono hext.units_le))
    (fun e _ => (e.store.grows_intern slot).bindings) (fun w e hext hs => ?_) fun w e hext _ => ?_
  · refine Store.forall_intern hs.below.bindings ?_
    exact ⟨p, Engine.slotAt_of_prefix hext.keys hslot,
      ⟨(fun _ hm => nomatch hm), fun hne => absurd rfl hne⟩⟩
  · refine Option.bind_eq_some_iff.mpr ⟨slot, Engine.slotAt_of_prefix hext.keys hslot, ?_⟩
    exact Store.find_intern e.store slot

/-! ### Steps on the findings -/

theorem Stays.lookup_some {p : Place} {name : String}
    (hp : (M.typing key).place? sc (.local name) = some p) :
    Stays M key c depth e₀ pending pending sc sc (fun e o => ∃ i, o = some i ∧ e.idAt p = some i)
      (Checking.lookup name) := by
  intro w e _ hs a w' e' hr
  rw [runWalk_lookup] at hr
  cases hr
  refine ⟨hs, .refl e, ?_⟩
  obtain ⟨scope, hscope, rfl⟩ := Option.map_eq_some_iff.mp hp
  have hlookup := hs.named.lookup name
  rw [hs.outline, hscope] at hlookup
  cases hi : w.scopes.lookup name with
  | none =>
    rw [hi] at hlookup
    cases hlookup
  | some i =>
    rw [hi] at hlookup
    cases hlookup with
    | some hfind => exact ⟨i, rfl, (Engine.idAt_local hs.own scope name).trans hfind⟩

theorem Stays.lookup_none {name : String} (hp : sc.lookup name = none) :
    Stays M key c depth e₀ pending pending sc sc (fun _ o => o = none) (Checking.lookup name) := by
  intro w e _ hs a w' e' hr
  rw [runWalk_lookup] at hr
  cases hr
  refine ⟨hs, .refl e, ?_⟩
  have hlookup := hs.named.lookup name
  rw [hs.outline, hp] at hlookup
  cases hi : w.scopes.lookup name with
  | none => rfl
  | some i =>
    rw [hi] at hlookup
    cases hlookup

/-- A step that changes the findings and not the names. -/
theorem Stays.of_change {g : Walk → Walk}
    (hg : ∀ w e, Situated M key c depth pending sc w e →
      Situated M key c depth pending' sc' (g w) e) :
    Stays M key c depth e₀ pending pending' sc sc' (fun _ _ => True) (WalkM.change g) := by
  intro w e _ hs a w' e' hr
  rw [runWalk_change] at hr
  cases hr
  exact ⟨hg w e hs, .refl e, trivial⟩

/-- What is noted for a node is part of what the model notes for it. -/
theorem Stays.noteType {node : NodeId} {a t : Ty} (ha : a.PartOf t)
    (hnoted : M.noted key node = some t) :
    Stays M key c depth e₀ (node :: pending) pending sc sc (fun _ _ => True)
      (Checking.noteType node a) := by
  refine Stays.of_change fun w e hs =>
    { hs with
      findings := hs.findings.noteType ha.isOver
      noted := fun node' t' ht' => ?_ }
  rw [NodeMap.find?_insert hs.findings.typesAscending] at ht'
  split at ht'
  · rename_i heq
    cases ht'
    exact Or.inr ⟨t, heq ▸ hnoted, ha⟩
  · rename_i hne
    exact (hs.noted node' t' ht').imp_left fun hmem =>
      (List.mem_cons.mp hmem).resolve_left hne

/-- What is noted for a node will be replaced. -/
theorem Stays.noteType_pending {node : NodeId} {a : Ty} (ha : a.Over Plain)
    (hmem : node ∈ pending) :
    Stays M key c depth e₀ pending pending sc sc (fun _ _ => True) (Checking.noteType node a) := by
  refine Stays.of_change fun w e hs =>
    { hs with
      findings := hs.findings.noteType ha
      noted := fun node' t' ht' => ?_ }
  rw [NodeMap.find?_insert hs.findings.typesAscending] at ht'
  split at ht'
  · rename_i heq
    exact Or.inl (heq ▸ hmem)
  · exact hs.noted node' t' ht'

theorem Stays.noteCall {node : NodeId} {call : Resolution} (hcall : call.Ok (Over Plain)) :
    Stays M key c depth e₀ pending pending sc sc (fun _ _ => True) (Checking.noteCall node call) :=
  Stays.of_change fun _ _ hs => { hs with findings := hs.findings.noteCall hcall }

/-- More nodes may have what will be replaced. -/
theorem Situated.mono {w : Walk} {e : Engine} (h : Situated M key c depth pending sc w e)
    (hsub : pending ⊆ pending') : Situated M key c depth pending' sc w e :=
  { h with noted := fun node t ht => (h.noted node t ht).imp_left fun hmem => hsub hmem }

theorem Stays.mono {pending'' : List NodeId}
    (hx : Stays M key c depth e₀ pending pending' sc sc' Q x) (hsub : pending' ⊆ pending'') :
    Stays M key c depth e₀ pending pending'' sc sc' Q x := by
  intro w e hext hs a w' e' hr
  obtain ⟨hs', h⟩ := hx w e hext hs a w' e' hr
  exact ⟨hs'.mono hsub, h⟩

theorem Stays.note {node : NodeId} {a t : Ty} (ha : a.PartOf t)
    (hnoted : M.noted key node = some t) :
    Stays M key c depth e₀ pending pending sc sc (fun _ _ => True) (Checking.noteType node a) :=
  fun w e hext hs => Stays.noteType ha hnoted w e hext (hs.mono (List.subset_cons_self _ _))

theorem Stays.typed {node : NodeId} {t : Ty} {x : WalkM Ty} (hnoted : M.noted key node = some t)
    (hx : Stays M key c depth e₀ pending pending' sc sc' (fun _ a => a.PartOf t) x) :
    Stays M key c depth e₀ pending pending' sc sc' (fun _ a => a.PartOf t)
      (Checking.typed node x) := by
  refine hx.bind fun e₁ a _ ha => ?_
  exact (Stays.note ha hnoted).bind fun _ _ _ _ => Stays.pure fun _ _ => ha

/-- The same for a type that will be replaced. -/
theorem Stays.typed_pending {node : NodeId} {t : Ty} {x : WalkM Ty}
    (hx : Stays M key c depth e₀ pending pending' sc sc' (fun _ a => a.PartOf t) x) :
    Stays M key c depth e₀ pending (node :: pending') sc sc' (fun _ a => a.PartOf t)
      (Checking.typed node x) := by
  refine (hx.mono (List.subset_cons_self node pending')).bind fun e₁ a _ ha => ?_
  refine (Stays.noteType_pending ha.isOver List.mem_cons_self).bind fun _ _ _ _ => ?_
  exact Stays.pure fun _ _ => ha

/-! ### Scopes -/

theorem Stays.enter {call : NodeId} :
    Stays M key c depth e₀ pending pending sc (sc.enter (.block call)) (fun _ _ => True)
      (WalkM.change fun w => { w with scopes := w.scopes.enter (.block call) }) :=
  Stays.of_change fun _ _ hs =>
    { hs with
      findings := hs.findings.withScopes (hs.findings.scopes.enter trivial)
      named := hs.named.enter _
      outline := by rw [Scopes.outline_enter, hs.outline] }

theorem Stays.leave :
    Stays M key c depth e₀ pending pending sc sc.leave (fun _ _ => True)
      (WalkM.change fun w => { w with scopes := w.scopes.leave }) :=
  Stays.of_change fun _ _ hs =>
    { hs with
      findings := hs.findings.withScopes hs.findings.scopes.leave
      named := hs.named.leave
      outline := by rw [Scopes.outline_leave, hs.outline] }

/-- A local that is declared has the place of its name in the innermost scope. -/
theorem Stays.bindLocal {name : String} :
    Stays M key c depth e₀ pending pending sc (sc.declare name)
      (fun e i => e.idAt (.local key sc.owner name) = some i) (c.bindLocal name) := by
  intro w e hext hs a w' e' hr
  rw [Checking.bindLocal, runWalk_bind_ok (runWalk_get w e)] at hr
  obtain ⟨i, w₁, e₁, hbinding, hr⟩ := runWalk_bind_eq_ok hr
  have hdeclare : runWalk (do
      WalkM.change fun w : Walk => { w with scopes := w.scopes.declare name i }
      return i) w₁ e₁ = (.ok (i, { w₁ with scopes := w₁.scopes.declare name i }), e₁) := rfl
  rw [hdeclare] at hr
  cases hr
  have howner : w.scopes.owner = sc.owner := by rw [← hs.outline, Scopes.owner_outline]
  rw [howner] at hbinding
  have hslot : e.slotAt (.local key sc.owner name) = some (.local c.unit sc.owner name) := by
    rw [Engine.slotAt, hs.own]
    rfl
  have hfits : (Slot.local c.unit sc.owner name).Fits c.env .addressFree e.units.length :=
    ⟨hs.unit, trivial, fun _ _ => trivial⟩
  obtain ⟨hs₁, hext₁, hid⟩ := Stays.bindingOf hslot hfits w e (.refl e) hs _ _ _ hbinding
  have hfind : e'.store.find (.local c.unit w₁.scopes.owner name) = some a := by
    rw [← Scopes.owner_outline, hs₁.outline, ← Engine.idAt_local hs₁.own]
    exact hid
  refine ⟨{ hs₁ with findings := ?_, named := ?_, outline := ?_ }, hext₁, hid⟩
  · exact hs₁.findings.withScopes (hs₁.findings.scopes.declare (Engine.lt_of_idAt hid))
  · exact hs₁.named.declare hfind
  · rw [Scopes.outline_declare, hs₁.outline]

theorem Stays.bindLocals {names : List String} :
    Stays M key c depth e₀ pending pending sc (sc.declareAll names) (fun _ _ => True)
      (c.bindLocals names) := by
  induction names generalizing e₀ sc with
  | nil => exact Stays.pure fun _ _ => trivial
  | cons name names ih => exact Stays.bindLocal.bind fun _ _ _ _ => ih

/-- The count of loops is higher by one during the steps of a body. -/
theorem Stays.inLoop {x : WalkM Ty} {R : Engine → Ty → Prop}
    (hx : Stays M key c (depth + 1) e₀ pending pending' sc sc' R x) :
    Stays M key c depth e₀ pending pending' sc sc' R (Checking.inLoop x) := by
  intro w e hext hs a w' e' hr
  unfold Checking.inLoop at hr
  rw [runWalk_bind_ok (runWalk_change _ w e)] at hr
  obtain ⟨t, w₁, e₁, hrx, hlast⟩ := runWalk_bind_eq_ok hr
  rw [runWalk_bind_ok (runWalk_change _ w₁ e₁), runWalk_pure] at hlast
  cases hlast
  have hraised : Situated M key c (depth + 1) pending sc
      { w with loopDepth := w.loopDepth + 1 } e :=
    { hs with
      findings := hs.findings.withLoopDepth _
      loopDepth := congrArg (· + 1) hs.loopDepth }
  obtain ⟨hs₁, hext₁, hR⟩ := hx _ e hext hraised _ _ _ hrx
  exact ⟨{ hs₁ with
      findings := hs₁.findings.withLoopDepth _
      loopDepth := congrArg (· - 1) hs₁.loopDepth }, hext₁, hR⟩

/-- `break` and `next` inside the body of a loop or a block. -/
theorem Stays.loopControl (hdepth : 0 < depth) {keyword : LoopControl} {loc : Location} :
    Stays M key c depth e₀ pending pending sc sc (fun _ a => a.PartOf .nil)
      (c.loopControl keyword loc) := by
  intro w e _ hs a w' e' hr
  rw [Checking.loopControl, runWalk_bind_ok (runWalk_loopDepth w e), hs.loopDepth,
    if_neg (Nat.pos_iff_ne_zero.mp hdepth), runWalk_pure] at hr
  cases hr
  exact ⟨hs, .refl e, .nil⟩

/-- A block leaves the names as they were. -/
theorem Stays.inBlock {call : NodeId} {params : List String} {x : WalkM Ty} {R : Engine → Ty → Prop}
    (hx : ∀ e₁, e₀.Extends e₁ → Stays M key c (depth + 1) e₁ pending pending
      ((sc.enter (.block call)).declareAll params) sc' R x)
    (hgrows : ((sc.enter (.block call)).declareAll params).Grows sc') :
    Stays M key c depth e₀ pending pending sc sc (fun _ _ => True) (c.inBlock call params x) := by
  refine Stays.enter.bind fun e₁ _ hext₁ _ => ?_
  refine Stays.bindLocals.bind fun e₂ _ hext₂ _ => ?_
  refine (hx e₂ (hext₁.trans hext₂)).inLoop.bind fun e₃ _ _ _ => ?_
  have hleave : sc'.leave = sc := hgrows.leave_eq ⟨params, rfl⟩
  exact hleave ▸ Stays.leave

/-! ### Variables -/

section

variable (hM : M.Runs key c)
include hM

/-- The binding of an instance variable. -/
theorem Stays.ivarOf {p : Place} {name : String} {loc : Location}
    (hp : (M.typing key).ivarPlace? name = some p) :
    Stays M key c depth e₀ pending pending sc sc (fun e o => ∃ i, o = some i ∧ e.idAt p = some i)
      (c.ivarOf name loc) := by
  have hself : (M.typing key).self = c.self := hM.self.symm
  have hclasses : (M.typing key).env.classes = c.env.classes := hM.env.classes.symm
  unfold Typing.ivarPlace? at hp
  unfold Checking.ivarOf
  rw [hself, hclasses] at hp
  cases howner : c.self.bind c.env.classes.classOf with
  | none =>
    rw [howner] at hp
    cases hp
  | some owner =>
    rw [howner] at hp
    simp only at hp ⊢
    cases hkind : c.env.classes.kindOf owner with
    | value =>
      rw [hkind] at hp
      cases hp
    | reference =>
      rw [hkind] at hp
      cases hp
      obtain ⟨self, _, hclass⟩ := Option.bind_eq_some_iff.mp howner
      have hbinding : Stays M key c depth e₀ pending pending sc sc
          (fun e i => e.idAt (.ivar owner name) = some i)
          (Checking.bindingOf (.ivar owner name)) :=
        Stays.bindingOf rfl ⟨⟨self, hclass⟩, trivial⟩
      exact hbinding.map fun e i hid => ⟨i, rfl, hid⟩

theorem Stays.bindingToAssign {p : Place} {target : Target} {loc : Location}
    (hp : (M.typing key).assigned? sc target = some (p, sc')) :
    Stays M key c depth e₀ pending pending sc sc' (fun e o => ∃ i, o = some i ∧ e.idAt p = some i)
      (c.bindingToAssign target loc) := by
  cases target with
  | «local» name =>
    unfold Typing.assigned? at hp
    simp only at hp
    split at hp
    · rename_i scope hscope
      cases hp
      have hplace : (M.typing key).place? sc (.local name) = some (.local key scope name) := by
        rw [Typing.place?, hscope]
        rfl
      refine (Stays.lookup_some hplace).bind fun e₁ o _ ho => ?_
      obtain ⟨i, rfl, hid⟩ := ho
      exact Stays.pure fun e hext => ⟨i, rfl, hext.idAt hid⟩
    · rename_i hscope
      cases hp
      refine (Stays.lookup_none hscope).bind fun e₁ o _ ho => ?_
      rw [ho]
      exact Stays.bindLocal.map fun e i hid => ⟨i, rfl, hid⟩
  | ivar name =>
    obtain ⟨q, hq, heq⟩ := Option.map_eq_some_iff.mp hp
    cases heq
    exact Stays.ivarOf hM hq

theorem Stays.bindingToUpdate {p : Place} {mark : Mark} {target : Target} {op : String}
    (hp : (M.typing key).place? sc target = some p) :
    Stays M key c depth e₀ pending pending sc sc (fun e o => ∃ i, o = some i ∧ e.idAt p = some i)
      (c.bindingToUpdate mark target op) := by
  cases target with
  | «local» name =>
    refine (Stays.lookup_some hp).bind fun e₁ o _ ho => ?_
    obtain ⟨i, rfl, hid⟩ := ho
    exact Stays.pure fun e hext => ⟨i, rfl, hext.idAt hid⟩
  | ivar name => exact Stays.ivarOf hM hp

variable {t : Ty} {p : Place} (hreads : M.context.reads p t)
include hreads

theorem Stays.readIvar {name : String} {loc : Location}
    (hp : (M.typing key).ivarPlace? name = some p) :
    Stays M key c depth e₀ pending pending sc sc (fun _ a => a.PartOf t) (c.readIvar name loc) := by
  refine (Stays.ivarOf hM hp).bind fun e₁ o _ ho => ?_
  obtain ⟨i, rfl, hid⟩ := ho
  exact Stays.read hM.closed hid hreads

/-- A local that is visible is read. -/
theorem Stays.readLocal {name : String} {y : WalkM Ty}
    (hp : (M.typing key).place? sc (.local name) = some p) :
    Stays M key c depth e₀ pending pending sc sc (fun _ a => a.PartOf t) (do
      match ← Checking.lookup name with
      | some binding => c.read binding
      | none => y) := by
  refine (Stays.lookup_some hp).bind fun e₁ o _ ho => ?_
  obtain ⟨i, rfl, hid⟩ := ho
  exact Stays.read hM.closed hid hreads

theorem Stays.outType {target : Target} {loc : Location}
    (hp : (M.typing key).place? sc target = some p) :
    Stays M key c depth e₀ pending pending sc sc (fun _ a => a.PartOf t)
      (c.outType target loc) := by
  cases target with
  | «local» name => exact Stays.readLocal hM hreads hp
  | ivar name => exact Stays.readIvar hM hreads hp

end

/-- The variable behind an `out` argument need not be there. -/
theorem Stays.nativeOutType (hM : M.Runs key c) {target : Target} {loc : Location} {t : Ty}
    (hreads : ∀ p, (M.typing key).place? sc target = some p → M.context.reads p t)
    (hunknown : (M.typing key).place? sc target = none →
      t = .unresolved ∧ ∃ name, target = .local name) :
    Stays M key c depth e₀ pending pending sc sc (fun _ a => a.PartOf t)
      (c.nativeOutType target loc) := by
  cases hp : (M.typing key).place? sc target with
  | some p =>
    cases target with
    | «local» name => exact Stays.readLocal hM (hreads p hp) hp
    | ivar name => exact Stays.readIvar hM (hreads p hp) hp
  | none =>
    obtain ⟨rfl, name, rfl⟩ := hunknown hp
    refine (Stays.lookup_none (Option.map_eq_none_iff.mp hp)).bind fun e₁ o _ ho => ?_
    rw [ho]
    exact Stays.pure fun _ _ => .unresolved _

end UnionTyping
