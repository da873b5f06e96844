/-
  UnionTyping/Proofs/Typing/CallRules.lean
  ========================================
  **What a check reads and enters is as the rules say.**

  A typing `Describes` the check of a unit in a state when it is about the declarations
  of the check and the instance of the unit, its places are those of the state, and the
  instances are entered that the noted calls invoke.  What a frozen step reads, assigns
  and calls then satisfies the premises of the typing rules: the place of a variable is
  that of the binding which the check finds, and a call that is carried out has the type
  of its answers.  A call that waits for the type of an argument has no type yet, and the
  rules allow that.
-/
import UnionTyping.Proofs.Inference.Visits
import UnionTyping.Proofs.Typing.Judgement

namespace UnionTyping

open Ty (Over Proper)

/-- The typing is about this check in this state. -/
structure Typing.Describes (T : Typing) (c : Checking) (s : Engine) : Prop where
  env : T.env = c.env
  holds_eq : T.context.holds = s.context.holds
  reads_eq : T.context.reads = s.context.reads
  entered : ∀ node (call : Resolution) (key : Instantiation) unit, T.called node call →
    call.callee = .method key.method unit → s.unitOf key = some unit → T.context.entered key
  self : T.self = c.self
  unit : s.unitAt T.key = some c.unit

variable {T : Typing} {c : Checking} {s : Engine} {w w' : Walk}

/-! ### Places and bindings -/

theorem Engine.lt_of_idAt {e : Engine} {p : Place} {i : BindingId} (h : e.idAt p = some i) :
    i < e.store.bindings.length := by
  obtain ⟨slot, _, hfind⟩ := Option.bind_eq_some_iff.mp h
  obtain ⟨b, hb, _⟩ := Store.find_eq_some hfind
  exact (List.getElem?_eq_some_iff.mp hb).1

theorem Engine.bindingAt_eq {e : Engine} {p : Place} {i : BindingId} (h : e.idAt p = some i) :
    e.bindingAt p = e.store.bindings[i]? := by
  rw [bindingAt, h]
  rfl

theorem Engine.idAt_local {e : Engine} {key : Option Instantiation} {unit : UnitId}
    (h : e.unitAt key = some unit) (scope : Scope) (name : String) :
    e.idAt (.local key scope name) = e.store.find (.local unit scope name) := by
  rw [idAt, slotAt, h]
  rfl

theorem Engine.idAt_returned {e : Engine} {key : Instantiation} {unit : UnitId}
    (h : e.unitOf key = some unit) :
    e.idAt (.returned key) = e.store.find (.returned unit) := by
  rw [idAt, slotAt, h]
  rfl

namespace Frozen

variable (hstill : Still c s)
include hstill

/-- An assignment that is frozen was made before. -/
theorem of_assign {i : BindingId} {site : Location} {t : Ty} {u : Unit}
    (hi : i < s.store.bindings.length) (ht : t.Over Proper)
    (h : Frozen s (c.assign i site t) w u w') :
    w' = w ∧ ∃ b, s.store.bindings[i]? = some b ∧ t.Within b.current := by
  have hrun := h.run
  rw [Checking.assign, runWalk_onStore] at hrun
  injection hrun with hresult hstate
  cases hresult
  have hget : s.store.bindings[i]? = some s.store.bindings[i] := List.getElem?_eq_getElem hi
  refine ⟨rfl, _, hget, fun m hm => ?_⟩
  have hany := Store.any_assign (fun _ hm => hm.isCon) hstill.ok.store hi ht hm site
    (c.cause.getD site)
  have hstore : (s.store.assign i site t (c.cause.getD site)).2 = s.store :=
    congrArg Engine.store hstate
  rw [hstore, Store.typeOf_eq hget] at hany
  exact hany

omit hstill in
/-- A local that is declared has its binding already. -/
theorem of_bindLocal {name : String} {i : BindingId} (h : Frozen s (c.bindLocal name) w i w') :
    s.store.find (.local c.unit w.scopes.owner name) = some i ∧
      w' = { w with scopes := w.scopes.declare name i } := by
  have hrun := h.run
  rw [Checking.bindLocal, runWalk_bind_ok (runWalk_get w s)] at hrun
  obtain ⟨j, w₁, e₁, hbinding, hrun⟩ := runWalk_bind_eq_ok hrun
  have hlast : runWalk (do
      WalkM.change fun w : Walk => { w with scopes := w.scopes.declare name j }
      return j) w₁ e₁ = (.ok (j, { w₁ with scopes := w₁.scopes.declare name j }), e₁) := rfl
  have hlast' := hlast.symm.trans hrun
  cases hlast'
  obtain ⟨hfind, rfl⟩ := Frozen.of_bindingOf (w := w) ⟨h.start, hbinding, h.silent⟩
  exact ⟨hfind, rfl⟩

end Frozen

/-! ### Variables -/

namespace Typing.Describes

variable (hT : T.Describes c s) (hstill : Still c s)
include hT

/-- A name that is visible means the place of a local. -/
theorem exists_place (hnamed : w.scopes.Named s.store c.unit) {name : String} {i : BindingId}
    (hi : w.scopes.lookup name = some i) :
    ∃ p, T.place? w.scopes.outline (.local name) = some p ∧ s.idAt p = some i := by
  obtain ⟨scope, hscope, hfind⟩ := hnamed.exists_scope hi
  refine ⟨.local T.key scope name, ?_, (Engine.idAt_local hT.unit scope name).trans hfind⟩
  rw [place?, hscope]
  rfl

/-- Where there can be no instance variable a problem is reported. -/
theorem of_ivarOf {name : String} {loc : Location} {o : Option BindingId}
    (h : Frozen s (c.ivarOf name loc) w o w') :
    ∃ p i, T.ivarPlace? name = some p ∧ o = some i ∧ s.idAt p = some i ∧ w' = w := by
  unfold Checking.ivarOf at h
  unfold ivarPlace?
  rw [hT.self, hT.env]
  cases howner : c.self.bind c.env.classes.classOf with
  | none =>
    rw [howner] at h
    exact absurd h Frozen.not_fail_map
  | some owner =>
    rw [howner] at h
    simp only at h ⊢
    cases hkind : c.env.classes.kindOf owner with
    | value =>
      rw [hkind] at h
      exact absurd h Frozen.not_fail_map
    | reference =>
      rw [hkind] at h
      obtain ⟨i, rfl, hbinding⟩ := h.of_map
      obtain ⟨hfind, rfl⟩ := hbinding.of_bindingOf
      exact ⟨.ivar owner name, i, rfl, rfl, hfind, rfl⟩

/-- The binding that is changed is that of the place. -/
theorem of_bindingToUpdate (hnamed : w.scopes.Named s.store c.unit) {mark : Mark}
    {target : Target} {op : String} {o : Option BindingId}
    (h : Frozen s (c.bindingToUpdate mark target op) w o w') :
    ∃ p i, T.place? w.scopes.outline target = some p ∧ o = some i ∧ s.idAt p = some i ∧ w' = w := by
  cases target with
  | «local» name =>
    obtain ⟨i, hi, hfound⟩ := h.exists_of_lookup Frozen.not_fail_map
    obtain ⟨rfl, rfl⟩ := hfound.of_pure
    obtain ⟨p, hp, hid⟩ := hT.exists_place hnamed hi
    exact ⟨p, i, hp, rfl, hid, rfl⟩
  | ivar name => exact hT.of_ivarOf h

/-- The binding that is assigned is that of the place, and a local is visible afterwards. -/
theorem of_bindingToAssign (hnamed : w.scopes.Named s.store c.unit) {target : Target}
    {loc : Location} {o : Option BindingId} (h : Frozen s (c.bindingToAssign target loc) w o w') :
    ∃ p i, T.assigned? w.scopes.outline target = some (p, w'.scopes.outline) ∧ o = some i ∧
      s.idAt p = some i ∧ w'.scopes.Named s.store c.unit ∧
        ∀ node, w'.found node = w.found node := by
  cases target with
  | «local» name =>
    have hfound := h.of_lookup
    rw [assigned?]
    cases hi : w.scopes.lookup name with
    | none =>
      rw [hi] at hfound
      obtain ⟨i, rfl, hbind⟩ := hfound.of_map
      obtain ⟨hfind, rfl⟩ := hbind.of_bindLocal
      rw [hnamed.lookup_eq_none hi]
      refine ⟨.local T.key w.scopes.outline.owner name, i, ?_, rfl, ?_, hnamed.declare hfind,
        fun _ => rfl⟩
      · rw [w.scopes.outline_declare]
      · rw [w.scopes.owner_outline, Engine.idAt_local hT.unit]
        exact hfind
    | some i =>
      rw [hi] at hfound
      obtain ⟨rfl, rfl⟩ := hfound.of_pure
      obtain ⟨scope, hscope, hfind⟩ := hnamed.exists_scope hi
      rw [hscope]
      exact ⟨.local T.key scope name, i, rfl, rfl,
        (Engine.idAt_local hT.unit scope name).trans hfind, hnamed, fun _ => rfl⟩
  | ivar name =>
    obtain ⟨p, i, hp, rfl, hid, rfl⟩ := hT.of_ivarOf h
    exact ⟨p, i, by rw [assigned?, hp]; rfl, rfl, hid, hnamed, fun _ => rfl⟩

include hstill

/-- A binding that is read gives what its place may hold. -/
theorem reads {p : Place} {i : BindingId} {t : Ty} (hid : s.idAt p = some i)
    (h : Frozen s (c.read i) w t w') : T.context.reads p t ∧ t.Over Proper ∧ w' = w := by
  obtain ⟨b, hget, hb, rfl, hmem, rfl⟩ := h.of_read hstill (Engine.lt_of_idAt hid)
  have hbinding := (Engine.bindingAt_eq hid).trans hget
  rw [hT.reads_eq]
  exact ⟨⟨hb.isOver, b, hbinding, List.ne_nil_of_mem hmem, rfl⟩, hb.isOver, rfl⟩

/-- The place of a binding that is assigned may hold what was assigned. -/
theorem takes {p : Place} {i : BindingId} {site : Location} {t : Ty} {u : Unit}
    (hid : s.idAt p = some i) (ht : t.Over Proper) (h : Frozen s (c.assign i site t) w u w') :
    T.context.Takes p t ∧ w' = w := by
  obtain ⟨rfl, b, hget, hwithin⟩ := h.of_assign hstill (Engine.lt_of_idAt hid) ht
  have hbinding := (Engine.bindingAt_eq hid).trans hget
  rw [Context.Takes, hT.holds_eq]
  exact ⟨fun m hm => ⟨ht.all m hm, b, hbinding, hwithin m hm⟩, rfl⟩

theorem of_readIvar {name : String} {loc : Location} {t : Ty}
    (h : Frozen s (c.readIvar name loc) w t w') :
    ∃ p, T.ivarPlace? name = some p ∧ T.context.reads p t ∧ w' = w := by
  have L := hstill.lockstep .full
  obtain ⟨o, w₁, _, hivar, hread⟩ := h.bind hstill (L.ivarOf trivial) fun n o o' _ ho => by
    cases ho with
    | none => exact L.ret L.types.unresolved
    | some hij => exact L.read hij
  obtain ⟨p, i, hp, rfl, hid, rfl⟩ := hT.of_ivarOf hivar
  obtain ⟨hreads, _, rfl⟩ := hT.reads hstill hid hread
  exact ⟨p, hp, hreads, rfl⟩

theorem of_outType (hnamed : w.scopes.Named s.store c.unit) {target : Target} {loc : Location}
    {t : Ty} (h : Frozen s (c.outType target loc) w t w') :
    ∃ p, T.place? w.scopes.outline target = some p ∧ T.context.reads p t ∧ w' = w := by
  cases target with
  | «local» name =>
    obtain ⟨i, hi, hfound⟩ := h.exists_of_lookup Frozen.not_fail
    obtain ⟨p, hp, hid⟩ := hT.exists_place hnamed hi
    obtain ⟨hreads, _, rfl⟩ := hT.reads hstill hid hfound
    exact ⟨p, hp, hreads, rfl⟩
  | ivar name => exact hT.of_readIvar hstill h

theorem of_nativeOutType (hnamed : w.scopes.Named s.store c.unit) {target : Target} {loc : Location}
    {t : Ty} (h : Frozen s (c.nativeOutType target loc) w t w') :
    (∀ p, T.place? w.scopes.outline target = some p → T.context.reads p t) ∧
      (T.place? w.scopes.outline target = none → t = .unresolved ∧ ∃ name, target = .local name) ∧
      w' = w := by
  cases target with
  | «local» name =>
    have hfound := h.of_lookup
    cases hi : w.scopes.lookup name with
    | none =>
      rw [hi] at hfound
      obtain ⟨rfl, rfl⟩ := hfound.of_pure
      rw [place?, hnamed.lookup_eq_none hi]
      exact ⟨fun _ hp => (nomatch hp), fun _ => ⟨rfl, name, rfl⟩, rfl⟩
    | some i =>
      rw [hi] at hfound
      obtain ⟨p, hp, hid⟩ := hT.exists_place hnamed hi
      obtain ⟨hreads, _, rfl⟩ := hT.reads hstill hid hfound
      rw [hp]
      exact ⟨fun _ hp => Option.some.inj hp ▸ hreads, (nomatch ·), rfl⟩
  | ivar name =>
    obtain ⟨p, hp, hreads, rfl⟩ := hT.of_readIvar hstill h
    rw [place?, hp]
    exact ⟨fun _ hp => Option.some.inj hp ▸ hreads, (nomatch ·), rfl⟩

end Typing.Describes

/-! ### Addresses of variables -/

namespace Typing.Describes

variable (hT : T.Describes c s) (hstill : Still c s) {mark : Mark} {given : Nat} {hasBlock : Bool}
include hT hstill

/-- The address of a binding is taken without arguments and without a block, and the type
    that is read is noted. -/
theorem of_pointerTo {receiver : NodeId} {p : Place} {i : BindingId} {t : Ty}
    (hid : s.idAt p = some i)
    (h : Frozen s (c.pointerTo mark receiver given hasBlock i) w t w') :
    given = 0 ∧ hasBlock = false ∧ w'.scopes = w.scopes ∧ ∃ element, T.context.reads p element ∧
      t = (if element.isUnresolved then .unresolved else .pointer element) ∧
      w'.types.find? receiver = some element := by
  obtain ⟨hgiven, hblock, element, typed, hread, rfl, hdone⟩ := h.of_pointerTo
  have hnoted : (w.types.insert receiver element).find? receiver = some element := by
    rw [NodeMap.find?_insert h.start.typesAscending, if_pos rfl]
  refine ⟨hgiven, hblock, ?_⟩
  rcases hdone with ⟨hu, rfl, rfl⟩ | ⟨hu, rfl, rfl⟩
  · exact ⟨rfl, element, (hT.reads hstill hid hread).1, by rw [hu]; rfl, hnoted⟩
  · exact ⟨rfl, element, (hT.reads hstill hid hread).1, by rw [hu]; rfl, hnoted⟩

/-- The address of a variable. -/
theorem of_takePointer {receiver : Expr} {t : Ty} (hnamed : w.scopes.Named s.store c.unit)
    (h : Frozen s (c.takePointer mark receiver given hasBlock) w t w') :
    given = 0 ∧ hasBlock = false ∧ w'.scopes = w.scopes ∧ ∃ target p element,
      receiver.variable? = some target ∧ T.place? w.scopes.outline target = some p ∧
      T.context.reads p element ∧
      t = (if element.isUnresolved then .unresolved else .pointer element) ∧
      w'.types.find? receiver.id = some element := by
  rcases h.takePointer_cases hstill with
    ⟨m, name, i, rfl, hi, hpointer⟩ | ⟨m, name, i, w₁, rfl, _, hivar, hpointer⟩
  · obtain ⟨p, hp, hid⟩ := hT.exists_place hnamed hi
    obtain ⟨hgiven, hblock, hscopes, element, hreads, ht, hnoted⟩ :=
      hT.of_pointerTo hstill hid hpointer
    exact ⟨hgiven, hblock, hscopes, .local name, p, element, rfl, hp, hreads, ht, hnoted⟩
  · obtain ⟨p, _, hp, hsame, hid, rfl⟩ := hT.of_ivarOf hivar
    cases hsame
    obtain ⟨hgiven, hblock, hscopes, element, hreads, ht, hnoted⟩ :=
      hT.of_pointerTo hstill hid hpointer
    exact ⟨hgiven, hblock, hscopes, .ivar name, p, element, rfl, hp, hreads, ht, hnoted⟩

end Typing.Describes

/-! ### Calls without arguments -/

namespace Frozen

variable (hstill : Still c s) {mark : Mark} {self : Option Ty} {name : String}
  {candidates : List Candidate} (hself : ∀ t, self = some t → t.Over Proper)
  (hcandidates : ∀ k ∈ candidates, k.Offered c.env (SameType (Over Proper)))
include hstill

section

include hself hcandidates

/-- A call that has a match is noted. -/
theorem noted_of_enterAll {result t : Ty} {found : List Overload.Match}
    (hfound : Fitting candidates found) (hresult : result.Over Proper)
    (hsome : w.callsAt mark.id ≠ [] ∨ found ≠ [])
    (h : Frozen s (c.enterAll mark self name candidates result found) w t w') :
    w'.callsAt mark.id ≠ [] := by
  induction found generalizing w result with
  | nil =>
    obtain ⟨_, rfl⟩ := h.of_pure
    exact hsome.resolve_right fun hne => hne rfl
  | cons m rest ih =>
    obtain ⟨k, p, w₁, _, _, hp, hok, _, hothers⟩ :=
      h.enter_of_enterAll hstill hself hcandidates hfound hresult
    refine ih (List.forall_mem_cons.mp hfound).2 (hresult.union (fun _ hm => hm.isCon) hp)
      (Or.inl ?_) hothers
    obtain ⟨call, hcall, _⟩ := Walk.exists_callsAt_noted hok.callsAscending mark.id
      ⟨self, p.2, m.args, p.1⟩
    exact List.ne_nil_of_mem hcall

/-- A call without arguments does not wait, so it is noted. -/
theorem noted_of_callAmong {t : Ty}
    (h : Frozen s (do return (← c.callAmong mark self name candidates []).getD .unresolved)
      w t w') :
    w'.callsAt mark.id ≠ [] := by
  obtain ⟨o, rfl, hcall⟩ := h.of_map
  obtain ⟨t, found, rfl, hresolve, hall⟩ := hcall.of_callAmong (List.forall_mem_nil _)
  have hover : ∀ a ∈ ([] : List Ty), a.Over Proper := List.forall_mem_nil _
  refine hall.noted_of_enterAll hstill hself hcandidates (fitting_of_resolve hresolve hover)
    .unresolved (Or.inr ?_)
  rintro rfl
  have hchoices := Overload.map_args_of_resolve hresolve fun a ha => (hover a ha).distinct
  exact absurd hchoices.symm (List.cons_ne_nil _ _)

end

theorem noted_of_callTopLevel {bare : Bool} {t : Ty}
    (h : Frozen s (c.callTopLevel mark name [] bare) w t w') : w'.callsAt mark.id ≠ [] := by
  obtain ⟨_, hcall⟩ := h.of_callTopLevel
  have hself : ∀ t, (none : Option Ty) = some t → t.Over Proper := fun _ ht => nomatch ht
  exact hcall.noted_of_callAmong hstill hself fun _ => Candidate.offered_of_mem_topLevel

/-- A name that is a call is noted as one. -/
theorem noted_of_callOnSelf {bare : Bool} {t : Ty}
    (h : Frozen s (c.callOnSelf mark name [] bare) w t w') : w'.callsAt mark.id ≠ [] := by
  rcases h.of_callOnSelf with ⟨self, hself, _, hcall⟩ | ⟨_, hcall⟩
  · have hover := hstill.self self hself
    exact hcall.noted_of_callAmong hstill (fun _ ht => Option.some.inj ht ▸ hover)
      ((hstill.uniform .full).domain.offered hover)
  · exact hcall.noted_of_callTopLevel hstill

end Frozen

/-! ### Answers of a wider type -/

section

variable {t t' : Ty} (hwithin : t.Within t')
include hwithin

theorem Typing.gives_mono {self : Option Ty} {args : List Ty} {k : Candidate}
    (h : T.context.Gives self args t k) : T.context.Gives self args t' k := by
  cases k with
  | method entry =>
    obtain ⟨hentered, u, hreads, hu⟩ := h
    exact ⟨hentered, u, hreads, Ty.Within.trans hu hwithin⟩
  | primitive p => exact Ty.Within.trans h hwithin

theorem Typing.Answers.mono {self : Option Ty} {candidates : List Candidate} {args : List Ty}
    (h : T.Answers self candidates args t) : T.Answers self candidates args t' where
  arity := h.arity
  chosen hknown as has := by
    obtain ⟨i, k, hi, hk, hgives⟩ := h.chosen hknown as has
    exact ⟨i, k, hi, hk, T.gives_mono hwithin hgives⟩

end

/-! ### Calls -/

namespace Typing.Describes

variable (hT : T.Describes c s) (hstill : Still c s) {mark : Mark} {self : Option Ty}
    {name : String}
include hT hstill

/-- A candidate that is entered, and noted as called, gives what its place or its signature
    says. -/
theorem gives {site : Location} {args : List Ty} {k : Candidate} {p : Ty × Callee}
    (hself : ∀ t, self = some t → t.Over Proper)
    (hk : k.Offered c.env (SameType (Over Proper))) (htakes : k.signature.takes args.length = true)
    (hargs : ∀ a ∈ args, a.Over Proper) {node : NodeId} {call : Resolution}
    (hcalled : T.called node call) (hcallee : call.callee = p.2)
    (h : Frozen s (c.enter site self name args k) w p w') :
    T.context.Gives self args p.1 k := by
  cases k with
  | method entry =>
    obtain ⟨q, rfl, hq⟩ := h.of_map
    obtain ⟨unit, hunit, hreturn⟩ :=
      hq.of_instanceOf hstill ⟨⟨entry, hk, rfl, htakes⟩, hself, hargs⟩
    obtain ⟨i, hfind, _, hreturned, hread⟩ :=
      hreturn.of_readReturn hstill (Engine.unitOf_lt hunit)
    obtain ⟨hreads, _, _⟩ := hT.reads hstill ((Engine.idAt_returned hunit).trans hfind) hread
    have hentered := hT.entered node call ⟨entry.id, self, args⟩ unit hcalled
      (hcallee.trans (congrArg _ hreturned)) hunit
    exact ⟨hentered, _, hreads, .refl _⟩
  | primitive prim =>
    obtain ⟨rfl, _⟩ := h.of_pure
    exact .refl _

/-- Each match gives at most what the call gives. -/
theorem gives_of_enterAll {candidates : List Candidate} (hself : ∀ t, self = some t → t.Over Proper)
    (hcandidates : ∀ k ∈ candidates, k.Offered c.env (SameType (Over Proper))) {result t : Ty}
    {found : List Overload.Match} (hfound : Frozen.Fitting candidates found)
    (hresult : result.Over Proper) (hcalled : ∀ call ∈ w'.callsAt mark.id, T.called mark.id call)
    (h : Frozen s (c.enterAll mark self name candidates result found) w t w') :
    t.Over Proper ∧ result.Within t ∧
      ∀ m ∈ found, ∃ k, candidates[m.candidate]? = some k ∧ T.context.Gives self m.args t k := by
  induction found generalizing w result with
  | nil =>
    obtain ⟨rfl, _⟩ := h.of_pure
    exact ⟨hresult, .refl _, List.forall_mem_nil _⟩
  | cons m rest ih =>
    obtain ⟨hm, hfit⟩ := List.forall_mem_cons.mp hfound
    obtain ⟨k, p, w₁, hget, htakes, hp, hok, henter, hothers⟩ :=
      h.enter_of_enterAll hstill hself hcandidates hfound hresult
    have hk := hcandidates k (List.mem_of_getElem? hget)
    obtain ⟨call, hcall, hsame⟩ := Walk.exists_callsAt_noted hok.callsAscending mark.id
      ⟨self, p.2, m.args, p.1⟩
    have hcallee : call.callee = p.2 := by
      rcases hsame with rfl | hsame
      · rfl
      · exact (Resolution.beq_iff.mp hsame).2.1
    have hunion := hresult.union (fun _ hm => hm.isCon) hp
    obtain ⟨ht, hwithin, hrest⟩ := ih hfit hunion hothers
    refine ⟨ht, (Ty.within_union_left hresult hp).trans hwithin,
      List.forall_mem_cons.mpr ⟨⟨k, hget, ?_⟩, hrest⟩⟩
    have hgives := hT.gives hstill hself hk htakes hm.1
      (hcalled call (hothers.callsAt_subset (keepsCalls.enterAll _ _ _ _) hcall)) hcallee henter
    exact T.gives_mono ((Ty.within_union_right hresult hp).trans hwithin) hgives

/-- A call among candidates has the type of its answers. -/
theorem answers {candidates : List Candidate} {args : List Ty} {o : Option Ty}
    (hself : ∀ t, self = some t → t.Over Proper)
    (hcandidates : ∀ k ∈ candidates, k.Offered c.env (SameType (Over Proper)))
    (hargs : ∀ a ∈ args, a.Over Proper)
    (hcalled : ∀ call ∈ w'.callsAt mark.id, T.called mark.id call)
    (h : Frozen s (c.callAmong mark self name candidates args) w o w') :
    ∃ t, o = some t ∧ t.Over Proper ∧ T.Answers self candidates args t := by
  unfold Checking.callAmong at h
  simp only at h
  split at h
  · exact absurd h Frozen.not_fail_map
  · rename_i harity
    split at h
    · -- the call waits for the type of an argument
      rename_i hwaits
      obtain ⟨rfl, _⟩ := h.of_pure
      refine ⟨.unresolved, rfl, .unresolved, harity, fun hknown => ?_⟩
      rw [hknown] at hwaits
      cases hwaits
    · split at h
      · exact absurd h Frozen.not_fail_map
      · rename_i found hresolve
        obtain ⟨t, rfl, hall⟩ := h.of_map
        obtain ⟨ht, _, hgives⟩ := hT.gives_of_enterAll hstill hself hcandidates
          (Frozen.fitting_of_resolve hresolve hargs) .unresolved hcalled hall
        refine ⟨t, rfl, ht, harity, fun _ as has => ?_⟩
        have hchoice : as ∈ found.map Overload.Match.args := by
          rw [Overload.map_args_of_resolve hresolve fun a ha => (hargs a ha).distinct]
          exact Overload.mem_choices.mpr has
        obtain ⟨m, hm, rfl⟩ := List.mem_map.mp hchoice
        obtain ⟨k, hk, hgives⟩ := hgives m hm
        obtain ⟨_, hchosen⟩ :=
          (Overload.mem_of_matchAll (Overload.resolve_eq_ok hresolve) m hm).resolve_left
            List.not_mem_nil
        rw [hT.env]
        exact ⟨m.candidate, k, hchosen, hk, hgives⟩

/-- The same when a call that failed has no type. -/
theorem answers_getD {candidates : List Candidate} {args : List Ty} {t : Ty}
    (hself : ∀ t, self = some t → t.Over Proper)
    (hcandidates : ∀ k ∈ candidates, k.Offered c.env (SameType (Over Proper)))
    (hargs : ∀ a ∈ args, a.Over Proper)
    (hcalled : ∀ call ∈ w'.callsAt mark.id, T.called mark.id call)
    (h : Frozen s (do return (← c.callAmong mark self name candidates args).getD .unresolved)
      w t w') :
    t.Over Proper ∧ T.Answers self candidates args t := by
  obtain ⟨o, rfl, hcall⟩ := h.of_map
  obtain ⟨u, rfl, hu, hanswers⟩ := hT.answers hstill hself hcandidates hargs hcalled hcall
  exact ⟨hu, hanswers⟩

section

variable {args : List Ty} (hargs : ∀ a ∈ args, a.Over Proper)
  (hcalled : ∀ call ∈ w'.callsAt mark.id, T.called mark.id call)
include hargs hcalled

/-- A call on several receivers has the type of the answers of each. -/
theorem answersOnEach {result t : Ty} {receivers : List Ty} (hr : ∀ r ∈ receivers, Proper r)
    (hresult : result.Over Proper)
    (h : Frozen s (c.callOnEach mark name args result receivers) w t w') :
    t.Over Proper ∧ result.Within t ∧ ∀ r ∈ receivers, T.env.candidates r name ≠ [] ∧
      T.Answers (some r) (T.env.candidates r name) args t := by
  have U := hstill.uniform .full
  induction receivers generalizing w result with
  | nil =>
    obtain ⟨rfl, _⟩ := h.of_pure
    exact ⟨hresult, .refl _, List.forall_mem_nil _⟩
  | cons r rest ih =>
    obtain ⟨hhead, htail⟩ := List.forall_mem_cons.mp hr
    have hself : ∀ t, some r = some t → t.Over Proper := by
      rintro t ⟨⟩
      exact hhead.isOver
    have hcandidates : ∀ k ∈ c.env.candidates r name, k.Offered c.env (SameType (Over Proper)) :=
      U.domain.offered hhead.isOver
    rw [Checking.callOnEach] at h
    split at h
    · exact absurd h Frozen.not_fail
    · rename_i hne
      obtain ⟨o, w₁, _, hone, h⟩ := h.bind hstill
        (U.lockstep.callAmong trivial (.some (.self hhead.isOver))
          (fun t ht => Option.some.inj ht ▸ hhead.isCon) hcandidates
          (SameType.forall₂_iff.mpr ⟨rfl, hargs⟩)) fun n o o' _ ho => by
          cases ho with
          | none => exact U.ret U.types.unresolved
          | some ht =>
            obtain ⟨rfl, ht⟩ := ht
            exact U.callOnEach trivial hargs (fun m hm => (htail m hm).isOver)
              (U.types.union (.self hresult) (.self ht)).2
      have hkept : w₁.callsAt mark.id ⊆ w'.callsAt mark.id := h.callsAt_subset (by
        cases o with
        | none => exact keepsCalls.pure _
        | some _ => exact keepsCalls.callOnEach _ _)
      obtain ⟨u, rfl, hu, hanswers⟩ := hT.answers hstill hself hcandidates hargs
        (fun call hcall => hcalled call (hkept hcall)) hone
      have hunion := hresult.union (fun _ hm => hm.isCon) hu
      obtain ⟨ht, hwithin, hrest⟩ := ih htail hunion h
      refine ⟨ht, (Ty.within_union_left hresult hu).trans hwithin,
        List.forall_mem_cons.mpr ⟨?_, hrest⟩⟩
      rw [hT.env]
      refine ⟨List.isEmpty_eq_false_iff.mp (Bool.eq_false_iff.mpr hne), ?_⟩
      exact hanswers.mono ((Ty.within_union_right hresult hu).trans hwithin)

theorem answersOn {receiver t : Ty} (hreceiver : receiver.Over Proper)
    (h : Frozen s (c.callOn mark receiver name args) w t w') :
    t.Over Proper ∧ T.AnswersOn receiver name args t := by
  obtain ⟨ht, _, hanswers⟩ := hT.answersOnEach hstill hargs hcalled hreceiver.all .unresolved h
  exact ⟨ht, hanswers⟩

theorem answersTop {bare : Bool} {t : Ty}
    (h : Frozen s (c.callTopLevel mark name args bare) w t w') :
    t.Over Proper ∧ T.AnswersTop name args t := by
  obtain ⟨hne, hcall⟩ := h.of_callTopLevel
  have hself : ∀ t, (none : Option Ty) = some t → t.Over Proper := fun _ ht => nomatch ht
  obtain ⟨ht, hanswers⟩ := hT.answers_getD hstill hself
    (fun _ => Candidate.offered_of_mem_topLevel) hargs hcalled hcall
  refine ⟨ht, ?_⟩
  rw [AnswersTop, hT.env]
  exact ⟨hne, hanswers⟩

theorem answersSelf {bare : Bool} {t : Ty}
    (h : Frozen s (c.callOnSelf mark name args bare) w t w') :
    t.Over Proper ∧ T.AnswersSelf name args t := by
  rw [AnswersSelf, hT.self, hT.env]
  rcases h.of_callOnSelf with ⟨self, hself, hne, hcall⟩ | ⟨hnone, hcall⟩
  · have hover := hstill.self self hself
    simp only [hself, hne, if_false]
    exact hT.answers_getD hstill (fun _ ht => Option.some.inj ht ▸ hover)
      ((hstill.uniform .full).domain.offered hover) hargs hcalled hcall
  · have htop := hT.answersTop hstill hargs hcalled hcall
    cases hself : c.self with
    | none => exact htop
    | some self =>
      simp only [hnone self hself, if_true]
      exact htop

theorem answersNew {ref : TypeRef} {ty t : Ty} (hty : c.env.classes.typeOf ref = .ok ty)
    (h : Frozen s (c.callNew mark ty args) w t w') : t.Over Proper ∧ T.AnswersNew ty args t := by
  have hover : ty.Over Proper := (c.env.classes.plain_typeOf ref hty).proper.isOver
  obtain ⟨rfl, id, w₁, hid, hok, rfl, hinitialized⟩ := h.of_callNew hstill hargs hty
  rw [AnswersNew, hT.env]
  refine ⟨hover, rfl, id, hid, ?_⟩
  rcases hinitialized with ⟨hnone, hargs, _⟩ | ⟨hsome, _, hcall⟩
  · simp only [hnone, if_true]
    exact hargs
  · obtain ⟨u, _, _, hanswers⟩ := hT.answers hstill (fun t ht => Option.some.inj ht ▸ hover)
      (fun _ => Candidate.offered_of_mem_lookup) hargs
      (fun call hmem => hcalled call (Walk.mem_callsAt_of_mem hok.callsAscending hmem)) hcall
    simp only [hsome, if_false]
    exact ⟨u, hanswers⟩

theorem answersClass {className : String} {ref : TypeRef} {ty t : Ty}
    (hty : c.env.classes.typeOf ref = .ok ty)
    (h : Frozen s (c.callOnClass mark className ty name args) w t w') :
    t.Over Proper ∧ T.AnswersClass className ty name args t := by
  rw [AnswersClass]
  rcases h.of_callOnClass with ⟨hnew, hcall⟩ | ⟨hmalloc, hpointer, hcall⟩
  · rw [if_pos hnew]
    exact hT.answersNew hstill hargs hcalled hty hcall
  · have hnew : name ≠ "new" := by
      rw [hmalloc]
      decide
    rw [if_neg hnew]
    have hproper : Proper ty := (c.env.classes.plain_typeOf ref hty).proper
    obtain ⟨head, params, p, rfl, hp, hcall⟩ := hcall.of_callMalloc hproper.isCon
    have hcandidates : ∀ k ∈ [Candidate.primitive p], k.Offered c.env (SameType (Over Proper)) :=
      fun k hk => (Candidate.offered_of_malloc hproper hp k hk).mono
        (SameType.mono fun _ ht => ht.isOver)
    obtain ⟨ht, hanswers⟩ := hT.answers_getD hstill
      (fun _ ht => Option.some.inj ht ▸ hproper.isOver) hcandidates hargs hcalled hcall
    exact ⟨ht, hmalloc, hpointer, head, params, p, rfl, hp, hanswers⟩

end

end Typing.Describes

end UnionTyping
