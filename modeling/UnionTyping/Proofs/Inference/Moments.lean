/-
  UnionTyping/Proofs/Inference/Moments.lean
  =========================================
  **What is true at every moment of a run.**

  `Moment.Ok` is true at every moment of every run (`runsThrough_runAll`).  The
  argument goes along with that for repeating a check: a step that can be repeated
  begins and ends well, so what is left to show is what it goes through.
-/
import UnionTyping.Proofs.Inference.Chronicle
import UnionTyping.Proofs.Inference.Stability

namespace UnionTyping

/-! ### What is true at every moment -/

structure UnitRecord.Ok (T : Ty → Prop) (u : UnitRecord) : Prop where
  types : ∀ p ∈ u.types.entries, T p.2
  calls : ∀ p ∈ u.calls.entries, ∀ call ∈ p.2, call.Ok T
  result : T u.result

/-- A method is entered with instances of classes. -/
structure Instantiation.Concrete (key : Instantiation) : Prop where
  self : ∀ s, key.self = some s → s.IsCon
  args : ∀ a ∈ key.args, a.IsCon

/-- What is true at every moment of a run. -/
structure Moment.Ok (env : Env) (C : Ty → Prop) (v : Vocabulary) (m : Moment) : Prop where
  engine : m.engine.Ok env C v
  concrete : ∀ key, some key ∈ m.engine.keys → key.Concrete
  stored : ∀ u ∈ m.engine.units, u.Ok (Ty.Over C)
  findings : ∀ check ∈ m.underWay, check.walk.Ok (Ty.Over C) v m.engine.store.bindings.length
  instances : ∀ key, m.instances.lookup key = m.engine.unitOf key

/-- All types that are held at a moment satisfy `T`: those of bindings, those that units
    have found and are instances for, and those that the checks under way have found. -/
structure Moment.Holds (T : Ty → Prop) (m : Moment) : Prop where
  bindings : ∀ b ∈ m.engine.store.bindings, T b.current
  units : ∀ u ∈ m.engine.units, u.Ok T
  self : ∀ key, some key ∈ m.engine.keys → ∀ s, key.self = some s → T s
  args : ∀ key, some key ∈ m.engine.keys → ∀ a ∈ key.args, T a
  types : ∀ check ∈ m.underWay, ∀ p ∈ check.walk.types.entries, T p.2
  calls : ∀ check ∈ m.underWay, ∀ p ∈ check.walk.calls.entries, ∀ call ∈ p.2, call.Ok T

theorem Moment.Ok.holds {env : Env} {C : Ty → Prop} {v : Vocabulary} {m : Moment}
    (h : m.Ok env C v) : m.Holds (Ty.Over C) where
  bindings := fun b hb => (h.engine.store.bindings b hb).isOver
  units := h.stored
  self := fun key hkey => (h.engine.keys key hkey).self
  args := fun key hkey => (h.engine.keys key hkey).args
  types := fun check hcheck => (h.findings check hcheck).types
  calls := fun check hcheck => (h.findings check hcheck).calls

theorem Resolution.Ok.mono {T T' : Ty → Prop} (hT : ∀ t, T t → T' t) {call : Resolution}
    (h : call.Ok T) : call.Ok T' :=
  ⟨fun r hr => hT r (h.receiver r hr), fun a ha => hT a (h.args a ha), hT _ h.ret⟩

theorem Moment.Holds.mono {T T' : Ty → Prop} (hT : ∀ t, T t → T' t) {m : Moment}
    (h : m.Holds T) : m.Holds T' where
  bindings := fun b hb => hT _ (h.bindings b hb)
  units := fun u hu => ⟨fun p hp => hT _ ((h.units u hu).types p hp),
    fun p hp call hcall => ((h.units u hu).calls p hp call hcall).mono hT,
      hT _ (h.units u hu).result⟩
  self := fun key hkey s hs => hT s (h.self key hkey s hs)
  args := fun key hkey a ha => hT a (h.args key hkey a ha)
  types := fun check hcheck p hp => hT _ (h.types check hcheck p hp)
  calls := fun check hcheck p hp call hcall => (h.calls check hcheck p hp call hcall).mono hT

theorem UnitRecord.ok_fresh {T : Ty → Prop} (hT : T .unresolved) (key : Option Instantiation) :
    (UnitRecord.fresh key).Ok T :=
  ⟨(fun _ hp => nomatch hp), (fun _ hp => nomatch hp), hT⟩

namespace Moment.Ok

variable {env : Env} {C : Ty → Prop} {v : Vocabulary} {m : Moment} {e : Engine}

theorem start : Moment.start.Ok env C v where
  engine := ok_start
  concrete := by
    intro key hkey
    cases List.mem_singleton.mp hkey
  stored := by
    intro u hu
    rw [List.mem_singleton.mp hu]
    exact UnitRecord.ok_fresh Ty.Over.unresolved none
  findings := List.forall_mem_nil _
  instances := fun _ => rfl

theorem operation (h : m.Ok env C v) (he : m.engine = e) {op : Operation} {s : Store}
    (hok : Engine.Ok env C v { e with store := s })
    (hle : e.store.bindings.length ≤ s.bindings.length) :
    (m.next ⟨.operation op, { e with store := s }⟩).Ok env C v := by
  subst he
  exact ⟨hok, h.concrete, h.stored, fun check hcheck => (h.findings check hcheck).mono hle,
    h.instances⟩

theorem add (h : m.Ok env C v) (he : m.engine = e) {key : Instantiation}
    (hkey : key.Ok env (Ty.Over C)) (hconcrete : key.Concrete) (hnew : e.unitOf key = none) :
    (m.next ⟨.instantiated key, e.add key⟩).Ok env C v := by
  subst he
  -- the map has no entry that the new one could replace
  have hunknown : m.instances.lookup key = none := (h.instances key).trans hnew
  refine ⟨h.engine.add hkey hnew, ?_, ?_, h.findings, fun k => ?_⟩
  · intro k hk
    rw [Moment.engine_next, Engine.keys_add] at hk
    rcases List.mem_append.mp hk with hk | hk
    · exact h.concrete k hk
    · cases List.mem_singleton.mp hk
      exact hconcrete
  · intro u hu
    rcases List.mem_append.mp hu with hu | hu
    · exact h.stored u hu
    · rw [List.mem_singleton.mp hu]
      exact UnitRecord.ok_fresh Ty.Over.unresolved _
  · change (m.instances.insert key m.engine.units.length).lookup k = (m.engine.add key).unitOf k
    rw [InstanceTable.lookup_insert hunknown, h.instances, Engine.unitOf_add_eq]

theorem count (h : m.Ok env C v) (he : m.engine = e) :
    (m.next ⟨.counted, e.count⟩).Ok env C v := by
  subst he
  exact ⟨h.engine.count, h.concrete, h.stored, h.findings, h.instances⟩

theorem checkBegins (h : m.Ok env C v) (he : m.engine = e) (unit : UnitId)
    (cause : Option Location) (recheck : Bool) :
    (m.next ⟨.checkBegins unit cause recheck, e⟩).Ok env C v := by
  subst he
  exact ⟨h.engine, h.concrete, h.stored, List.forall_mem_cons.mpr ⟨Walk.ok_start, h.findings⟩,
    h.instances⟩

theorem found (h : m.Ok env C v) {task : CheckTask} {walk : Walk} {others : List OpenCheck}
    (hunder : m.underWay = ⟨task, walk⟩ :: others) (he : m.engine = e) {walk' : Walk}
    (hwalk : walk'.Ok (Ty.Over C) v e.store.bindings.length) :
    (m.next ⟨.found walk', e⟩).Ok env C v := by
  subst he
  have hothers := h.findings
  rw [hunder] at hothers
  refine ⟨h.engine, h.concrete, h.stored, ?_, h.instances⟩
  rw [Moment.next, hunder]
  exact List.forall_mem_cons.mpr ⟨hwalk, (List.forall_mem_cons.mp hothers).2⟩

/-- The innermost check comes to its end. -/
theorem checkEnds (h : m.Ok env C v) {check : OpenCheck} {others : List OpenCheck}
    (hunder : m.underWay = check :: others) (he : m.engine = e) {result : Ty}
    (hresult : result.Over C) (unit : UnitId) :
    (m.next ⟨.checkEnds result, e.record unit check.walk result⟩).Ok env C v := by
  subst he
  have hfindings := h.findings
  rw [hunder] at hfindings
  obtain ⟨hcheck, hothers⟩ := List.forall_mem_cons.mp hfindings
  refine ⟨h.engine.record unit check.walk result, ?_, ?_, ?_, fun key => ?_⟩
  · intro key hkey
    rw [Moment.engine_next, Engine.keys_record] at hkey
    exact h.concrete key hkey
  · exact Store.forall_mem_modify h.stored fun u _ => ⟨hcheck.types, hcheck.calls, hresult⟩
  · rw [Moment.next, hunder]
    exact hothers
  · rw [Moment.engine_next, Engine.unitOf_eq, Engine.keys_record, ← Engine.unitOf_eq]
    exact h.instances key

end Moment.Ok

/-! ### Steps of a check -/

abbrev InOrder (env : Env) (C : Ty → Prop) (v : Vocabulary) (past : List Entry) : Prop :=
  (Moment.after past).Ok env C v

theorem InOrder.concat {env : Env} {C : Ty → Prop} {v : Vocabulary} {past : List Entry}
    {entry : Entry} (h : ((Moment.after past).next entry).Ok env C v) :
    InOrder env C v (past ++ [entry]) := by
  rw [InOrder, Moment.after_concat]
  exact h

/-- From this beginning a step of a check goes only through moments that are in order,
    whatever other checks are under way. -/
def Through (c : Checking) (C : Ty → Prop) (v : Vocabulary) {α : Type} (x : WalkM α) (walk : Walk)
    (e : Engine) : Prop :=
  ∀ past task others, LeadsTo past (⟨task, walk⟩ :: others) e → InOrder c.env C v past →
    ChecksThrough (InOrder c.env C v) past task others x walk e

/-- A new instance is seen to in such a way that all moments on the way are in order. -/
def BeginsThrough (env : Env) (C : Ty → Prop) (v : Vocabulary)
    (begin : UnitId → Location → EngineM Unit) : Prop :=
  ∀ (past : List Entry) (checks : List OpenCheck) (e : Engine) (key : Instantiation)
    (loc : Location), LeadsTo past checks (e.add key) → InOrder env C v past →
    e.Ok env C v → e.unitOf key = none → key.Ok env (Ty.Over C) →
    RunsThrough (InOrder env C v) past (begin e.units.length loc) (e.add key)
      fun _ => UnderWay checks

namespace Through

open Replay

variable {c c' : Checking} {C : Ty → Prop} {v : Vocabulary} {I : Engine → Prop}
  {α β γ δ : Type} {walk : Walk} {e : Engine} {n : Nat}

theorem pure (a : α) : Through c C v (Pure.pure a) walk e := fun _ _ _ hled hm => .rest a hled hm

/-- A step on the findings that can be repeated. -/
theorem change {Q : Nat → Unit → β → Prop} {f : Walk → Walk} {y : WalkM β}
    (h : At c C v I n Q (WalkM.change f) y walk e) : Through c C v (WalkM.change f) walk e := by
  intro past task others hled hm
  obtain ⟨_, _, hach⟩ := h _ _ (runWalk_change f walk e)
  exact .change f hled hm
    (.concat (hm.found hled.underWay hled.engine (hach _ _ rfl).findings))

/-- An operation on the store that can be repeated. -/
theorem onStore {Q : Nat → α → β → Prop} {op : Operation} {f : Store → α × Store} {y : WalkM β}
    (h : At c C v I n Q (liftM (Engine.onStore op f)) y walk e) :
    Through c C v (liftM (Engine.onStore op f)) walk e := by
  intro past task others hled hm
  obtain ⟨hok, hgrows, _⟩ := h _ _ (runWalk_onStore op f walk e)
  exact .onStore hled hm (.concat (hm.operation hled.engine hok hgrows.extends.bindings_le))

theorem bind {Q : Nat → α → β → Prop} {x : WalkM α} {y : WalkM β} {f : α → WalkM γ}
    (hs : Situation c C v n walk e) (hx : At c C v I n Q x y walk e)
    (hthrough : Through c C v x walk e)
    (hf : ∀ n' a b walk₁ e₁, n ≤ n' → Q n' a b → Situation c C v n' walk₁ e₁ →
      Through c C v (f a) walk₁ e₁) : Through c C v (x >>= f) walk e := by
  intro past task others hled hm
  refine .seq (hthrough past task others hled hm) fun a walk₁ e₁ past₁ hr hled₁ hm₁ => ?_
  obtain ⟨hok, hgrows, hach⟩ := hx _ _ hr
  obtain ⟨n', b, hle, hsize, hQ, _⟩ := (hach a walk₁ rfl).repeats
  have hs₁ : Situation c C v n' walk₁ e₁ := ⟨hsize, (hach a walk₁ rfl).findings, hok,
    Nat.lt_of_lt_of_le hs.unit hgrows.extends.units_le⟩
  exact hf n' a b walk₁ e₁ hle hQ hs₁ past₁ task others hled₁ hm₁

/-- A look at the names and the findings, which does not change them. -/
theorem looked {f : Walk → α} : Through c C v (do return f (← get)) walk e := by
  intro past task others hled hm
  refine .seq (.look hled hm) fun w walk₁ e₁ past₁ hr hled₁ hm₁ => ?_
  exact .rest _ hled₁ hm₁

variable (hstable : Stable c.env C v I)
include hstable

theorem bindingOf {slot : Slot} (hs : Situation c C v n walk e)
    (hslot : slot.Fits c.env v e.units.length) :
    Through c C v (Checking.bindingOf slot) walk e :=
  onStore (At.bindingOf (c := c) hstable hs hslot)

theorem read {i : BindingId} (hs : Situation c C v n walk e) (hi : i < n) :
    Through c C v (c.read i) walk e :=
  onStore (y := c.read i) (At.read hstable rfl hs hi)

theorem assign {i : BindingId} {ty : Ty} {site : Location} (hC : ∀ m, C m → m.IsCon)
    (hs : Situation c C v n walk e) (hi : i < n) (hty : ty.Over C) :
    Through c C v (c.assign i site ty) walk e :=
  onStore (y := c.assign i site ty) (At.assign hstable hC hs hi hty)

theorem readReturn {unit : UnitId} (hs : Situation c C v n walk e) (hlt : unit < e.units.length) :
    Through c C v (c.readReturn unit) walk e := by
  have hslot : (Slot.returned unit).Fits c.env v e.units.length := hlt
  refine bind hs (At.bindingOf hstable hs hslot) (bindingOf hstable hs hslot) ?_
  intro n₁ i j walk₁ e₁ _ hij hs₁
  refine bind (y := c.read i) hs₁ (At.read hstable rfl hs₁ hij.2) (read hstable hs₁ hij.2) ?_
  intro n₂ ty ty' walk₂ e₂ _ _ _
  exact pure _

/-- A method is entered, which may begin a check of a new instance. -/
theorem instanceOf {site : Location} {method : MethodId} {self : Option Ty} {args : List Ty}
    (hs : Situation c C v n walk e) (hbegin : Begins c.env C v I c.begin)
    (hthrough : BeginsThrough c.env C v c.begin)
    (hkey : Instantiation.Ok c.env (Ty.Over C) ⟨method, self, args⟩)
    (hconcrete : Instantiation.Concrete ⟨method, self, args⟩) :
    Through c C v (c.instanceOf site method self args) walk e := by
  intro past task others hled hm
  unfold Checking.instanceOf
  refine .seq (.run (.look hled.engine hm hled.underWay) fun _ _ h => h)
    fun engine walk₁ e₁ past₁ hr hled₁ hm₁ => ?_
  cases hr
  cases hknown : e.unitOf ⟨method, self, args⟩ with
  | some unit =>
    refine .seq (.rest unit hled₁ hm₁) fun a walk₂ e₂ past₂ hr hled₂ hm₂ => ?_
    cases hr
    exact readReturn hstable hs (Engine.unitOf_lt hknown) past₂ task others hled₂ hm₂
  | none =>
    have hadded : InOrder c.env C v
        (past₁ ++ [⟨.instantiated ⟨method, self, args⟩, e.add ⟨method, self, args⟩⟩]) :=
      .concat (hm₁.add hled₁.engine hkey hconcrete hknown)
    refine .seq (.run (Q := fun _ => UnderWay (⟨task, walk⟩ :: others))
      (.act hm₁ hadded (hled₁.underWay.concat fun _ => rfl)) fun _ _ h => h)
      fun unit walk₂ e₂ past₂ hr hled₂ hm₂ => ?_
    cases hr
    have hbegun := hthrough past₂ _ e ⟨method, self, args⟩ (c.cause.getD site) hled₂ hm₂ hs.engine
      hknown hkey
    refine .seq (.run hbegun fun _ _ h => h) fun _ walk₃ e₃ past₃ hr hled₃ hm₃ => ?_
    change runWalk _ walk (e.add ⟨method, self, args⟩) = _ at hr
    rw [runWalk_lift] at hr
    rcases hb : runEngine (c.begin e.units.length (c.cause.getD site)) (e.add ⟨method, self, args⟩)
      with ⟨stop | _, e₄⟩
    · rw [hb] at hr
      cases hr
    -- units are only ever added, so the new one is still found behind its check
    · rw [hb] at hr
      cases hr
      obtain ⟨hok, hgrows, hkeys, _⟩ := hbegin _ _ _ _ _ hs.engine hknown hkey hb
      have hs₃ : Situation c C v n walk e₃ :=
        ⟨Nat.le_trans hs.size hgrows.extends.bindings_le,
          hs.findings.mono hgrows.extends.bindings_le, hok,
          Nat.lt_of_lt_of_le hs.unit hgrows.extends.units_le⟩
      have hunit := Engine.unitOf_of_prefix hkeys (Engine.unitOf_add hknown)
      refine .seq (.rest _ hled₃ hm₃) fun unit walk₄ e₄ past₄ hr hled₄ hm₄ => ?_
      cases hr
      exact readReturn hstable hs₃ (Engine.unitOf_lt hunit) past₄ task others hled₄ hm₄

/-- A name is declared in the innermost scope. -/
theorem bindLocal {name : String} (hs : Situation c C v n walk e) (hname : v.names name) :
    Through c C v (c.bindLocal name) walk e := by
  intro past task others hled hm
  have hslot : (Slot.local c.unit walk.scopes.owner name).Fits c.env v e.units.length :=
    ⟨hs.unit, hname, fun _ hcall => hs.findings.scopes.owner hcall⟩
  refine .seq (.look hled hm) fun w walk₁ e₁ past₁ hr hled₁ hm₁ => ?_
  cases hr
  refine .seq (bindingOf hstable hs hslot past₁ task others hled₁ hm₁)
    fun i walk₂ e₂ past₂ hr hled₂ hm₂ => ?_
  obtain ⟨hok, hgrows, hach⟩ := At.bindingOf (c := c) hstable hs hslot _ _ hr
  obtain ⟨n', j, _, hsize, hij, _⟩ := (hach i walk₂ rfl).repeats
  have hfindings := (hach i walk₂ rfl).findings
  have hdeclared : Walk.Ok (Ty.Over C) v e₂.store.bindings.length
      { walk₂ with scopes := walk₂.scopes.declare name i } :=
    hfindings.withScopes (hfindings.scopes.declare (Nat.lt_of_lt_of_le (hij.1 ▸ hij.2) hsize))
  exact .seq
    (.change _ hled₂ hm₂ (.concat (hm₂.found hled₂.underWay hled₂.engine hdeclared)))
    fun _ walk₃ e₃ past₃ hr hled₃ hm₃ => .rest i hled₃ hm₃

omit hstable in
theorem fail {problem : Problem} {loc : Location} (hs : Situation c C v n walk e) :
    Through c C v (c.fail problem loc) walk e := by
  intro past task others hled hm
  refine .seq (.change _ hled hm ?_) fun _ walk₁ e₁ past₁ hr hled₁ hm₁ => .rest _ hled₁ hm₁
  refine .concat (hm.found hled.underWay hled.engine ?_)
  split
  · exact hs.findings
  · exact hs.findings.withDiagnostics _

end Through

/-- A step that can be repeated and goes only through moments that are in order. -/
def Steady (c : Checking) (C : Ty → Prop) (v : Vocabulary) (I : Engine → Prop) {α β : Type}
    (n : Nat) (Q : Nat → α → β → Prop) (x : WalkM α) (y : WalkM β) : Prop :=
  Replay.Step c C v I n Q x y ∧
    ∀ walk e, Replay.Situation c C v n walk e → Through c C v x walk e

namespace Steady

variable {c : Checking} {C : Ty → Prop} {v : Vocabulary} {I : Engine → Prop}

theorem uniform (hstable : Stable c.env C v I) (hC : ∀ m, C m → m.IsCon)
    (hdomain : TypeDomain c.env v (Ty.Over C)) (hself : ∀ s, c.self = some s → s.Over C)
    (hbegin : Begins c.env C v I c.begin) (hthrough : BeginsThrough c.env C v c.begin) :
    Uniform c c v (Ty.Over C) (fun t => t.Over C ∧ t.IsCon) (· ≤ ·) Replay.SameBinding
      (Steady c C v I) :=
  have U : Uniform c c v (Ty.Over C) (Ty.Over C) (· ≤ ·) Replay.SameBinding (Replay.Step c C v I) :=
    Replay.uniform hstable ⟨.refl _, rfl, rfl⟩ hC hdomain hself hbegin
  { env := U.env
    self := U.self
    types := U.types
    ofSelf := U.ofSelf
    onSelf := U.onSelf
    ret := fun hQ => ⟨U.ret hQ, fun _ _ _ => .pure _⟩
    seq := fun hx hf => ⟨U.seq hx.1 fun n a b hle hQ => (hf n a b hle hQ).1, fun walk e hs =>
      .bind hs (hx.1 walk e hs) (hx.2 walk e hs) fun n a b walk₁ e₁ hle hQ =>
        (hf n a b hle hQ).2 walk₁ e₁⟩
    later := U.later
    lookup := ⟨U.lookup, fun _ _ _ => .looked⟩
    enter := fun hcall => ⟨U.enter hcall, fun walk e hs => .change (U.enter hcall walk e hs)⟩
    leave := ⟨U.leave, fun walk e hs => .change (U.leave walk e hs)⟩
    loopDepth := ⟨U.loopDepth, fun _ _ _ => .looked⟩
    deepen := ⟨U.deepen, fun walk e hs => .change (U.deepen walk e hs)⟩
    surface := ⟨U.surface, fun walk e hs => .change (U.surface walk e hs)⟩
    fail := ⟨U.fail, fun _ _ hs => .fail hs⟩
    noteType := fun hid ht =>
      ⟨U.noteType hid ht, fun walk e hs => .change (U.noteType hid ht walk e hs)⟩
    noteCall := fun hid hreceiver hargs hret => ⟨U.noteCall hid hreceiver hargs hret,
      fun walk e hs => .change (U.noteCall hid hreceiver hargs hret walk e hs)⟩
    bindLocal := fun hname => ⟨U.bindLocal hname, fun _ _ hs => .bindLocal hstable hs hname⟩
    ivarBinding := fun {_ owner _} howner hname => ⟨U.ivarBinding howner hname, fun _ _ hs => by
      obtain ⟨self, _, hclass⟩ := Option.bind_eq_some_iff.mp howner
      exact .bindingOf hstable hs ⟨⟨self, hclass⟩, hname⟩⟩
    returnedBinding := ⟨U.returnedBinding, fun _ _ hs => .bindingOf hstable hs hs.unit⟩
    read := fun hij => ⟨U.read hij, fun _ _ hs => .read hstable hs hij.2⟩
    assign := fun hij ht => ⟨U.assign hij ht, fun _ _ hs => .assign hstable hC hs hij.2 ht.2⟩
    domain := hdomain
    entered := And.left
    members := fun ht hm => ⟨hdomain.members ht hm, hC _ (ht.all _ hm)⟩
    instanceOf := fun hlive htakes hself hargs =>
      ⟨U.instanceOf hlive htakes (fun s hs => (hself s hs).1) fun a ha => (hargs a ha).1,
        fun _ _ hs => .instanceOf hstable hs hbegin hthrough
          ⟨⟨_, hlive, rfl, htakes⟩, fun s hs => (hself s hs).1, fun a ha => (hargs a ha).1⟩
          ⟨fun s hs => (hself s hs).2, fun a ha => (hargs a ha).2⟩⟩ }

/-- The check of a unit. -/
theorem unitBody (hstable : Stable c.env C v I) (hkeeps : c.env.KeepsTo C v)
    (hself : ∀ s, c.self = some s → s.Over C) (hbegin : Begins c.env C v I c.begin)
    (hthrough : BeginsThrough c.env C v c.begin) {key : Option Instantiation}
    (hkey : ∀ k, key = some k → ∀ a ∈ k.args, a.Over C) :
    Steady c C v I 0 (fun _ => SameType (Ty.Over C)) (c.unitBody key) (c.unitBody key) :=
  (uniform hstable hkeeps.con hkeeps.domain hself hbegin hthrough).lockstep.unitBody (w := 0)
    (SameType.sameInstance hkey) (hkeeps.speaks key)

end Steady

/-! ### Checks of units, and whole runs -/

section

variable {env : Env} {C : Ty → Prop} {v : Vocabulary} {past : List Entry}
  {checks : List OpenCheck} {e : Engine}

theorem runsThrough_checkOnce (hkeeps : env.KeepsTo C v) {begin : Engine.Begin} {recheck : Bool}
    {I : Engine → Prop} (hstable : Stable env C v I) (hbegin : Begins env C v I (begin recheck))
    (hthrough : BeginsThrough env C v (begin recheck)) {unit : UnitId} {cause : Option Location}
    (hled : LeadsTo past checks e) (hm : InOrder env C v past) (hunit : unit < e.units.length) :
    RunsThrough (InOrder env C v) past (Engine.checkOnce env begin unit cause recheck) e
      fun _ => UnderWay checks := by
  let c := e.checkingOf env begin unit cause recheck
  have hok : e.Ok env C v := hled.engine ▸ hm.engine
  have hkeyOk : ∀ k, e.keyOf unit = some k → k.Ok env (Ty.Over C) := fun k hk =>
    hok.keys k (Engine.mem_keys hk)
  have hself : ∀ s, c.self = some s → s.Over C := by
    intro s hs
    obtain ⟨k, hk, hks⟩ := Option.bind_eq_some_iff.mp hs
    exact (hkeyOk k hk).self s hks
  have hsteady := Steady.unitBody (c := c) hstable hkeeps hself hbegin hthrough fun k hk =>
    (hkeyOk k hk).args
  have hs : Replay.Situation c C v 0 .start e.count :=
    ⟨Nat.zero_le _, Walk.ok_start, hok.count, hunit⟩
  have hcounted : InOrder env C v (past ++ [⟨.counted, e.count⟩]) :=
    .concat (hm.count hled.engine)
  have hbegins : InOrder env C v
      (past ++ [⟨.counted, e.count⟩] ++ [⟨.checkBegins unit cause recheck, e.count⟩]) :=
    .concat (hcounted.checkBegins (Moment.engine_after_concat _ _) unit cause recheck)
  refine .checkOnce rfl hled.underWay hm hcounted hbegins
    (fun hbegun => hsteady.2 .start e.count hs _ _ checks hbegun hbegins)
    fun result walk e₁ past₁ hr hled₁ hm₁ => ?_
  obtain ⟨_, _, hach⟩ := hsteady.1 .start e.count hs _ _ hr
  obtain ⟨_, _, _, _, hresult, _⟩ := (hach result walk rfl).repeats
  exact .concat (hm₁.checkEnds hled₁.underWay hled₁.engine hresult.2 unit)

/-- New instances are seen to in order at every level of nesting. -/
theorem beginsThrough_nested (hkeeps : env.KeepsTo C v) (depth : Nat) (recheck : Bool) :
    BeginsThrough env C v (Engine.nestedBegin env depth recheck) := by
  induction depth generalizing recheck with
  | zero =>
    intro past checks e key loc hled hm hok hnew hkey
    obtain ⟨hadded, _⟩ := enqueue_new hok hnew hkey (some loc) rfl
    change RunsThrough _ past (Engine.enqueue e.units.length (some loc)) _ _
    exact .onStore hled.underWay hm (.concat (hm.operation hled.engine hadded (Nat.le_refl _)))
  | succ depth ih =>
    intro past checks e key loc hled hm hok hnew hkey
    change RunsThrough _ past (Engine.checkNested env depth _ (some loc) recheck) _ _
    rw [Engine.checkNested_eq]
    exact runsThrough_checkOnce hkeeps (stable_settled hkeeps)
      (begins_nested hkeeps depth recheck [])
      (ih recheck) hled hm (e.lt_length_add key)

theorem runsThrough_checkNested (hkeeps : env.KeepsTo C v) (hled : LeadsTo past checks e)
    (hm : InOrder env C v past) (depth : Nat) {unit : UnitId} (hunit : unit < e.units.length)
    (cause : Option Location) (recheck : Bool) :
    RunsThrough (InOrder env C v) past (Engine.checkNested env depth unit cause recheck) e
      fun _ => UnderWay checks := by
  rw [Engine.checkNested_eq]
  exact runsThrough_checkOnce hkeeps (stable_settled hkeeps) (begins_nested hkeeps depth recheck [])
    (beginsThrough_nested hkeeps depth recheck) hled hm hunit

/-- Units of the state may be checked, and only such units wait. -/
theorem sustains_inOrder (hkeeps : env.KeepsTo C v) :
    Sustains env (InOrder env C v) fun past unit _ _ =>
      unit < (Moment.after past).engine.units.length where
  check := fun hled hm hunit =>
    runsThrough_checkNested hkeeps hled hm _ (hled.engine ▸ hunit) _ _
  pop := by
    intro past e ⟨hengine, _⟩ hm
    have hok : e.Ok env C v := hengine ▸ hm.engine
    unfold Store.pop
    cases hq : e.store.queue with
    | nil => exact ⟨.concat (hm.operation hengine hok (Nat.le_refl _)), nofun⟩
    | cons next rest =>
      refine ⟨.concat (hm.operation hengine (hok.withQueue hq) (Nat.le_refl _)),
        fun _ hnext => ?_⟩
      cases hnext
      rw [Moment.engine_after_concat]
      exact hok.store.queued next (by simp [hq])
  sealed := by
    intro past e ⟨hengine, _⟩ hm _ _
    have hok : e.Ok env C v := hengine ▸ hm.engine
    exact .concat
      (hm.operation hengine (hok.sealed hkeeps) hok.extends_sealed.bindings_le)

/-- A run goes only through moments that are in order, whatever its limits. -/
theorem runsThrough_runAll (hkeeps : env.KeepsTo C v) :
    RunsThrough (InOrder env C v) [] (Engine.runAll env) .start fun _ => UnderWay [] :=
  (sustains_inOrder hkeeps).runsThrough_runAll .start Nat.one_pos

end

end UnionTyping
