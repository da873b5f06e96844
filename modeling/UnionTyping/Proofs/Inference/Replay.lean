/-
  UnionTyping/Proofs/Inference/Replay.lean
  ========================================
  **A check that reported nothing can be repeated.**

  Suppose that a check of a unit reports no problem and that the unit is not
  waiting at its end.  Then all it has read was current to the end.  In any later
  state that still holds what it has read the same steps find the same types, and
  they leave that state as it is: the slots are there already, the instances have
  their units, and each assignment was made before (`Replay.unitBody`).

  On the way the file shows what every step of a check does to the state of a run:
  it keeps `Engine.Ok` and makes the state grow, whether it comes to its end or
  gives up.  The argument is the same for anything else that a state may keep, an
  invariant `I` of runs.
-/
import UnionTyping.Proofs.Inference.Growth

namespace UnionTyping

/-- A new instance is seen to in such a way that the state grows, and that `I` holds
    again afterwards if it held before the instance was added. -/
def Begins (env : Env) (C : Ty → Prop) (v : Vocabulary) (I : Engine → Prop)
    (begin : UnitId → Location → EngineM Unit) : Prop :=
  ∀ (e : Engine) (key : Instantiation) (loc : Location) (r : Except IterationLimit Unit)
    (e' : Engine), e.Ok env C v → e.unitOf key = none → key.Ok env (Ty.Over C) →
    runEngine (begin e.units.length loc) (e.add key) = (r, e') →
    e'.Ok env C v ∧ e.Grows e' ∧ (e.add key).keys <+: e'.keys ∧ (r = .ok () → I e → I e')

/-- Steps on the store alone keep `I`. -/
def Stable (env : Env) (C : Ty → Prop) (v : Vocabulary) (I : Engine → Prop) : Prop :=
  ∀ e e' : Engine, e.Ok env C v → e'.Ok env C v → e.Grows e' → e'.units = e.units → I e → I e'

namespace Replay

variable {c c' : Checking} {C : Ty → Prop} {v : Vocabulary} {I : Engine → Prop}
  {α β γ δ : Type}

/-- What a step of the check begins with; there are at least `n` bindings. -/
structure Situation (c : Checking) (C : Ty → Prop) (v : Vocabulary) (n : Nat) (walk : Walk)
    (e : Engine) : Prop where
  size : n ≤ e.store.bindings.length
  findings : walk.Ok (Ty.Over C) v e.store.bindings.length
  engine : e.Ok c.env C v
  unit : c.unit < e.units.length

/-- What is true when a step came to its end with the result `a`; the step `y` of the
    other check repeats it. -/
structure Achieves (c : Checking) (C : Ty → Prop) (v : Vocabulary) (I : Engine → Prop) (n : Nat)
    (Q : Nat → α → β → Prop) (y : WalkM β) (walk : Walk) (e : Engine) (a : α) (walk' : Walk)
    (e' : Engine) : Prop where
  findings : walk'.Ok (Ty.Over C) v e'.store.bindings.length
  reported : walk.diagnostics <+: walk'.diagnostics
  untouched : ∀ node, ¬ v.ids node → walk'.found node = walk.found node
  keeps : I e → I e'
  repeats : ∃ n' b, n ≤ n' ∧ n' ≤ e'.store.bindings.length ∧ Q n' a b ∧
    (walk'.diagnostics = [] → ¬ e'.store.queue.holds c.unit = true →
      ∀ t, Engine.Ok c.env C v t → e'.Extends t → Engine.Holds c.unit e' t →
        runWalk y walk t = (.ok (b, walk'), t))

/-- What is true of a step from one walk and one state, however it ends. -/
def At (c : Checking) (C : Ty → Prop) (v : Vocabulary) (I : Engine → Prop) (n : Nat)
    (Q : Nat → α → β → Prop) (x : WalkM α) (y : WalkM β) (walk : Walk) (e : Engine) : Prop :=
  ∀ r e', runWalk x walk e = (r, e') → e'.Ok c.env C v ∧ e.Grows e' ∧
    ∀ a walk', r = .ok (a, walk') → Achieves c C v I n Q y walk e a walk' e'

def Step (c : Checking) (C : Ty → Prop) (v : Vocabulary) (I : Engine → Prop) {α β : Type} (n : Nat)
    (Q : Nat → α → β → Prop) (x : WalkM α) (y : WalkM β) : Prop :=
  ∀ walk e, Situation c C v n walk e → At c C v I n Q x y walk e

/-- Both checks mean one binding, which is among the first `n`. -/
def SameBinding (n : Nat) (i j : BindingId) : Prop := i = j ∧ i < n

/-! ### Steps one after the other -/

theorem At.pure {n : Nat} {Q : Nat → α → β → Prop} {a : α} {b : β} {walk : Walk} {e : Engine}
    (hs : Situation c C v n walk e) (hQ : Q n a b) :
    At c C v I n Q (Pure.pure a) (Pure.pure b) walk e := by
  intro r e' hr
  rw [runWalk_pure] at hr
  cases hr
  refine ⟨hs.engine, .refl e, fun a' walk' hok => ?_⟩
  cases hok
  exact ⟨hs.findings, List.prefix_rfl, fun _ _ => rfl, id, n, b, Nat.le_refl n, hs.size, hQ,
    fun _ _ t _ _ _ => runWalk_pure b walk t⟩

theorem At.bind {n : Nat} {Q : Nat → α → β → Prop} {S : Nat → γ → δ → Prop} {x : WalkM α}
    {y : WalkM β} {f : α → WalkM γ} {g : β → WalkM δ} {walk : Walk} {e : Engine}
    (hs : Situation c C v n walk e) (hx : At c C v I n Q x y walk e)
    (hf : ∀ n' a b walk₁ e₁, n ≤ n' → Q n' a b → Situation c C v n' walk₁ e₁ → e.Grows e₁ →
      At c C v I n' S (f a) (g b) walk₁ e₁) :
    At c C v I n S (x >>= f) (y >>= g) walk e := by
  intro r e' hr
  rcases runWalk_bind_eq hr with ⟨stop, hstop, rfl⟩ | ⟨a, walk₁, e₁, hrx, hrf⟩
  · obtain ⟨hok, hgrows, _⟩ := hx _ _ hstop
    exact ⟨hok, hgrows, fun a walk' hne => nomatch hne⟩
  · obtain ⟨hok₁, hgrows₁, hx⟩ := hx _ _ hrx
    have hach := hx a walk₁ rfl
    have hkeeps₁ := hach.keeps
    have hdiag₁ := hach.reported
    have hfound₁ := hach.untouched
    obtain ⟨n₁, b, hle₁, hsize₁, hQ, hrepeat₁⟩ := hach.repeats
    have hs₁ : Situation c C v n₁ walk₁ e₁ := ⟨hsize₁, hach.findings, hok₁,
      Nat.lt_of_lt_of_le hs.unit hgrows₁.extends.units_le⟩
    obtain ⟨hok, hgrows, hf⟩ := hf n₁ a b walk₁ e₁ hle₁ hQ hs₁ hgrows₁ _ _ hrf
    refine ⟨hok, hgrows₁.trans hgrows, fun d walk' hd => ?_⟩
    obtain ⟨hwalk, hdiag, hfound, hkeeps, n₂, b₂, hle₂, hsize₂, hS, hrepeat⟩ := hf d walk' hd
    refine ⟨hwalk, hdiag₁.trans hdiag, fun node hnode => (hfound node hnode).trans
      (hfound₁ node hnode), fun hI => hkeeps (hkeeps₁ hI), n₂, b₂,
      Nat.le_trans hle₁ hle₂, hsize₂, hS, fun hnil hidle t ht hext hholds => ?_⟩
    -- what the first step has read is still current, since the second did not put the unit on
    -- the list
    have hnil₁ : walk₁.diagnostics = [] := List.prefix_nil.mp (hnil ▸ hdiag)
    have hext₁ : e₁.Extends t := hgrows.extends.trans hext
    have hholds₁ : Engine.Holds c.unit e₁ t := hholds.of_grows hgrows hidle
    rw [runWalk_bind_ok
      (hrepeat₁ hnil₁ (Engine.idle_of_idle hgrows.store hidle) t ht hext₁ hholds₁)]
    exact hrepeat hnil hidle t ht hext hholds

theorem Step.bind {n : Nat} {Q : Nat → α → β → Prop} {S : Nat → γ → δ → Prop} {x : WalkM α}
    {y : WalkM β} {f : α → WalkM γ} {g : β → WalkM δ} (hx : Step c C v I n Q x y)
    (hf : ∀ n' a b, n ≤ n' → Q n' a b → Step c C v I n' S (f a) (g b)) :
    Step c C v I n S (x >>= f) (y >>= g) := fun walk e hs =>
  At.bind hs (hx walk e hs) fun n' a b walk₁ e₁ hle hQ hs₁ _ => hf n' a b hle hQ walk₁ e₁ hs₁

/-! ### Steps on the findings -/

/-- A step on the findings that reports no problem. -/
theorem step_change {n : Nat} {f : Walk → Walk}
    (hok : ∀ walk m, n ≤ m → walk.Ok (Ty.Over C) v m → (f walk).Ok (Ty.Over C) v m)
    (hdiag : ∀ walk, (f walk).diagnostics = walk.diagnostics)
    (hfound : ∀ walk m, walk.Ok (Ty.Over C) v m → ∀ node, ¬ v.ids node →
      (f walk).found node = walk.found node) :
    Step c C v I n (fun _ (_ _ : Unit) => True) (WalkM.change f) (WalkM.change f) := by
  intro walk e hs r e' hr
  rw [runWalk_change] at hr
  cases hr
  refine ⟨hs.engine, .refl e, fun a walk' ha => ?_⟩
  cases ha
  refine ⟨hok walk _ hs.size hs.findings, ?_, hfound walk _ hs.findings, id, n, (), Nat.le_refl n,
    hs.size, trivial,
    fun _ _ t _ _ _ => runWalk_change f walk t⟩
  exact (hdiag walk).symm ▸ List.prefix_rfl

theorem step_lookup {n : Nat} {name : String} :
    Step c C v I n (fun n' => Option.Rel (SameBinding n')) (Checking.lookup name)
      (Checking.lookup name) := by
  intro walk e hs r e' hr
  rw [runWalk_lookup] at hr
  cases hr
  refine ⟨hs.engine, .refl e, fun a walk' ha => ?_⟩
  cases ha
  refine ⟨hs.findings, List.prefix_rfl, fun _ _ => rfl, id, _, walk.scopes.lookup name, hs.size,
    Nat.le_refl _, ?_,
    fun _ _ t _ _ _ => runWalk_lookup name walk t⟩
  cases hi : walk.scopes.lookup name with
  | none => exact .none
  | some i => exact .some ⟨rfl, hs.findings.scopes.lookup_lt hi⟩

theorem step_loopDepth {n : Nat} :
    Step c C v I n (fun _ => Eq) Checking.loopDepth Checking.loopDepth := by
  intro walk e hs r e' hr
  rw [runWalk_loopDepth] at hr
  cases hr
  refine ⟨hs.engine, .refl e, fun a walk' ha => ?_⟩
  cases ha
  exact ⟨hs.findings, List.prefix_rfl, fun _ _ => rfl, id, n, walk.loopDepth, Nat.le_refl n,
    hs.size, rfl, fun _ _ t _ _ _ => runWalk_loopDepth walk t⟩

/-- A problem is reported, so nothing has to be repeated. -/
theorem step_fail {n : Nat} {problem : Problem} {loc : Location} :
    Step c C v I n (fun _ => SameType (Ty.Over C)) (c.fail problem loc) (c'.fail problem loc) := by
  intro walk e hs r e' hr
  have hrun : ∃ walk', runWalk (c.fail problem loc) walk e = (.ok (.unresolved, walk'), e) ∧
      walk'.Ok (Ty.Over C) v e.store.bindings.length ∧ walk.diagnostics <+: walk'.diagnostics ∧
      (∀ node, walk'.found node = walk.found node) ∧ walk'.diagnostics ≠ [] := by
    rw [Checking.fail, runWalk_bind_ok (runWalk_change _ walk e), runWalk_pure]
    refine ⟨_, rfl, ?_⟩
    split
    · rename_i hany
      refine ⟨hs.findings, List.prefix_rfl, fun _ => rfl, fun hnil => ?_⟩
      rw [hnil] at hany
      cases hany
    · exact ⟨hs.findings.withDiagnostics _, List.prefix_append _ _, fun _ => rfl, by simp⟩
  obtain ⟨walk₁, hrun, hwalk, hdiag, hfound, hne⟩ := hrun
  rw [hrun] at hr
  cases hr
  refine ⟨hs.engine, .refl e, fun a walk' ha => ?_⟩
  cases ha
  exact ⟨hwalk, hdiag, fun node _ => hfound node, id, n, .unresolved, Nat.le_refl n, hs.size,
    .self Ty.Over.unresolved,
    fun hnil => absurd hnil hne⟩

/-! ### Steps on the store -/

variable (hstable : Stable c.env C v I)
include hstable

theorem At.onStore {n n' : Nat} {Q : Nat → α → β → Prop} {op op' : Operation}
    {f : Store → α × Store}
    {g : Store → β × Store} {walk : Walk} {e : Engine} {b : β} (hs : Situation c C v n walk e)
    (hgrows : e.store.Grows (f e.store).2)
    (hwoken : (f e.store).2.queue = e.store.queue ∨ e.store.Widens (f e.store).2)
    (hok : (f e.store).2.Ok C (Slot.Fits c.env v e.units.length) e.units.length)
    (hle : n ≤ n') (hsize : n' ≤ (f e.store).2.bindings.length) (hQ : Q n' (f e.store).1 b)
    (hrepeat : ∀ t, Engine.Ok c.env C v t → (f e.store).2.Extends t.store →
      Engine.Holds c.unit { e with store := (f e.store).2 } t → g t.store = (b, t.store)) :
    At c C v I n Q (liftM (Engine.onStore op f)) (liftM (Engine.onStore op' g)) walk e := by
  intro r e' hr
  rw [runWalk_onStore] at hr
  cases hr
  have hok' := hs.engine.of_store hok
  have hgrows' := Engine.Grows.of_store hgrows hwoken
  refine ⟨hok', hgrows', fun a walk' ha => ?_⟩
  cases ha
  refine ⟨hs.findings.mono hgrows.bindings.length_le, List.prefix_rfl, fun _ _ => rfl,
    hstable _ _ hs.engine hok' hgrows' rfl, n', b, hle, hsize, hQ, fun _ _ t ht hext hholds => ?_⟩
  rw [runWalk_onStore, hrepeat t ht hext.bindings hholds]

theorem At.bindingOf {n : Nat} {slot : Slot} {walk : Walk} {e : Engine}
    (hs : Situation c C v n walk e) (hslot : slot.Fits c.env v e.units.length) :
    At c C v I n SameBinding (Checking.bindingOf slot) (Checking.bindingOf slot) walk e := by
  have hfind := Store.find_intern e.store slot
  obtain ⟨b, hb, _⟩ := Store.find_eq_some hfind
  have hlt := (List.getElem?_eq_some_iff.mp hb).1
  exact At.onStore hstable hs (Store.grows_intern e.store slot)
    (Or.inl (Store.queue_intern e.store slot)) (hs.engine.store.intern hslot)
    (Nat.le_trans hs.size (Store.grows_intern e.store slot).bindings.length_le) (Nat.le_refl _)
    ⟨rfl, hlt⟩ fun t _ hext _ => Store.intern_again hext

theorem At.read {n : Nat} {i : BindingId} {walk : Walk} {e : Engine} (hunit : c'.unit = c.unit)
    (hs : Situation c C v n walk e) (hi : i < n) :
    At c C v I n (fun _ => SameType (Ty.Over C)) (c.read i) (c'.read i) walk e := by
  have hlt : i < e.store.bindings.length := Nat.lt_of_lt_of_le hi hs.size
  have hb : e.store.bindings[i]? = some e.store.bindings[i] := List.getElem?_eq_getElem hlt
  have hgrows := Store.grows_read e.store i c.unit
  refine At.onStore hstable hs hgrows (Or.inl rfl) (hs.engine.store.read i hs.unit) (Nat.le_refl n)
    (Nat.le_trans hs.size hgrows.bindings.length_le) (b := e.store.typeOf i) ⟨rfl, ?_⟩
    fun t ht hext hholds => ?_
  · rw [Store.read, Store.typeOf_eq hb]
    exact (hs.engine.store.getElem? hb).isOver
  · obtain ⟨b₁, hb₁, hmem, hcurrent⟩ := Store.mem_readers_read hb c.unit
    obtain ⟨b₂, hb₂, hgrows₂⟩ := hext i b₁ hb₁
    rw [hunit, Store.read_again ht.store hb₂ (hgrows₂.readers hmem), Store.typeOf_eq hb,
      hholds i b₁ b₂ hb₁ hb₂ hmem, hcurrent]

theorem At.assign {n : Nat} {i : BindingId} {ty : Ty} {site : Location} {walk : Walk} {e : Engine}
    (hC : ∀ m, C m → m.IsCon) (hs : Situation c C v n walk e) (hi : i < n) (hty : ty.Over C) :
    At c C v I n (fun _ _ _ => True) (c.assign i site ty) (c'.assign i site ty) walk e := by
  have hgrows := Store.grows_assign hC hs.engine.store i hty site (c.cause.getD site)
  refine At.onStore hstable hs hgrows
    (Store.widens_assign hC hs.engine.store i hty site (c.cause.getD site))
    (hs.engine.store.assign hC i hty site (c.cause.getD site)) (Nat.le_refl n)
    (Nat.le_trans hs.size hgrows.bindings.length_le) (b := ()) trivial fun t ht hext _ => ?_
  rw [Store.assign_again hC hs.engine.store ht.store hty (Nat.lt_of_lt_of_le hi hs.size) site
    (c.cause.getD site) (c'.cause.getD site) hext]

/-! ### Instances -/

theorem At.readReturn {n : Nat} {unit : UnitId} {walk : Walk} {e : Engine}
    (hunit : c'.unit = c.unit) (hs : Situation c C v n walk e) (hlt : unit < e.units.length) :
    At c C v I n (fun _ (a b : UnitId × Ty) => a = b ∧ a.2.Over C) (c.readReturn unit)
      (c'.readReturn unit) walk e := by
  have hslot : (Slot.returned unit).Fits c.env v e.units.length := hlt
  refine At.bind hs (At.bindingOf hstable hs hslot) fun n₁ i j walk₁ e₁ _ hij hs₁ _ => ?_
  obtain ⟨rfl, hi⟩ := hij
  refine At.bind hs₁ (At.read hstable hunit hs₁ hi) fun n₂ ty ty' walk₂ e₂ _ hty hs₂ _ => ?_
  obtain ⟨rfl, hty⟩ := hty
  exact At.pure hs₂ ⟨rfl, hty⟩

theorem step_instanceOf {n : Nat} {site : Location} {method : MethodId} {self : Option Ty}
    {args : List Ty} (hunit : c'.unit = c.unit) (hbegin : Begins c.env C v I c.begin)
    (hkey : Instantiation.Ok c.env (Ty.Over C) ⟨method, self, args⟩) :
    Step c C v I n (fun _ (a b : UnitId × Ty) => a = b ∧ a.2.Over C)
      (c.instanceOf site method self args) (c'.instanceOf site method self args) := by
  intro walk e hs r e' hr
  rcases instanceOf_cases hr with
    ⟨unit, hknown, hread⟩ | ⟨hknown, ⟨stop, rfl, hbegun⟩ | ⟨e₁, hbegun, hread⟩⟩
  · obtain ⟨hok, hgrows, hach⟩ :=
      At.readReturn hstable hunit hs (Engine.unitOf_lt hknown) r e' hread
    refine ⟨hok, hgrows, fun a walk' ha => ?_⟩
    obtain ⟨hwalk, hdiag, hfound, hkeeps, n', b, hle, hsize, hQ, hrepeat⟩ := hach a walk' ha
    refine ⟨hwalk, hdiag, hfound, hkeeps, n', b, hle, hsize, hQ,
      fun hnil hidle t ht hext hholds => ?_⟩
    rw [runWalk_instanceOf_known (Engine.unitOf_of_prefix (hgrows.keys.trans hext.keys) hknown)]
    exact hrepeat hnil hidle t ht hext hholds
  · obtain ⟨hok, hgrows, _⟩ := hbegin _ _ _ _ _ hs.engine hknown hkey hbegun
    exact ⟨hok, hgrows, fun a walk' ha => nomatch ha⟩
  · obtain ⟨hok₁, hgrows₁, hkeys, hI⟩ := hbegin _ _ _ _ _ hs.engine hknown hkey hbegun
    have hs₁ : Situation c C v n walk e₁ :=
      ⟨Nat.le_trans hs.size hgrows₁.extends.bindings_le,
        hs.findings.mono hgrows₁.extends.bindings_le, hok₁,
        Nat.lt_of_lt_of_le hs.unit hgrows₁.extends.units_le⟩
    have hadded := Engine.unitOf_of_prefix hkeys (Engine.unitOf_add hknown)
    obtain ⟨hok, hgrows, hach⟩ :=
      At.readReturn hstable hunit hs₁ (Engine.unitOf_lt hadded) r e' hread
    refine ⟨hok, hgrows₁.trans hgrows, fun a walk' ha => ?_⟩
    obtain ⟨hwalk, hdiag, hfound, hkeeps, n', b, hle, hsize, hQ, hrepeat⟩ := hach a walk' ha
    refine ⟨hwalk, hdiag, hfound, fun hIe => hkeeps (hI rfl hIe), n', b, hle, hsize, hQ,
      fun hnil hidle t ht hext hholds => ?_⟩
    rw [runWalk_instanceOf_known
      (Engine.unitOf_of_prefix (hgrows.keys.trans hext.keys) hadded)]
    exact hrepeat hnil hidle t ht hext hholds

omit hstable in
theorem step_noteType {n : Nat} {node : NodeId} {ty : Ty} (hid : v.ids node) (hty : ty.Over C) :
    Step c C v I n (fun _ (_ _ : Unit) => True) (Checking.noteType node ty)
      (Checking.noteType node ty) :=
  step_change (fun _ _ _ hok => hok.noteType hty) (fun _ => rfl)
    fun _ _ hok _ => hok.found_noteType hid

omit hstable in
theorem step_noteCall {n : Nat} {node : NodeId} {call : Resolution} (hid : v.ids node)
    (hcall : call.Ok (Ty.Over C)) :
    Step c C v I n (fun _ (_ _ : Unit) => True) (Checking.noteCall node call)
      (Checking.noteCall node call) :=
  step_change (fun _ _ _ hok => hok.noteCall hcall) (fun _ => rfl)
    fun _ _ hok _ => hok.found_noteCall hid

theorem step_bindLocal {n : Nat} {name : String} (hunit : c'.unit = c.unit) (hname : v.names name) :
    Step c C v I n SameBinding (c.bindLocal name) (c'.bindLocal name) := by
  intro walk e hs
  have hget : At c C v I n (fun _ (w w' : Walk) => w = walk ∧ w' = walk) get get walk e := by
    intro r e' hr
    rw [runWalk_get] at hr
    cases hr
    refine ⟨hs.engine, .refl e, fun a walk' ha => ?_⟩
    cases ha
    exact ⟨hs.findings, List.prefix_rfl, fun _ _ => rfl, id, n, walk, Nat.le_refl n, hs.size,
      ⟨rfl, rfl⟩,
      fun _ _ t _ _ _ => runWalk_get walk t⟩
  refine At.bind hs hget fun n₁ w w' walk₁ e₁ _ hw hs₁ _ => ?_
  obtain ⟨hw, hw'⟩ := hw
  rw [hw, hw']
  have hslot : (Slot.local c.unit walk.scopes.owner name).Fits c.env v e₁.units.length :=
    ⟨hs₁.unit, hname, fun _ hcall => hs.findings.scopes.owner hcall⟩
  rw [hunit]
  refine At.bind hs₁ (At.bindingOf hstable hs₁ hslot) fun n₂ i j walk₂ e₂ _ hij hs₂ _ => ?_
  obtain ⟨rfl, hi⟩ := hij
  have hdeclare : Step c C v I n₂ (fun _ (_ _ : Unit) => True)
      (WalkM.change fun w => { w with scopes := w.scopes.declare name i })
      (WalkM.change fun w => { w with scopes := w.scopes.declare name i }) :=
    step_change (fun _ _ hm hok => hok.withScopes (hok.scopes.declare (Nat.lt_of_lt_of_le hi hm)))
      (fun _ => rfl) fun _ _ _ _ _ => rfl
  refine At.bind hs₂ (hdeclare walk₂ e₂ hs₂) fun n₃ _ _ walk₃ e₃ hle _ hs₃ _ => ?_
  exact At.pure hs₃ ⟨rfl, Nat.lt_of_lt_of_le hi hle⟩

/-! ### The whole check -/

/-- Two checks of one unit with the same declarations. -/
structure Same (c c' : Checking) : Prop where
  env : c.env.SameDeclarations c'.env
  unit : c'.unit = c.unit
  self : c'.self = c.self

theorem uniform (hsame : Same c c') (hC : ∀ m, C m → m.IsCon)
    (hdomain : TypeDomain c.env v (Ty.Over C)) (hself : ∀ s, c.self = some s → s.Over C)
    (hbegin : Begins c.env C v I c.begin) :
    Uniform c c' v (Ty.Over C) (Ty.Over C) (· ≤ ·) SameBinding (Step c C v I) where
  env := hsame.env
  self := hsame.self
  types := hdomain.toTypeRelation
  ofSelf := fun h => .self (hself _ h)
  onSelf := fun h => hdomain.offered (hself _ h)
  ret := fun hQ walk e hs => At.pure hs hQ
  seq := Step.bind
  later := fun hle hij => ⟨hij.1, Nat.lt_of_lt_of_le hij.2 hle⟩
  lookup := step_lookup
  enter := fun hcall =>
    step_change (fun _ _ _ hok => hok.withScopes (hok.scopes.enter hcall)) (fun _ => rfl)
      fun _ _ _ _ _ => rfl
  leave := step_change (fun _ _ _ hok => hok.withScopes hok.scopes.leave) (fun _ => rfl)
    fun _ _ _ _ _ => rfl
  loopDepth := step_loopDepth
  deepen := step_change (fun _ _ _ hok => hok.withLoopDepth _) (fun _ => rfl) fun _ _ _ _ _ => rfl
  surface := step_change (fun _ _ _ hok => hok.withLoopDepth _) (fun _ => rfl) fun _ _ _ _ _ => rfl
  fail := step_fail
  noteType := by
    rintro n node t t' hid ⟨rfl, ht⟩
    exact step_noteType hid ht
  noteCall := by
    intro n node receiver callee args args' ret hid hreceiver hargs hret
    obtain ⟨_, hreceiver⟩ := SameType.option_iff.mp hreceiver
    obtain ⟨rfl, hall⟩ := SameType.forall₂_iff.mp hargs
    exact step_noteCall hid ⟨hreceiver, hall, hret.2⟩
  bindLocal := step_bindLocal hstable hsame.unit
  ivarBinding := fun howner hname walk e hs => by
    obtain ⟨self, _, hclass⟩ := Option.bind_eq_some_iff.mp howner
    exact At.bindingOf hstable hs ⟨⟨self, hclass⟩, hname⟩
  returnedBinding := fun walk e hs => by
    rw [hsame.unit]
    exact At.bindingOf hstable hs hs.unit
  read := by
    rintro n i j ⟨rfl, hi⟩ walk e hs
    exact At.read hstable hsame.unit hs hi
  assign := by
    rintro n i j t t' site ⟨rfl, hi⟩ ⟨rfl, ht⟩ walk e hs
    exact At.assign hstable hC hs hi ht
  domain := hdomain
  entered := id
  members := hdomain.members
  instanceOf := fun hlive htakes hself hargs =>
    step_instanceOf hstable hsame.unit hbegin ⟨⟨_, hlive, rfl, htakes⟩, hself, hargs⟩

/-- The check of a unit keeps what is true of states, and it can be repeated in every
    later state that still holds what was read, if it reported nothing and the unit
    is not waiting. -/
theorem unitBody (hsame : Same c c') (hC : ∀ m, C m → m.IsCon)
    (hdomain : TypeDomain c.env v (Ty.Over C)) (hself : ∀ s, c.self = some s → s.Over C)
    (hbegin : Begins c.env C v I c.begin) {key : Option Instantiation}
    (hkey : ∀ k, key = some k → ∀ a ∈ k.args, a.Over C) (hv : v.speaksUnit c.env key) {e : Engine}
    (hok : e.Ok c.env C v) (hunit : c.unit < e.units.length) :
    At c C v I 0 (fun _ => SameType (Ty.Over C)) (c.unitBody key) (c'.unitBody key) .start e := by
  exact (uniform hstable hsame hC hdomain hself hbegin).lockstep.unitBody
    (SameType.sameInstance hkey) hv .start e ⟨Nat.zero_le _, Walk.ok_start, hok, hunit⟩

end Replay

end UnionTyping
