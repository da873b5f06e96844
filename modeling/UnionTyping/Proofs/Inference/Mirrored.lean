/-
  UnionTyping/Proofs/Inference/Mirrored.lean
  ==========================================
  **Two runs whose programs differ in their numbers.**

  The states of the two runs are the same apart from the numbers: of nodes in the scopes of
  locals, and of methods in the instances of units (`Engine.Renamed`).  What the units found
  out about single nodes is not compared, since no step ever looks at it.  Every step of a
  check leads from such states to such states (`Checking.Renamed.parallel`), and so do the
  checks of units, the rounds of the worklist and whole runs (`mirrors_runAll`), as long as
  different nodes and different methods have different numbers.

  So the programs get the same answer, with the methods of the instances under their other
  numbers (`Env.check_renamed`).
-/
import UnionTyping.Inference.Outcome
import UnionTyping.Proofs.Binding.Renaming
import UnionTyping.Proofs.Inference.Parallel

namespace UnionTyping

/-- Different nodes and different methods keep different numbers. -/
structure Renaming.OneToOne (ρ : Renaming) : Prop where
  node : Function.Injective ρ.node
  method : Function.Injective ρ.method

theorem Instantiation.rename_beq {ρ : Renaming} (hρ : ρ.OneToOne) (key key' : Instantiation) :
    (key.rename ρ == key'.rename ρ) = (key == key') := by
  have hmethod : (ρ.method key.method == ρ.method key'.method) = (key.method == key'.method) := by
    rw [Bool.eq_iff_iff, beq_iff_eq, beq_iff_eq]
    exact hρ.method.eq_iff
  change (_ && _) = (_ && _)
  exact congrArg (· && _) hmethod

/-! ### States -/

/-- The findings of two checks are the same, apart from numbers and single nodes. -/
structure Walk.Renamed (ρ : Renaming) (w w' : Walk) : Prop where
  scopes : w'.scopes = w.scopes.rename ρ.node
  loopDepth : w'.loopDepth = w.loopDepth
  diagnostics : w'.diagnostics = w.diagnostics

/-- The states of two runs are the same, apart from numbers and single nodes. -/
structure Engine.Renamed (ρ : Renaming) (e e' : Engine) : Prop where
  store : e'.store = e.store.rename ρ.node
  keys : e'.keys = e.keys.map (Option.map (·.rename ρ))
  diagnostics : e'.units.map UnitRecord.diagnostics = e.units.map UnitRecord.diagnostics
  results : e'.units.map UnitRecord.result = e.units.map UnitRecord.result
  checks : e'.checks = e.checks

theorem Walk.Renamed.start (ρ : Renaming) : Walk.Renamed ρ .start .start := ⟨rfl, rfl, rfl⟩

namespace Engine.Renamed

variable {ρ : Renaming} {e e' : Engine}

theorem start (ρ : Renaming) : Engine.Renamed ρ .start .start := ⟨rfl, rfl, rfl, rfl, rfl⟩

theorem withStore (h : e.Renamed ρ e') {s s' : Store} (hs : s' = s.rename ρ.node) :
    Engine.Renamed ρ { e with store := s } { e' with store := s' } :=
  ⟨hs, h.keys, h.diagnostics, h.results, h.checks⟩

theorem count (h : e.Renamed ρ e') : e.count.Renamed ρ e'.count :=
  ⟨h.store, h.keys, h.diagnostics, h.results, congrArg (· + 1) h.checks⟩

theorem add (h : e.Renamed ρ e') (key : Instantiation) :
    (e.add key).Renamed ρ (e'.add (key.rename ρ)) where
  store := h.store
  keys := by
    rw [keys_add, keys_add, List.map_append, h.keys]
    rfl
  diagnostics := by
    simp only [Engine.add, List.map_append, h.diagnostics]
    rfl
  results := by
    simp only [Engine.add, List.map_append, h.results]
    rfl
  checks := h.checks

theorem record (h : e.Renamed ρ e') {w w' : Walk} (hw : w.Renamed ρ w') (unit : UnitId)
    (result : Ty) : (e.record unit w result).Renamed ρ (e'.record unit w' result) where
  store := h.store
  keys := by
    rw [keys_record, keys_record, h.keys]
  diagnostics := by
    have hfound : ∀ (e : Engine) (w : Walk),
        (e.record unit w result).units.map UnitRecord.diagnostics =
          (e.units.map UnitRecord.diagnostics).modify unit fun _ => w.diagnostics := fun e w =>
      (Store.map_modify _ (·.found w result) (fun _ => w.diagnostics) (fun _ => rfl) e.units
        unit).symm
    rw [hfound, hfound, h.diagnostics, hw.diagnostics]
  results := by
    have hfound : ∀ (e : Engine) (w : Walk),
        (e.record unit w result).units.map UnitRecord.result =
          (e.units.map UnitRecord.result).modify unit fun _ => result := fun e w =>
      (Store.map_modify _ (·.found w result) (fun _ => result) (fun _ => rfl) e.units unit).symm
    rw [hfound, hfound, h.results]
  checks := h.checks

variable (h : e.Renamed ρ e')
include h

theorem length : e'.units.length = e.units.length := by
  rw [← length_keys, ← length_keys, h.keys, List.length_map]

theorem queue : e'.store.queue = e.store.queue := by
  rw [h.store]
  rfl

theorem withQueue (queue : Worklist) : (e.withQueue queue).Renamed ρ (e'.withQueue queue) :=
  h.withStore (by rw [h.store]; rfl)

theorem sealed : e.sealed.Renamed ρ e'.sealed :=
  h.withStore (by rw [h.store, Store.sealStarved_rename])

theorem knowsProblem : e'.knowsProblem = e.knowsProblem := by
  have hany : ∀ e : Engine, e.knowsProblem =
      (e.units.map UnitRecord.diagnostics).any fun ds => !ds.isEmpty := fun e => by
    rw [List.any_map]
    rfl
  rw [hany, hany, h.diagnostics]

theorem keyOf (unit : UnitId) : e'.keyOf unit = (e.keyOf unit).map (·.rename ρ) := by
  have hkeys : ∀ e : Engine, e.keyOf unit = (e.keys[unit]?).join := fun e => by
    rw [Engine.keyOf, Engine.keys, List.getElem?_map]
    cases e.units[unit]? <;> rfl
  rw [hkeys, hkeys, h.keys, List.getElem?_map]
  cases e.keys[unit]? <;> rfl

theorem unitOf (hρ : ρ.OneToOne) (key : Instantiation) :
    e'.unitOf (key.rename ρ) = e.unitOf key := by
  rw [unitOf_eq, unitOf_eq, h.keys, List.findIdx?_map]
  refine congrArg (List.findIdx? · e.keys) (funext fun k => ?_)
  cases k with
  | none => rfl
  | some k => exact Instantiation.rename_beq hρ key k

end Engine.Renamed

/-! ### Steps -/

/-- The outcomes of two steps are the same, apart from numbers and single nodes. -/
inductive Mirrored (ρ : Renaming) {α β : Type} (Q : α → β → Prop) :
    Except IterationLimit (α × Walk) × Engine → Except IterationLimit (β × Walk) × Engine → Prop
  | ended {a : α} {b : β} {w w' : Walk} {e e' : Engine} (result : Q a b) (walk : w.Renamed ρ w')
      (state : e.Renamed ρ e') : Mirrored ρ Q (.ok (a, w), e) (.ok (b, w'), e')
  | stopped {stop : IterationLimit} {e e' : Engine} (state : e.Renamed ρ e') :
      Mirrored ρ Q (.error stop, e) (.error stop, e')

/-- The steps do the same, apart from numbers and single nodes. -/
def Mirrors (ρ : Renaming) {α β : Type} (Q : α → β → Prop) (x : WalkM α) (y : WalkM β) : Prop :=
  ∀ w w' e e', w.Renamed ρ w' → e.Renamed ρ e' → Mirrored ρ Q (runWalk x w e) (runWalk y w' e')

def Engine.Mirrors (ρ : Renaming) {α : Type} (x x' : EngineM α) : Prop :=
  ∀ e e' r e₁, e.Renamed ρ e' → runEngine x e = (r, e₁) →
    ∃ e₁', runEngine x' e' = (r, e₁') ∧ e₁.Renamed ρ e₁'

namespace Mirrors

variable {ρ : Renaming} {α β γ δ : Type}

theorem ret {Q : α → β → Prop} {a : α} {b : β} (hQ : Q a b) : Mirrors ρ Q (pure a) (pure b) :=
  fun _ _ _ _ hw he => .ended hQ hw he

theorem bind {Q : α → β → Prop} {R : γ → δ → Prop} {x : WalkM α} {y : WalkM β} {f : α → WalkM γ}
    {g : β → WalkM δ} (hx : Mirrors ρ Q x y) (hf : ∀ a b, Q a b → Mirrors ρ R (f a) (g b)) :
    Mirrors ρ R (x >>= f) (y >>= g) := by
  intro w w' e e' hw he
  have hxy := hx w w' e e' hw he
  rw [runWalk_bind, runWalk_bind]
  generalize runWalk x w e = p, runWalk y w' e' = q at hxy ⊢
  cases hxy with
  | ended hQ hw he => exact hf _ _ hQ _ _ _ _ hw he
  | stopped he => exact .stopped he

/-- A step on the findings. -/
theorem change {f g : Walk → Walk} (h : ∀ w w', w.Renamed ρ w' → (f w).Renamed ρ (g w')) :
    Mirrors ρ (fun _ _ => True) (WalkM.change f) (WalkM.change g) := fun w w' e e' hw he => by
  rw [runWalk_change, runWalk_change]
  exact .ended trivial (h w w' hw) he

/-- A step on the store. -/
theorem onStore {Q : α → α → Prop} (hQ : ∀ a, Q a a) {op op' : Operation}
    {f g : Store → α × Store}
    (h : ∀ s, g (s.rename ρ.node) = ((f s).1, (f s).2.rename ρ.node)) :
    Mirrors ρ Q (liftM (Engine.onStore op f)) (liftM (Engine.onStore op' g)) :=
  fun w w' e e' hw he => by
  rw [runWalk_onStore, runWalk_onStore, he.store, h]
  exact .ended (hQ _) hw (he.withStore rfl)

theorem bindingOf (hρ : ρ.OneToOne) {slot slot' : Slot} (hslot : slot' = slot.rename ρ.node) :
    Mirrors ρ Eq (Checking.bindingOf slot) (Checking.bindingOf slot') :=
  hslot ▸ .onStore (fun _ => rfl) fun s => Store.intern_rename hρ.node s slot

end Mirrors

/-! ### Checks -/

/-- What stays fixed in the two checks is the same, apart from the numbers. -/
structure Checking.Renamed (ρ : Renaming) (c c' : Checking) : Prop where
  env : c.env.Renamed ρ c'.env
  unit : c'.unit = c.unit
  self : c'.self = c.self
  cause : c'.cause = c.cause
  recheck : c'.recheck = c.recheck
  begin : ∀ unit loc, Engine.Mirrors ρ (c.begin unit loc) (c'.begin unit loc)

namespace Checking.Renamed

variable {ρ : Renaming} {c c' : Checking} (h : c.Renamed ρ c')
include h

theorem read (i : BindingId) : Mirrors ρ Eq (c.read i) (c'.read i) :=
  .onStore (fun _ => rfl) fun s => by rw [h.unit, Store.read_rename]

theorem assign (i : BindingId) (site : Location) (ty : Ty) :
    Mirrors ρ (fun _ _ => True) (c.assign i site ty) (c'.assign i site ty) :=
  .onStore (fun _ => trivial) fun s => by rw [h.cause, Store.assign_rename]

theorem fail (problem : Problem) (loc : Location) :
    Mirrors ρ Eq (c.fail problem loc) (c'.fail problem loc) := by
  refine .bind (.change fun w w' hw => ?_) fun _ _ _ => .ret rfl
  rw [hw.diagnostics, h.recheck, h.cause]
  split
  · exact hw
  · exact ⟨hw.scopes, hw.loopDepth, rfl⟩

variable (hρ : ρ.OneToOne)
include hρ

theorem readReturn (unit : UnitId) : Mirrors ρ Eq (c.readReturn unit) (c'.readReturn unit) :=
  .bind (.bindingOf hρ rfl) fun i _ hij => hij ▸ .bind (h.read i) fun _ _ hab => hab ▸ .ret rfl

theorem bindLocal (name : String) : Mirrors ρ Eq (c.bindLocal name) (c'.bindLocal name) := by
  have hget : Mirrors ρ (Walk.Renamed ρ) (get : WalkM Walk) get := fun w w' e e' hw he => by
    rw [runWalk_get, runWalk_get]
    exact .ended hw hw he
  refine .bind hget fun w w' hw => .bind (.bindingOf hρ ?_) fun i _ hij => ?_
  · rw [h.unit, hw.scopes, Scopes.owner_rename]
    rfl
  · cases hij
    refine .bind (.change fun w w' hw => ⟨?_, hw.loopDepth, hw.diagnostics⟩) fun _ _ _ => .ret rfl
    rw [hw.scopes, Scopes.declare_rename]

theorem instanceOf (site : Location) (method : MethodId) (self : Option Ty) (args : List Ty) :
    Mirrors ρ Eq (c.instanceOf site method self args)
      (c'.instanceOf site (ρ.method method) self args) := by
  intro w w' e e' hw he
  have hunit' : e'.unitOf ⟨ρ.method method, self, args⟩ = e.unitOf ⟨method, self, args⟩ :=
    he.unitOf hρ ⟨method, self, args⟩
  cases hunit : e.unitOf ⟨method, self, args⟩ with
  | some unit =>
    rw [hunit] at hunit'
    rw [runWalk_instanceOf_known hunit, runWalk_instanceOf_known hunit']
    exact h.readReturn hρ unit w w' e e' hw he
  | none =>
    rw [hunit] at hunit'
    rw [runWalk_instanceOf_new hunit, runWalk_instanceOf_new hunit', h.cause, he.length]
    -- The new instance is the same unit in both runs, since they have equally many.
    have hadd : (e.add ⟨method, self, args⟩).Renamed ρ (e'.add ⟨ρ.method method, self, args⟩) :=
      he.add ⟨method, self, args⟩
    rcases hr : runEngine (c.begin e.units.length (c.cause.getD site))
      (e.add ⟨method, self, args⟩) with ⟨r, e₁⟩
    obtain ⟨e₁', hr', he₁⟩ := h.begin _ _ _ _ _ _ hadd hr
    rw [hr']
    cases r with
    | error stop => exact .stopped he₁
    | ok done => exact h.readReturn hρ _ w w' e₁ e₁' hw he₁

/-- Checks that differ in their numbers do the same step by step. -/
theorem parallel : Parallel c c' ρ (fun _ => True) (Mirrors ρ) where
  env := h.env
  self := h.self
  ret := .ret
  seq := .bind
  lookup := fun w w' e e' hw he => by
    rw [runWalk_lookup, runWalk_lookup, hw.scopes, Scopes.lookup_rename]
    exact .ended rfl hw he
  enter := .change fun w w' hw => ⟨by rw [hw.scopes]; rfl, hw.loopDepth, hw.diagnostics⟩
  leave := .change fun w w' hw =>
    ⟨by rw [hw.scopes, Scopes.leave_rename], hw.loopDepth, hw.diagnostics⟩
  loopDepth := fun w w' e e' hw he => by
    rw [runWalk_loopDepth, runWalk_loopDepth, hw.loopDepth]
    exact .ended rfl hw he
  deepen := .change fun _ _ hw => ⟨hw.scopes, congrArg (· + 1) hw.loopDepth, hw.diagnostics⟩
  surface := .change fun _ _ hw => ⟨hw.scopes, congrArg (· - 1) hw.loopDepth, hw.diagnostics⟩
  fail := fun _ => h.fail _ _
  noteType := .change fun _ _ hw => ⟨hw.scopes, hw.loopDepth, hw.diagnostics⟩
  noteCall := .change fun _ _ hw => ⟨hw.scopes, hw.loopDepth, hw.diagnostics⟩
  bindLocal := h.bindLocal hρ _
  ivarBinding := .bindingOf hρ rfl
  returnedBinding := .bindingOf hρ (congrArg Slot.returned h.unit)
  read := h.read _
  assign := fun _ => h.assign _ _ _
  instanceOf := fun _ => h.instanceOf hρ _ _ _ _

end Checking.Renamed

/-! ### Runs -/

section

variable {env env' : Env} {ρ : Renaming} (henv : env.Renamed ρ env')
  (hsettings : env'.settings = env.settings) (hρ : ρ.OneToOne)
include henv hsettings hρ

theorem mirrors_checkOnce {begin begin' : Engine.Begin} {recheck : Bool}
    (hbegin : ∀ unit loc, Engine.Mirrors ρ (begin recheck unit loc) (begin' recheck unit loc))
    (unit : UnitId) (cause : Option Location) :
    Engine.Mirrors ρ (Engine.checkOnce env begin unit cause recheck)
      (Engine.checkOnce env' begin' unit cause recheck) := by
  intro e e' r e₁ he hr
  rw [runEngine_checkOnce] at hr ⊢
  rw [hsettings, he.checks]
  split at hr
  · rename_i hlimit
    cases hr
    rw [if_pos hlimit]
    exact ⟨_, rfl, he.count⟩
  · rename_i hlimit
    rw [if_neg hlimit]
    have hc : Checking.Renamed ρ (e.checkingOf env begin unit cause recheck)
        (e'.checkingOf env' begin' unit cause recheck) :=
      { env := henv
        unit := rfl
        self := by
          change (e'.keyOf unit).bind _ = (e.keyOf unit).bind _
          rw [he.keyOf, Option.bind_map]
          rfl
        cause := rfl
        recheck := rfl
        begin := hbegin }
    have hbody :=
      (hc.parallel hρ).unitBody env.standAt_any (e.keyOf unit) _ _ _ _ (.start ρ) he.count
    rw [← he.keyOf] at hbody
    generalize runWalk _ _ e.count = p, runWalk _ _ e'.count = q at hbody hr ⊢
    cases hbody with
    | ended hty hw he₁ =>
      cases hty
      cases hr
      exact ⟨_, rfl, he₁.record hw unit _⟩
    | stopped he₁ =>
      cases hr
      exact ⟨_, rfl, he₁⟩

theorem mirrors_nestedBegin (depth : Nat) (recheck : Bool) (unit : UnitId) (loc : Location) :
    Engine.Mirrors ρ (Engine.nestedBegin env depth recheck unit loc)
      (Engine.nestedBegin env' depth recheck unit loc) := by
  induction depth generalizing unit loc with
  | zero =>
    intro e e' r e₁ he hr
    cases hr
    exact ⟨_, rfl, he.withStore (by rw [he.store]; rfl)⟩
  | succ depth ih =>
    change Engine.Mirrors ρ (Engine.checkNested env depth unit (some loc) recheck)
      (Engine.checkNested env' depth unit (some loc) recheck)
    rw [Engine.checkNested_eq, Engine.checkNested_eq]
    exact mirrors_checkOnce henv hsettings hρ ih unit (some loc)

theorem mirrors_checkNested (depth : Nat) (unit : UnitId) (cause : Option Location)
    (recheck : Bool) :
    Engine.Mirrors ρ (Engine.checkNested env depth unit cause recheck)
      (Engine.checkNested env' depth unit cause recheck) := by
  rw [Engine.checkNested_eq, Engine.checkNested_eq]
  exact mirrors_checkOnce henv hsettings hρ
    (mirrors_nestedBegin henv hsettings hρ depth recheck) unit cause

omit henv hsettings hρ in
theorem mirrors_nextUnit : Engine.Mirrors ρ Engine.nextUnit Engine.nextUnit := by
  intro e e' r e₁ he hr
  rcases r with stop | o
  · exact absurd hr nextUnit_ne_error
  · cases Engine.chooses_iff.mpr hr with
    | waiting hq =>
      exact ⟨_, Engine.chooses_iff.mp (.waiting (he.queue.trans hq)), he.withQueue _⟩
    | problem hq hproblem =>
      refine ⟨_, Engine.chooses_iff.mp (.problem (he.queue.trans hq) ?_), he⟩
      exact he.knowsProblem.trans hproblem
    | woken hq hsilent hqs =>
      refine ⟨_, Engine.chooses_iff.mp (.woken (he.queue.trans hq) ?_ (he.sealed.queue.trans hqs)),
        he.sealed.withQueue _⟩
      exact he.knowsProblem.trans hsilent
    | fed hq hsilent hqs =>
      refine ⟨_, Engine.chooses_iff.mp (.fed (he.queue.trans hq) ?_ (he.sealed.queue.trans hqs)),
        he.sealed⟩
      exact he.knowsProblem.trans hsilent

theorem mirrors_settle (rounds : Nat) :
    Engine.Mirrors ρ (Engine.settle env rounds) (Engine.settle env' rounds) := by
  induction rounds with
  | zero =>
    intro e e' r e₁ he hr
    rw [runEngine_settle_zero] at hr ⊢
    cases hr
    exact ⟨e', by rw [hsettings], he⟩
  | succ rounds ih =>
    intro e e' r e₁ he hr
    have hrecheck : ∀ next,
        Engine.Mirrors ρ (Engine.recheck env next) (Engine.recheck env' next) := by
      intro next
      unfold Engine.recheck
      rw [hsettings]
      exact mirrors_checkNested henv hsettings hρ _ _ _ _
    rw [runEngine_settle_succ]
    rcases settle_cases hr with
      ⟨rfl, hnext⟩ | ⟨next, e₂, hnext, ⟨stop, rfl, hcheck⟩ | ⟨e₃, hcheck, hrest⟩⟩
    · obtain ⟨e₁', hnext', he₁⟩ := mirrors_nextUnit _ _ _ _ he hnext
      rw [hnext']
      exact ⟨_, rfl, he₁⟩
    · obtain ⟨e₂', hnext', he₂⟩ := mirrors_nextUnit _ _ _ _ he hnext
      obtain ⟨e₁', hcheck', he₁⟩ := hrecheck _ _ _ _ _ he₂ hcheck
      rw [hnext']
      simp only
      rw [hcheck']
      exact ⟨_, rfl, he₁⟩
    · obtain ⟨e₂', hnext', he₂⟩ := mirrors_nextUnit _ _ _ _ he hnext
      obtain ⟨e₃', hcheck', he₃⟩ := hrecheck _ _ _ _ _ he₂ hcheck
      rw [hnext']
      simp only
      rw [hcheck']
      exact ih _ _ _ _ he₃ hrest

/-- Runs that differ in their numbers do the same. -/
theorem mirrors_runAll : Engine.Mirrors ρ (Engine.runAll env) (Engine.runAll env') := by
  intro e e' r e₁ he hr
  have hfirst := mirrors_checkNested henv hsettings hρ env.settings.maxNesting topUnit none false
  rw [runEngine_runAll, hsettings]
  rcases runAll_cases hr with ⟨stop, rfl, hcheck⟩ | ⟨e₂, hcheck, hsettle⟩
  · obtain ⟨e₁', hcheck', he₁⟩ := hfirst _ _ _ _ he hcheck
    rw [hcheck']
    exact ⟨_, rfl, he₁⟩
  · obtain ⟨e₂', hcheck', he₂⟩ := hfirst _ _ _ _ he hcheck
    rw [hcheck']
    exact mirrors_settle henv hsettings hρ _ _ _ _ _ he₂ hsettle

end

/-! ### Answers -/

def InstanceSummary.renumber (σ : MethodId → MethodId) (s : InstanceSummary) : InstanceSummary :=
  { s with method := σ s.method }

/-- The answers are the same, with other numbers for the methods of the instances.  What is
    reported about single nodes is not compared. -/
inductive SameAnswer (σ : MethodId → MethodId) :
    Except CheckError Report → Except CheckError Report → Prop
  | rejected (d : Diagnostic) : SameAnswer σ (.error (.rejected d)) (.error (.rejected d))
  | givenUp (limit : Nat) :
    SameAnswer σ (.error (.iterationLimit limit)) (.error (.iterationLimit limit))
  | accepted {r r' : Report} (result : r'.result = r.result)
      (instances : r'.instances = r.instances.map (·.renumber σ)) : SameAnswer σ (.ok r) (.ok r')

theorem SameAnswer.refl (a : Except CheckError Report) : SameAnswer (fun id => id) a a := by
  rcases a with (d | limit) | r
  · exact .rejected d
  · exact .givenUp limit
  · exact .accepted rfl (List.map_id' r.instances).symm

theorem SameAnswer.trans {σ τ : MethodId → MethodId} {a b c : Except CheckError Report}
    (hab : SameAnswer σ a b) (hbc : SameAnswer τ b c) : SameAnswer (τ ∘ σ) a c := by
  cases hab with
  | rejected d =>
    cases hbc
    exact .rejected d
  | givenUp limit =>
    cases hbc
    exact .givenUp limit
  | accepted hresult hinstances =>
    cases hbc with
    | accepted hresult' hinstances' =>
      refine .accepted (hresult'.trans hresult) ?_
      rw [hinstances', hinstances, List.map_map]
      rfl

namespace Engine.Renamed

variable {ρ : Renaming} {e e' : Engine} (h : e.Renamed ρ e')
include h

theorem firstDiagnostic? : e'.firstDiagnostic? = e.firstDiagnostic? := by
  unfold Engine.firstDiagnostic?
  rw [List.flatMap_def, List.flatMap_def, h.diagnostics]

theorem returnedType (hρ : ρ.OneToOne) (unit : UnitId) :
    e'.returnedType unit = e.returnedType unit := by
  have hfind : (e.store.rename ρ.node).find (.returned unit) = e.store.find (.returned unit) :=
    Store.find_rename hρ.node e.store (.returned unit)
  unfold Engine.returnedType
  rw [h.store, hfind]
  cases e.store.find (.returned unit) with
  | none => rfl
  | some id => exact Store.typeOf_rename e.store id

theorem instances {env env' : Env} (henv : env.Renamed ρ env') (hρ : ρ.OneToOne) :
    e'.instances env' = (e.instances env).map (·.renumber ρ.method) := by
  have hkeys : ∀ (env : Env) (e : Engine), e.instances env =
      e.keys.zipIdx.filterMap fun p => p.1.map fun key =>
        ⟨p.2, key.method, ((env.methods.get? key.method).map Method.name).getD "", key.self,
          key.args, (e.returnedType p.2).settled⟩ := fun env e => by
    rw [Engine.keys, List.zipIdx_map, List.filterMap_map]
    rfl
  rw [hkeys, hkeys, h.keys, List.zipIdx_map, List.filterMap_map, List.map_filterMap]
  refine congrArg (List.filterMap · e.keys.zipIdx) (funext fun p => ?_)
  obtain ⟨k, unit⟩ := p
  cases k with
  | none => rfl
  | some key =>
    have hname : (env'.methods.get? (ρ.method key.method)).map Method.name =
        (env.methods.get? key.method).map Method.name := by
      rw [henv.get?, Option.map_map]
      rfl
    simp only [Function.comp_apply, Prod.map_apply, Option.map_some, id_eq, Instantiation.rename,
      hname, h.returnedType hρ]
    rfl

theorem result {env env' : Env} (henv : env.Renamed ρ env') :
    (e'.report env').result = (e.report env).result := by
  have hhead : ∀ e : Engine, e.units.head?.map (·.result.settled) =
      (e.units.map UnitRecord.result).head?.map Ty.settled := fun e => by
    rw [List.head?_map, Option.map_map]
    rfl
  simp only [Engine.report]
  rw [henv.topLevel, Expr.isEmpty_renameAll, hhead, hhead, h.results]

end Engine.Renamed

/-- Programs that differ in their numbers get the same answer. -/
theorem Env.check_renamed {env env' : Env} {ρ : Renaming} (henv : env.Renamed ρ env')
    (hsettings : env'.settings = env.settings) (hρ : ρ.OneToOne) :
    SameAnswer ρ.method env.check env'.check := by
  rcases hfinal : Engine.final env with ⟨r, e⟩
  obtain ⟨e', hfinal', he⟩ := mirrors_runAll henv hsettings hρ _ _ _ _ (.start ρ) hfinal
  change Engine.final env' = (r, e') at hfinal'
  unfold Env.check
  rw [hfinal, hfinal']
  cases r with
  | error stop => exact .givenUp stop.limit
  | ok done =>
    simp only
    rw [he.firstDiagnostic?]
    cases e.firstDiagnostic? with
    | some d => exact .rejected d
    | none => exact .accepted (he.result henv) (he.instances henv hρ)

end UnionTyping
