/-
  UnionTyping/Proofs/Inference/Runs.lean
  ======================================
  **The outcome of the steps of a check.**

  `runWalk x walk e` is what a step of a check gives when it begins with the
  findings `walk` in the state `e` of the run, and `runEngine` is the same for
  steps of the run itself.  A step that gives up shows the state it has reached.
  What a step writes into the journal is left out.
  Each way of making a step has an equation here, so that proofs take runs apart
  and do not look into the monads.  What a whole run can do is said in cases: how
  its next unit is chosen (`Engine.chooses_iff`), how a check of a unit, a run until
  the queue is empty and the whole run can go (`checkOnce_cases`, `settle_cases`,
  `runAll_cases`), and from it what a program is answered (`Program.answered_iff`).
-/
import UnionTyping.Inference.Outcome

namespace UnionTyping

def runEngine {α : Type} (x : EngineM α) (e : Engine) : Except IterationLimit α × Engine :=
  (x.run.run e).value

def runWalk {α : Type} (x : WalkM α) (walk : Walk) (e : Engine) :
    Except IterationLimit (α × Walk) × Engine :=
  runEngine (x.run walk) e

variable {α β : Type}

/-! ### Steps of a run -/

theorem runEngine_bind (x : EngineM α) (f : α → EngineM β) (e : Engine) :
    runEngine (x >>= f) e =
      match runEngine x e with
      | (.ok a, e₁) => runEngine (f a) e₁
      | (.error stop, e₁) => (.error stop, e₁) := by
  unfold runEngine
  change Logged.value (ExceptT.bindCont f (x.run.run e).value.1 (x.run.run e).value.2) = _
  rcases (x.run.run e).value with ⟨_ | a, e₁⟩ <;> rfl

theorem runEngine_bind_ok {x : EngineM α} {f : α → EngineM β} {e e₁ : Engine} {a : α}
    (h : runEngine x e = (.ok a, e₁)) : runEngine (x >>= f) e = runEngine (f a) e₁ := by
  rw [runEngine_bind, h]

theorem runEngine_bind_error {x : EngineM α} {f : α → EngineM β} {e e₁ : Engine}
    {stop : IterationLimit} (h : runEngine x e = (.error stop, e₁)) :
    runEngine (x >>= f) e = (.error stop, e₁) := by
  rw [runEngine_bind, h]

theorem runEngine_act (event : RunEvent) (f : Engine → α × Engine) (e : Engine) :
    runEngine (Engine.act event f) e = (.ok (f e).1, (f e).2) := rfl

theorem runEngine_onStore (op : Operation) (f : Store → α × Store) (e : Engine) :
    runEngine (Engine.onStore op f) e =
      (.ok (f e.store).1, { e with store := (f e.store).2 }) := rfl

def Engine.add (e : Engine) (key : Instantiation) : Engine :=
  { e with units := e.units ++ [.fresh (some key)] }

def Engine.count (e : Engine) : Engine := { e with checks := e.checks + 1 }

theorem runEngine_countCheck (limit : Nat) (e : Engine) :
    runEngine (Engine.countCheck limit) e =
      if limit < e.checks + 1 then (.error ⟨limit⟩, e.count) else (.ok (), e.count) := by
  have hget : runEngine get e.count = (.ok e.count, e.count) := rfl
  rw [Engine.countCheck, runEngine_bind_ok (runEngine_act _ _ e)]
  change runEngine (get >>= _) e.count = _
  rw [runEngine_bind_ok hget]
  by_cases h : limit < e.checks + 1
  · rw [if_pos h, if_pos (show limit < e.count.checks from h)]
    rfl
  · rw [if_neg h, if_neg (show ¬ limit < e.count.checks from h)]
    rfl

/-! ### Steps of a check -/

theorem runWalk_pure (a : α) (walk : Walk) (e : Engine) :
    runWalk (pure a) walk e = (.ok (a, walk), e) := rfl

theorem runWalk_bind (x : WalkM α) (f : α → WalkM β) (walk : Walk) (e : Engine) :
    runWalk (x >>= f) walk e =
      match runWalk x walk e with
      | (.ok (a, walk₁), e₁) => runWalk (f a) walk₁ e₁
      | (.error stop, e₁) => (.error stop, e₁) := by
  simp only [runWalk, StateT.run_bind, runEngine_bind]
  rcases runEngine (x.run walk) e with ⟨_ | ⟨a, walk₁⟩, e₁⟩ <;> rfl

theorem runWalk_bind_ok {x : WalkM α} {f : α → WalkM β} {walk walk₁ : Walk} {e e₁ : Engine} {a : α}
    (h : runWalk x walk e = (.ok (a, walk₁), e₁)) :
    runWalk (x >>= f) walk e = runWalk (f a) walk₁ e₁ := by
  rw [runWalk_bind, h]

/-- What two steps in a row gave, taken apart. -/
theorem runWalk_bind_eq {x : WalkM α} {f : α → WalkM β} {walk : Walk} {e e' : Engine}
    {r : Except IterationLimit (β × Walk)} (h : runWalk (x >>= f) walk e = (r, e')) :
    (∃ stop, runWalk x walk e = (.error stop, e') ∧ r = .error stop) ∨
      ∃ a walk₁ e₁, runWalk x walk e = (.ok (a, walk₁), e₁) ∧ runWalk (f a) walk₁ e₁ = (r, e') := by
  rw [runWalk_bind] at h
  rcases hx : runWalk x walk e with ⟨_ | ⟨a, walk₁⟩, e₁⟩
  · rw [hx] at h
    cases h
    exact Or.inl ⟨_, rfl, rfl⟩
  · rw [hx] at h
    exact Or.inr ⟨a, walk₁, e₁, rfl, h⟩

/-- Two steps in a row that came to their end, taken apart. -/
theorem runWalk_bind_eq_ok {x : WalkM α} {f : α → WalkM β} {walk walk' : Walk} {e e' : Engine}
    {b : β} (h : runWalk (x >>= f) walk e = (.ok (b, walk'), e')) :
    ∃ a walk₁ e₁, runWalk x walk e = (.ok (a, walk₁), e₁) ∧
      runWalk (f a) walk₁ e₁ = (.ok (b, walk'), e') := by
  rcases runWalk_bind_eq h with ⟨stop, _, hstop⟩ | hok
  · cases hstop
  · exact hok

theorem runWalk_change (f : Walk → Walk) (walk : Walk) (e : Engine) :
    runWalk (WalkM.change f) walk e = (.ok ((), f walk), e) := rfl

theorem runWalk_get (walk : Walk) (e : Engine) :
    runWalk (get : WalkM Walk) walk e = (.ok (walk, walk), e) := rfl

/-- A step of the run that is made in a check leaves the findings as they are. -/
theorem runWalk_lift (x : EngineM α) (walk : Walk) (e : Engine) :
    runWalk (liftM x) walk e =
      match runEngine x e with
      | (.ok a, e₁) => (.ok (a, walk), e₁)
      | (.error stop, e₁) => (.error stop, e₁) := by
  have hrun : runWalk (liftM x) walk e = runEngine (x >>= fun a => pure (a, walk)) e := rfl
  rw [hrun, runEngine_bind]
  rcases runEngine x e with ⟨_ | a, e₁⟩ <;> rfl

theorem runWalk_lookup (name : String) (walk : Walk) (e : Engine) :
    runWalk (Checking.lookup name) walk e = (.ok (walk.scopes.lookup name, walk), e) := rfl

theorem runWalk_loopDepth (walk : Walk) (e : Engine) :
    runWalk Checking.loopDepth walk e = (.ok (walk.loopDepth, walk), e) := rfl

theorem runWalk_onStore (op : Operation) (f : Store → α × Store) (walk : Walk) (e : Engine) :
    runWalk (liftM (Engine.onStore op f)) walk e =
      (.ok ((f e.store).1, walk), { e with store := (f e.store).2 }) := rfl

theorem runWalk_engine (walk : Walk) (e : Engine) :
    runWalk (liftM (getThe Engine : EngineM Engine)) walk e = (.ok (e, walk), e) := rfl

/-! ### Instances of methods -/

def Checking.readReturn (c : Checking) (unit : UnitId) : WalkM (UnitId × Ty) := do
  let returned ← Checking.bindingOf (.returned unit)
  return (unit, ← c.read returned)

section

variable {c : Checking} {site : Location} {method : MethodId} {self : Option Ty} {args : List Ty}
  {walk : Walk} {e : Engine}

theorem runWalk_instanceOf_known {unit : UnitId} (h : e.unitOf ⟨method, self, args⟩ = some unit) :
    runWalk (c.instanceOf site method self args) walk e = runWalk (c.readReturn unit) walk e := by
  rw [Checking.instanceOf, runWalk_bind_ok (runWalk_engine walk e)]
  simp only [h]
  rfl

theorem runWalk_instanceOf_new (h : e.unitOf ⟨method, self, args⟩ = none) :
    runWalk (c.instanceOf site method self args) walk e =
      match runEngine (c.begin e.units.length (c.cause.getD site)) (e.add ⟨method, self, args⟩) with
      | (.ok _, e₁) => runWalk (c.readReturn e.units.length) walk e₁
      | (.error stop, e₁) => (.error stop, e₁) := by
  have hadd : runWalk (liftM (Engine.addUnit ⟨method, self, args⟩)) walk e =
      (.ok (e.units.length, walk), e.add ⟨method, self, args⟩) := rfl
  rw [Checking.instanceOf, runWalk_bind_ok (runWalk_engine walk e)]
  simp only [h]
  rw [runWalk_bind_ok hadd, runWalk_bind, runWalk_lift]
  rcases runEngine (c.begin e.units.length (c.cause.getD site)) (e.add ⟨method, self, args⟩)
    with ⟨_ | _, e₁⟩ <;> rfl

/-- An instance has its unit, or a new unit is seen to.  Unless that is given up, what the unit
    returns is read last. -/
theorem instanceOf_cases {r : Except IterationLimit ((UnitId × Ty) × Walk)} {e' : Engine}
    (hr : runWalk (c.instanceOf site method self args) walk e = (r, e')) :
    (∃ unit, e.unitOf ⟨method, self, args⟩ = some unit ∧
      runWalk (c.readReturn unit) walk e = (r, e')) ∨
    e.unitOf ⟨method, self, args⟩ = none ∧
      ((∃ stop, r = .error stop ∧
        runEngine (c.begin e.units.length (c.cause.getD site)) (e.add ⟨method, self, args⟩) =
          (.error stop, e')) ∨
      ∃ e₁,
        runEngine (c.begin e.units.length (c.cause.getD site)) (e.add ⟨method, self, args⟩) =
          (.ok (), e₁) ∧ runWalk (c.readReturn e.units.length) walk e₁ = (r, e')) := by
  cases hunit : e.unitOf ⟨method, self, args⟩ with
  | some unit =>
    rw [runWalk_instanceOf_known hunit] at hr
    exact Or.inl ⟨unit, rfl, hr⟩
  | none =>
    refine Or.inr ⟨rfl, ?_⟩
    rw [runWalk_instanceOf_new hunit] at hr
    rcases hb : runEngine (c.begin e.units.length (c.cause.getD site)) (e.add ⟨method, self, args⟩)
      with ⟨stop | _, e₁⟩
    · rw [hb] at hr
      cases hr
      exact Or.inl ⟨stop, rfl, rfl⟩
    · rw [hb] at hr
      exact Or.inr ⟨e₁, rfl, hr⟩

end

/-! ### Addresses of variables -/

namespace Checking
variable (c : Checking)
def pointerTo (mark : Mark) (receiver : NodeId) (given : Nat) (hasBlock : Bool)
    (binding : BindingId) : WalkM Ty := do
  if given ≠ 0 then c.fail (.wrongArgumentCount "ptr" given (.exactly 0)) mark.loc
  else if hasBlock then c.fail (.blockNotAccepted "ptr") mark.loc
  else
    let element ← c.read binding
    noteType receiver element
    if element.isUnresolved then return .unresolved
    noteCall mark.id ⟨some element, .pointer, [], .pointer element⟩
    return .pointer element

theorem takePointer_ident (mark m : Mark) (name : String) (given : Nat) (hasBlock : Bool) :
    c.takePointer mark (.ident m name) given hasBlock = (do
      match ← lookup name with
      | some binding => c.pointerTo mark m.id given hasBlock binding
      | none =>
        let _ ← c.fail .pointerOfNonVariable mark.loc
        return .unresolved) := by
  refine bind_congr (x := lookup name) fun o => ?_
  cases o <;> rfl

theorem takePointer_ivar (mark m : Mark) (name : String) (given : Nat) (hasBlock : Bool) :
    c.takePointer mark (.ivar m name) given hasBlock = (do
      match ← c.ivarOf name m.loc with
      | some binding => c.pointerTo mark m.id given hasBlock binding
      | none => return .unresolved) := by
  refine bind_congr (x := c.ivarOf name m.loc) fun o => ?_
  cases o <;> rfl

theorem takePointer_other (mark : Mark) (receiver : Expr) (given : Nat) (hasBlock : Bool)
    (h : receiver.isVariable = false) :
    c.takePointer mark receiver given hasBlock = (do
      let _ ← c.fail .pointerOfNonVariable mark.loc
      return .unresolved) := by
  cases receiver with
  | ident m name => cases h
  | ivar m name => cases h
  | _ => rfl
end Checking

/-! ### Checks of units -/

namespace Engine

def keyOf (e : Engine) (unit : UnitId) : Option Instantiation :=
  (e.units[unit]?).bind UnitRecord.key

def checkingOf (e : Engine) (env : Env) (begin : Begin) (unit : UnitId) (cause : Option Location)
    (recheck : Bool) : Checking :=
  ⟨env, unit, (e.keyOf unit).bind Instantiation.self, cause, recheck, begin recheck⟩

def record (e : Engine) (unit : UnitId) (walk : Walk) (result : Ty) : Engine :=
  { e with units := e.units.modify unit fun u => u.found walk result }

def withQueue (e : Engine) (queue : Worklist) : Engine :=
  { e with store := { e.store with queue } }

def sealed (e : Engine) : Engine := { e with store := (e.store.sealStarved .nil).2 }

end Engine

theorem runEngine_checkOnce (env : Env) (begin : Engine.Begin) (unit : UnitId)
    (cause : Option Location) (recheck : Bool) (e : Engine) :
    runEngine (Engine.checkOnce env begin unit cause recheck) e =
      if env.settings.maxIterations < e.checks + 1 then
        (.error ⟨env.settings.maxIterations⟩, e.count)
      else
        match runWalk ((e.checkingOf env begin unit cause recheck).unitBody (e.keyOf unit)) .start
          e.count with
        | (.ok (result, walk), e₁) => (.ok (), e₁.record unit walk result)
        | (.error stop, e₁) => (.error stop, e₁) := by
  have hcount := runEngine_countCheck env.settings.maxIterations e
  unfold Engine.checkOnce
  split
  · rename_i hlimit
    rw [if_pos hlimit] at hcount
    exact runEngine_bind_error hcount
  · rename_i hlimit
    rw [if_neg hlimit] at hcount
    have hget : runEngine get e.count = (.ok e.count, e.count) := rfl
    have hbegins : runEngine (Engine.act (.checkBegins unit cause recheck) fun e => ((), e))
      e.count = (.ok (), e.count) := rfl
    rw [runEngine_bind_ok hcount, runEngine_bind_ok hget, runEngine_bind_ok hbegins]
    rcases hbody : runWalk ((e.checkingOf env begin unit cause recheck).unitBody (e.keyOf unit))
      .start e.count with ⟨_ | ⟨result, walk⟩, e₁⟩
    · exact runEngine_bind_error hbody
    · exact runEngine_bind_ok hbody

/-- A check is given up before it begins or within its unit, or what was found is recorded. -/
theorem checkOnce_cases {env : Env} {begin : Engine.Begin} {unit : UnitId}
    {cause : Option Location} {recheck : Bool} {e e' : Engine} {r : Except IterationLimit Unit}
    (hr : runEngine (Engine.checkOnce env begin unit cause recheck) e = (r, e')) :
    (env.settings.maxIterations < e.checks + 1 ∧ r = .error ⟨env.settings.maxIterations⟩ ∧
      e' = e.count) ∨
    (∃ stop, r = .error stop ∧
      runWalk ((e.checkingOf env begin unit cause recheck).unitBody (e.keyOf unit)) .start e.count =
        (.error stop, e')) ∨
    ¬ env.settings.maxIterations < e.checks + 1 ∧ r = .ok () ∧ ∃ result walk e₁,
      runWalk ((e.checkingOf env begin unit cause recheck).unitBody (e.keyOf unit)) .start e.count =
        (.ok (result, walk), e₁) ∧ e' = e₁.record unit walk result := by
  rw [runEngine_checkOnce] at hr
  split at hr
  · rename_i hlimit
    cases hr
    exact Or.inl ⟨hlimit, rfl, rfl⟩
  · rename_i hlimit
    rcases hbody : runWalk ((e.checkingOf env begin unit cause recheck).unitBody (e.keyOf unit))
      .start e.count with ⟨stop | ⟨result, walk⟩, e₁⟩
    · rw [hbody] at hr
      cases hr
      exact Or.inr (Or.inl ⟨stop, rfl, rfl⟩)
    · rw [hbody] at hr
      cases hr
      exact Or.inr (Or.inr ⟨hlimit, rfl, result, walk, e₁, rfl, rfl⟩)

/-- A check that comes to its end records what was found in its unit. -/
theorem exists_unitBody_of_checkOnce {env : Env} {begin : Engine.Begin} {unit : UnitId}
    {cause : Option Location} {recheck : Bool} {e e' : Engine}
    (hr : runEngine (Engine.checkOnce env begin unit cause recheck) e = (.ok (), e')) :
    ¬ env.settings.maxIterations < e.checks + 1 ∧ ∃ result walk e₁,
      runWalk ((e.checkingOf env begin unit cause recheck).unitBody (e.keyOf unit)) .start e.count =
        (.ok (result, walk), e₁) ∧ e' = e₁.record unit walk result := by
  rcases checkOnce_cases hr with ⟨_, hstop, _⟩ | ⟨_, hstop, _⟩ | ⟨hlimit, _, hbody⟩
  · cases hstop
  · cases hstop
  · exact ⟨hlimit, hbody⟩

theorem runEngine_pop (e : Engine) :
    runEngine (Engine.onStore .pop Store.pop) e =
      match e.store.queue with
      | [] => (.ok none, e)
      | next :: rest => (.ok (some next), e.withQueue rest) := by
  rw [runEngine_onStore, Store.pop]
  cases e.store.queue with
  | nil => rfl
  | cons next rest => rfl

/-- Which unit is checked next, and in which state. -/
theorem runEngine_nextUnit (e : Engine) :
    runEngine Engine.nextUnit e =
      match e.store.queue with
      | next :: rest => (.ok (some next), e.withQueue rest)
      | [] =>
        if e.knowsProblem then (.ok none, e)
        else
          match e.sealed.store.queue with
          | next :: rest => (.ok (some next), e.sealed.withQueue rest)
          | [] => (.ok none, e.sealed) := by
  have hpop := runEngine_pop e
  unfold Engine.nextUnit
  cases hq : e.store.queue with
  | cons next rest =>
    rw [hq] at hpop
    rw [runEngine_bind_ok hpop]
    rfl
  | nil =>
    rw [hq] at hpop
    have hget : runEngine get e = (.ok e, e) := rfl
    rw [runEngine_bind_ok hpop]
    simp only
    rw [runEngine_bind_ok hget]
    cases hproblem : e.knowsProblem with
    | true => rfl
    | false =>
      have hseal : runEngine (Engine.onStore (.sealStarved .nil) (·.sealStarved .nil)) e =
          (.ok (e.store.sealStarved .nil).1, e.sealed) := rfl
      simp only [Bool.false_eq_true, if_false]
      rw [runEngine_bind_ok hseal, runEngine_pop]
      cases e.sealed.store.queue <;> rfl

/-- Which unit is chosen in a state, and the state that is left.  A waiting unit goes first.
    When none waits and no problem is known, what is starved is sealed, which can wake some. -/
inductive Engine.Chooses (e : Engine) : Option Pending → Engine → Prop where
  | waiting {next : Pending} {rest : Worklist} (queue : e.store.queue = next :: rest) :
    Chooses e (some next) (e.withQueue rest)
  | problem (idle : e.store.queue = []) (known : e.knowsProblem = true) : Chooses e none e
  | woken {next : Pending} {rest : Worklist} (idle : e.store.queue = [])
    (silent : e.knowsProblem = false) (queue : e.sealed.store.queue = next :: rest) :
    Chooses e (some next) (e.sealed.withQueue rest)
  | fed (idle : e.store.queue = []) (silent : e.knowsProblem = false)
    (queue : e.sealed.store.queue = []) : Chooses e none e.sealed

theorem Engine.chooses_iff {e e' : Engine} {o : Option Pending} :
    e.Chooses o e' ↔ runEngine Engine.nextUnit e = (.ok o, e') := by
  rw [runEngine_nextUnit]
  constructor
  · intro h
    cases h with
    | waiting queue => rw [queue]
    | problem idle known => simp only [idle, known, if_true]
    | woken idle silent queue => simp only [idle, silent, queue, Bool.false_eq_true, if_false]
    | fed idle silent queue => simp only [idle, silent, queue, Bool.false_eq_true, if_false]
  · intro hr
    split at hr
    · cases hr
      exact .waiting ‹_›
    · rename_i idle
      split at hr
      · cases hr
        exact .problem idle ‹_›
      · rename_i silent
        split at hr
        · cases hr
          exact .woken idle (Bool.eq_false_iff.mpr silent) ‹_›
        · cases hr
          exact .fed idle (Bool.eq_false_iff.mpr silent) ‹_›

theorem nextUnit_ne_error {e e' : Engine} {stop : IterationLimit} :
    runEngine Engine.nextUnit e ≠ (.error stop, e') := by
  rw [runEngine_nextUnit]
  intro h
  split at h
  · cases h
  · split at h
    · cases h
    · split at h <;> cases h

theorem runEngine_settle_succ (env : Env) (rounds : Nat) (e : Engine) :
    runEngine (Engine.settle env (rounds + 1)) e =
      match runEngine Engine.nextUnit e with
      | (.ok none, e₁) => (.ok (), e₁)
      | (.ok (some i), e₁) =>
        match runEngine (Engine.recheck env i) e₁ with
        | (.ok _, e₂) => runEngine (Engine.settle env rounds) e₂
        | (.error stop, e₂) => (.error stop, e₂)
      | (.error stop, e₁) => (.error stop, e₁) := by
  rw [Engine.settle, runEngine_bind]
  rcases runEngine Engine.nextUnit e with ⟨_ | _ | i, e₁⟩
  · rfl
  · rfl
  · change runEngine (Engine.recheck env i >>= fun _ => Engine.settle env rounds) e₁ = _
    rw [runEngine_bind]
    rcases hr : runEngine (Engine.recheck env i) e₁ with ⟨_ | _, e₂⟩ <;> simp only [hr]

theorem runEngine_settle_zero (env : Env) (e : Engine) :
    runEngine (Engine.settle env 0) e = (.error ⟨env.settings.maxIterations⟩, e) := rfl

section

variable {env : Env} {rounds : Nat} {e e' : Engine}

/-- A round finds nothing to check, or its check is given up, or the other rounds come after it. -/
theorem settle_cases {r : Except IterationLimit Unit}
    (hr : runEngine (Engine.settle env (rounds + 1)) e = (r, e')) :
    (r = .ok () ∧ runEngine Engine.nextUnit e = (.ok none, e')) ∨
    ∃ next e₁, runEngine Engine.nextUnit e = (.ok (some next), e₁) ∧
      ((∃ stop, r = .error stop ∧ runEngine (Engine.recheck env next) e₁ = (.error stop, e')) ∨
        ∃ e₂, runEngine (Engine.recheck env next) e₁ = (.ok (), e₂) ∧
          runEngine (Engine.settle env rounds) e₂ = (r, e')) := by
  rw [runEngine_settle_succ] at hr
  rcases hnext : runEngine Engine.nextUnit e with ⟨stop | _ | next, e₁⟩
  · exact absurd hnext nextUnit_ne_error
  · rw [hnext] at hr
    cases hr
    exact Or.inl ⟨rfl, rfl⟩
  · refine Or.inr ⟨next, e₁, rfl, ?_⟩
    rw [hnext] at hr
    simp only at hr
    rcases hcheck : runEngine (Engine.recheck env next) e₁ with ⟨stop | _, e₂⟩
    · rw [hcheck] at hr
      cases hr
      exact Or.inl ⟨stop, rfl, rfl⟩
    · rw [hcheck] at hr
      exact Or.inr ⟨e₂, rfl, hr⟩

/-- The first of the rounds that come to an end. -/
theorem settle_ok_cases (hr : runEngine (Engine.settle env (rounds + 1)) e = (.ok (), e')) :
    runEngine Engine.nextUnit e = (.ok none, e') ∨
    ∃ next e₁ e₂, runEngine Engine.nextUnit e = (.ok (some next), e₁) ∧
      runEngine (Engine.recheck env next) e₁ = (.ok (), e₂) ∧
      runEngine (Engine.settle env rounds) e₂ = (.ok (), e') := by
  rcases settle_cases hr with ⟨_, hnext⟩ | ⟨next, e₁, hnext, ⟨_, hstop, _⟩ | ⟨e₂, hcheck, hrest⟩⟩
  · exact Or.inl hnext
  · cases hstop
  · exact Or.inr ⟨next, e₁, e₂, hnext, hcheck, hrest⟩

end

theorem final_eq (env : Env) : Engine.final env = runEngine (Engine.runAll env) .start := rfl

theorem runEngine_runAll (env : Env) (e : Engine) :
    runEngine (Engine.runAll env) e =
      match runEngine (Engine.checkNested env env.settings.maxNesting topUnit none false) e with
      | (.ok _, e₁) => runEngine (Engine.settle env env.settings.maxIterations) e₁
      | (.error stop, e₁) => (.error stop, e₁) := by
  rw [Engine.runAll, runEngine_bind]
  rcases runEngine (Engine.checkNested env env.settings.maxNesting topUnit none false) e
    with ⟨_ | _, e₁⟩ <;> rfl

/-- The top level is checked first, and the rounds come after that unless it is given up. -/
theorem runAll_cases {env : Env} {e e' : Engine} {r : Except IterationLimit Unit}
    (hr : runEngine (Engine.runAll env) e = (r, e')) :
    (∃ stop, r = .error stop ∧
      runEngine (Engine.checkNested env env.settings.maxNesting topUnit none false) e =
        (.error stop, e')) ∨
    ∃ e₁, runEngine (Engine.checkNested env env.settings.maxNesting topUnit none false) e =
        (.ok (), e₁) ∧
      runEngine (Engine.settle env env.settings.maxIterations) e₁ = (r, e') := by
  rw [runEngine_runAll] at hr
  rcases hcheck : runEngine (Engine.checkNested env env.settings.maxNesting topUnit none false) e
    with ⟨stop | _, e₁⟩
  · rw [hcheck] at hr
    cases hr
    exact Or.inl ⟨stop, rfl, rfl⟩
  · rw [hcheck] at hr
    exact Or.inr ⟨e₁, rfl, hr⟩

/-- A run that comes to its end. -/
theorem exists_settle_of_runAll {env : Env} {e e' : Engine}
    (hr : runEngine (Engine.runAll env) e = (.ok (), e')) :
    ∃ e₁, runEngine (Engine.checkNested env env.settings.maxNesting topUnit none false) e =
        (.ok (), e₁) ∧
      runEngine (Engine.settle env env.settings.maxIterations) e₁ = (.ok (), e') := by
  rcases runAll_cases hr with ⟨_, hstop, _⟩ | hsettle
  · cases hstop
  · exact hsettle

/-! ### Answers -/

/-- What the check of a program answers: the declarations are wrong, the run is given up, a unit
    reports a problem in the end, or none does. -/
inductive Program.Answered (p : Program) (settings : Settings) :
    Except CheckError Report → Prop where
  | misdeclared {d : Diagnostic} (wrong : Env.ofProgram settings p = .error d) :
    Answered p settings (.error (.rejected d))
  | givenUp {env : Env} {e : Engine} {stop : IterationLimit}
    (declared : Env.ofProgram settings p = .ok env) (final : Engine.final env = (.error stop, e)) :
    Answered p settings (.error (.iterationLimit stop.limit))
  | rejected {env : Env} {e : Engine} {d : Diagnostic}
    (declared : Env.ofProgram settings p = .ok env) (final : Engine.final env = (.ok (), e))
    (first : e.firstDiagnostic? = some d) : Answered p settings (.error (.rejected d))
  | accepted {env : Env} {e : Engine} (declared : Env.ofProgram settings p = .ok env)
    (final : Engine.final env = (.ok (), e)) (silent : e.firstDiagnostic? = none) :
    Answered p settings (.ok (e.report env))

theorem Program.answered_iff {p : Program} {settings : Settings}
    {answer : Except CheckError Report} :
    p.Answered settings answer ↔ p.check settings = answer := by
  unfold Program.check
  constructor
  · intro h
    cases h with
    | misdeclared wrong => rw [wrong]
    | givenUp declared final => simp only [declared, Env.check, final]
    | rejected declared final first => simp only [declared, Env.check, final, first]
    | accepted declared final silent => simp only [declared, Env.check, final, silent]
  · rintro rfl
    cases declared : Env.ofProgram settings p with
    | error d => exact .misdeclared declared
    | ok env =>
      rcases final : Engine.final env with ⟨stop | _, e⟩
      · simp only [Env.check, final]
        exact .givenUp declared final
      · cases hd : e.firstDiagnostic? with
        | some d =>
          simp only [Env.check, final, hd]
          exact .rejected declared final hd
        | none =>
          simp only [Env.check, final, hd]
          exact .accepted declared final hd

end UnionTyping
