/-
  UnionTyping/Proofs/Inference/Limit.lean
  =======================================
  **What the limit on the number of checks decides.**

  A run is given up only when it has made more checks than are allowed, and a run
  that comes to its end makes the same steps under every larger limit
  (`limited_final`).
-/
import Mathlib.Data.Finset.Lattice.Fold
import Mathlib.Data.Finset.Range
import UnionTyping.Proofs.Inference.Declarations
import UnionTyping.Proofs.Inference.Progress

namespace UnionTyping

/-- The step `x` gives up only after more checks than `limit`, and otherwise `y` does what `x`
    does. -/
def Engine.Limited (limit : Nat) {α : Type} (x y : EngineM α) : Prop :=
  ∀ e r e', runEngine x e = (r, e') → (∀ stop, r = .error stop → limit < e'.checks) ∧
    ∀ a, r = .ok a → runEngine y e = (.ok a, e')

/-- The same for steps of a check, with results related by `Q`. -/
def Checking.Limited (limit : Nat) {α β : Type} (Q : α → β → Prop) (x : WalkM α) (y : WalkM β) :
    Prop :=
  ∀ w e r e', runWalk x w e = (r, e') → (∀ stop, r = .error stop → limit < e'.checks) ∧
    ∀ a w', r = .ok (a, w') → ∃ b, Q a b ∧ runWalk y w e = (.ok (b, w'), e')

namespace Checking.Limited

variable {limit : Nat} {α β γ δ : Type}

theorem bind {Q : α → β → Prop} {S : γ → δ → Prop} {x : WalkM α} {y : WalkM β}
    {f : α → WalkM γ} {g : β → WalkM δ} (hx : Checking.Limited limit Q x y)
    (hf : ∀ a b, Q a b → Checking.Limited limit S (f a) (g b)) :
    Checking.Limited limit S (x >>= f) (y >>= g) := by
  intro w e r e' hr
  rcases runWalk_bind_eq hr with ⟨stop, hstop, rfl⟩ | ⟨a, w₁, e₁, hrx, hrf⟩
  · exact ⟨fun _ _ => (hx w e _ _ hstop).1 stop rfl, fun _ _ hne => nomatch hne⟩
  · obtain ⟨b, hab, hry⟩ := (hx w e _ _ hrx).2 a w₁ rfl
    obtain ⟨herror, hok⟩ := hf a b hab w₁ e₁ _ _ hrf
    refine ⟨herror, fun d w' hd => ?_⟩
    obtain ⟨d', hdd', hrg⟩ := hok d w' hd
    exact ⟨d', hdd', (runWalk_bind_ok hry).trans hrg⟩

/-- A step that does not look at the limit. -/
theorem of_runs {Q : α → α → Prop} {x : WalkM α} (hQ : ∀ a, Q a a)
    (h : ∀ w e, ∃ p e', runWalk x w e = (.ok p, e')) : Checking.Limited limit Q x x := by
  intro w e r e' hr
  obtain ⟨p, e₁, hp⟩ := h w e
  rw [hp] at hr
  cases hr
  refine ⟨(fun _ hne => nomatch hne), fun a w' ha => ⟨a, hQ a, ?_⟩⟩
  cases ha
  exact hp

theorem onStore {Q : α → α → Prop} {op : Operation} {f : Store → α × Store}
    (hQ : ∀ a, Q a a) :
    Checking.Limited limit Q (liftM (Engine.onStore op f)) (liftM (Engine.onStore op f)) :=
  of_runs hQ fun w e => ⟨_, _, runWalk_onStore op f w e⟩

theorem change {f : Walk → Walk} :
    Checking.Limited limit (fun (_ _ : Unit) => True) (WalkM.change f) (WalkM.change f) :=
  of_runs (fun _ => trivial) fun w e => ⟨_, _, runWalk_change f w e⟩

variable {c : Checking}

theorem readReturn {unit : UnitId} :
    Checking.Limited limit (fun a b => a = b) (c.readReturn unit) (c.readReturn unit) :=
  of_runs (fun _ => rfl) fun _ _ => ⟨_, _, rfl⟩

def revised (c : Checking) (env : Env) (begin : UnitId → Location → EngineM Unit) : Checking :=
  { c with env, begin }

variable {env : Env} {begin : UnitId → Location → EngineM Unit}

theorem instanceOf (hbegin : ∀ unit loc, Engine.Limited limit (c.begin unit loc) (begin unit loc))
    {site : Location} {method : MethodId} {self : Option Ty} {args : List Ty} :
    Checking.Limited limit (fun a b => a = b) (c.instanceOf site method self args)
      ((revised c env begin).instanceOf site method self args) := by
  intro w e r e' hr
  rcases instanceOf_cases hr with
    ⟨unit, hunit, hread⟩ | ⟨hunit, ⟨stop, rfl, hbegun⟩ | ⟨e₁, hbegun, hread⟩⟩
  · rw [runWalk_instanceOf_known hunit]
    exact readReturn w e r e' hread
  · exact ⟨fun _ _ => (hbegin _ _ _ _ _ hbegun).1 stop rfl, fun _ _ hne => nomatch hne⟩
  · have hbegun' : runEngine ((revised c env begin).begin e.units.length
        ((revised c env begin).cause.getD site)) (e.add ⟨method, self, args⟩) = (.ok (), e₁) :=
      (hbegin _ _ _ _ _ hbegun).2 () rfl
    rw [runWalk_instanceOf_new hunit, hbegun']
    exact readReturn w e₁ r e' hread

/-- Every type will do. -/
theorem domain (env : Env) (v : Vocabulary) : TypeDomain env v fun _ => True where
  literal := fun _ => .self trivial
  classObject := .self trivial
  unresolved := .self trivial
  union := by
    rintro a a' b b' ⟨rfl, _⟩ ⟨rfl, _⟩
    exact .self trivial
  written := fun _ _ => .self trivial
  allocated := fun _ _ _ => .self trivial
  nativeParam := fun _ _ _ _ _ _ => .self trivial
  nativeRet := fun _ _ _ _ => .self trivial
  members := fun _ _ => trivial
  primitive := fun _ _ => trivial
  pointer := fun _ _ _ => trivial

theorem uniform (henv : c.env.SameDeclarations env)
    (hbegin : ∀ unit loc, Engine.Limited limit (c.begin unit loc) (begin unit loc)) :
    Uniform c (revised c env begin) .full (fun _ => True) (fun _ => True)
      (fun (_ _ : Unit) => True) (fun _ (i j : BindingId) => i = j)
      fun _ Q x y => Checking.Limited limit (Q ()) x y where
  env := henv
  self := rfl
  types := (domain c.env .full).toTypeRelation
  ofSelf := fun _ => .self trivial
  onSelf := fun _ => (domain c.env .full).offered trivial
  ret := fun {α β w Q a b} hQ w e r e' hr => by
    rw [runWalk_pure] at hr
    cases hr
    refine ⟨(fun _ hne => nomatch hne), fun a' w' ha => ⟨b, ?_, ?_⟩⟩
    · cases ha
      exact hQ
    · cases ha
      rfl
  seq := fun hx hf => bind hx fun a b hab => hf () a b trivial hab
  later := fun _ h => h
  lookup := of_runs (fun o => by cases o <;> constructor; rfl) fun w e =>
    ⟨_, _, runWalk_lookup _ w e⟩
  enter := fun _ => change
  leave := change
  loopDepth := of_runs (fun _ => rfl) fun w e => ⟨_, _, runWalk_loopDepth w e⟩
  deepen := change
  surface := change
  fail := of_runs (fun _ => .self trivial) fun _ _ => ⟨_, _, rfl⟩
  noteType := by
    rintro w node t t' _ ⟨rfl, _⟩
    exact change
  noteCall := by
    intro w node receiver callee args args' ret _ _ hargs _
    obtain ⟨rfl, _⟩ := SameType.forall₂_iff.mp hargs
    exact change
  bindLocal := fun _ => of_runs (fun _ => rfl) fun _ _ => ⟨_, _, rfl⟩
  ivarBinding := fun _ _ => onStore fun _ => rfl
  returnedBinding := onStore fun _ => rfl
  read := by
    rintro w i j rfl
    exact onStore fun _ => .self trivial
  assign := by
    rintro w i j t t' site rfl ⟨rfl, _⟩
    exact onStore fun _ => trivial
  domain := domain c.env .full
  entered := id
  members := fun _ _ => trivial
  instanceOf := fun _ _ _ _ w e r e' hr => by
    obtain ⟨herror, hok⟩ := instanceOf hbegin w e r e' hr
    refine ⟨herror, fun a w' ha => ?_⟩
    obtain ⟨b, hab, hrun⟩ := hok a w' ha
    exact ⟨b, ⟨hab, trivial⟩, hrun⟩

/-- The whole check of a unit. -/
theorem unitBody (henv : c.env.SameDeclarations env)
    (hbegin : ∀ unit loc, Engine.Limited limit (c.begin unit loc) (begin unit loc))
    (key : Option Instantiation) :
    Checking.Limited limit (SameType fun _ => True) (c.unitBody key)
      ((revised c env begin).unitBody key) := by
  exact (uniform henv hbegin).lockstep.unitBody (w := ())
    (SameType.sameInstance fun _ _ _ _ => trivial) (Vocabulary.speaksUnit_full _ key)

end Checking.Limited

/-! ### Units and runs -/

section

variable {env env' : Env}

theorem limited_checkOnce (henv : env.SameDeclarations env')
    (hle : env.settings.maxIterations ≤ env'.settings.maxIterations) {begin begin' : Engine.Begin}
    (hbegin : ∀ recheck unit loc, Engine.Limited env.settings.maxIterations
      (begin recheck unit loc) (begin' recheck unit loc))
    (unit : UnitId) (cause : Option Location) (recheck : Bool) :
    Engine.Limited env.settings.maxIterations (Engine.checkOnce env begin unit cause recheck)
      (Engine.checkOnce env' begin' unit cause recheck) := by
  intro e r e' hr
  have hbody := Checking.Limited.unitBody (c := e.checkingOf env begin unit cause recheck)
    henv (hbegin recheck) (e.keyOf unit)
  rcases checkOnce_cases hr with
    ⟨hlimit, rfl, rfl⟩ | ⟨stop, rfl, hrun⟩ | ⟨hlimit, rfl, result, walk, e₂, hrun, rfl⟩
  · exact ⟨fun _ _ => hlimit, fun _ hne => nomatch hne⟩
  · exact ⟨fun _ _ => (hbody _ _ _ _ hrun).1 stop rfl, fun _ hne => nomatch hne⟩
  · refine ⟨(fun _ hne => nomatch hne), fun _ _ => ?_⟩
    obtain ⟨b, ⟨rfl, _⟩, hrun'⟩ := (hbody _ _ _ _ hrun).2 result walk rfl
    change runWalk ((e.checkingOf env' begin' unit cause recheck).unitBody (e.keyOf unit)) .start
      e.count = _ at hrun'
    rw [runEngine_checkOnce, if_neg fun hlt => hlimit (Nat.lt_of_le_of_lt hle hlt), hrun']

theorem limited_checkNested (henv : env.SameDeclarations env')
    (hle : env.settings.maxIterations ≤ env'.settings.maxIterations) (depth : Nat) (unit : UnitId)
    (cause : Option Location) (recheck : Bool) :
    Engine.Limited env.settings.maxIterations (Engine.checkNested env depth unit cause recheck)
      (Engine.checkNested env' depth unit cause recheck) := by
  rw [Engine.checkNested_eq, Engine.checkNested_eq]
  refine limited_checkOnce henv hle ?_ unit cause recheck
  induction depth with
  | zero =>
    intro recheck unit loc e r e' hr
    cases hr
    exact ⟨(fun _ hne => nomatch hne), fun _ ha => by cases ha; rfl⟩
  | succ depth ih =>
    intro recheck unit loc
    change Engine.Limited _ (Engine.checkNested env depth unit (some loc) recheck)
      (Engine.checkNested env' depth unit (some loc) recheck)
    rw [Engine.checkNested_eq, Engine.checkNested_eq]
    exact limited_checkOnce henv hle ih unit (some loc) recheck

/-- The rounds of a run.  Each makes a check, so a run that used up its rounds has made more
    checks than are allowed. -/
theorem limited_settle {C : Ty → Prop} {v : Vocabulary} (hkeeps : env.KeepsTo C v)
    (henv : env.SameDeclarations env')
    (hle : env.settings.maxIterations ≤ env'.settings.maxIterations)
    (hnesting : env'.settings.maxNesting = env.settings.maxNesting) {rounds rounds' : Nat}
    (hrounds : rounds ≤ rounds') {e e' : Engine} (h : Between env C v e)
    (hlimit : env.settings.maxIterations < rounds + e.checks) {r : Except IterationLimit Unit}
    (hr : runEngine (Engine.settle env rounds) e = (r, e')) :
    (∀ stop, r = .error stop → env.settings.maxIterations < e'.checks) ∧
      (r = .ok () → runEngine (Engine.settle env' rounds') e = (.ok (), e')) := by
  induction rounds generalizing e rounds' with
  | zero =>
    rw [runEngine_settle_zero] at hr
    cases hr
    rw [Nat.zero_add] at hlimit
    exact ⟨fun _ _ => hlimit, fun hne => nomatch hne⟩
  | succ rounds ih =>
    obtain ⟨rounds', rfl⟩ := Nat.exists_eq_add_one_of_ne_zero (Nat.ne_zero_of_lt hrounds)
    rw [runEngine_settle_succ]
    rcases settle_cases hr with
      ⟨rfl, hnext⟩ | ⟨next, e₁, hnext, ⟨stop, rfl, hcheck⟩ | ⟨e₂, hcheck, hrest⟩⟩
    · rw [hnext]
      exact ⟨(fun _ hne => nomatch hne), fun _ => rfl⟩
    · have hlimited := limited_checkNested henv hle _ _ _ _ _ _ _ hcheck
      exact ⟨fun _ _ => hlimited.1 stop rfl, fun hne => nomatch hne⟩
    · have hlimited := limited_checkNested henv hle _ _ _ _ _ _ _ hcheck
      have hcheck' : runEngine (Engine.recheck env' next) e₁ = (.ok (), e₂) := by
        rw [Engine.recheck, hnesting]
        exact hlimited.2 () rfl
      obtain ⟨_, _, _, hmore, _⟩ := round_progress hkeeps h hnext hcheck
      rw [hnext]
      simp only
      rw [hcheck']
      exact ih (Nat.le_of_succ_le_succ hrounds) (between_round hkeeps h hnext hcheck)
        (by omega) hrest

/-- A run gives up only when it has made more checks than are allowed, and a run that does
    not give up ends in the same state under every larger limit. -/
theorem limited_final {C : Ty → Prop} {v : Vocabulary} (hkeeps : env.KeepsTo C v)
    (henv : env.SameDeclarations env')
    (hle : env.settings.maxIterations ≤ env'.settings.maxIterations)
    (hnesting : env'.settings.maxNesting = env.settings.maxNesting) {e : Engine}
    {r : Except IterationLimit Unit} (hr : Engine.final env = (r, e)) :
    (∀ stop, r = .error stop → env.settings.maxIterations < e.checks) ∧
      (r = .ok () → Engine.final env' = (.ok (), e)) := by
  rcases runAll_cases hr with ⟨stop, rfl, hcheck⟩ | ⟨e₁, hcheck, hsettle⟩
  · have hlimited := limited_checkNested henv hle _ _ _ _ _ _ _ hcheck
    exact ⟨fun _ _ => hlimited.1 stop rfl, fun hne => nomatch hne⟩
  · have hlimited := limited_checkNested henv hle _ _ _ _ _ _ _ hcheck
    have hchecked : 1 ≤ e₁.checks :=
      (checkNested_grows hkeeps ok_start Nat.one_pos hcheck).2.checks
    rw [final_eq, runEngine_runAll, hnesting, hlimited.2 () rfl]
    exact limited_settle hkeeps henv hle hnesting hle (between_start hkeeps hcheck)
      (Nat.lt_add_of_pos_right hchecked) hsettle

end

/-! ### Limits that are large enough -/

def Settings.withLimit (settings : Settings) (limit : Nat) : Settings :=
  { settings with maxIterations := limit }

def Env.withLimit (env : Env) (limit : Nat) : Env := env.withSettings (env.settings.withLimit limit)

section

variable {env : Env} {C : Ty → Prop} {v : Vocabulary}

theorem Env.sameDeclarations_withLimit (env : Env) (limit limit' : Nat) :
    (env.withLimit limit).SameDeclarations (env.withLimit limit') :=
  ⟨rfl, rfl, rfl, rfl, rfl⟩

/-- A run that comes to its end under all limits that are large enough ends in finitely many
    states, so whatever is measured of them has a bound. -/
theorem bounded_of_ends (hkeeps : ∀ limit, (env.withLimit limit).KeepsTo C v) {N : Nat}
    (hN : ∀ limit, N ≤ limit → (Engine.final (env.withLimit limit)).1 = .ok ())
    (measure : Engine → Nat) :
    ∃ bound, ∀ limit, measure (Engine.final (env.withLimit limit)).2 ≤ bound := by
  let measured := fun limit => measure (Engine.final (env.withLimit limit)).2
  refine ⟨(Finset.range (N + 1)).sup measured, fun limit => ?_⟩
  rcases Nat.le_total limit N with hle | hge
  · exact Finset.le_sup (f := measured) (Finset.mem_range_succ_iff.mpr hle)
  · -- from the limit `N` on the run is the same
    have hfinal : Engine.final (env.withLimit N) = (.ok (), (Engine.final (env.withLimit N)).2) :=
      Prod.ext (hN N (Nat.le_refl N)) rfl
    have hsame := (limited_final (hkeeps N) (env.sameDeclarations_withLimit N limit) hge rfl
      hfinal).2 rfl
    rw [hsame]
    exact Finset.le_sup (f := measured) (Finset.self_mem_range_succ N)

/-- A run whose states stay below a size comes to its end under all limits that are large
    enough. -/
theorem ends_of_bounded (hkeeps : ∀ limit, (env.withLimit limit).KeepsTo C v) {bound : Nat}
    (hbound : ∀ limit, (Engine.final (env.withLimit limit)).2.size ≤ bound) {limit : Nat}
    (hlimit : bound * (bound + 4) ≤ limit) :
    (Engine.final (env.withLimit limit)).1 = .ok () := by
  rcases hfinal : Engine.final (env.withLimit limit) with ⟨stop | _, e⟩
  · have hgave := (limited_final (hkeeps limit) (env.sameDeclarations_withLimit limit limit)
      (Nat.le_refl _) rfl hfinal).1 stop rfl
    have hsize := hbound limit
    rw [hfinal] at hsize
    have hchecks := (final_checks (hkeeps limit) hfinal).2 bound hsize
    change limit < e.checks at hgave
    omega
  · rfl

end

end UnionTyping
