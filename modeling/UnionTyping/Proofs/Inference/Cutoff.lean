/-
  UnionTyping/Proofs/Inference/Cutoff.lean
  ========================================
  **The limit on the number of checks is only a cut-off.**

  Whatever a program is, there is a number of checks that it needs, possibly none that is
  large enough.  Under a smaller limit its check is given up, and the answer names the
  limit; from that number on all limits give the same answer (`Program.check_cutoff`).

  That a run goes on in the same way under a larger limit is known (`limited_final`).
  What is left is that no run is given up for another reason than its limit, however deep
  in the nesting of checks that happens (`stopsAt_runAll`).
-/
import Mathlib.Data.ENat.Basic
import UnionTyping.Proofs.Inference.Kept
import UnionTyping.Proofs.Inference.Termination

namespace UnionTyping

/-! ### Why a run is given up -/

/-- A step of a run that gives up does so for the limit. -/
def Engine.StopsAt (limit : Nat) (x : EngineM Unit) : Prop :=
  ∀ e stop e', runEngine x e = (.error stop, e') → stop = ⟨limit⟩

section

variable {env : Env}

theorem keeping_stopsAt {limit : Nat} {c : Checking}
    (hbegin : ∀ unit loc, Engine.StopsAt limit (c.begin unit loc)) :
    c.Keeping (· = ⟨limit⟩) (fun _ => True) fun _ _ => True where
  walk := fun _ _ => trivial
  bindings := fun _ _ => trivial
  fail := fun _ _ => trivial
  assign := fun _ _ _ => trivial
  begin := fun _ _ hr => ⟨fun _ hstop => hbegin _ _ _ _ _ (hstop ▸ hr), fun _ => trivial⟩

theorem stopsAt_checkOnce {begin : Engine.Begin} {recheck : Bool}
    (hbegin : ∀ unit loc, Engine.StopsAt env.settings.maxIterations (begin recheck unit loc))
    (unit : UnitId) (cause : Option Location) :
    Engine.StopsAt env.settings.maxIterations
      (Engine.checkOnce env begin unit cause recheck) := by
  intro e stop e' hr
  rcases checkOnce_cases hr with ⟨_, hstop, _⟩ | ⟨_, hstop, hbody⟩ | ⟨_, hdone, _⟩
  · exact Except.error.inj hstop
  · have hkeeping := keeping_stopsAt (c := e.checkingOf env begin unit cause recheck) hbegin
    cases hstop
    exact (hkeeping.unitBody env.standAt_any (e.keyOf unit) trivial hbody).1 stop rfl
  · cases hdone

theorem stopsAt_nestedBegin (depth : Nat) (recheck : Bool) (unit : UnitId) (loc : Location) :
    Engine.StopsAt env.settings.maxIterations
      (Engine.nestedBegin env depth recheck unit loc) := by
  induction depth generalizing unit loc with
  | zero =>
    intro e stop e' hr
    cases hr
  | succ depth ih =>
    change Engine.StopsAt _ (Engine.checkNested env depth unit (some loc) recheck)
    rw [Engine.checkNested_eq]
    exact stopsAt_checkOnce ih unit (some loc)

theorem stopsAt_checkNested (depth : Nat) (unit : UnitId) (cause : Option Location)
    (recheck : Bool) :
    Engine.StopsAt env.settings.maxIterations
      (Engine.checkNested env depth unit cause recheck) := by
  rw [Engine.checkNested_eq]
  exact stopsAt_checkOnce (stopsAt_nestedBegin depth recheck) unit cause

theorem stopsAt_settle (rounds : Nat) :
    Engine.StopsAt env.settings.maxIterations (Engine.settle env rounds) := by
  induction rounds with
  | zero =>
    intro e stop e' hr
    cases hr
    rfl
  | succ rounds ih =>
    intro e stop e' hr
    rcases settle_cases hr with
      ⟨hdone, _⟩ | ⟨next, e₁, _, ⟨_, hstop, hcheck⟩ | ⟨e₂, _, hrest⟩⟩
    · cases hdone
    · cases hstop
      exact stopsAt_checkNested _ _ _ _ _ _ _ hcheck
    · exact ih _ _ _ hrest

/-- A run is given up only for its limit. -/
theorem stopsAt_runAll : Engine.StopsAt env.settings.maxIterations (Engine.runAll env) := by
  intro e stop e' hr
  rcases runAll_cases hr with ⟨_, hstop, hcheck⟩ | ⟨e₁, _, hsettle⟩
  · cases hstop
    exact stopsAt_checkNested _ _ _ _ _ _ _ hcheck
  · exact stopsAt_settle _ _ _ _ hsettle

end

/-! ### Larger limits -/

/-- The numbers that satisfy an upward closed predicate are those from some number on, which
    is infinite if there are none. -/
theorem exists_threshold {E : Nat → Prop} (hup : ∀ m m', m ≤ m' → E m → E m') :
    ∃ k : ℕ∞, ∀ m : Nat, E m ↔ k ≤ m := by
  classical
  by_cases hsome : ∃ m, E m
  · refine ⟨(Nat.find hsome : ℕ∞), fun m => ?_⟩
    rw [Nat.cast_le]
    exact ⟨Nat.find_min' hsome, fun hle => hup _ m hle (Nat.find_spec hsome)⟩
  · refine ⟨⊤, fun m => iff_of_false (fun hm => hsome ⟨m, hm⟩) ?_⟩
    exact not_le.mpr (ENat.natCast_lt_top m)

namespace Program

variable {p : Program} {settings : Settings}

/-- The answer to a run that is given up names the limit. -/
theorem limit_of_check {stop : Nat} (h : p.check settings = .error (.iterationLimit stop)) :
    stop = settings.maxIterations := by
  obtain ⟨env, henv, hfinal⟩ := check_eq_iterationLimit.mp h
  have hstop := stopsAt_runAll .start ⟨stop⟩ _ (Prod.ext hfinal rfl)
  rw [Env.settings_of_ofProgram henv] at hstop
  exact congrArg IterationLimit.limit hstop

/-- A check that is not given up answers the same under every larger limit. -/
theorem check_withLimit {m m' : Nat} (hle : m ≤ m')
    (h : p.check (settings.withLimit m) ≠ .error (.iterationLimit m)) :
    p.check (settings.withLimit m') = p.check (settings.withLimit m) := by
  cases henv : Env.ofProgram settings p with
  | error d =>
    have hsame : ∀ limit, p.check (settings.withLimit limit) = .error (.rejected d) := by
      intro limit
      rw [check, Env.ofProgram_eq_map settings, henv]
      rfl
    rw [hsame, hsame]
  | ok env =>
    have hlimited : ∀ limit, p.check (settings.withLimit limit) = (env.withLimit limit).check := by
      intro limit
      rw [check, Env.ofProgram_withLimit henv]
    have hkeeps : (env.withLimit m).KeepsTo Ty.Proper .full :=
      Env.keepsTo_proper (Env.plain_libraries (Env.ofProgram_withLimit henv m))
    rcases hfinal : Engine.final (env.withLimit m) with ⟨stop | _, e⟩
    · -- the run is given up, so for the limit
      have hgiven := check_eq_iterationLimit.mpr
        ⟨_, Env.ofProgram_withLimit henv m, congrArg Prod.fst hfinal⟩
      have hstop : stop.limit = m := limit_of_check hgiven
      rw [hstop] at hgiven
      exact absurd hgiven h
    · have hmore :=
        (limited_final hkeeps (env.sameDeclarations_withLimit m m') hle rfl hfinal).2 rfl
      rw [hlimited, hlimited, Env.check, Env.check, hfinal, hmore]
      rfl

/-- The limit on the number of checks is only a cut-off: below some number the check of a
    program is given up, naming the limit, and from there on its answer is always the same.
    So raising the limit changes nothing for a run that is not given up. -/
theorem check_cutoff (p : Program) (settings : Settings) :
    ∃ k : ℕ∞,
      (∀ m : Nat, p.check (settings.withLimit m) = .error (.iterationLimit m) ↔ (m : ℕ∞) < k) ∧
      (∀ m stop : Nat, p.check (settings.withLimit m) = .error (.iterationLimit stop) → stop = m) ∧
      (∀ m m' : Nat, k ≤ m → k ≤ m' →
        p.check (settings.withLimit m) = p.check (settings.withLimit m')) ∧
      ∀ m m' : Nat, m ≤ m' → p.check (settings.withLimit m) ≠ .error (.iterationLimit m) →
        p.check (settings.withLimit m') = p.check (settings.withLimit m) := by
  let Ends := fun m : Nat => p.check (settings.withLimit m) ≠ .error (.iterationLimit m)
  have hraise : ∀ m m', m ≤ m' → Ends m →
      p.check (settings.withLimit m') = p.check (settings.withLimit m) := fun _ _ hle hm =>
    check_withLimit hle hm
  have hup : ∀ m m', m ≤ m' → Ends m → Ends m' := by
    intro m m' hle hm hlimit
    rw [hraise m m' hle hm] at hlimit
    have heq : m' = m := limit_of_check hlimit
    exact hm (heq ▸ hlimit)
  obtain ⟨k, hk⟩ := exists_threshold hup
  refine ⟨k, fun m => ?_, fun m stop h => limit_of_check h, fun m m' hm hm' => ?_, hraise⟩
  · rw [← not_le, ← hk m]
    exact not_not.symm
  · rcases Nat.le_total m m' with hle | hle
    · exact (hraise m m' hle ((hk m).mpr hm)).symm
    · exact hraise m' m hle ((hk m').mpr hm')

end Program

end UnionTyping
