/-
  UnionTyping/Proofs/Inference/FixedPoint.lean
  ============================================
  **The findings of an accepted program are a fixed point.**

  A program is accepted when its run comes to its end and no unit has a problem.
  Then nothing is waiting, and checking any unit once more, for any reason and
  under any settings, counts one more check and changes nothing else
  (`Program.check_stable`).
-/
import UnionTyping.Inference.Outcome
import UnionTyping.Proofs.Inference.Declarations
import UnionTyping.Syntax.Numbering

namespace UnionTyping

theorem Engine.firstDiagnostic?_eq_none {e : Engine} :
    e.firstDiagnostic? = none ↔ ∀ u ∈ e.units, u.diagnostics = [] := by
  unfold firstDiagnostic?
  cases h : e.units.flatMap UnitRecord.diagnostics with
  | nil =>
    rw [List.flatMap_eq_nil_iff] at h
    exact ⟨fun _ => h, fun _ => rfl⟩
  | cons d ds =>
    refine ⟨(fun hne => nomatch hne), fun hall => ?_⟩
    rw [List.flatMap_eq_nil_iff.mpr hall] at h
    cases h

theorem Engine.knowsProblem_eq_false {e : Engine} (h : ∀ u ∈ e.units, u.diagnostics = []) :
    e.knowsProblem = false := by
  rw [← Bool.not_eq_true]
  intro hproblem
  obtain ⟨u, hu, hne⟩ := List.any_eq_true.mp hproblem
  rw [h u hu] at hne
  cases hne

/-- When a program is accepted, and with which report. -/
theorem Program.check_eq_ok {p : Program} {settings : Settings} {report : Report} :
    p.check settings = .ok report ↔ ∃ env e, Env.ofProgram settings p = .ok env ∧
      Engine.final env = (.ok (), e) ∧ (∀ u ∈ e.units, u.diagnostics = []) ∧
      report = e.report env := by
  rw [← answered_iff]
  constructor
  · intro h
    cases h with
    | accepted declared final silent =>
      exact ⟨_, _, declared, final, Engine.firstDiagnostic?_eq_none.mp silent, rfl⟩
  · rintro ⟨env, e, declared, final, silent, rfl⟩
    exact .accepted declared final (Engine.firstDiagnostic?_eq_none.mpr silent)

/-- A unit that stands is not changed by one more check. -/
theorem checkNested_of_stands {env : Env} {C : Ty → Prop} {v : Vocabulary} {e : Engine}
    {unit : UnitId} {u : UnitRecord} (hkeeps : env.KeepsTo C v) (hok : e.Ok env C v)
    (hu : e.units[unit]? = some u) (hnil : u.diagnostics = [])
    (hidle : ¬ e.store.queue.holds unit = true) (h : Stands env e unit u) {settings : Settings}
    (hlimit : e.checks < settings.maxIterations) (depth : Nat) (cause : Option Location)
    (recheck : Bool) :
    runEngine (Engine.checkNested (env.withSettings settings) depth unit cause recheck) e =
      (.ok (), e.count) := by
  have hkey := Engine.keyOf_of_getElem? hu
  have hcount : Stands env e.count unit u :=
    h.later hkeeps hu hok hidle hok.count ⟨.refl _, List.prefix_rfl⟩ (.of_store rfl)
  obtain ⟨scopes, depth, hrun⟩ := hcount (e.checkingOf (env.withSettings settings)
    (Engine.nestedBegin (env.withSettings settings) depth) unit cause recheck)
    (env.sameDeclarations_withSettings settings) rfl (by rw [← hkey]; rfl)
  have hself : e.count.units.modify unit
      (fun u' => u'.found ⟨scopes, depth, [], u.types, u.calls⟩ u.result) = e.count.units := by
    refine Store.modify_eq_self fun u' hu' => ?_
    cases hu.symm.trans hu'
    rw [UnitRecord.found, ← hnil]
  have hbelow : ¬ (env.withSettings settings).settings.maxIterations < e.checks + 1 :=
    Nat.not_lt.mpr hlimit
  rw [Engine.checkNested_eq, runEngine_checkOnce, if_neg hbelow, hkey, hrun]
  simp only [Engine.record, hself]

/-- In the state in which the run of an accepted program ends, nothing is waiting and no
    unit has a problem; and one more check of any unit, the top level or an instance
    of a method, leaves that state as it is, apart from the number of checks. -/
theorem Program.check_stable {p : Program} {settings : Settings} {report : Report}
    (h : p.check settings = .ok report) :
    ∃ env e, Env.ofProgram settings p = .ok env ∧ Engine.final env = (.ok (), e) ∧
      e.store.queue = [] ∧ (∀ u ∈ e.units, u.diagnostics = []) ∧
      ∀ unit < e.units.length, ∀ settings' : Settings, e.checks < settings'.maxIterations →
        ∀ (depth : Nat) (cause : Option Location) (recheck : Bool),
          runEngine (Engine.checkNested (env.withSettings settings') depth unit cause recheck) e =
            (.ok (), { e with checks := e.checks + 1 }) := by
  obtain ⟨env, e, henv, hfinal, hnone, _⟩ := Program.check_eq_ok.mp h
  have hkeeps := Env.keepsTo_proper (Env.plain_libraries henv)
  have hfin := final_finished hkeeps hfinal
  refine ⟨env, e, henv, hfinal, hfin.idle, hnone, ?_⟩
  intro unit hlt settings' hlimit depth cause recheck
  have hu : e.units[unit]? = some e.units[unit] := List.getElem?_eq_getElem hlt
  have hnil := hnone _ (List.getElem_mem hlt)
  have hidle : ¬ e.store.queue.holds unit = true := by
    rw [hfin.idle]
    exact fun hold => nomatch hold
  have hstands := hfin.settled unit _ hu (fun hmem => nomatch hmem) hidle hnil
  exact checkNested_of_stands hkeeps hfin.ok hu hnil hidle hstands hlimit depth cause recheck

/-- A variable that is widened after a method was called with it:
    `def twice(a) a + a; x = 1; twice(x); x = 2.0`. -/
def wideningProgram : Program :=
  let m : Mark := ⟨0, .unplaced⟩
  .ofItems "widening.qz" [
    .method ⟨"twice", [⟨"a", none, none⟩],
      [.call m (some (.ident m "a")) "+" [.ident m "a"] none false], .unplaced⟩,
    .expr (.assign m (.local "x") (.literal m .int)),
    .expr (.call m none "twice" [.ident m "x"] none true),
    .expr (.assign m (.local "x") (.literal m .double))]

theorem wideningProgram_stable :
    ∃ report, wideningProgram.check {} = .ok report ∧
    ∃ env e, Env.ofProgram {} wideningProgram = .ok env ∧ Engine.final env = (.ok (), e) ∧
      e.store.queue = [] ∧ (∀ u ∈ e.units, u.diagnostics = []) ∧
      ∀ unit < e.units.length, ∀ settings' : Settings, e.checks < settings'.maxIterations →
        ∀ (depth : Nat) (cause : Option Location) (recheck : Bool),
          runEngine (Engine.checkNested (env.withSettings settings') depth unit cause recheck) e =
            (.ok (), { e with checks := e.checks + 1 }) := by
  have hok : (wideningProgram.check {}).toBool = true := by decide +kernel
  obtain ⟨report, h⟩ := exists_of_toBool hok
  exact ⟨report, h, Program.check_stable h⟩

end UnionTyping
