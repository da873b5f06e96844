/-
  UnionTyping/Proofs/Typing/CalledInstances.lean
  ==============================================
  **Every instance is called, as long as no address is taken.**

  A unit is `Engine.Reached` when it is the top level or when a unit that is reached has
  noted a call of it.  An instance is entered at some moment of a run for the types that
  are known by then, and it is not given up when a later check of its caller does not call
  it any more.  But types only become wider, so without addresses a later check makes the
  same calls and more: the context that enters only what is reached in the end gives a
  model (`Idle.closed_reached`), and the whole run stays below it.  So all units are
  reached, unless one that is reached has a problem (`Engine.reached_of_silent`).

  With addresses this is false.  A variable that is widened has another address, and the
  instances for the former one stay, together with their problems
  (`stale_instances_remain`).
-/
import UnionTyping.Proofs.Inference.Located
import UnionTyping.Proofs.Inference.Merging
import UnionTyping.Proofs.Typing.Quiet

namespace UnionTyping

open Ty (Over Proper Plain)

/-! ### Units that are reached -/

namespace Engine

/-- The units that can be reached from the top level by the calls that units have noted. -/
inductive Reached (e : Engine) : UnitId → Prop where
  | top : Reached e topUnit
  | called {caller unit : UnitId} {u : UnitRecord} {node : NodeId} {call : Resolution}
      {method : MethodId} (reached : Reached e caller) (record : e.units[caller]? = some u)
      (noted : call ∈ (u.calls.find? node).getD []) (callee : call.callee = .method method unit) :
      Reached e unit

def reachedContext (e : Engine) : Context where
  entered key := ∃ unit, e.unitOf key = some unit ∧ e.Reached unit
  holds := e.context.holds
  reads := e.context.reads

end Engine

section

variable {env : Env} {e : Engine}

/-- A unit whose instance is entered in the context of what is reached is reached. -/
theorem Idle.reached (h : Idle env e) {unit : UnitId} {u : UnitRecord}
    (hu : e.units[unit]? = some u) (hentered : ∀ k, u.key = some k → e.reachedContext.entered k) :
    e.Reached unit := by
  have hat := h.unitAt hu
  cases hkey : u.key with
  | none =>
    rw [hkey] at hat
    cases hat
    exact .top
  | some key =>
    rw [hkey] at hat
    obtain ⟨unit', hunit, hreached⟩ := hentered key hkey
    cases hunit.symm.trans hat
    exact hreached

variable (henv : env.Simple)
include henv

/-- When the units that are reached have no problem, the context that enters these gives a
    model. -/
theorem Idle.closed_reached (h : Idle env e)
    (hsilent : ∀ unit u, e.Reached unit → e.units[unit]? = some u → u.diagnostics = []) :
    (e.modelIn env e.reachedContext).Closed := by
  refine h.closedIn henv (fun key hkey => ?_) (fun _ _ hm => hm) rfl fun unit u hu hentered => ?_
  · obtain ⟨unit, hunit, _⟩ := hkey
    exact ⟨unit, hunit⟩
  · have hreached := h.reached hu hentered
    have hquiet := hsilent unit u hreached hu
    refine ⟨hquiet, u.result, h.typesUnit henv hu hquiet ⟨rfl, rfl, ?_⟩⟩
    intro node call hcall key callee hcallee hunit
    exact ⟨callee, hunit, .called hreached hu hcall hcallee⟩

/-- When the units that are reached have no problem, no unit has one and all are reached. -/
theorem Engine.reached_of_silent (hfinal : Engine.final env = (.ok (), e))
    (hsilent : ∀ unit u, e.Reached unit → e.units[unit]? = some u → u.diagnostics = []) :
    (∀ u ∈ e.units, u.diagnostics = []) ∧ ∀ unit < e.units.length, e.Reached unit := by
  have hfinished := final_finished henv.keepsTo hfinal
  have hidle : Idle env e := ⟨hfinished.toBetween, hfinished.idle⟩
  have hbelow : e.Below (e.modelIn env e.reachedContext) := by
    refine Engine.below_final (hidle.closed_reached henv hsilent) (.refl env) henv.keepsTo hfinal
      fun q hpauses hext p b hb hslot hstarved => ?_
    have hok := (hpauses.between henv.keepsTo).1.ok
    exact hok.holds_nil (hok.bindingAt_of_mem hb hslot) hstarved hext
  refine ⟨hbelow.silent, fun unit hlt => ?_⟩
  have hu : e.units[unit]? = some e.units[unit] := List.getElem?_eq_getElem hlt
  refine hidle.reached hu fun key hkey => ?_
  exact (hbelow.keys key (Engine.mem_keys ((Engine.keyOf_of_getElem? hu).trans hkey))).2

end

/-! ### Calls of instances -/

/-- A unit that is reached is called, unless it is the top level. -/
theorem Accepted.exists_call {p : Program} {settings : Settings} {env : Env} {e : Engine}
    (h : Accepted p settings env e) {unit : UnitId} {key : Instantiation}
    (hkey : e.keyOf unit = some key) (hreached : e.Reached unit) :
    ∃ node, ∃ call ∈ ((e.report env).calls.find? node).getD [],
      call.callee = .method key.method unit := by
  cases hreached with
  | top =>
    obtain ⟨rest, hkeys⟩ := h.finished.top
    rw [Engine.keyOf_eq, ← hkeys] at hkey
    cases hkey
  | @called caller _ u node call method _ hu hnoted hcallee =>
    -- the call is noted for the instance of the unit
    have hmethod : method = key.method := by
      obtain ⟨_, _, _, _, hcarried⟩ := h.carried hu hnoted
      obtain ⟨key', hkey', hmethod⟩ := hcarried.exists_key hcallee
      cases hkey.symm.trans hkey'
      exact hmethod.symm
    obtain ⟨k, hk, hsame⟩ :=
      Engine.exists_reported h.callsAscending (List.mem_of_getElem? hu) hnoted
    have hfinal : (e.finalCall call).callee = .method key.method unit := hmethod ▸ hcallee
    refine ⟨node, k, hk, ?_⟩
    rcases hsame with rfl | hsame
    · exact hfinal
    · exact (Resolution.beq_iff.mp hsame).2.1.trans hfinal

/-- In an accepted program in which no address is taken every instance that is listed is the
    target of a reported call.  A program without addresses that is rejected, and not for one
    of its declarations, has a problem in a unit that is reached from the top level. -/
theorem Program.check_instances_called {file : String} {items : List Item} {settings : Settings}
    (hfree : ∀ n ∈ (Program.ofItems file items).nodes, n.takesAddress = false) :
    (∀ report, (Program.ofItems file items).check settings = .ok report →
      ∀ i ∈ report.instances, ∃ node, ∃ call ∈ (report.calls.find? node).getD [],
        call.callee = .method i.method i.unit) ∧
    ∀ d, (Program.ofItems file items).check settings = .error (.rejected d) →
      Env.ofProgram settings (Program.ofItems file items) = .error d ∨
      ∃ env e unit u, Env.ofProgram settings (Program.ofItems file items) = .ok env ∧
        Engine.final env = (.ok (), e) ∧ e.Reached unit ∧ e.units[unit]? = some u ∧
        u.diagnostics ≠ [] := by
  constructor
  · intro report h i hi
    obtain ⟨env, e, henv, hfinal, hsilent, rfl⟩ := Program.check_eq_ok.mp h
    have hsimple := Env.simple_of_ofProgram henv hfree
    have haccepted : Accepted _ settings env e :=
      ⟨henv, final_finished (Env.keepsTo_proper hsimple.libraries) hfinal, hsilent⟩
    obtain ⟨u, hu, hkey⟩ := Engine.exists_unit_of_mem_instances hi
    obtain ⟨_, hreached⟩ := Engine.reached_of_silent hsimple hfinal
      fun _ u _ hu => hsilent u (List.mem_of_getElem? hu)
    exact haccepted.exists_call ((Engine.keyOf_of_getElem? hu).trans hkey)
      (hreached i.unit (List.getElem?_eq_some_iff.mp hu).1)
  · intro d h
    cases Program.answered_iff.mpr h with
    | misdeclared wrong => exact Or.inl wrong
    | @rejected env e _ henv hfinal hfirst =>
      refine Or.inr ⟨env, e, ?_⟩
      apply Classical.byContradiction
      intro hnone
      have hsilent : ∀ unit u, e.Reached unit → e.units[unit]? = some u → u.diagnostics = [] := by
        intro unit u hreached hu
        apply Classical.byContradiction
        intro hproblem
        exact hnone ⟨unit, u, henv, hfinal, hreached, hu, hproblem⟩
      have hquiet := (Engine.reached_of_silent (Env.simple_of_ofProgram henv hfree) hfinal
        hsilent).1
      rw [Engine.firstDiagnostic?_eq_none.mpr hquiet] at hfirst
      cases hfirst

/-- A problem in an instance that is met after a variable was widened:
    `def twice(a) a + a end; x = 1; twice(x); x = 'c'`. -/
def misusingProgram : Program :=
  let m : Mark := ⟨0, .unplaced⟩
  .ofItems "misusing.qz" [
    .method ⟨"twice", [⟨"a", none, none⟩],
      [.call m (some (.ident m "a")) "+" [.ident m "a"] none false], .unplaced⟩,
    .expr (.assign m (.local "x") (.literal m .int)),
    .expr (.call m none "twice" [.ident m "x"] none true),
    .expr (.assign m (.local "x") (.literal m .char))]

theorem wideningProgram_instances_called :
    ((∀ n ∈ wideningProgram.nodes, n.takesAddress = false) ∧
      ∃ report, wideningProgram.check {} = .ok report ∧
        ∀ i ∈ report.instances, ∃ node, ∃ call ∈ (report.calls.find? node).getD [],
          call.callee = .method i.method i.unit) ∧
    (∀ n ∈ misusingProgram.nodes, n.takesAddress = false) ∧
      ∃ d env e unit u, misusingProgram.check {} = .error (.rejected d) ∧
        Env.ofProgram {} misusingProgram = .ok env ∧ Engine.final env = (.ok (), e) ∧
        e.Reached unit ∧ e.units[unit]? = some u ∧ u.diagnostics ≠ [] := by
  constructor
  · have hfree : ∀ n ∈ wideningProgram.nodes, n.takesAddress = false := by decide +kernel
    have hok : (wideningProgram.check {}).toBool = true := by decide +kernel
    obtain ⟨report, h⟩ := exists_of_toBool hok
    exact ⟨hfree, report, h, (Program.check_instances_called hfree).1 report h⟩
  · have hfree : ∀ n ∈ misusingProgram.nodes, n.takesAddress = false := by decide +kernel
    have hdeclared : (Env.ofProgram {} misusingProgram).toBool = true := by decide +kernel
    have hrelated :
        CheckError.relatedOf (misusingProgram.check {}) = some ⟨"misusing.qz", 4, 1⟩ := by
      decide +kernel
    obtain ⟨d, h, -⟩ := CheckError.exists_of_relatedOf hrelated
    refine ⟨hfree, d, ?_⟩
    rcases (Program.check_instances_called hfree).2 d h with
      wrong | ⟨env, e, unit, u, henv, hfinal, hreached, hu, hproblem⟩
    · have hwrong : Env.ofProgram {} misusingProgram = .error d := wrong
      rw [hwrong] at hdeclared
      cases hdeclared
    · exact ⟨env, e, unit, u, h, henv, hfinal, hreached, hu, hproblem⟩

def NodeMap.callees (calls : NodeMap (List Resolution)) : List Callee :=
  calls.entries.flatMap fun (_, found) => found.map Resolution.callee

theorem NodeMap.mem_callees {calls : NodeMap (List Resolution)} {node : NodeId} {call : Resolution}
    (h : call ∈ (calls.find? node).getD []) : call.callee ∈ calls.callees := by
  cases hfound : calls.find? node with
  | none =>
    rw [hfound] at h
    cases h
  | some found =>
    rw [hfound] at h
    exact List.mem_flatMap.mpr ⟨_, mem_of_find?_eq_some hfound, List.mem_map_of_mem h⟩

/-- An instance for an address that is another one in the end: `def f(a) 1 end; p = 1;
    f(p.ptr); p = 'c'`. -/
def staleProgram : Program :=
  let m : Mark := ⟨0, .unplaced⟩
  .ofItems "stale.qz" [
    .method ⟨"f", [⟨"a", none, none⟩], [.literal m .int], .unplaced⟩,
    .expr (.assign m (.local "p") (.literal m .int)),
    .expr (.call m none "f" [.call m (some (.ident m "p")) "ptr" [] none false] none true),
    .expr (.assign m (.local "p") (.literal m .char))]

/-- The same where that instance has a problem: `def g(a : Pointer(Int)) nope end;
    def g(a) 1 end; p = 1; g(p.ptr); p = 'c'`. -/
def staleProblemProgram : Program :=
  let m : Mark := ⟨0, .unplaced⟩
  .ofItems "stale.qz" [
    .method ⟨"g", [⟨"a", some (.mk "Pointer" [.mk "Int" [] .unplaced] .unplaced), none⟩],
      [.ident m "nope"], .unplaced⟩,
    .method ⟨"g", [⟨"a", none, none⟩], [.literal m .int], .unplaced⟩,
    .expr (.assign m (.local "p") (.literal m .int)),
    .expr (.call m none "g" [.call m (some (.ident m "p")) "ptr" [] none false] none true),
    .expr (.assign m (.local "p") (.literal m .char))]

def listsUncalled : Except CheckError Report → Bool
  | .ok report =>
    report.instances.any fun i => !decide (.method i.method i.unit ∈ report.calls.callees)
  | .error _ => false

theorem exists_of_listsUncalled {r : Except CheckError Report} (h : listsUncalled r = true) :
    ∃ report, r = .ok report ∧ ∃ i ∈ report.instances, ∀ node,
      ∀ call ∈ (report.calls.find? node).getD [], call.callee ≠ .method i.method i.unit := by
  cases r with
  | error _ => cases h
  | ok report =>
    obtain ⟨i, hi, hnone⟩ := List.any_eq_true.mp h
    refine ⟨report, rfl, i, hi, fun node call hcall heq => ?_⟩
    have hmem := NodeMap.mem_callees hcall
    rw [heq] at hmem
    exact of_decide_eq_false (Bool.not_eq_eq_eq_not.mp hnone) hmem

def Callee.reaches (unit : UnitId) : Callee → Bool
  | .method _ called => called == unit
  | _ => false

def Engine.blamesUncalled (e : Engine) (unit : UnitId) : Bool :=
  (e.units.zipIdx.all fun (u, i) => u.diagnostics.isEmpty || i == unit) &&
    e.units.all fun u => u.calls.callees.all fun callee => !callee.reaches unit

theorem Engine.uncalled_of_blamesUncalled {e : Engine} {unit : UnitId}
    (h : e.blamesUncalled unit = true) :
    (∀ i u, e.units[i]? = some u → u.diagnostics ≠ [] → i = unit) ∧
      ∀ u ∈ e.units, ∀ node, ∀ call ∈ (u.calls.find? node).getD [], ∀ method,
        call.callee ≠ .method method unit := by
  obtain ⟨honly, hnone⟩ := Bool.and_eq_true_iff.mp h
  refine ⟨fun i u hu hproblem => ?_, fun u hu node call hcall method heq => ?_⟩
  · have hthere := List.all_eq_true.mp honly (u, i) (List.mem_zipIdx_iff_getElem?.mpr hu)
    rcases Bool.or_eq_true_iff.mp hthere with hempty | hone
    · exact absurd (List.isEmpty_iff.mp hempty) hproblem
    · exact beq_iff_eq.mp hone
  · have hother := List.all_eq_true.mp (List.all_eq_true.mp hnone u hu) _
      (NodeMap.mem_callees hcall)
    simp [heq, Callee.reaches] at hother

/-- The program is rejected, although the run ends with problems of that unit only, and no
    unit calls it. -/
def rejectsUncalled (unit : UnitId) : Except CheckError Report → Except Diagnostic Env → Bool
  | .error (.rejected _), .ok env =>
    match Engine.final env with
    | (.ok (), e) => e.blamesUncalled unit
    | _ => false
  | _, _ => false

theorem exists_of_rejectsUncalled {unit : UnitId} {r : Except CheckError Report}
    {declared : Except Diagnostic Env} (h : rejectsUncalled unit r declared = true) :
    ∃ d env e, r = .error (.rejected d) ∧ declared = .ok env ∧ Engine.final env = (.ok (), e) ∧
      e.blamesUncalled unit = true := by
  unfold rejectsUncalled at h
  split at h
  · split at h
    · rename_i hfinal
      exact ⟨_, _, _, rfl, rfl, hfinal, h⟩
    · cases h
  · cases h

/-- With an address an instance may be listed that no reported call invokes, and a program may
    be rejected although the only unit with a problem is one that no unit calls. -/
theorem stale_instances_remain :
    (∃ report, staleProgram.check {} = .ok report ∧ ∃ i ∈ report.instances,
      ∀ node, ∀ call ∈ (report.calls.find? node).getD [], call.callee ≠ .method i.method i.unit) ∧
    ∃ d env e unit, staleProblemProgram.check {} = .error (.rejected d) ∧
      Env.ofProgram {} staleProblemProgram = .ok env ∧ Engine.final env = (.ok (), e) ∧
      (∀ i u, e.units[i]? = some u → u.diagnostics ≠ [] → i = unit) ∧
      ∀ u ∈ e.units, ∀ node, ∀ call ∈ (u.calls.find? node).getD [], ∀ method,
        call.callee ≠ .method method unit := by
  constructor
  · exact exists_of_listsUncalled (by decide +kernel)
  · have hstale : rejectsUncalled 1 (staleProblemProgram.check {})
        (Env.ofProgram {} staleProblemProgram) = true := by decide +kernel
    obtain ⟨d, env, e, hcheck, henv, hfinal, hblames⟩ := exists_of_rejectsUncalled hstale
    exact ⟨d, env, e, 1, hcheck, henv, hfinal, e.uncalled_of_blamesUncalled hblames⟩

end UnionTyping
