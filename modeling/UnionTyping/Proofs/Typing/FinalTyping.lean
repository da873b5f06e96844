/-
  UnionTyping/Proofs/Typing/FinalTyping.lean
  ==========================================
  **What an accepted program reports is a typing.**

  When a program was accepted, each unit has its type by the rules, in the context of the
  last state and with the types that the last check of the unit noted
  (`Accepted.typesUnit`).  For a node outside of declarations the report holds what the
  last check of the top level noted, since no other unit has the node
  (`Accepted.exists_top`).
-/
import UnionTyping.Proofs.Typing.Soundness

namespace UnionTyping

open Ty (Over Proper Known)

/-! ### The units of instances -/

namespace Engine

variable {env : Env} {C : Ty → Prop} {v : Vocabulary} {e : Engine} {unit : UnitId}

/-- Of the units only the first one is the top level. -/
theorem Ok.unitAt_keyOf (h : e.Ok env C v) (htop : [none] <+: e.keys)
    (hunit : unit < e.units.length) : e.unitAt (e.keyOf unit) = some unit := by
  cases hkey : e.keyOf unit with
  | some key => exact h.unitOf_of_keyOf hkey
  | none =>
    obtain ⟨rest, hkeys⟩ := htop
    have hat : e.keys[unit]? = some none := by
      rw [keyOf_eq, List.getElem?_eq_getElem (by rw [length_keys]; exact hunit)] at hkey
      rw [List.getElem?_eq_getElem (by rw [length_keys]; exact hunit)]
      exact congrArg some hkey
    have hfirst : e.keys[topUnit]? = some none := by
      rw [← hkeys]
      rfl
    rw [(List.getElem?_inj (by rw [length_keys]; exact hunit) h.nodup).mp (hat.trans hfirst.symm)]
    rfl

end Engine

/-! ### The expressions of a unit -/

def UnitRecord.typing (env : Env) (Γ : Context) (u : UnitRecord) : Typing :=
  ⟨env, Γ, u.types.find?, fun node call => call ∈ (u.calls.find? node).getD [], u.key⟩

/-- Places are those of the state, and the instances are entered that the calls of the unit
    invoke. -/
structure UnitRecord.Suits (Γ : Context) (e : Engine) (u : UnitRecord) : Prop where
  holds_eq : Γ.holds = e.context.holds
  reads_eq : Γ.reads = e.context.reads
  entered : ∀ node, ∀ call ∈ (u.calls.find? node).getD [], ∀ key unit,
    call.callee = .method (Instantiation.method key) unit → e.unitOf key = some unit → Γ.entered key

theorem UnitRecord.suits (e : Engine) (u : UnitRecord) : u.Suits e.context e :=
  ⟨rfl, rfl, fun _ _ _ _ unit _ hunit => ⟨unit, hunit⟩⟩

namespace Stands

variable {env : Env} {e : Engine} {unit : UnitId} {u : UnitRecord}

/-- What a unit that stands notes consists of the instances that the program keeps to. -/
theorem over_noted {C : Ty → Prop} {v : Vocabulary} (h : Stands env e unit u)
    (hkeeps : env.KeepsTo C v) (hok : e.Ok env C v) (hu : e.units[unit]? = some u) {node : NodeId}
    {t : Ty} (ht : u.types.find? node = some t) : t.Over C := by
  obtain ⟨_, _, hfindings, _⟩ := h.findings hkeeps.con hkeeps.domain (hkeeps.speaks u.key) hok hu
  exact hfindings.types _ (NodeMap.mem_of_find?_eq_some ht)

/-- A unit that stands and is not waiting has its type by the rules. -/
theorem typesUnit (h : Stands env e unit u) (hstill : Still (repeatedCheck env unit u) e)
    (hu : e.units[unit]? = some u) (hunit : e.unitAt u.key = some unit)
    (hnodup : (Expr.ids (env.exprsOf u.key)).Nodup) {Γ : Context} (hΓ : u.Suits Γ e) :
    (u.typing env Γ).TypesUnit u.result := by
  obtain ⟨scopes, depth, hrun⟩ := h (repeatedCheck env unit u) (.refl env) rfl rfl
  have hdescribes : (u.typing env Γ).Describes (repeatedCheck env unit u) e :=
    { env := rfl
      holds_eq := hΓ.holds_eq
      reads_eq := hΓ.reads_eq
      entered := fun node call key unit hcall => hΓ.entered node call hcall key unit
      self := rfl
      unit := hunit }
  have hagrees : ∀ node, (u.typing env Γ).AgreesAt ⟨scopes, depth, [], u.types, u.calls⟩ node :=
    fun _ => ⟨rfl, fun _ hcall => hcall⟩
  have hargs : ∀ k, u.key = some k → ∀ a ∈ k.args, a.Over Proper := fun k hk =>
    (hstill.ok.keys k (Engine.mem_keys ((Engine.keyOf_of_getElem? hu).trans hk))).args
  exact types_unitBody hdescribes hstill hargs hnodup (fun node _ => hagrees node)
    ⟨Walk.ok_start, hrun, rfl⟩

end Stands

namespace Accepted

variable {p : Program} {settings : Settings} {env : Env} {e : Engine}

theorem unitAt (h : Accepted p settings env e) {unit : UnitId} {u : UnitRecord}
    (hu : e.units[unit]? = some u) : e.unitAt u.key = some unit := by
  rw [← Engine.keyOf_of_getElem? hu]
  exact h.finished.ok.unitAt_keyOf h.finished.top (List.getElem?_eq_some_iff.mp hu).1

/-- What a unit notes consists of proper types. -/
theorem over_noted (h : Accepted p settings env e) {unit : UnitId} {u : UnitRecord}
    (hu : e.units[unit]? = some u) {node : NodeId} {t : Ty} (ht : u.types.find? node = some t) :
    t.Over Proper :=
  (h.finished.stands h.silent hu).over_noted (Env.keepsTo_proper h.libraries) h.finished.ok hu ht

/-- Each unit has its type by the rules. -/
theorem typesUnit (h : Accepted p settings env e) (hids : (p.nodes.map Expr.id).Nodup)
    {unit : UnitId} {u : UnitRecord} (hu : e.units[unit]? = some u) :
    (u.typing env e.context).TypesUnit u.result :=
  (h.finished.stands h.silent hu).typesUnit (h.rest hu) hu (h.unitAt hu)
    (Env.nodup_exprsOf h.declared hids u.key) (u.suits e)

/-- The types by the rules of the expressions outside of declarations, and what is reported
    for their nodes. -/
theorem exists_top (h : Accepted p settings env e) (hids : (p.nodes.map Expr.id).Nodup) :
    ∃ u ts sc, e.units[topUnit]? = some u ∧ u.key = none ∧
      (u.typing env e.context).TypesAll false .empty p.topLevel ts sc ∧
      ∀ n ∈ Expr.nodesOf p.topLevel,
        ((e.report env).calls.find? n.id = none → u.calls.find? n.id = none) ∧
          ∀ t, u.types.find? n.id = some t → t.Known →
            (e.report env).types.find? n.id = some t := by
  obtain ⟨u, us, hunits, hkey, hothers⟩ := h.finished.units_eq
  have hu : e.units[topUnit]? = some u := by rw [hunits]; rfl
  have htyped := h.typesUnit hids hu
  have hself : (u.typing env e.context).key = none := hkey
  have htop : (u.typing env e.context).env.topLevel = p.topLevel :=
    Env.topLevel_of_ofProgram h.declared
  rw [Typing.TypesUnit, hself, htop] at htyped
  obtain ⟨ts, sc, hall, _⟩ := htyped
  refine ⟨u, ts, sc, hu, hkey, hall, fun n hn => ?_⟩
  have hreport := h.finished.find?_report_top h.silent h.declared hids hunits hothers hn
  refine ⟨fun hnone => ?_, fun t ht hknown => ?_⟩
  · rw [hreport.2, Option.map_eq_none_iff] at hnone
    exact hnone
  · rw [hreport.1, ht, Option.map_some, hknown.isOver.unresolved_union, hknown.settled_eq]

end Accepted

end UnionTyping
