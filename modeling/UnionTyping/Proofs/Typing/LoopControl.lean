/-
  UnionTyping/Proofs/Typing/LoopControl.lean
  ==========================================
  **Where `break` and `next` may stand is a matter of the text.**

  In an accepted program every `break` and `next` that is used is in the body of a loop, not in
  its condition, or in a block, within one method or one expression outside of declarations:
  a typing derivation has no rule for one outside of a loop (`Typing.Types.contained`).  And if
  all of them stand so, no program is rejected for one, whatever is called from where
  (`Program.check_loopControl`).
-/
import UnionTyping.Proofs.Inference.Reports
import UnionTyping.Proofs.Typing.Coverage

namespace UnionTyping

/-- The name of a variable. -/
theorem Expr.contained_of_variable? {e : Expr} {target : Target}
    (h : e.variable? = some target) : e.Contained := by
  cases e with
  | ident | ivar => exact .leaf nofun rfl
  | _ => cases h

namespace Typing

variable {T : Typing}

mutual

/-- An expression that has a type outside of loops has its `break` and `next` in loops or
    blocks of its own. -/
theorem Types.contained {inLoop : Bool} {sc sc' : Outline} {e : Expr} {t : Ty}
    (hout : inLoop = false) : T.Types inLoop sc e t sc' → e.Contained
  | .literal | .localVar _ _ | .name _ _ _ | .ivar _ _ | .out _ _ | .path _ => .leaf nofun rfl
  | .control => nomatch hout
  | .assign typed _ _ _ => .node nofun (List.forall_mem_singleton.mpr (typed.contained hout))
  | .opAssign _ _ typed _ _ _ =>
    .node nofun (List.forall_mem_singleton.mpr (typed.contained hout))
  | .connect left _ right _ =>
    .node nofun (List.forall_mem_cons.mpr
      ⟨left.contained hout, List.forall_mem_singleton.mpr (right.contained hout)⟩)
  | .ite typed _ typedThen typedElse =>
    .node nofun (List.forall_mem_cons.mpr ⟨typed.contained hout,
      List.forall_mem_append.mpr ⟨typedThen.contained hout, typedElse.contained hout⟩⟩)
  | .loop typed _ _ => .node nofun (List.forall_mem_singleton.mpr (typed.contained hout))
  | .callSelf typedArgs _ _ => .node nofun (typedArgs.contained hout)
  | .pointer isVariable _ _ _ =>
    .node nofun (List.forall_mem_singleton.mpr (Expr.contained_of_variable? isVariable))
  | .callClass _ kind _ _ typedArgs _ _ => by
    obtain ⟨m, rfl⟩ := Env.receiverKind_ofClass kind
    exact .node nofun (List.forall_mem_cons.mpr ⟨.leaf nofun rfl, typedArgs.contained hout⟩)
  | .callNative _ kind _ _ typedArgs _ _ _ => by
    obtain ⟨m, ref, rfl⟩ := Env.exists_path_of_ofLibrary kind
    exact .node nofun (List.forall_mem_cons.mpr ⟨.leaf nofun rfl, typedArgs.contained hout⟩)
  | .callValue _ _ typed _ typedArgs _ _ =>
    .node nofun (List.forall_mem_cons.mpr ⟨typed.contained hout, typedArgs.contained hout⟩)

theorem TypesAll.contained {inLoop : Bool} {sc sc' : Outline} {es : List Expr} {ts : List Ty}
    (hout : inLoop = false) : T.TypesAll inLoop sc es ts sc' → ∀ e ∈ es, e.Contained
  | .nil => List.forall_mem_nil _
  | .cons head _ tail => List.forall_mem_cons.mpr ⟨head.contained hout, tail.contained hout⟩

theorem TypesNative.contained {inLoop : Bool} {sc sc' : Outline} {params : List NativeParam}
    {es : List Expr} {given : List NativeArg} (hout : inLoop = false) :
    T.TypesNative inLoop sc params es given sc' → ∀ e ∈ es, e.Contained
  | .nil => List.forall_mem_nil _
  | .out _ _ _ tail => List.forall_mem_cons.mpr ⟨.leaf nofun rfl, tail.contained hout⟩
  | .value _ head _ tail => List.forall_mem_cons.mpr ⟨head.contained hout, tail.contained hout⟩

end

/-- A unit is checked outside of loops. -/
theorem TypesUnit.contained {t : Ty} (h : T.TypesUnit t) :
    ∀ e ∈ T.env.checkedOf T.key, e.Contained := by
  intro e he
  obtain ⟨_, _, _, htyped, _⟩ := h.of_mem e he
  exact htyped.contained rfl

end Typing

/-! ### The check of a program -/

/-- A `break` or `next` that has a type in an accepted program is enclosed. -/
theorem Accepted.encloses {p : Program} {settings : Settings} {env : Env} {e : Engine}
    (h : Accepted p settings env e) (hids : (p.nodes.map Expr.id).Nodup) {u : UnitRecord}
    (hmem : u ∈ e.units) {m : Mark} {keyword : LoopControl} (hn : .control m keyword ∈ p.nodes)
    (hnoted : ∃ t, u.types.find? m.id = some t) : p.Encloses (.control m keyword) := by
  obtain ⟨unit, hu⟩ := List.getElem?_of_mem hmem
  obtain ⟨n, hn', hid⟩ := (h.typed_iff hids hu m.id).mp hnoted
  have hsub := env.checkedOf_sublist u.key
  have hsame : n = .control m keyword := by
    have hnode : n ∈ p.nodes := h.nodes_subset u.key ((Expr.nodesOf_sublist hsub).subset hn')
    exact List.inj_on_of_nodup_map hids hnode hn hid
  subst hsame
  obtain ⟨top, htop, hbelow⟩ := Expr.mem_nodesOf_iff.mp hn'
  have hcontained : top.Contained := (h.typesUnit hids hu).contained top htop
  exact Program.encloses_iff.mpr
    ⟨top, Env.exprsOf_subset h.declared u.key (hsub.subset htop), hcontained.enclosed hbelow⟩

/-- In an accepted program each `break` and `next` that has a type in the report is in the body
    of a loop or in a block, within one method or one expression outside of declarations.  And
    if each `break` and `next` of a program is, the program is not rejected for one. -/
theorem Program.check_loopControl (file : String) (items : List Item) (settings : Settings) :
    let p := Program.ofItems file items
    (∀ report, p.check settings = .ok report → ∀ m keyword, .control m keyword ∈ p.nodes →
      (∃ t, report.types.find? m.id = some t) → p.Encloses (.control m keyword)) ∧
    ((∀ m keyword, .control m keyword ∈ p.nodes → p.Encloses (.control m keyword)) →
      ∀ d, p.check settings = .error (.rejected d) →
        ∀ keyword, d.problem ≠ .strayLoopControl keyword) := by
  intro p
  have hids : (p.nodes.map Expr.id).Nodup := Program.nodup_ids file items
  constructor
  · intro report h m keyword hn htyped
    obtain ⟨env, e, haccepted, rfl⟩ := exists_accepted h
    obtain ⟨u, hu, hnoted⟩ :=
      (Engine.typed_iff (fun u hu => (haccepted.ascending u hu).1) m.id).mp htyped
    exact haccepted.encloses hids hu hn hnoted
  · intro hlexical d h keyword hproblem
    have horderly := orderly_of_rejected (fun e he => contained_of_encloses hids hlexical he) h
    rw [hproblem] at horderly
    cases horderly

/-- A loop that is left and a block that goes on:
    `def once(a) a end; while true; break; end; once(1) { next }`. -/
def leavingProgram : Program :=
  let m : Mark := ⟨0, .unplaced⟩
  .ofItems "leaving.qz" [
    .method ⟨"once", [⟨"a", none, none⟩], [.ident m "a"], .unplaced⟩,
    .expr (.loop m (.literal m .bool) [.control m .break]),
    .expr (.call m none "once" [.literal m .int] (some (.mk [] [.control m .next])) true)]

/-- A loop that is rejected when it is checked again:
    `while true; break; x = 1; x + 1; x = 'c'; end`. -/
def spinningProgram : Program :=
  let m : Mark := ⟨0, .unplaced⟩
  .ofItems "spinning.qz" [
    .expr (.loop m (.literal m .bool) [
      .control m .break,
      .assign m (.local "x") (.literal m .int),
      .call m (some (.ident m "x")) "+" [.literal m .int] none true,
      .assign m (.local "x") (.literal m .char)])]

/-- Nodes that are neither the loop nor its condition are in its body. -/
theorem spinningProgram_encloses {m : Mark} {keyword : LoopControl}
    (h : .control m keyword ∈ spinningProgram.nodes) :
    spinningProgram.Encloses (.control m keyword) := by
  refine ⟨_, List.mem_cons_self, _, List.mem_cons_self, _, List.mem_cons_self, ?_⟩
  rcases List.mem_cons.mp h with hloop | h
  · cases hloop
  · rcases List.mem_cons.mp h with hcond | hbody
    · cases hcond
    · exact hbody

theorem leavingProgram_loopControl :
    (∃ report, leavingProgram.check {} = .ok report ∧ (∃ t, report.types.find? 6 = some t) ∧
      leavingProgram.Encloses (.control ⟨6, ⟨"leaving.qz", 3, 1⟩⟩ .next)) ∧
    ∃ d, spinningProgram.check {} = .error (.rejected d) ∧
      d.related = some ⟨"spinning.qz", 1, 1⟩ ∧
      ∀ keyword, d.problem ≠ .strayLoopControl keyword := by
  constructor
  · have haccepted : (leavingProgram.check {}).toOption.any
        (fun report => (report.types.find? 6).isSome) = true := by decide +kernel
    cases hreport : leavingProgram.check {} with
    | error stop =>
      rw [hreport] at haccepted
      cases haccepted
    | ok report =>
      rw [hreport] at haccepted
      have htyped : ∃ t, report.types.find? 6 = some t := Option.isSome_iff_exists.mp haccepted
      exact ⟨report, rfl, htyped, (Program.check_loopControl _ _ {}).1 report hreport
        ⟨6, ⟨"leaving.qz", 3, 1⟩⟩ .next (List.mem_of_getElem? (i := 6) rfl) htyped⟩
  · have hrelated : CheckError.relatedOf (spinningProgram.check {}) =
        some ⟨"spinning.qz", 1, 1⟩ := by decide +kernel
    obtain ⟨d, hrejected, hd⟩ := CheckError.exists_of_relatedOf hrelated
    exact ⟨d, hrejected, hd, (Program.check_loopControl _ _ {}).2
      (fun _ _ => spinningProgram_encloses) d hrejected⟩

end UnionTyping
