/-
  UnionTyping/Proofs/Typing/Coverage.lean
  =======================================
  **The types that are reported are those of the code that is used.**

  In an accepted program a type is reported for every node outside of declarations, in the
  bodies of the methods that have an instance, and in the default values that an instance
  needs because it has no argument for the parameter; and for no other node
  (`Program.check_types_cover`).

  A typing derivation speaks of every node below an expression: some are noted with their
  type when they are checked, and the names of classes and libraries, a variable whose
  address is taken and the `out` arguments of a native call when the call around them is
  (`Types.covers`).  A unit that has a type has one for each expression that it uses
  (`TypesUnit.of_mem`).  The other direction needs no derivation, since what the check of a unit
  does not go through it does not touch.
-/
import UnionTyping.Proofs.Inference.LegalCalls
import UnionTyping.Proofs.Inference.Merging
import UnionTyping.Proofs.Typing.FinalTyping

namespace UnionTyping

open Ty (Over Proper)

/-! ### Nodes that are noted -/

namespace Typing

variable {T : Typing}

/-- A type is noted for each of the expressions and for every node below them. -/
def Covers (T : Typing) (es : List Expr) : Prop :=
  ∀ n ∈ Expr.nodesOf es, ∃ t, T.noted n.id = some t

@[simp]
theorem covers_nil : T.Covers [] := List.forall_mem_nil _

theorem covers_append {es fs : List Expr} : T.Covers (es ++ fs) ↔ T.Covers es ∧ T.Covers fs := by
  simp only [Covers, Expr.nodesOf_append, List.forall_mem_append]

/-- The node of an expression comes first, then those of its children. -/
theorem covers_cons {e : Expr} {es : List Expr} :
    T.Covers (e :: es) ↔ (∃ t, T.noted e.id = some t) ∧ T.Covers e.children ∧ T.Covers es := by
  simp only [Covers, Expr.nodesOf, Expr.nodes_eq e, List.cons_append, List.forall_mem_cons,
    List.forall_mem_append]

/-- An expression without children. -/
theorem Covers.leaf {e : Expr} {es : List Expr} {t : Ty} (hchildren : e.children = [])
    (hnoted : T.noted e.id = some t) (hes : T.Covers es) : T.Covers (e :: es) := by
  rw [covers_cons, hchildren]
  exact ⟨⟨t, hnoted⟩, covers_nil, hes⟩

end Typing

/-! ### Arguments that a native function assigns -/

/-- An `out` argument is assigned unless its parameter takes a value. -/
theorem FilledBy.zip_head {m : Mark} {target : Target} {es : List Expr} {params : List NativeParam}
    (h : ¬ ∀ param, params.head? = some param → param.mode = .byValue) :
    FilledBy ((.out m target :: es).zip params) m.id := by
  cases params with
  | nil => simp at h
  | cons p ps =>
    refine filledBy_zip_cons.mpr (.inl ⟨m, target, p, rfl, rfl, ?_, rfl⟩)
    cases hmode : p.mode with
    | out => rfl
    | byValue => simp [hmode] at h

namespace Typing

variable {T : Typing}

/-- The `out` arguments that a native function assigns are noted. -/
theorem Fills.noted {sc sc' : Outline} {pairs : List (Expr × NativeParam)}
    (h : T.Fills sc pairs sc') {node : NodeId} (hnode : FilledBy pairs node) :
    ∃ t, T.noted node = some t := by
  induction h with
  | done =>
    obtain ⟨_, _, _, hmem, _⟩ := hnode
    cases hmem
  | fill mode place takes noted rest ih =>
    obtain ⟨m, target, param, hmem, hmode, rfl⟩ := hnode
    rcases List.mem_cons.mp hmem with heq | hmem
    · cases heq
      exact ⟨_, noted⟩
    · exact ih ⟨m, target, param, hmem, hmode, rfl⟩
  | skip kept rest ih =>
    obtain ⟨m, target, param, hmem, hmode, rfl⟩ := hnode
    rcases List.mem_cons.mp hmem with heq | hmem
    · cases heq
      simp [Expr.outTarget?, hmode] at kept
    · exact ih ⟨m, target, param, hmem, hmode, rfl⟩

mutual

/-- Below an expression that has a type every node is noted. -/
theorem Types.covers {inLoop : Bool} {sc sc' : Outline} {e : Expr} {t : Ty} :
    T.Types inLoop sc e t sc' → T.Covers e.children
  | .literal | .localVar _ _ | .name _ _ _ | .ivar _ _ | .out _ _ | .path _ | .control => covers_nil
  | .assign typed noted _ _ => covers_cons.mpr ⟨⟨_, noted⟩, typed.covers, covers_nil⟩
  | .opAssign _ _ typed noted _ _ => covers_cons.mpr ⟨⟨_, noted⟩, typed.covers, covers_nil⟩
  | .connect left notedLeft right notedRight =>
    covers_cons.mpr ⟨⟨_, notedLeft⟩, left.covers,
      covers_cons.mpr ⟨⟨_, notedRight⟩, right.covers, covers_nil⟩⟩
  | .ite typed noted typedThen typedElse =>
    covers_cons.mpr ⟨⟨_, noted⟩, typed.covers,
      covers_append.mpr ⟨typedThen.covers, typedElse.covers⟩⟩
  | .loop typed noted typedBody => covers_cons.mpr ⟨⟨_, noted⟩, typed.covers, typedBody.covers⟩
  | .callSelf typedArgs typedBlock _ => covers_append.mpr ⟨typedArgs.covers, typedBlock.covers⟩
  | .pointer isVariable _ _ noted => by
    refine Covers.leaf ?_ noted covers_nil
    exact Expr.children_eq_nil_of_variable? isVariable
  | .callClass _ kind _ noted typedArgs typedBlock _ => by
    obtain ⟨m, rfl⟩ := Env.receiverKind_ofClass kind
    exact Covers.leaf rfl noted (covers_append.mpr ⟨typedArgs.covers, typedBlock.covers⟩)
  | .callNative _ kind noted _ typedArgs typedBlock _ fills => by
    obtain ⟨m, ref, rfl⟩ := Env.exists_path_of_ofLibrary kind
    refine Covers.leaf rfl noted (covers_append.mpr ⟨fun n hn => ?_, typedBlock.covers⟩)
    exact (typedArgs.covers n hn).elim id fills.noted
  | .callValue _ _ typed noted typedArgs typedBlock _ =>
    covers_cons.mpr ⟨⟨_, noted⟩, typed.covers,
      covers_append.mpr ⟨typedArgs.covers, typedBlock.covers⟩⟩

theorem TypesAll.covers {inLoop : Bool} {sc sc' : Outline} {es : List Expr} {ts : List Ty} :
    T.TypesAll inLoop sc es ts sc' → T.Covers es
  | .nil => covers_nil
  | .cons head noted tail => covers_cons.mpr ⟨⟨_, noted⟩, head.covers, tail.covers⟩

/-- Of the arguments of a native call those that the function assigns are noted later. -/
theorem TypesNative.covers {inLoop : Bool} {sc sc' : Outline} {params : List NativeParam}
    {es : List Expr} {given : List NativeArg} :
    T.TypesNative inLoop sc params es given sc' →
      ∀ n ∈ Expr.nodesOf es, (∃ t, T.noted n.id = some t) ∨ FilledBy (es.zip params) n.id
  | .nil => List.forall_mem_nil _
  | .out _ _ noted tail => by
    intro n hn
    rw [Expr.nodesOf] at hn
    rcases List.mem_append.mp hn with hself | hlater
    · rw [Expr.nodes_eq] at hself
      cases List.mem_singleton.mp hself
      apply Classical.or_iff_not_imp_left.mpr
      intro hnot
      apply FilledBy.zip_head
      intro hmode
      exact hnot ⟨_, noted hmode⟩
    · exact (tail.covers n hlater).imp_right fun hfilled => filledBy_zip_cons.mpr (.inr hfilled)
  | .value _ head noted tail => by
    intro n hn
    rw [Expr.nodesOf, Expr.nodes_eq] at hn
    rcases List.mem_append.mp hn with hhead | hlater
    · left
      exact List.forall_mem_cons.mpr ⟨⟨_, noted⟩, head.covers⟩ n hhead
    · exact (tail.covers n hlater).imp_right fun hfilled => filledBy_zip_cons.mpr (.inr hfilled)

theorem TypesBlock.covers {call : NodeId} {sc : Outline} {block : Option Block} :
    T.TypesBlock call sc block → T.Covers (Block.bodyOf block)
  | .none => covers_nil
  | .some typed => typed.covers

end

/-! ### Units -/

/-- Each expression of a list has a type by the rules, and the type is noted. -/
theorem TypesAll.of_mem {inLoop : Bool} {sc sc' : Outline} {es : List Expr} {ts : List Ty} :
    T.TypesAll inLoop sc es ts sc' →
      ∀ e ∈ es, ∃ sc₁ t sc₂, T.Types inLoop sc₁ e t sc₂ ∧ T.noted e.id = some t
  | .nil => List.forall_mem_nil _
  | .cons head noted tail => List.forall_mem_cons.mpr ⟨⟨_, _, _, head, noted⟩, tail.of_mem⟩

/-- So has the default value of an omitted parameter. -/
theorem Params.omitted {sc sc' : Outline} {args : List Ty} {ps : List Param}
    (h : T.Params sc args ps sc') : ∀ p ∈ ps.drop args.length, ∀ value, p.default = some value →
      ∃ sc₁ t sc₂, T.Types false sc₁ value t sc₂ ∧ T.noted value.id = some t := by
  induction h with
  | nil =>
    rw [List.drop_nil]
    exact List.forall_mem_nil _
  | given takes rest ih => exact ih
  | default hdefault typed noted takes rest ih =>
    refine List.forall_mem_cons.mpr ⟨fun value hvalue => ?_, ih⟩
    cases hdefault.symm.trans hvalue
    exact ⟨_, _, _, typed, noted⟩
  | missing hdefault rest ih =>
    refine List.forall_mem_cons.mpr ⟨fun value hvalue => ?_, ih⟩
    cases hdefault.symm.trans hvalue

/-- And so has, in a unit that has a type, each expression that the unit uses. -/
theorem TypesUnit.of_mem {t : Ty} (h : T.TypesUnit t) : ∀ e ∈ T.env.checkedOf T.key,
    ∃ sc₁ t sc₂, T.Types false sc₁ e t sc₂ ∧ T.noted e.id = some t := by
  unfold TypesUnit at h
  cases hkey : T.key with
  | none =>
    rw [hkey] at h
    obtain ⟨ts, sc, hall, _⟩ := h
    exact hall.of_mem
  | some key =>
    simp only [hkey] at h
    rw [Env.checkedOf]
    cases hm : T.env.methods.get? key.method with
    | none => exact List.forall_mem_nil _
    | some m =>
      rw [hm] at h
      obtain ⟨sc, ts, sc', hparams, hbody, _⟩ := h
      refine List.forall_mem_append.mpr ⟨fun e he => ?_, hbody.of_mem⟩
      obtain ⟨p, hp, hvalue⟩ := List.mem_flatMap.mp he
      exact hparams.omitted p hp e (Option.mem_toList.mp hvalue)

/-- A unit that has a type is noted as far as it is used. -/
theorem TypesUnit.covers {t : Ty} (h : T.TypesUnit t) : T.Covers (T.env.checkedOf T.key) := by
  intro n hn
  obtain ⟨e, he, hbelow⟩ := Expr.mem_nodesOf_iff.mp hn
  obtain ⟨_, _, _, htyped, hnoted⟩ := h.of_mem e he
  rw [Expr.nodes_eq] at hbelow
  rcases List.mem_cons.mp hbelow with rfl | hbelow
  · exact ⟨_, hnoted⟩
  · exact htyped.covers n hbelow

end Typing

/-! ### The report -/

/-- The nodes that an instance uses. -/
theorem Env.mem_nodesOf_checkedOf {env : Env} {k : Instantiation} {n : Expr} :
    n ∈ Expr.nodesOf (env.checkedOf (some k)) ↔
      ∃ m, env.methods.get? k.method = some m ∧ (n ∈ Expr.nodesOf m.definition.body ∨
        ∃ p ∈ m.definition.omitted k.args.length, ∃ value, p.default = some value ∧
          n ∈ value.nodes) := by
  rw [checkedOf]
  cases env.methods.get? k.method with
  | none => simp [Expr.nodesOf]
  | some m =>
    simp only [Option.map_some, Option.getD_some, Option.some.injEq, exists_eq_left',
      Expr.nodesOf_append, List.mem_append, Expr.mem_nodesOf_iff, List.mem_flatMap, Param.exprs,
      Option.mem_toList]
    grind

namespace Accepted

variable {p : Program} {settings : Settings} {env : Env} {e : Engine}
  (h : Accepted p settings env e) (hids : (p.nodes.map Expr.id).Nodup)
include h hids

/-- A unit has noted types for the nodes that it uses and for no others. -/
theorem typed_iff {unit : UnitId} {u : UnitRecord} (hu : e.units[unit]? = some u) (node : NodeId) :
    (∃ t, u.types.find? node = some t) ↔
      ∃ n ∈ Expr.nodesOf (env.checkedOf u.key), n.id = node := by
  constructor
  · rintro ⟨t, ht⟩
    apply List.mem_map.mp
    apply Classical.byContradiction
    intro hnot
    have hnone := (h.untouched hu hnot).1
    rw [ht] at hnone
    cases hnone
  · rintro ⟨n, hn, rfl⟩
    exact (h.typesUnit hids hu).covers n hn

end Accepted

/-- In an accepted program the nodes with a type in the report are exactly the nodes of the
    expressions outside of declarations, of the bodies of methods that have an instance, and
    of the default value of each parameter that some instance has no argument for. -/
theorem Program.check_types_cover {file : String} {items : List Item} {settings : Settings}
    {report : Report} (h : (Program.ofItems file items).check settings = .ok report) :
    ∃ env, Env.ofProgram settings (Program.ofItems file items) = .ok env ∧
      ∀ node, (∃ t, report.types.find? node = some t) ↔
        ∃ n : Expr, n.id = node ∧ (n ∈ Expr.nodesOf (Program.ofItems file items).topLevel ∨
          ∃ i ∈ report.instances, ∃ m, env.methods.get? i.method = some m ∧
            (n ∈ Expr.nodesOf m.definition.body ∨
              ∃ p ∈ m.definition.omitted i.args.length, ∃ value, p.default = some value ∧
                n ∈ value.nodes)) := by
  obtain ⟨env, e, haccepted, rfl⟩ := exists_accepted h
  refine ⟨env, haccepted.declared, fun node => ?_⟩
  have hids := Program.nodup_ids file items
  have htop := Env.topLevel_of_ofProgram haccepted.declared
  rw [Engine.typed_iff fun u hu => (haccepted.ascending u hu).1]
  constructor
  · rintro ⟨u, hmem, hnoted⟩
    obtain ⟨unit, hu⟩ := List.getElem?_of_mem hmem
    obtain ⟨n, hn, hnode⟩ := (haccepted.typed_iff hids hu node).mp hnoted
    refine ⟨n, hnode, ?_⟩
    cases hkey : u.key with
    | none =>
      rw [hkey, Env.checkedOf, htop] at hn
      exact Or.inl hn
    | some k =>
      right
      rw [hkey] at hn
      have hlisted : (Engine.instances env e).filter (·.unit == unit) =
          [Engine.summaryOf env e unit k] :=
        Engine.filter_instances ((Engine.keyOf_of_getElem? hu).trans hkey)
      refine ⟨Engine.summaryOf env e unit k, ?_, Env.mem_nodesOf_checkedOf.mp hn⟩
      exact List.mem_of_mem_filter (hlisted ▸ List.mem_singleton_self _)
  · rintro ⟨n, rfl, hn⟩
    have hused : ∃ u ∈ e.units, n ∈ Expr.nodesOf (env.checkedOf u.key) := by
      rcases hn with hn | ⟨i, hi, hn⟩
      · obtain ⟨u, us, hunits, hkey, _⟩ := haccepted.finished.units_eq
        refine ⟨u, by simp [hunits], ?_⟩
        rw [hkey, Env.checkedOf, htop]
        exact hn
      · obtain ⟨u, hu, hkey⟩ := Engine.exists_unit_of_mem_instances hi
        refine ⟨u, List.mem_of_getElem? hu, ?_⟩
        rw [hkey]
        exact Env.mem_nodesOf_checkedOf.mpr hn
    obtain ⟨u, hmem, hn⟩ := hused
    obtain ⟨unit, hu⟩ := List.getElem?_of_mem hmem
    exact ⟨u, hmem, (haccepted.typed_iff hids hu n.id).mpr ⟨n, hn, rfl⟩⟩

/-- A default value that one instance needs and another does not, a method without
    instance, a native call with an `out`, and an address:

    ```text
    lib Sensor; fun read(at : Int, out value : Double); end
    def pick(a, b = 1) b end; def unused(c) c end
    pick(2); pick(2.0, 'c'); Sensor.read(1, out v); v.ptr
    ``` -/
def partlyUsedProgram : Program :=
  let m : Mark := ⟨0, .unplaced⟩
  let ref (name : String) : TypeRef := .mk name [] .unplaced
  .ofItems "sensor.qz" [
    .library ⟨"Sensor", [⟨"read", [⟨"at", ref "Int", false⟩, ⟨"value", ref "Double", true⟩], none,
      .unplaced⟩], .unplaced⟩,
    .method ⟨"pick", [⟨"a", none, none⟩, ⟨"b", none, some (.literal m .int)⟩], [.ident m "b"],
      .unplaced⟩,
    .method ⟨"unused", [⟨"c", none, none⟩], [.ident m "c"], .unplaced⟩,
    .expr (.call m none "pick" [.literal m .int] none true),
    .expr (.call m none "pick" [.literal m .double, .literal m .char] none true),
    .expr (.call m (some (.path m (ref "Sensor"))) "read" [.literal m .int, .out m (.local "v")]
      none true),
    .expr (.call m (some (.ident m "v")) "ptr" [] none false)]

theorem partlyUsedProgram_covered :
    ∃ report, partlyUsedProgram.check {} = .ok report ∧
    ∃ env, Env.ofProgram {} partlyUsedProgram = .ok env ∧
      ∀ node, (∃ t, report.types.find? node = some t) ↔
        ∃ n : Expr, n.id = node ∧ (n ∈ Expr.nodesOf partlyUsedProgram.topLevel ∨
          ∃ i ∈ report.instances, ∃ m, env.methods.get? i.method = some m ∧
            (n ∈ Expr.nodesOf m.definition.body ∨
              ∃ p ∈ m.definition.omitted i.args.length, ∃ value, p.default = some value ∧
                n ∈ value.nodes)) := by
  have haccepted : (partlyUsedProgram.check {}).toBool = true := by decide +kernel
  obtain ⟨report, h⟩ := exists_of_toBool haccepted
  exact ⟨report, h, Program.check_types_cover h⟩

end UnionTyping
