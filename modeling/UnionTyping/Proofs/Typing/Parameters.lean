/-
  UnionTyping/Proofs/Typing/Parameters.lean
  =========================================
  **What the parameters of an instance are given.**

  A call has to give as many arguments as there are parameters without a default value,
  and at most as many as there are parameters.  The arguments go to the first parameters
  and the others get their default values.  So where parameters with a default value come
  last no parameter is left without a value, and an omitted one holds a value of the
  type that its default has (`Program.check_parameters_legal`).

  Only how many parameters have a default value is counted, not where they stand, and a
  default value is not held against the restriction of its parameter, as an argument is
  (`skippingProgram_accepted`).
-/
import UnionTyping.Proofs.Typing.Coverage

namespace UnionTyping

open Ty (Over Proper)

/-! ### Omitted parameters -/

/-- Once a parameter has a default value, all later ones have. -/
def Def.DefaultsLast (d : Def) : Prop :=
  d.params.Pairwise fun p q => p.default.isSome → q.default.isSome

instance (d : Def) : Decidable d.DefaultsLast :=
  inferInstanceAs (Decidable (List.Pairwise _ _))

/-- Where defaults come last, a call with enough arguments leaves out nothing but parameters
    with a default value. -/
theorem isSome_of_mem_drop {params : List Param} {given : Nat}
    (hlast : params.Pairwise fun p q => p.default.isSome → q.default.isSome)
    (hgiven : params.countP (·.default.isNone) ≤ given) :
    ∀ p ∈ params.drop given, p.default.isSome := by
  induction params generalizing given with
  | nil =>
    rw [List.drop_nil]
    exact List.forall_mem_nil _
  | cons q qs ih =>
    obtain ⟨hq, hqs⟩ := List.pairwise_cons.mp hlast
    by_cases hdefault : q.default.isSome
    · -- from here on every parameter has a default value
      intro p hp
      rcases List.mem_cons.mp (List.mem_of_mem_drop hp) with rfl | hmem
      · exact hdefault
      · exact hq p hmem hdefault
    · have hnone : q.default.isNone = true := by
        rw [Option.isNone_iff_eq_none]
        exact Option.not_isSome_iff_eq_none.mp hdefault
      rw [List.countP_cons_of_pos (p := fun p : Param => p.default.isNone) hnone] at hgiven
      obtain ⟨given, rfl⟩ := Nat.exists_eq_add_of_le' (Nat.le_of_add_left_le hgiven)
      exact ih hqs (Nat.le_of_add_le_add_right hgiven)

namespace Env

/-- A signature counts the parameters and those without a default value, and every written
    restriction is a type. -/
theorem of_signatureOf {classes : ClassTable} {d : Def} {s : Signature}
    (h : signatureOf classes d = .ok s) :
    s.required = d.required ∧ s.params.length = d.params.length ∧
      ∀ p ∈ d.params, ∀ ref, p.restriction = some ref → ∃ ty, classes.typeOf ref = .ok ty := by
  obtain ⟨params, hparams, h⟩ := exists_of_bind_eq_ok h
  cases h
  obtain ⟨hlength, hat⟩ := List.forall₂_iff_get.mp (forall₂_of_mapM_eq_ok hparams)
  refine ⟨rfl, hlength.symm, fun p hp ref href => ?_⟩
  obtain ⟨i, hi, rfl⟩ := List.getElem_of_mem hp
  have hrestriction := hat i hi (hlength ▸ hi)
  rw [List.get_eq_getElem, href] at hrestriction
  obtain ⟨ty, hty, _⟩ := exists_of_bind_eq_ok hrestriction
  exact ⟨ty, hty⟩

end Env

/-! ### Types that do not depend on the context -/

mutual

/-- The type that an expression has by its form, wherever it stands. -/
def Expr.ownTy? (env : Env) : Expr → Option Ty
  | .literal _ value => some value.ty
  | .path _ _ => some .classObject
  | .loop _ _ _ => some .nil
  | .assign _ _ value => value.ownTy? env
  | .connect _ _ lhs rhs => do return (← lhs.ownTy? env).union (← rhs.ownTy? env)
  | .ite _ _ thenBody elseBody => do
    return (← Expr.lastTy? env thenBody).union (← Expr.lastTy? env elseBody)
  | .call _ (some receiver) name _ _ _ =>
    match name, env.receiverKind receiver with
    | "new", .ofClass ref => (env.classes.typeOf ref).toOption
    | _, _ => none
  | _ => none
termination_by structural e => e

def Expr.lastTy? (env : Env) : List Expr → Option Ty
  | [] => some .nil
  | [e] => e.ownTy? env
  | _ :: es => Expr.lastTy? env es
termination_by structural es => es

end

theorem Expr.ownTy?_call {env : Env} {m : Mark} {receiver : Expr} {name : String}
    {args : List Expr} {block : Option Block} {parens : Bool} {ty : Ty}
    (h : (Expr.call m (some receiver) name args block parens).ownTy? env = some ty) :
    name = "new" ∧ ∃ ref, env.receiverKind receiver = .ofClass ref ∧
      env.classes.typeOf ref = .ok ty := by
  unfold Expr.ownTy? at h
  split at h
  · rename_i ref hkind
    refine ⟨rfl, ref, hkind, ?_⟩
    cases htype : env.classes.typeOf ref with
    | error d =>
      rw [htype] at h
      cases h
    | ok ty' =>
      rw [htype] at h
      cases h
      rfl
  · cases h

namespace Typing

variable {T : Typing}

mutual

/-- In every context an expression has the type that it has by its form. -/
theorem Types.eq_ownTy {inLoop : Bool} {sc sc' : Outline} {e : Expr} {t ty : Ty} :
    T.Types inLoop sc e t sc' → e.ownTy? T.env = some ty → t = ty
  | .literal, h | .path _, h | .loop _ _ _, h => by
    unfold Expr.ownTy? at h
    exact Option.some.inj h
  | .assign typed _ _ _, h => by
    unfold Expr.ownTy? at h
    exact typed.eq_ownTy h
  | .connect typedLeft _ typedRight _, h => by
    unfold Expr.ownTy? at h
    obtain ⟨left, hleft, h⟩ := Option.bind_eq_some_iff.mp h
    obtain ⟨right, hright, h⟩ := Option.bind_eq_some_iff.mp h
    rw [typedLeft.eq_ownTy hleft, typedRight.eq_ownTy hright]
    exact Option.some.inj h
  | .ite _ _ typedThen typedElse, h => by
    unfold Expr.ownTy? at h
    obtain ⟨first, hfirst, h⟩ := Option.bind_eq_some_iff.mp h
    obtain ⟨second, hsecond, h⟩ := Option.bind_eq_some_iff.mp h
    rw [typedThen.eq_lastTy hfirst, typedElse.eq_lastTy hsecond]
    exact Option.some.inj h
  | .callClass _ kind written _ _ _ call, h => by
    obtain ⟨rfl, ref, hkind, hwritten⟩ := Expr.ownTy?_call h
    cases kind.symm.trans hkind
    cases written.symm.trans hwritten
    rw [AnswersClass, if_pos rfl] at call
    exact call.1
  | .callNative _ kind _ _ _ _ _ _, h => by
    obtain ⟨_, _, hkind, _⟩ := Expr.ownTy?_call h
    cases kind.symm.trans hkind
  | .callValue _ kind _ _ _ _ _, h => by
    obtain ⟨_, _, hkind, _⟩ := Expr.ownTy?_call h
    cases kind.symm.trans hkind
  | .pointer _ _ _ _, h => by
    exact absurd (Expr.ownTy?_call h).1 (by decide)
  | .localVar _ _, h | .name _ _ _, h | .ivar _ _, h | .out _ _, h | .opAssign _ _ _ _ _ _, h
  | .control, h | .callSelf _ _ _, h => by
    unfold Expr.ownTy? at h
    cases h

theorem TypesAll.eq_lastTy {inLoop : Bool} {sc sc' : Outline} {es : List Expr} {ts : List Ty}
    {ty : Ty} : T.TypesAll inLoop sc es ts sc' → Expr.lastTy? T.env es = some ty →
      ts.getLastD .nil = ty
  | .nil, h => Option.some.inj h
  | .cons head _ .nil, h => head.eq_ownTy h
  | .cons _ _ (.cons head noted tail), h => (TypesAll.cons head noted tail).eq_lastTy h

end

end Typing

/-! ### Accepted programs -/

/-- In an accepted program an instance has at least as many arguments as there are parameters
    without a default value, and at most as many as there are parameters.  Where defaults
    come last, each omitted parameter has one.  A default value that can be used as the
    restriction of its parameter by its form can be so used by its type in the instance. -/
theorem Program.check_parameters_legal {file : String} {items : List Item} {settings : Settings}
    {report : Report} (h : (Program.ofItems file items).check settings = .ok report) :
    ∃ env e, Env.ofProgram settings (Program.ofItems file items) = .ok env ∧
      Engine.final env = (.ok (), e) ∧ report = e.report env ∧
      ∀ i ∈ report.instances, ∃ m u, env.methods.get? i.method = some m ∧
        e.units[i.unit]? = some u ∧ u.key = some i.key ∧
        m.definition.required ≤ i.args.length ∧ i.args.length ≤ m.definition.params.length ∧
        (m.definition.DefaultsLast →
          ∀ p ∈ m.definition.omitted i.args.length, p.default.isSome) ∧
        ∀ p ∈ m.definition.omitted i.args.length, ∀ ref value, p.restriction = some ref →
          p.default = some value → ∃ restriction t, env.classes.typeOf ref = .ok restriction ∧
            u.types.find? value.id = some t ∧
            ∀ ty, value.ownTy? env = some ty → env.hierarchy.assignable ty restriction = true →
              env.hierarchy.assignable t restriction = true := by
  obtain ⟨env, e, henv, hfinal, hsilent, rfl⟩ := Program.check_eq_ok.mp h
  have hkeeps := Env.keepsTo_proper (Env.plain_libraries henv)
  have haccepted : Accepted _ settings env e := ⟨henv, final_finished hkeeps hfinal, hsilent⟩
  refine ⟨env, e, henv, hfinal, rfl, fun i hi => ?_⟩
  obtain ⟨u, hu, hkey⟩ := Engine.exists_unit_of_mem_instances hi
  have hok := haccepted.finished.ok.keys i.key
    (Engine.mem_keys ((Engine.keyOf_of_getElem? hu).trans hkey))
  obtain ⟨entry, hlive, hid, htakes⟩ := hok.method
  have hdeclared := Env.declaredIn_of_ofProgram henv
  have hget : env.methods.get? i.method = some entry.method :=
    (congrArg _ hid).symm.trans (hdeclared.numbered entry hlive)
  obtain ⟨hrequired, hlength, htypes⟩ := Env.of_signatureOf
    (hdeclared.signature _ (List.mem_of_getElem? hget))
  obtain ⟨hmin, hmax⟩ := Bool.and_eq_true_iff.mp htakes
  have hmin : entry.method.definition.required ≤ i.args.length :=
    hrequired ▸ of_decide_eq_true hmin
  have hmax : i.args.length ≤ entry.method.definition.params.length :=
    hlength ▸ of_decide_eq_true hmax
  refine ⟨entry.method, u, hget, hu, hkey, hmin, hmax,
    fun hlast => isSome_of_mem_drop hlast hmin, fun p hp ref value href hvalue => ?_⟩
  -- the restriction was a type when the method was declared
  obtain ⟨restriction, hrestriction⟩ := htypes p (List.mem_of_mem_drop hp) ref href
  have htyped := haccepted.typesUnit (Program.nodup_ids file items) hu
  have hunit : (u.typing env e.context).key = some i.key := hkey
  have hmethod : (u.typing env e.context).env.methods.get? i.key.method = some entry.method := hget
  rw [Typing.TypesUnit, hunit] at htyped
  simp only [hmethod] at htyped
  obtain ⟨sc, ts, sc', hbound, _⟩ := htyped
  obtain ⟨sc₁, t, sc₂, hvaluetyped, hnoted⟩ := hbound.omitted p hp value hvalue
  refine ⟨restriction, t, hrestriction, hnoted, fun ty hty hassignable => ?_⟩
  rw [hvaluetyped.eq_ownTy hty]
  exact hassignable

/-- A default value that is left to a call: `def area(width, height : Int = 1) height end;
    area(2)`. -/
def defaultingProgram : Program :=
  let m : Mark := ⟨0, .unplaced⟩
  .ofItems "area.qz" [
    .method ⟨"area", [⟨"width", none, none⟩,
        ⟨"height", some (.mk "Int" [] .unplaced), some (.literal m .int)⟩],
      [.ident m "height"], .unplaced⟩,
    .expr (.call m none "area" [.literal m .int] none true)]

theorem defaultingProgram_legal :
    ∃ report, defaultingProgram.check {} = .ok report ∧
    ∃ env e, Env.ofProgram {} defaultingProgram = .ok env ∧
      Engine.final env = (.ok (), e) ∧ report = e.report env ∧
      ∀ i ∈ report.instances, ∃ m u, env.methods.get? i.method = some m ∧
        e.units[i.unit]? = some u ∧ u.key = some i.key ∧
        m.definition.required ≤ i.args.length ∧ i.args.length ≤ m.definition.params.length ∧
        (m.definition.DefaultsLast →
          ∀ p ∈ m.definition.omitted i.args.length, p.default.isSome) ∧
        ∀ p ∈ m.definition.omitted i.args.length, ∀ ref value, p.restriction = some ref →
          p.default = some value → ∃ restriction t, env.classes.typeOf ref = .ok restriction ∧
            u.types.find? value.id = some t ∧
            ∀ ty, value.ownTy? env = some ty → env.hierarchy.assignable ty restriction = true →
              env.hierarchy.assignable t restriction = true := by
  have hok : (defaultingProgram.check {}).toBool = true := by decide +kernel
  obtain ⟨report, h⟩ := exists_of_toBool hok
  exact ⟨report, h, Program.check_parameters_legal h⟩

/-- A required parameter after one with a default value, and a default value that does not
    fit: `def pick(a = 1, b : Int) b end; def name(n : Int = 'c') n end; pick(5); name()`. -/
def skippingProgram : Program :=
  let m : Mark := ⟨0, .unplaced⟩
  let int : TypeRef := .mk "Int" [] .unplaced
  .ofItems "pick.qz" [
    .method ⟨"pick", [⟨"a", none, some (.literal m .int)⟩, ⟨"b", some int, none⟩],
      [.ident m "b"], .unplaced⟩,
    .method ⟨"name", [⟨"n", some int, some (.literal m .char)⟩], [.ident m "n"], .unplaced⟩,
    .expr (.call m none "pick" [.literal m .int] none true),
    .expr (.call m none "name" [] none true)]

def InstanceSummary.skips (env : Env) (i : InstanceSummary) : Bool :=
  (env.methods.get? i.method).any fun m =>
    (m.definition.omitted i.args.length).any (·.default.isNone)

/-- Whether an instance gives a parameter a default value that cannot be used as its
    restriction. -/
def InstanceSummary.misfits (env : Env) (e : Engine) (i : InstanceSummary) : Bool :=
  (env.methods.get? i.method).any fun m =>
    (m.definition.omitted i.args.length).any fun p =>
      match p.restriction.map env.classes.typeOf,
        p.default.bind fun value => (e.units[i.unit]?).bind (·.types.find? value.id) with
      | some (.ok restriction), some t => !env.hierarchy.assignable t restriction
      | _, _ => false

/-- The argument goes to the first parameter although that one has a default value, and
    the default of `n` is not held against its restriction. -/
theorem skippingProgram_accepted :
    ∃ env e, Env.ofProgram {} skippingProgram = .ok env ∧ Engine.final env = (.ok (), e) ∧
      skippingProgram.check {} = .ok (e.report env) ∧
      (∃ i ∈ (e.report env).instances, i.skips env = true) ∧
      ∃ i ∈ (e.report env).instances, i.misfits env e = true := by
  have hok : (skippingProgram.check {}).toBool = true := by decide +kernel
  have hfacts : (match Env.ofProgram {} skippingProgram with
      | .ok env => ((Engine.final env).2.report env).instances.any (·.skips env) &&
          ((Engine.final env).2.report env).instances.any (·.misfits env (Engine.final env).2)
      | .error _ => false) = true := by decide +kernel
  obtain ⟨report, h⟩ := exists_of_toBool hok
  obtain ⟨env, e, henv, hfinal, _, rfl⟩ := Program.check_eq_ok.mp h
  simp only [henv, hfinal, Bool.and_eq_true_iff, List.any_eq_true] at hfacts
  exact ⟨env, e, henv, hfinal, h, hfacts⟩

end UnionTyping
