/-
  UnionTyping/Proofs/NativeCalls.lean
  ===================================
  **What is reported about a native call.**

  An argument of a native function misfits (`NativeFunction.Misfits`) when it is not passed as
  its parameter asks, or when its type is known and one of the members cannot be used as the
  declared type.  The check reports the first argument that misfits, wherever the types of
  others are still to come, and is deferred only when there is none (`check_first_misfit`).
  An argument that misfits still does when its type is wider, so a call that was rejected once
  stays rejected.

  The check looks at a union as a whole and overload resolution at each combination of members.
  For parameters that are passed by value and arguments whose types are known the two come to
  the same (`check_agrees_resolve`): members can be chosen for each argument on its own, so the
  combinations are all accepted when each member is (`Overload.accepts_iff_choices`).
-/
import UnionTyping.Native.Call
import UnionTyping.Proofs.Assignable
import UnionTyping.Proofs.Overload.Combinations

namespace UnionTyping

/-- The argument is passed in the same way and its type is within that of the other. -/
structure NativeArg.Within (arg wider : NativeArg) : Prop where
  ty : arg.ty.Within wider.ty
  isOut : wider.isOut = arg.isOut

namespace NativeFunction

variable {h : Hierarchy} {lib name : String} {index : Nat} {param : NativeParam}
  {arg wide : NativeArg} {soFar : NativeVerdict}
  {pairs before after : List (NativeParam × NativeArg)}
  {function : NativeFunction} {args wider : List NativeArg} {problem : Problem}

/-! ### One argument -/

/-- The argument is wrong for its parameter: it is not passed as `out` though it should be, or
    its type is known and has a member that cannot be used as the declared type. -/
inductive Misfits (h : Hierarchy) (param : NativeParam) (arg : NativeArg) : Prop where
  | mode (out : param.mode = .out) (plain : arg.isOut = false)
  | type (byValue : param.mode = .byValue) (known : arg.ty.isUnresolved = false) (m : Ty)
      (member : m ∈ arg.ty.members) (refused : h.assignable m param.ty = false)

/-- The type of the argument is asked for and still to come. -/
structure Waits (param : NativeParam) (arg : NativeArg) : Prop where
  byValue : param.mode = .byValue
  unresolved : arg.ty.isUnresolved = true

def misfit (lib function : String) (index : Nat) (param : NativeParam) (arg : NativeArg) :
    Problem :=
  match param.mode with
  | .out => .nativeArgumentMode lib function index
  | .byValue => .nativeArgumentType lib function index param.ty arg.ty

theorem misfit_ne_wrongArgumentCount {function : String} {given : Nat} {expected : Arity} :
    misfit lib name index param arg ≠ .wrongArgumentCount function given expected := by
  unfold misfit
  cases param.mode <;> exact Problem.noConfusion

/-- A type that is known is refused when one of its members is. -/
theorem misfits_byValue_iff (hmode : param.mode = .byValue) (hknown : arg.ty.isUnresolved = false) :
    Misfits h param arg ↔ h.assignable arg.ty param.ty = false := by
  rw [← Bool.not_eq_true, h.assignable_iff]
  constructor
  · rintro (⟨out, -⟩ | ⟨-, -, m, member, refused⟩) hall
    · rw [hmode] at out
      cases out
    · rw [hall m member] at refused
      cases refused
  · intro hnot
    push Not at hnot
    obtain ⟨m, hm, hrefused⟩ := hnot
    exact .type hmode hknown m hm (Bool.eq_false_iff.mpr hrefused)

theorem checkArg_of_misfits (hmisfits : Misfits h param arg) :
    checkArg h lib name index param arg soFar = .error (misfit lib name index param arg) := by
  cases hmode : param.mode with
  | out =>
    cases hmisfits with
    | mode _ plain => simp [checkArg, misfit, hmode, plain]
    | type byValue => simp [hmode] at byValue
  | byValue =>
    have hknown : arg.ty.isUnresolved = false := by
      cases hmisfits with
      | mode out => simp [hmode] at out
      | type _ known => exact known
    simp [checkArg, misfit, hmode, hknown, (misfits_byValue_iff hmode hknown).mp hmisfits]

theorem checkArg_of_fits (lib name : String) (index : Nat) (soFar : NativeVerdict)
    (hfits : ¬ Misfits h param arg) :
    ∃ next, checkArg h lib name index param arg soFar = .ok next ∧
      (next = .deferred ↔ soFar = .deferred ∨ Waits param arg) := by
  by_cases hwaits : Waits param arg
  · exact ⟨.deferred, by simp [checkArg, hwaits.byValue, hwaits.unresolved], by simp [hwaits]⟩
  · refine ⟨soFar, ?_, by simp [hwaits]⟩
    cases hmode : param.mode with
    | out =>
      have hout : arg.isOut = true := by
        by_contra hplain
        exact hfits (.mode hmode (Bool.eq_false_iff.mpr hplain))
      simp [checkArg, hmode, hout]
    | byValue =>
      have hknown : arg.ty.isUnresolved = false := by
        by_contra hunresolved
        exact hwaits ⟨hmode, by simpa using hunresolved⟩
      rw [misfits_byValue_iff hmode hknown, Bool.not_eq_false] at hfits
      simp [checkArg, hmode, hknown, hfits]

/-- An argument that misfits still does when its type can be used in fewer places. -/
theorem Misfits.mono (hout : wide.isOut = arg.isOut)
    (hknown : arg.ty.isUnresolved = false → wide.ty.isUnresolved = false)
    (hty : h.assignable wide.ty param.ty = true → h.assignable arg.ty param.ty = true)
    (hmisfits : Misfits h param arg) : Misfits h param wide := by
  cases hmisfits with
  | mode out plain => exact .mode out (hout.trans plain)
  | type byValue known m member refused =>
    have hmisfits := Misfits.type (h := h) byValue known m member refused
    rw [misfits_byValue_iff byValue known] at hmisfits
    rw [misfits_byValue_iff byValue (hknown known), ← Bool.not_eq_true]
    intro hassignable
    simp [hty hassignable] at hmisfits

theorem Misfits.of_within (harg : arg.ty.Normal) (hwide : wide.ty.Normal)
    (hwithin : arg.Within wide) (hmisfits : Misfits h param arg) : Misfits h param wide := by
  refine hmisfits.mono hwithin.isOut (fun hknown => ?_)
    (Hierarchy.assignable_of_wider harg hwide hwithin.ty)
  obtain ⟨m, hm⟩ := List.exists_mem_of_ne_nil _ (harg.members_ne_nil hknown)
  obtain ⟨m', hm', -⟩ := List.any_eq_true.mp (hwithin.ty m hm)
  exact Ty.isUnresolved_of_mem hm'

/-! ### All arguments -/

/-- Where the first argument misfits, the check ends. -/
theorem checkArgs_of_misfits (hbefore : ∀ pair ∈ before, ¬ Misfits h pair.1 pair.2)
    (hmisfits : Misfits h param arg) :
    checkArgs h lib name index soFar (before ++ (param, arg) :: after) =
      .error (misfit lib name (index + before.length) param arg) := by
  induction before generalizing index soFar with
  | nil =>
    rw [List.nil_append, checkArgs, checkArg_of_misfits hmisfits]
    rfl
  | cons pair before ih =>
    obtain ⟨hpair, hbefore⟩ := List.forall_mem_cons.mp hbefore
    obtain ⟨next, hnext, -⟩ := checkArg_of_fits lib name index soFar hpair
    calc checkArgs h lib name index soFar (pair :: before ++ (param, arg) :: after)
      _ = checkArgs h lib name (index + 1) next (before ++ (param, arg) :: after) := by
        rw [List.cons_append, checkArgs, hnext]
        rfl
      _ = .error (misfit lib name (index + (pair :: before).length) param arg) := by
        rw [ih hbefore, List.length_cons, Nat.add_right_comm, Nat.add_assoc]

/-- Where none misfits, the check waits for the types that are still to come. -/
theorem checkArgs_of_fits (lib name : String) (index : Nat) (soFar : NativeVerdict)
    (hfits : ∀ pair ∈ pairs, ¬ Misfits h pair.1 pair.2) :
    ∃ verdict, checkArgs h lib name index soFar pairs = .ok verdict ∧
      (verdict = .deferred ↔ soFar = .deferred ∨ ∃ pair ∈ pairs, Waits pair.1 pair.2) := by
  induction pairs generalizing index soFar with
  | nil => exact ⟨soFar, rfl, by simp⟩
  | cons pair rest ih =>
    obtain ⟨hpair, hrest⟩ := List.forall_mem_cons.mp hfits
    obtain ⟨next, hnext, hdeferred⟩ := checkArg_of_fits lib name index soFar hpair
    obtain ⟨verdict, hverdict, hlater⟩ := ih (index + 1) next hrest
    refine ⟨verdict, ?_, ?_⟩
    · rw [checkArgs, hnext]
      exact hverdict
    · rw [hlater, hdeferred, or_assoc, List.exists_mem_cons_iff]

/-! ### Calls -/

/-- The problem is that of the first argument that misfits, with its place counted from 1. -/
def FirstMisfit (h : Hierarchy) (lib : String) (function : NativeFunction) (args : List NativeArg)
    (problem : Problem) : Prop :=
  ∃ before param arg after, function.params.zip args = before ++ (param, arg) :: after ∧
    (∀ pair ∈ before, ¬ Misfits h pair.1 pair.2) ∧ Misfits h param arg ∧
    problem = misfit lib function.name (before.length + 1) param arg

theorem fits_or_firstMisfit (h : Hierarchy) (lib : String) (function : NativeFunction)
    (args : List NativeArg) :
    (∀ pair ∈ function.params.zip args, ¬ Misfits h pair.1 pair.2) ∨
      ∃ problem, FirstMisfit h lib function args problem := by
  classical
  cases hfirst : (function.params.zip args).find? fun pair => Misfits h pair.1 pair.2 with
  | none => exact .inl (by simpa using hfirst)
  | some pair =>
    obtain ⟨hmisfits, before, after, hpairs, hbefore⟩ := List.find?_eq_some_iff_append.mp hfirst
    refine .inr ⟨_, before, pair.1, pair.2, after, hpairs, ?_, ?_, rfl⟩
    · simpa using hbefore
    · simpa using hmisfits

theorem check_of_length (hlength : args.length = function.params.length) :
    function.check h lib args =
      checkArgs h lib function.name 1 .accepted (function.params.zip args) := if_pos hlength

theorem check_of_firstMisfit (hlength : args.length = function.params.length)
    (hfirst : FirstMisfit h lib function args problem) :
    function.check h lib args = .error problem := by
  obtain ⟨before, param, arg, after, hpairs, hbefore, hmisfits, rfl⟩ := hfirst
  rw [check_of_length hlength, hpairs, checkArgs_of_misfits hbefore hmisfits, Nat.add_comm]

theorem check_of_fits (lib : String) (hlength : args.length = function.params.length)
    (hfits : ∀ pair ∈ function.params.zip args, ¬ Misfits h pair.1 pair.2) :
    ∃ verdict, function.check h lib args = .ok verdict ∧
      (verdict = .deferred ↔ ∃ pair ∈ function.params.zip args, Waits pair.1 pair.2) := by
  obtain ⟨verdict, hverdict, hdeferred⟩ := checkArgs_of_fits lib function.name 1 .accepted hfits
  exact ⟨verdict, (check_of_length hlength).trans hverdict, by simpa using hdeferred⟩

/-- A call with the right number of arguments is rejected for the first argument that misfits. -/
theorem check_eq_error_iff (hlength : args.length = function.params.length) :
    function.check h lib args = .error problem ↔ FirstMisfit h lib function args problem := by
  refine ⟨fun herror => ?_, check_of_firstMisfit hlength⟩
  rcases fits_or_firstMisfit h lib function args with hfits | ⟨problem', hfirst⟩
  · obtain ⟨verdict, hok, -⟩ := check_of_fits lib hlength hfits
    simp [hok] at herror
  · rw [check_of_firstMisfit hlength hfirst] at herror
    cases herror
    exact hfirst

/-- It is not rejected when no argument misfits, and deferred when one waits. -/
theorem check_eq_ok_iff (hlength : args.length = function.params.length) {verdict : NativeVerdict} :
    function.check h lib args = .ok verdict ↔
      (∀ pair ∈ function.params.zip args, ¬ Misfits h pair.1 pair.2) ∧
        (verdict = .deferred ↔ ∃ pair ∈ function.params.zip args, Waits pair.1 pair.2) := by
  constructor
  · intro hok
    rcases fits_or_firstMisfit h lib function args with hfits | ⟨problem, hfirst⟩
    · obtain ⟨verdict', hok', hdeferred⟩ := check_of_fits lib hlength hfits
      rw [hok] at hok'
      cases hok'
      exact ⟨hfits, hdeferred⟩
    · simp [check_of_firstMisfit hlength hfirst] at hok
  · rintro ⟨hfits, hdeferred⟩
    obtain ⟨verdict', hok, hdeferred'⟩ := check_of_fits lib hlength hfits
    rw [hok]
    rw [← hdeferred'] at hdeferred
    -- a verdict is told by whether it is deferred
    cases verdict <;> cases verdict' <;> simp_all

/-- A call with another number of arguments than parameters is rejected for that. -/
theorem check_wrongArgumentCount_iff {called : String} {given : Nat} {expected : Arity} :
    function.check h lib args = .error (.wrongArgumentCount called given expected) ↔
      args.length ≠ function.params.length ∧ called = function.name ∧ given = args.length ∧
        expected = .exactly function.params.length := by
  by_cases hlength : args.length = function.params.length
  · rw [check_eq_error_iff hlength]
    constructor
    · rintro ⟨_, _, _, _, -, -, -, hproblem⟩
      exact absurd hproblem.symm misfit_ne_wrongArgumentCount
    · rintro ⟨hne, -⟩
      exact absurd hlength hne
  · simp [check, hlength, eq_comm]

theorem length_of_check {verdict : NativeVerdict} (hok : function.check h lib args = .ok verdict) :
    args.length = function.params.length := by
  by_contra hlength
  rw [check, if_neg hlength] at hok
  cases hok

/-- A call that is rejected is rejected for arguments that misfit wherever these do. -/
theorem exists_error_of_misfits
    (hworse : List.Forall₂ (fun arg wide => ∀ param, Misfits h param arg → Misfits h param wide)
      args wider) (herror : function.check h lib args = .error problem) :
    ∃ problem', function.check h lib wider = .error problem' := by
  rcases hcheck : function.check h lib wider with problem' | verdict
  · exact ⟨problem', rfl⟩
  · have hlength' := length_of_check hcheck
    have hlength := hworse.length_eq.trans hlength'
    obtain ⟨before, param, arg, after, hpairs, -, hmisfits, -⟩ :=
      (check_eq_error_iff hlength).mp herror
    have hpair : (param, arg) ∈ function.params.zip args := by simp [hpairs]
    obtain ⟨i, hi⟩ := List.getElem?_of_mem hpair
    obtain ⟨hparam, harg⟩ := List.getElem?_zip_eq_some.mp hi
    obtain ⟨hi', rfl⟩ := List.getElem?_eq_some_iff.mp harg
    obtain ⟨-, hall⟩ := List.forall₂_iff_get.mp hworse
    have hwide := List.getElem?_eq_getElem (hworse.length_eq ▸ hi')
    have hpair' : (param, wider[i]) ∈ function.params.zip wider :=
      List.mem_of_getElem? (List.getElem?_zip_eq_some.mpr ⟨hparam, hwide⟩)
    exact absurd (hall i hi' _ param hmisfits) (((check_eq_ok_iff hlength').mp hcheck).1 _ hpair')

/-- The check of a native call, over any hierarchy.  It fails on the number of arguments when
    that is not the number of parameters.  Otherwise it reports the first argument that misfits,
    if there is one.  Otherwise it is deferred when the type of some argument is still to come,
    and accepted when there is none.  A call that is rejected is rejected for wider argument
    types as well. -/
theorem check_first_misfit (h : Hierarchy) (lib : String) (function : NativeFunction)
    (args : List NativeArg) :
    ((∃ name given expected,
        function.check h lib args = .error (.wrongArgumentCount name given expected)) ↔
      args.length ≠ function.params.length) ∧
    (args.length ≠ function.params.length → function.check h lib args =
      .error (.wrongArgumentCount function.name args.length (.exactly function.params.length))) ∧
    (args.length = function.params.length →
      (∀ problem, function.check h lib args = .error problem ↔
        FirstMisfit h lib function args problem) ∧
      (function.check h lib args = .ok .deferred ↔
        (∀ pair ∈ function.params.zip args, ¬ Misfits h pair.1 pair.2) ∧
          ∃ pair ∈ function.params.zip args, Waits pair.1 pair.2) ∧
      (function.check h lib args = .ok .accepted ↔
        (∀ pair ∈ function.params.zip args, ¬ Misfits h pair.1 pair.2) ∧
          ∀ pair ∈ function.params.zip args, ¬ Waits pair.1 pair.2)) ∧
    ∀ (wider : List NativeArg) (problem : Problem), (∀ arg ∈ args, arg.ty.Normal) →
      (∀ arg ∈ wider, arg.ty.Normal) → List.Forall₂ NativeArg.Within args wider →
        function.check h lib args = .error problem →
          ∃ problem', function.check h lib wider = .error problem' := by
  refine ⟨?_, ?_, fun hlength => ⟨?_, ?_, ?_⟩, ?_⟩
  · simp [check_wrongArgumentCount_iff]
  · intro hlength
    exact if_neg hlength
  · intro problem
    exact check_eq_error_iff hlength
  · simp [check_eq_ok_iff hlength]
  · simp [check_eq_ok_iff hlength]
  · intro wider problem hargs hwider hwithin herror
    refine exists_error_of_misfits ?_ herror
    obtain ⟨hlength, hall⟩ := List.forall₂_iff_get.mp hwithin
    refine List.forall₂_iff_get.mpr ⟨hlength, fun i hi hi' param => ?_⟩
    exact .of_within (hargs _ (List.get_mem _ _)) (hwider _ (List.get_mem _ _)) (hall i hi hi')

def reading : NativeFunction where
  name := "read"
  params := [⟨"count", .con "Number" [], .byValue⟩, ⟨"text", .oneOf [.char, .nil], .byValue⟩,
    ⟨"result", .int, .out⟩]
  ret := .nil

def misread : List NativeArg :=
  [⟨.unresolved, false⟩, ⟨.oneOf [.char, .int], false⟩, ⟨.int, false⟩]

/-- The second argument is reported, and with wider types the call is still rejected.  Without
    the two misfits it is deferred. -/
theorem reading_first_misfit :
    FirstMisfit Overload.numberClasses "IO" reading misread
        (.nativeArgumentType "IO" "read" 2 (.oneOf [.char, .nil]) (.oneOf [.char, .int])) ∧
      (∃ problem, reading.check Overload.numberClasses "IO"
        [⟨.double, false⟩, ⟨.oneOf [.nil, .int, .char], false⟩, ⟨.int, false⟩] =
          .error problem) ∧
      ∃ pair ∈ reading.params.zip [⟨.unresolved, false⟩, ⟨.char, false⟩, ⟨.unresolved, true⟩],
        Waits pair.1 pair.2 := by
  obtain ⟨-, -, hreported, hwider⟩ :=
    check_first_misfit Overload.numberClasses "IO" reading misread
  obtain ⟨-, -, hwaiting, -⟩ := check_first_misfit Overload.numberClasses "IO" reading
    [⟨.unresolved, false⟩, ⟨.char, false⟩, ⟨.unresolved, true⟩]
  refine ⟨((hreported rfl).1 _).mp rfl, ?_, ((hwaiting rfl).2.1.mp rfl).2⟩
  refine hwider _ _ (by decide +kernel) (by decide +kernel) ?_ rfl
  exact .cons ⟨by decide +kernel, rfl⟩ (.cons ⟨by decide +kernel, rfl⟩
    (.cons ⟨by decide +kernel, rfl⟩ .nil))

end NativeFunction

/-! ### Members one by one and combinations of members -/

namespace Overload

/-- A signature accepts types that have members when it accepts every choice of members. -/
theorem accepts_iff_choices {h : Hierarchy} {s : Signature} {args : List Ty}
    (hargs : ∀ t ∈ args, t.members ≠ []) :
    s.accepts h args = true ↔ ∀ as ∈ choices args, s.accepts h as = true := by
  obtain ⟨params, required⟩ := s
  induction args generalizing params with
  | nil => simp [choices]
  | cons t ts ih =>
    obtain ⟨ht, hts⟩ := List.forall_mem_cons.mp hargs
    cases params with
    | nil => simp [Signature.accepts]
    | cons restriction params =>
      have hmembers : Signature.allows h restriction t = true ↔
          ∀ m ∈ t.members, Signature.allows h restriction m = true := by
        cases restriction with
        | none => simp [Signature.allows]
        | some expected => exact h.assignable_iff
      rw [Signature.accepts_cons, Bool.and_eq_true, hmembers, ih hts]
      constructor
      · rintro ⟨hfirst, hrest⟩ as has
        cases mem_choices.mp has with
        | @cons m _ rest _ hm hchosen =>
          simp [hfirst m hm, hrest rest (mem_choices.mpr hchosen)]
      · intro hall
        have hboth : ∀ m ∈ t.members, ∀ rest ∈ choices ts,
            Signature.allows h restriction m = true ∧
              Signature.accepts h ⟨params, required⟩ rest = true := by
          intro m hm rest hrest
          have haccepts := hall (m :: rest) (mem_choices.mpr (.cons hm (mem_choices.mp hrest)))
          simpa using haccepts
        -- with no member or no choice one of the two sides would say nothing
        obtain ⟨m, hm⟩ := List.exists_mem_of_ne_nil _ ht
        obtain ⟨rest, hrest⟩ := List.exists_mem_of_ne_nil _ (choices_ne_nil hts)
        exact ⟨fun m' hm' => (hboth m' hm' rest hrest).1, fun rest' hrest' =>
          (hboth m hm rest' hrest').2⟩

end Overload

namespace NativeFunction

variable {h : Hierarchy} {lib : String} {function : NativeFunction} {args : List NativeArg}

def signature (function : NativeFunction) : Signature :=
  .exact (function.params.map fun param => some param.ty)

theorem fits_signature_iff {given : Nat} :
    function.signature.Fits given ↔ given = function.params.length := by
  simp only [Signature.Fits, signature, Signature.exact, List.length_map]
  omega

theorem accepts_signature_iff : function.signature.accepts h (args.map NativeArg.ty) = true ↔
    ∀ pair ∈ function.params.zip args, h.assignable pair.2.ty pair.1.ty = true := by
  simp only [signature, Signature.exact, Signature.accepts, List.zip_map, List.all_map,
    List.all_eq_true]
  rfl

/-- When all parameters are passed by value and all types are known, a call is accepted when
    each argument can be used as the declared type. -/
theorem check_accepted_iff (hvalue : ∀ param ∈ function.params, param.mode = .byValue)
    (hknown : ∀ arg ∈ args, arg.ty.isUnresolved = false)
    (hlength : args.length = function.params.length) :
    function.check h lib args = .ok .accepted ↔
      ∀ pair ∈ function.params.zip args, h.assignable pair.2.ty pair.1.ty = true := by
  rw [check_eq_ok_iff hlength]
  constructor
  · rintro ⟨hfits, -⟩ pair hpair
    obtain ⟨hparam, harg⟩ := List.of_mem_zip hpair
    have hfits := hfits pair hpair
    rwa [misfits_byValue_iff (hvalue _ hparam) (hknown _ harg), Bool.not_eq_false] at hfits
  · intro hall
    refine ⟨fun pair hpair => ?_, ?_⟩
    · obtain ⟨hparam, harg⟩ := List.of_mem_zip hpair
      rw [misfits_byValue_iff (hvalue _ hparam) (hknown _ harg), Bool.not_eq_false]
      exact hall pair hpair
    · refine iff_of_false nofun ?_
      rintro ⟨pair, hpair, -, hunresolved⟩
      rw [hknown _ (List.of_mem_zip hpair).2] at hunresolved
      cases hunresolved

/-- When all parameters are passed by value and all argument types are known and in normal
    form, the check of a native call agrees with overload resolution over the one signature of
    the declared types: the call is accepted when it can be resolved, and both fail on the
    number of arguments in the same cases and with the same numbers. -/
theorem check_agrees_resolve (h : Hierarchy) (lib : String) (function : NativeFunction)
    (args : List NativeArg) (hvalue : ∀ param ∈ function.params, param.mode = .byValue)
    (hargs : ∀ arg ∈ args, arg.ty.Normal ∧ arg.ty.isUnresolved = false) :
    (function.check h lib args = .ok .accepted ↔
      ∃ found, Overload.resolve h [function.signature] (args.map NativeArg.ty) = .ok found) ∧
    ∀ given expected,
      (∃ called, function.check h lib args = .error (.wrongArgumentCount called given expected)) ↔
        Overload.resolve h [function.signature] (args.map NativeArg.ty) =
          .error (.wrongArity given expected) := by
  have hfits : (∃ s ∈ [function.signature], s.Fits (args.map NativeArg.ty).length) ↔
      args.length = function.params.length := by
    simp [fits_signature_iff]
  constructor
  · by_cases hlength : args.length = function.params.length
    · have hmembers : ∀ t ∈ args.map NativeArg.ty, t.members ≠ [] := by
        intro t ht
        obtain ⟨arg, harg, rfl⟩ := List.mem_map.mp ht
        exact (hargs arg harg).1.members_ne_nil (hargs arg harg).2
      have htakes : function.signature.takes (args.map NativeArg.ty).length = true := by
        rw [Signature.takes_iff, fits_signature_iff, List.length_map, hlength]
      rw [check_accepted_iff hvalue (fun arg harg => (hargs arg harg).2) hlength,
        ← accepts_signature_iff, Overload.accepts_iff_choices hmembers, Overload.resolves_iff]
      simp only [List.mem_singleton, exists_eq_left, htakes, true_and]
    · rw [Overload.resolve_of_not_fits (mt hfits.mp hlength), check, if_neg hlength]
      simp
  · intro given expected
    rw [Overload.resolve_eq_wrongArity_iff, hfits, List.length_map]
    simp [check_wrongArgumentCount_iff, signature, Signature.exact, Signature.arity, Arity.exactly]

def printing : NativeFunction :=
  ⟨"print", [⟨"count", .con "Number" [], .byValue⟩, ⟨"text", .oneOf [.char, .nil], .byValue⟩], .nil⟩

/-- A whole number or a fraction and a text are accepted, and each of the two combinations can
    be resolved.  A number alone fails in both. -/
theorem printing_agrees :
    (∃ found, Overload.resolve Overload.numberClasses [printing.signature]
        [.oneOf [.int, .double], .char] = .ok found) ∧
      Overload.resolve Overload.numberClasses [printing.signature] [.int] =
        .error (.wrongArity 1 ⟨2, 2⟩) := by
  have hspread := check_agrees_resolve Overload.numberClasses "IO" printing
    [⟨.oneOf [.int, .double], false⟩, ⟨.char, false⟩] (by decide) (by decide +kernel)
  have hmissing := check_agrees_resolve Overload.numberClasses "IO" printing [⟨.int, false⟩]
    (by decide) (by decide +kernel)
  exact ⟨hspread.1.mp rfl, (hmissing.2 _ _).mp ⟨_, rfl⟩⟩

end NativeFunction

end UnionTyping
