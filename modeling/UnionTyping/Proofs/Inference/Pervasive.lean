/-
  UnionTyping/Proofs/Inference/Pervasive.lean
  ===========================================
  **What all steps of one check have in common.**

  The check of an expression is put together of few steps that touch the state.  If a property
  of steps is kept by sequencing and by blocks and holds of those few (`Pervasive`), it holds of
  the check of any expression (`Pervasive.infer`), of the body of a method and of a whole unit
  (`Pervasive.unitBody`).  What every check of a unit keeps holds of the units when a run has
  come to its end (`Engine.keeps_final`).

  A `break` or `next` is reported where it is loose in the expression that is checked, and
  nowhere else (`Permits`).  All other reports are of problems that any step may report
  (`Problem.isOrdinary`); among them a wrong number of arguments, and the number is wrong.
-/
import UnionTyping.Proofs.Inference.Parallel
import UnionTyping.Proofs.NativeCalls
import UnionTyping.Proofs.Syntax.Loops

namespace UnionTyping

/-! ### Ordinary problems -/

def Problem.isLoopControl : Problem → Bool
  | strayLoopControl _ => true
  | _ => false

/-- Whether the problem is one that any step may report: a number of arguments that is reported
    as wrong is wrong, and a `break` or `next` is left to where it stands. -/
def Problem.isOrdinary : Problem → Bool
  | strayLoopControl _ => false
  | wrongArgumentCount _ given expected => !expected.contains given
  | _ => true

theorem Problem.isLoopControl_of_isOrdinary {problem : Problem} (h : problem.isOrdinary = true) :
    problem.isLoopControl = false := by
  cases problem with
  | strayLoopControl => cases h
  | _ => rfl

/-- A number that is not the one that is asked for is wrong. -/
theorem Problem.isOrdinary_exactly {name : String} {given n : Nat} (h : given ≠ n) :
    (wrongArgumentCount name given (.exactly n)).isOrdinary = true := by
  have hrefused : (Arity.exactly n).contains given = false := by
    rw [Arity.contains, Arity.exactly, ← Bool.decide_and, decide_eq_false_iff_not]
    exact fun hboth => h (Nat.le_antisymm hboth.2 hboth.1)
  exact congrArg (!·) hrefused

namespace Overload

variable {signatures : List Signature}

/-- The arity that is reported is that of the first signature, which does not take so many
    arguments either. -/
theorem isOrdinary_of_requireArity (hsome : signatures ≠ []) {given : Nat} {failure : Failure}
    (h : requireArity signatures given = .error failure) (name : String) :
    (failure.problem name).isOrdinary = true := by
  obtain ⟨s, rest, rfl⟩ := List.exists_cons_of_ne_nil hsome
  rw [requireArity, List.any_cons] at h
  split at h
  · cases h
  · rename_i hnone
    cases h
    have hrefused : s.arity.contains given = false := by
      rw [Bool.or_eq_true, not_or, Bool.not_eq_true] at hnone
      exact hnone.1
    exact congrArg (!·) hrefused

theorem isOrdinary_of_resolve (hsome : signatures ≠ []) {h : Hierarchy} {args : List Ty}
    {failure : Failure} (herror : resolve h signatures args = .error failure) (name : String) :
    (failure.problem name).isOrdinary = true := by
  cases failure with
  | noMatch => rfl
  | wrongArity given expected =>
    obtain ⟨hnone, rfl, rfl⟩ := resolve_eq_wrongArity_iff.mp herror
    exact isOrdinary_of_requireArity hsome (if_neg (mt any_takes_iff.mp hnone)) name

end Overload

theorem Primitive.isOrdinary_malloc {className : String} {args : List Ty} {problem : Problem}
    (h : Primitive.malloc className args = .error problem) : problem.isOrdinary = true := by
  cases args with
  | nil =>
    cases h
    rfl
  | cons => cases h

namespace NativeFunction

variable {h : Hierarchy} {lib : String} {problem : Problem}

theorem isOrdinary_check {function : NativeFunction} {args : List NativeArg}
    (herror : function.check h lib args = .error problem) : problem.isOrdinary = true := by
  by_cases hlength : args.length = function.params.length
  · obtain ⟨_, param, _, _, -, -, -, rfl⟩ := (check_eq_error_iff hlength).mp herror
    unfold misfit
    cases param.mode <;> rfl
  · rw [check, if_neg hlength] at herror
    cases herror
    exact Problem.isOrdinary_exactly hlength

end NativeFunction

/-- What is wrong with a declaration is neither. -/
theorem Problem.isOrdinary_of_isDeclarative {problem : Problem}
    (h : problem.isDeclarative = true) : problem.isOrdinary = true := by
  cases problem with
  | uninitializedConstant | superclassMismatch | wrongTypeArgumentCount => rfl
  | _ => cases h

theorem ClassTable.isOrdinary_typeOf (t : ClassTable) (ref : TypeRef) {d : Diagnostic}
    (h : t.typeOf ref = .error d) : d.problem.isOrdinary = true :=
  Problem.isOrdinary_of_isDeclarative (t.location_of_typeOf ref h).2.2

/-! ### Properties of steps -/

/-- A property of the steps of a check that is kept by sequencing and by blocks, and that the
    steps have which touch the state.  It may speak of the number of loops and blocks around
    what is checked. -/
structure Pervasive (c : Checking) (K : Nat → ∀ {α : Type}, WalkM α → Prop) : Prop where
  ret : ∀ {depth} {α : Type} (a : α), K depth (pure a)
  seq : ∀ {depth} {α β : Type} {x : WalkM α} {f : α → WalkM β}, K depth x →
    (∀ a, K depth (f a)) → K depth (x >>= f)
  lookup : ∀ {depth} name, K depth (Checking.lookup name)
  noteType : ∀ {depth} node ty, K depth (Checking.noteType node ty)
  noteCall : ∀ {depth} node call, K depth (Checking.noteCall node call)
  fail : ∀ {depth} {problem : Problem} (loc : Location), problem.isOrdinary = true →
    K depth (c.fail problem loc)
  control : ∀ {depth} keyword loc, K (depth + 1) (c.loopControl keyword loc)
  bindingOf : ∀ {depth} slot, K depth (Checking.bindingOf slot)
  read : ∀ {depth} i, K depth (c.read i)
  assign : ∀ {depth} i site ty, K depth (c.assign i site ty)
  assigned : ∀ {depth} name loc, K depth (c.bindingToAssign (.local name) loc)
  inLoop : ∀ {depth} {x : WalkM Ty}, K (depth + 1) x → K depth (Checking.inLoop x)
  inBlock : ∀ {depth call params} {x : WalkM Ty}, K (depth + 1) x →
    K depth (c.inBlock call params x)
  instanceOf : ∀ {depth} site method self args, K depth (c.instanceOf site method self args)

/-- A property that the steps on the names have as well, whatever was visible before. -/
structure Elementary (c : Checking) (K : Nat → ∀ {α : Type}, WalkM α → Prop) : Prop where
  ret : ∀ {depth} {α : Type} (a : α), K depth (pure a)
  seq : ∀ {depth} {α β : Type} {x : WalkM α} {f : α → WalkM β}, K depth x →
    (∀ a, K depth (f a)) → K depth (x >>= f)
  lookup : ∀ {depth} name, K depth (Checking.lookup name)
  enter : ∀ {depth} call,
    K depth (WalkM.change fun w => { w with scopes := w.scopes.enter (.block call) })
  leave : ∀ {depth}, K depth (WalkM.change fun w => { w with scopes := w.scopes.leave })
  bindLocal : ∀ {depth} name, K depth (c.bindLocal name)
  noteType : ∀ {depth} node ty, K depth (Checking.noteType node ty)
  noteCall : ∀ {depth} node call, K depth (Checking.noteCall node call)
  fail : ∀ {depth} {problem : Problem} (loc : Location), problem.isOrdinary = true →
    K depth (c.fail problem loc)
  control : ∀ {depth} keyword loc, K (depth + 1) (c.loopControl keyword loc)
  bindingOf : ∀ {depth} slot, K depth (Checking.bindingOf slot)
  read : ∀ {depth} i, K depth (c.read i)
  assign : ∀ {depth} i site ty, K depth (c.assign i site ty)
  inLoop : ∀ {depth} {x : WalkM Ty}, K (depth + 1) x → K depth (Checking.inLoop x)
  instanceOf : ∀ {depth} site method self args, K depth (c.instanceOf site method self args)

namespace Elementary

variable {c : Checking} {K : Nat → ∀ {α : Type}, WalkM α → Prop} {depth : Nat}
  (h : Elementary c K)
include h

theorem bindLocals (names : List String) : K depth (c.bindLocals names) := by
  induction names with
  | nil => exact h.ret ()
  | cons name names ih => exact h.seq (h.bindLocal name) fun _ => ih

theorem inBlock {call : NodeId} {params : List String} {x : WalkM Ty} (hx : K (depth + 1) x) :
    K depth (c.inBlock call params x) := by
  apply h.seq (h.enter call)
  intro _
  apply h.seq (h.bindLocals params)
  intro _
  exact h.seq (h.inLoop hx) fun _ => h.leave

theorem assigned (name : String) (loc : Location) :
    K depth (c.bindingToAssign (.local name) loc) := by
  apply h.seq (h.lookup name)
  intro o
  cases o with
  | none => exact h.seq (h.bindLocal name) fun i => h.ret (some i)
  | some i => exact h.ret (some i)

theorem pervasive : Pervasive c K where
  ret := h.ret
  seq := h.seq
  lookup := h.lookup
  noteType := h.noteType
  noteCall := h.noteCall
  fail := h.fail
  control := h.control
  bindingOf := h.bindingOf
  read := h.read
  assign := h.assign
  assigned := h.assigned
  inLoop := h.inLoop
  inBlock := h.inBlock
  instanceOf := h.instanceOf

end Elementary

namespace Pervasive

variable {c : Checking} {K : Nat → ∀ {α : Type}, WalkM α → Prop} {depth : Nat}
  (h : Pervasive c K)
include h

theorem typed {node : NodeId} {x : WalkM Ty} (hx : K depth x) :
    K depth (Checking.typed node x) := by
  apply h.seq hx
  intro ty
  exact h.seq (h.noteType node ty) fun _ => h.ret ty

/-- A report, after which something else is the result. -/
theorem failWith {α : Type} (a : α) {problem : Problem} (loc : Location)
    (hproblem : problem.isOrdinary = true) :
    K depth (do let _ ← c.fail problem loc; pure a) :=
  h.seq (h.fail loc hproblem) fun _ => h.ret a

/-! ### Variables -/

theorem ivarOf (name : String) (loc : Location) : K depth (c.ivarOf name loc) := by
  unfold Checking.ivarOf
  cases c.self.bind c.env.classes.classOf with
  | none => exact h.failWith none loc rfl
  | some owner =>
    simp only
    cases c.env.classes.kindOf owner with
    | value => exact h.failWith none loc rfl
    | reference => exact h.seq (h.bindingOf _) fun i => h.ret (some i)

theorem readIvar (name : String) (loc : Location) : K depth (c.readIvar name loc) := by
  apply h.seq (h.ivarOf name loc)
  intro o
  cases o with
  | none => exact h.ret _
  | some i => exact h.read i

theorem bindingToAssign (target : Target) (loc : Location) :
    K depth (c.bindingToAssign target loc) := by
  cases target with
  | «local» name => exact h.assigned name loc
  | ivar name => exact h.ivarOf name loc

theorem bindingToUpdate (mark : Mark) (target : Target) (op : String) :
    K depth (c.bindingToUpdate mark target op) := by
  cases target with
  | «local» name =>
    apply h.seq (h.lookup name)
    intro o
    cases o with
    | none => exact h.failWith none mark.loc rfl
    | some i => exact h.ret (some i)
  | ivar name => exact h.ivarOf name mark.loc

theorem outType (target : Target) (loc : Location) : K depth (c.outType target loc) := by
  cases target with
  | «local» name =>
    apply h.seq (h.lookup name)
    intro o
    cases o with
    | none => exact h.fail loc rfl
    | some i => exact h.read i
  | ivar name => exact h.readIvar name loc

theorem nativeOutType (target : Target) (loc : Location) :
    K depth (c.nativeOutType target loc) := by
  cases target with
  | «local» name =>
    apply h.seq (h.lookup name)
    intro o
    cases o with
    | none => exact h.ret _
    | some i => exact h.read i
  | ivar name => exact h.readIvar name loc

/-! ### Calls -/

section

variable {mark : Mark} {self : Option Ty} {name : String} {args : List Ty}

theorem enter (site : Location) (candidate : Candidate) :
    K depth (c.enter site self name args candidate) := by
  cases candidate with
  | method entry => exact h.seq (h.instanceOf site entry.id self args) fun _ => h.ret _
  | primitive p => exact h.ret _

theorem enterAll {candidates : List Candidate} {result : Ty} (found : List Overload.Match) :
    K depth (c.enterAll mark self name candidates result found) := by
  induction found generalizing result with
  | nil => exact h.ret result
  | cons m rest ih =>
    rw [Checking.enterAll]
    cases candidates[m.candidate]? with
    | none => exact ih
    | some candidate =>
      apply h.seq (h.enter mark.loc candidate)
      intro entered
      exact h.seq (h.noteCall _ _) fun _ => ih

/-- A call is resolved only where there are candidates. -/
theorem callAmong {candidates : List Candidate} (hsome : ¬ candidates.isEmpty = true) :
    K depth (c.callAmong mark self name candidates args) := by
  have hsignatures : candidates.map Candidate.signature ≠ [] := by
    rwa [ne_eq, List.map_eq_nil_iff, ← List.isEmpty_iff]
  unfold Checking.callAmong
  simp only
  split
  · rename_i harity
    exact h.failWith none mark.loc (Overload.isOrdinary_of_requireArity hsignatures harity name)
  · split
    · exact h.ret _
    · split
      · rename_i hresolve
        exact h.failWith none mark.loc (Overload.isOrdinary_of_resolve hsignatures hresolve name)
      · exact h.seq (h.enterAll _) fun _ => h.ret _

theorem callOnEach {result : Ty} (receivers : List Ty) :
    K depth (c.callOnEach mark name args result receivers) := by
  induction receivers generalizing result with
  | nil => exact h.ret result
  | cons member rest ih =>
    rw [Checking.callOnEach]
    split
    · exact h.fail mark.loc rfl
    · rename_i hsome
      apply h.seq (h.callAmong hsome)
      intro o
      cases o with
      | none => exact h.ret _
      | some ty => exact ih

theorem callOn (receiver : Ty) : K depth (c.callOn mark receiver name args) :=
  h.callOnEach receiver.members

theorem callTopLevel {bare : Bool} : K depth (c.callTopLevel mark name args bare) := by
  unfold Checking.callTopLevel
  simp only
  split
  · cases bare <;> exact h.fail mark.loc rfl
  · rename_i hsome
    exact h.seq (h.callAmong hsome) fun _ => h.ret _

theorem callOnSelf {bare : Bool} : K depth (c.callOnSelf mark name args bare) := by
  unfold Checking.callOnSelf
  cases c.self with
  | none => exact h.callTopLevel
  | some self =>
    simp only
    split
    · exact h.callTopLevel
    · rename_i hsome
      exact h.seq (h.callAmong hsome) fun _ => h.ret _

theorem callNew {ty : Ty} : K depth (c.callNew mark ty args) := by
  unfold Checking.callNew
  cases c.env.classes.classOf ty with
  | none => exact h.ret _
  | some id =>
    have hnoted : K depth (do
        Checking.noteCall mark.id ⟨none, .allocate (c.env.classes.nameOf id), args, ty⟩
        return ty) := h.seq (h.noteCall _ _) fun _ => h.ret ty
    simp only
    split
    · rename_i hgiven
      have hne : args.length ≠ 0 := by
        intro hzero
        rw [List.length_eq_zero_iff.mp hzero, List.isEmpty_nil, Bool.not_true, Bool.and_false]
          at hgiven
        cases hgiven
      exact h.fail mark.loc (Problem.isOrdinary_exactly hne)
    · split
      · rw [pure_bind]
        exact hnoted
      · rename_i hsome
        apply h.seq (h.callAmong hsome)
        intro entered
        cases entered with
        | none => exact h.ret _
        | some _ => exact hnoted

theorem callMalloc {ty : Ty} : K depth (c.callMalloc mark ty args) := by
  unfold Checking.callMalloc
  split
  · split
    · rename_i problem hmalloc
      exact h.fail mark.loc (Primitive.isOrdinary_malloc hmalloc)
    · exact h.seq (h.callAmong Bool.false_ne_true) fun _ => h.ret _
  · exact h.ret _

theorem callOnClass {className : String} {ty : Ty} :
    K depth (c.callOnClass mark className ty name args) := by
  unfold Checking.callOnClass
  split
  · exact h.callNew
  · split
    · exact h.callMalloc
    · exact h.fail mark.loc rfl

theorem pointerTo {receiver : NodeId} {given : Nat} {hasBlock : Bool} (i : BindingId) :
    K depth (c.pointerTo mark receiver given hasBlock i) := by
  unfold Checking.pointerTo
  split
  · rename_i hgiven
    exact h.fail mark.loc (Problem.isOrdinary_exactly hgiven)
  · split
    · exact h.fail mark.loc rfl
    · apply h.seq (h.read i)
      intro element
      apply h.seq (h.noteType receiver element)
      intro _
      split
      · exact h.ret _
      · exact h.seq (h.noteCall _ _) fun _ => h.ret _

theorem takePointer {receiver : Expr} {given : Nat} {hasBlock : Bool} :
    K depth (c.takePointer mark receiver given hasBlock) := by
  cases hvariable : receiver.isVariable with
  | false =>
    rw [Checking.takePointer_other _ _ _ _ _ hvariable]
    exact h.failWith _ mark.loc rfl
  | true =>
    cases receiver with
    | ident m name =>
      rw [Checking.takePointer_ident]
      apply h.seq (h.lookup name)
      intro o
      cases o with
      | none => exact h.failWith _ mark.loc rfl
      | some i => exact h.pointerTo i
    | ivar m name =>
      rw [Checking.takePointer_ivar]
      apply h.seq (h.ivarOf name m.loc)
      intro o
      cases o with
      | none => exact h.ret _
      | some i => exact h.pointerTo i
    | _ => cases hvariable

end

theorem assignOuts (pairs : List (Expr × NativeParam)) : K depth (c.assignOuts pairs) := by
  induction pairs with
  | nil => exact h.ret ()
  | cons pair pairs ih =>
    obtain ⟨arg, param⟩ := pair
    simp only [Checking.assignOuts]
    split
    · rename_i m target _
      apply h.seq (h.bindingToAssign target m.loc)
      intro o
      cases o with
      | none => exact h.seq (h.noteType _ _) fun _ => ih
      | some i =>
        apply h.seq (h.assign i m.loc param.ty)
        intro _
        exact h.seq (h.noteType _ _) fun _ => ih
    · exact ih

theorem callNative {mark : Mark} {lib : String} {function : NativeFunction} {args : List Expr}
    {given : List NativeArg} : K depth (c.callNative mark lib function args given) := by
  unfold Checking.callNative
  split
  · rename_i problem hcheck
    exact h.fail mark.loc (NativeFunction.isOrdinary_check hcheck)
  · apply h.seq (h.assignOuts _)
    intro _
    exact h.seq (h.noteCall _ _) fun _ => h.ret _

end Pervasive

/-! ### Expressions -/

/-- Outside of loops, each `break` and `next` that is loose in the expression has the
    property. -/
def Checking.Permits (c : Checking) (K : Nat → ∀ {α : Type}, WalkM α → Prop) (depth : Nat)
    (e : Expr) : Prop :=
  depth = 0 → ∀ m keyword, Expr.Loose (.control m keyword) e → K 0 (c.loopControl keyword m.loc)

namespace Checking.Permits

variable {c : Checking} {K : Nat → ∀ {α : Type}, WalkM α → Prop} {depth : Nat} {e : Expr}

theorem child (h : c.Permits K depth e) {child : Expr} (hchild : child ∈ e.looseChildren) :
    c.Permits K depth child :=
  fun hzero m keyword hloose => h hzero m keyword (.part hchild hloose)

/-- Inside of a loop there is nothing to permit. -/
theorem inside (e : Expr) : c.Permits K (depth + 1) e := nofun

end Checking.Permits

namespace Pervasive

variable {c : Checking} {K : Nat → ∀ {α : Type}, WalkM α → Prop} (h : Pervasive c K)
include h

mutual

/-- The check of an expression has the property. -/
theorem infer (e : Expr) (depth : Nat) (hp : c.Permits K depth e) : K depth (c.infer e) := by
  match e with
  | .literal m value =>
    rw [Checking.infer]
    exact h.ret _
  | .ident m name =>
    rw [Checking.infer]
    apply h.seq (h.lookup name)
    intro o
    cases o with
    | none => exact h.callOnSelf
    | some i => exact h.read i
  | .ivar m name =>
    rw [Checking.infer]
    exact h.readIvar name m.loc
  | .out m target =>
    rw [Checking.infer]
    exact h.outType target m.loc
  | .assign m target value =>
    rw [Checking.infer]
    apply h.seq (h.typed (infer value depth (hp.child List.mem_cons_self)))
    intro ty
    apply h.seq (h.bindingToAssign target m.loc)
    intro o
    cases o with
    | none => exact h.ret _
    | some i => exact h.seq (h.assign i m.loc ty) fun _ => h.ret ty
  | .opAssign m target op value =>
    rw [Checking.infer]
    apply h.seq (h.bindingToUpdate m target op)
    intro o
    cases o with
    | none => exact h.ret _
    | some i =>
      apply h.seq (h.read i)
      intro current
      apply h.seq (h.typed (infer value depth (hp.child List.mem_cons_self)))
      intro operand
      apply h.seq (h.callOn current)
      intro ty
      exact h.seq (h.assign i m.loc ty) fun _ => h.ret ty
  | .path m ref =>
    rw [Checking.infer]
    cases hty : c.env.classes.typeOf ref with
    | ok _ => exact h.ret _
    | error d => exact h.fail d.location (ClassTable.isOrdinary_typeOf _ ref hty)
  | .connect m op lhs rhs =>
    rw [Checking.infer]
    apply h.seq (h.typed (infer lhs depth (hp.child List.mem_cons_self)))
    intro left
    have hrhs : rhs ∈ (Expr.connect m op lhs rhs).looseChildren := by
      simp [Expr.looseChildren, Expr.children]
    exact h.seq (h.typed (infer rhs depth (hp.child hrhs))) fun right => h.ret _
  | .ite m cond thenBody elseBody =>
    rw [Checking.infer]
    have hthen : ∀ e ∈ thenBody, c.Permits K depth e := fun e he =>
      hp.child (by simp [Expr.looseChildren, Expr.children, he])
    have helse : ∀ e ∈ elseBody, c.Permits K depth e := fun e he =>
      hp.child (by simp [Expr.looseChildren, Expr.children, he])
    apply h.seq (h.typed (infer cond depth (hp.child List.mem_cons_self)))
    intro _
    apply h.seq (inferBody thenBody depth .nil hthen)
    intro thenTy
    exact h.seq (inferBody elseBody depth .nil helse) fun elseTy => h.ret _
  | .loop m cond body =>
    rw [Checking.infer]
    apply h.seq (h.typed (infer cond depth (hp.child List.mem_cons_self)))
    intro _
    exact h.seq (h.inLoop (inferBody body (depth + 1) .nil fun e _ => .inside e)) fun _ => h.ret _
  | .control m keyword =>
    rw [Checking.infer]
    cases depth with
    | succ depth => exact h.control keyword m.loc
    | zero => exact hp rfl m keyword .self
  | .call m none name args block parens =>
    rw [Checking.infer]
    have hargs : ∀ e ∈ args, c.Permits K depth e := fun e he =>
      hp.child (by simp [Expr.looseChildren, he])
    apply h.seq (inferArgs args depth hargs)
    intro given
    exact h.seq (inferBlock m.id block depth) fun _ => h.callOnSelf
  | .call m (some receiver) name args block parens =>
    have hreceiver : c.Permits K depth receiver := hp.child (by simp [Expr.looseChildren])
    have hargs : ∀ e ∈ args, c.Permits K depth e := fun e he =>
      hp.child (by simp [Expr.looseChildren, he])
    rw [Checking.infer]
    split
    · exact h.takePointer
    · cases c.env.receiverKind receiver with
      | ofClass ref =>
        simp only
        cases hty : c.env.classes.typeOf ref with
        | error d => exact h.fail d.location (ClassTable.isOrdinary_typeOf _ ref hty)
        | ok ty =>
          apply h.seq (h.noteType _ _)
          intro _
          apply h.seq (inferArgs args depth hargs)
          intro given
          exact h.seq (inferBlock m.id block depth) fun _ => h.callOnClass
      | ofLibrary library =>
        apply h.seq (h.noteType _ _)
        intro _
        cases library.find? name with
        | none => exact h.fail m.loc rfl
        | some function =>
          apply h.seq (inferNativeArgs args depth hargs)
          intro given
          exact h.seq (inferBlock m.id block depth) fun _ => h.callNative
      | value =>
        apply h.seq (h.typed (infer receiver depth hreceiver))
        intro self
        apply h.seq (inferArgs args depth hargs)
        intro given
        exact h.seq (inferBlock m.id block depth) fun _ => h.callOn self
termination_by structural e

theorem inferBody (es : List Expr) (depth : Nat) (last : Ty)
    (hp : ∀ e ∈ es, c.Permits K depth e) : K depth (c.inferBody last es) := by
  match es with
  | [] =>
    rw [Checking.inferBody]
    exact h.ret last
  | e :: es =>
    rw [Checking.inferBody]
    obtain ⟨he, hes⟩ := List.forall_mem_cons.mp hp
    exact h.seq (h.typed (infer e depth he)) fun ty => inferBody es depth ty hes
termination_by structural es

theorem inferArgs (es : List Expr) (depth : Nat) (hp : ∀ e ∈ es, c.Permits K depth e) :
    K depth (c.inferArgs es) := by
  match es with
  | [] =>
    rw [Checking.inferArgs]
    exact h.ret []
  | e :: es =>
    rw [Checking.inferArgs]
    obtain ⟨he, hes⟩ := List.forall_mem_cons.mp hp
    apply h.seq (h.typed (infer e depth he))
    intro ty
    exact h.seq (inferArgs es depth hes) fun tys => h.ret (ty :: tys)
termination_by structural es

theorem inferBlock (call : NodeId) (block : Option Block) (depth : Nat) :
    K depth (c.inferBlock call block) := by
  match block with
  | none =>
    rw [Checking.inferBlock]
    exact h.ret ()
  | some (.mk params body) =>
    rw [Checking.inferBlock]
    exact h.inBlock (inferBody body (depth + 1) .nil fun e _ => .inside e)
termination_by structural block

theorem inferNativeArgs (es : List Expr) (depth : Nat) (hp : ∀ e ∈ es, c.Permits K depth e) :
    K depth (c.inferNativeArgs es) := by
  match es with
  | [] =>
    rw [Checking.inferNativeArgs]
    exact h.ret []
  | e :: es =>
    rw [Checking.inferNativeArgs]
    obtain ⟨he, hes⟩ := List.forall_mem_cons.mp hp
    have hrest : ∀ arg : NativeArg, K depth (do return arg :: (← c.inferNativeArgs es)) :=
      fun arg => h.seq (inferNativeArgs es depth hes) fun given => h.ret (arg :: given)
    cases e.outTarget? with
    | some target => exact h.seq (h.typed (h.nativeOutType target e.loc)) fun ty => hrest ⟨ty, true⟩
    | none => exact h.seq (h.typed (infer e depth he)) fun ty => hrest ⟨ty, false⟩
termination_by structural es

end

/-! ### Bodies of methods and units -/

section

-- A parameter is declared whether or not a local of its name is visible.
variable (hbind : ∀ name, K 0 (c.bindLocal name))
include hbind

theorem bindParams (site : Location) (args : List Ty) (params : List Param)
    (hp : ∀ e ∈ params.flatMap Param.exprs, c.Permits K 0 e) :
    K 0 (c.bindParams site args params) := by
  induction params generalizing args with
  | nil =>
    rw [Checking.bindParams]
    exact h.ret ()
  | cons p ps ih =>
    rw [List.flatMap_cons] at hp
    obtain ⟨hfirst, hothers⟩ := List.forall_mem_append.mp hp
    have hrest : ∀ ty, K 0 (do
        let binding ← c.bindLocal p.name
        c.assign binding site ty
        c.bindParams site args.tail ps) := by
      intro ty
      apply h.seq (hbind p.name)
      intro i
      exact h.seq (h.assign i site ty) fun _ => ih args.tail hothers
    obtain ⟨name, restriction, default⟩ := p
    unfold Checking.bindParams
    cases args with
    | cons arg args => exact h.seq (h.ret arg) hrest
    | nil =>
      cases default with
      | none => exact h.seq (h.ret Ty.unresolved) hrest
      | some value =>
        have hvalue : c.Permits K 0 value := hfirst value (by simp [Param.exprs])
        exact h.seq (h.typed (h.infer value 0 hvalue)) hrest

theorem methodBody {d : Def} {args : List Ty} (hp : ∀ e ∈ d.exprs, c.Permits K 0 e) :
    K 0 (c.methodBody d args) := by
  rw [Def.exprs] at hp
  obtain ⟨hparams, hbody⟩ := List.forall_mem_append.mp hp
  apply h.seq (h.bindParams hbind d.loc args d.params hparams)
  intro _
  apply h.seq (h.inferBody d.body 0 .nil hbody)
  intro ty
  apply h.seq (h.bindingOf _)
  intro returned
  exact h.seq (h.assign returned d.loc ty) fun _ => h.ret ty

/-- The check of a unit has the property. -/
theorem unitBody (htop : ∀ e ∈ c.env.topLevel, c.Permits K 0 e)
    (hmethods : ∀ m ∈ c.env.methods.declared, ∀ e ∈ m.definition.exprs, c.Permits K 0 e)
    (key : Option Instantiation) : K 0 (c.unitBody key) := by
  cases key with
  | none => exact h.inferBody _ 0 .nil htop
  | some key =>
    unfold Checking.unitBody
    cases hm : c.env.methods.get? key.method with
    | none =>
      simp only [hm]
      exact h.ret _
    | some m =>
      simp only [hm]
      exact h.methodBody hbind (hmethods m (List.mem_of_getElem? hm))

end

end Pervasive

/-! ### Runs -/

namespace Engine

def KeepsUnits (I : List UnitRecord → Prop) (x : EngineM Unit) : Prop :=
  ∀ e e', I e.units → runEngine x e = (.ok (), e') → I e'.units

/-- Choosing the next unit changes none. -/
theorem units_of_nextUnit {e e' : Engine} {o : Option Pending}
    (hr : runEngine nextUnit e = (.ok o, e')) : e'.units = e.units := by
  cases chooses_iff.mpr hr <;> rfl

section

variable {env : Env} {I : List UnitRecord → Prop}
  (hcheck : ∀ (begin : Begin) (recheck : Bool),
    (∀ unit loc, KeepsUnits I (begin recheck unit loc)) →
    ∀ unit cause, KeepsUnits I (checkOnce env begin unit cause recheck))
include hcheck

theorem keeps_nestedBegin (depth : Nat) (recheck : Bool) (unit : UnitId) (loc : Location) :
    KeepsUnits I (nestedBegin env depth recheck unit loc) := by
  induction depth generalizing unit loc with
  | zero =>
    intro e e' h hr
    cases hr
    exact h
  | succ depth ih =>
    change KeepsUnits I (checkNested env depth unit (some loc) recheck)
    rw [checkNested_eq]
    exact hcheck _ _ ih unit (some loc)

theorem keeps_checkNested (depth : Nat) (unit : UnitId) (cause : Option Location)
    (recheck : Bool) : KeepsUnits I (checkNested env depth unit cause recheck) := by
  rw [checkNested_eq]
  exact hcheck _ _ (keeps_nestedBegin hcheck depth recheck) unit cause

theorem keeps_settle (rounds : Nat) : KeepsUnits I (settle env rounds) := by
  induction rounds with
  | zero =>
    intro e e' _ hr
    cases hr
  | succ rounds ih =>
    intro e e' h hr
    rcases settle_ok_cases hr with hnext | ⟨next, e₁, e₂, hnext, hrecheck, hrest⟩
    · rw [units_of_nextUnit hnext]
      exact h
    · rw [← units_of_nextUnit hnext] at h
      exact ih _ _ (keeps_checkNested hcheck _ _ _ _ _ _ h hrecheck) hrest

/-- What every check keeps holds of the units when the run has come to its end. -/
theorem keeps_final (hstart : I Engine.start.units) {e : Engine} (hr : final env = (.ok (), e)) :
    I e.units := by
  obtain ⟨e₁, hfirst, hsettle⟩ := exists_settle_of_runAll hr
  exact keeps_settle hcheck _ _ _ (keeps_checkNested hcheck _ _ _ _ _ _ hstart hfirst) hsettle

end

end Engine

end UnionTyping
