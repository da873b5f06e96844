/-
  UnionTyping/Proofs/Typing/Judgement.lean
  ========================================
  **What it means that an expression has a type.**

  A `Context` says which types a variable may hold, which variables are read and
  which instances of methods are entered.  Variables are told apart by their `Place`,
  which does not depend on the numbers that bindings and units have in a run.  In a
  context the types of expressions are given by rules, one for each form of expression
  (`Typing.Types`): what is read from a place covers all that the place may hold, what
  is assigned may be held by the place, and a call covers what each of its ways returns.

  The rules thread the names that are visible (`Outline`) through an expression, and
  every part of an expression has the type that is noted for it.  Nothing is run and no
  state is changed; a state of the engine gives a context (`Engine.context`).
-/
import UnionTyping.Proofs.Inference.Growth
import UnionTyping.Proofs.Ty.Cover
import UnionTyping.Proofs.Typing.Outline

namespace UnionTyping

/-! ### Contexts -/

/-- What a binding belongs to, named by the instance of its unit; the top level has no
    instance. -/
inductive Place where
  | local (key : Option Instantiation) (scope : Scope) (name : String)
  | ivar (owner : ClassId) (name : String)
  | returned (key : Instantiation)

/-- What there is in a run, or may be. -/
structure Context where
  entered : Instantiation → Prop
  /-- The types that a place may hold. -/
  holds : Place → Ty → Prop
  /-- What reading a place gives. -/
  reads : Place → Ty → Prop

namespace Context

variable (Γ : Context)

def Takes (p : Place) (t : Ty) : Prop := ∀ m ∈ t.members, Γ.holds p m

/-- Entering the candidate for these arguments gives at most the type. -/
def Gives (self : Option Ty) (args : List Ty) (t : Ty) : Candidate → Prop
  | .method entry => Γ.entered ⟨entry.id, self, args⟩ ∧
      ∃ u, Γ.reads (.returned ⟨entry.id, self, args⟩) u ∧ u.Within t
  | .primitive p => p.ret.Within t

end Context

/-! ### The context of a state -/

namespace Engine

variable (e : Engine)

/-- The unit of an instance; without instance the top level. -/
def unitAt : Option Instantiation → Option UnitId
  | none => some topUnit
  | some key => e.unitOf key

def slotAt : Place → Option Slot
  | .local key scope name => (e.unitAt key).map fun unit => .local unit scope name
  | .ivar owner name => some (.ivar owner name)
  | .returned key => (e.unitOf key).map .returned

def idAt (p : Place) : Option BindingId := (e.slotAt p).bind e.store.find

def bindingAt (p : Place) : Option Binding := (e.idAt p).bind (e.store.bindings[·]?)

def context : Context where
  entered key := ∃ unit, e.unitOf key = some unit
  holds p m := Ty.Proper m ∧ ∃ b, e.bindingAt p = some b ∧ b.current.Has m
  reads p t := t.Over Ty.Proper ∧ ∃ b, e.bindingAt p = some b ∧ b.readers ≠ [] ∧ b.current = t

end Engine

/-! ### Typing -/

def Expr.variable? : Expr → Option Target
  | ident _ name => some (.local name)
  | ivar _ name => some (.ivar name)
  | _ => none

theorem Expr.children_eq_nil_of_variable? {e : Expr} {target : Target}
    (h : e.variable? = some target) : e.children = [] := by
  cases e with
  | ident | ivar => rfl
  | _ => cases h

/-- A context with the declarations of a program, seen from one unit, and what is noted for
    nodes in it: their types and the ways in which they are called. -/
structure Typing where
  env : Env
  context : Context
  noted : NodeId → Option Ty
  called : NodeId → Resolution → Prop
  key : Option Instantiation

namespace Typing

variable (T : Typing)

def self : Option Ty := T.key.bind Instantiation.self

/-! ### Places of variables -/

/-- Only instances of reference classes have instance variables. -/
def ivarPlace? (name : String) : Option Place :=
  match T.self.bind T.env.classes.classOf with
  | none => none
  | some owner =>
    match T.env.classes.kindOf owner with
    | .value => none
    | .reference => some (.ivar owner name)

def place? (sc : Outline) : Target → Option Place
  | .local name => (sc.lookup name).map fun scope => .local T.key scope name
  | .ivar name => T.ivarPlace? name

/-- The place that an assignment writes, and what is visible after it. -/
def assigned? (sc : Outline) : Target → Option (Place × Outline)
  | .local name =>
    match sc.lookup name with
    | some scope => some (.local T.key scope name, sc)
    | none => some (.local T.key sc.owner name, sc.declare name)
  | .ivar name => (T.ivarPlace? name).map fun p => (p, sc)

/-! ### Calls -/

/-- A call among the candidates has at most the type.  It is not resolved while an argument
    has no type. -/
structure Answers (on : Option Ty) (candidates : List Candidate) (args : List Ty) (t : Ty) :
    Prop where
  arity : Overload.requireArity (candidates.map Candidate.signature) args.length = .ok ()
  chosen : args.any Ty.isUnresolved = false →
    ∀ as, List.Forall₂ (fun a t => a ∈ t.members) as args →
      ∃ i k, Overload.choose T.env.hierarchy
          (Overload.ranked (candidates.map Candidate.signature) args.length) as = some i ∧
        candidates[i]? = some k ∧ T.context.Gives on as t k

def AnswersOn (receiver : Ty) (name : String) (args : List Ty) (t : Ty) : Prop :=
  ∀ r ∈ receiver.members, T.env.candidates r name ≠ [] ∧
    T.Answers (some r) (T.env.candidates r name) args t

def AnswersTop (name : String) (args : List Ty) (t : Ty) : Prop :=
  T.env.methods.topLevel name ≠ [] ∧
    T.Answers none ((T.env.methods.topLevel name).map Candidate.method) args t

def AnswersSelf (name : String) (args : List Ty) (t : Ty) : Prop :=
  match T.self with
  | none => T.AnswersTop name args t
  | some self =>
    if T.env.candidates self name = [] then T.AnswersTop name args t
    else T.Answers (some self) (T.env.candidates self name) args t

def AnswersNew (ty : Ty) (args : List Ty) (t : Ty) : Prop :=
  t = ty ∧ ∃ id, T.env.classes.classOf ty = some id ∧
    let initializers := T.env.methods.lookup T.env.classes id "initialize"
    if initializers = [] then args = []
    else ∃ u, T.Answers (some ty) (initializers.map Candidate.method) args u

def AnswersClass (className : String) (ty : Ty) (name : String) (args : List Ty) (t : Ty) : Prop :=
  if name = "new" then T.AnswersNew ty args t
  else name = "malloc" ∧ className = "Pointer" ∧ ∃ head params p, ty = .con head params ∧
    Primitive.malloc head params = .ok p ∧ T.Answers (some ty) [.primitive p] args t

inductive Fills (T : Typing) : Outline → List (Expr × NativeParam) → Outline → Prop where
  | done (sc : Outline) : Fills T sc [] sc
  | fill {sc sc₁ sc' : Outline} {m : Mark} {target : Target} {param : NativeParam} {p : Place}
      {pairs : List (Expr × NativeParam)} (mode : param.mode = .out)
      (place : T.assigned? sc target = some (p, sc₁)) (takes : T.context.Takes p param.ty)
      (noted : T.noted m.id = some param.ty) (rest : Fills T sc₁ pairs sc') :
      Fills T sc ((.out m target, param) :: pairs) sc'
  | skip {sc sc' : Outline} {arg : Expr} {param : NativeParam} {pairs : List (Expr × NativeParam)}
      (kept : arg.outTarget? = none ∨ param.mode = .byValue) (rest : Fills T sc pairs sc') :
      Fills T sc ((arg, param) :: pairs) sc'

/-! ### Expressions -/

mutual

/-- In the context the expression has the type.  The outlines are those before and after
    it. -/
inductive Types (T : Typing) : Bool → Outline → Expr → Ty → Outline → Prop where
  | literal {inLoop sc m value} : Types T inLoop sc (.literal m value) value.ty sc
  | localVar {inLoop sc m name p t} (place : T.place? sc (.local name) = some p)
      (reads : T.context.reads p t) : Types T inLoop sc (.ident m name) t sc
  | name {inLoop sc m name t} (unknown : sc.lookup name = none)
      (called : ∃ call, T.called m.id call)
      (call : T.AnswersSelf name [] t) : Types T inLoop sc (.ident m name) t sc
  | ivar {inLoop sc m name p t} (place : T.ivarPlace? name = some p)
      (reads : T.context.reads p t) : Types T inLoop sc (.ivar m name) t sc
  | out {inLoop sc m target p t} (place : T.place? sc target = some p)
      (reads : T.context.reads p t) : Types T inLoop sc (.out m target) t sc
  | assign {inLoop sc sc₁ sc' m target value p t} (typed : Types T inLoop sc value t sc₁)
      (noted : T.noted value.id = some t) (place : T.assigned? sc₁ target = some (p, sc'))
      (takes : T.context.Takes p t) : Types T inLoop sc (.assign m target value) t sc'
  | opAssign {inLoop sc sc' m target op value p current operand t}
      (place : T.place? sc target = some p) (reads : T.context.reads p current)
      (typed : Types T inLoop sc value operand sc') (noted : T.noted value.id = some operand)
      (call : T.AnswersOn current op [operand] t) (takes : T.context.Takes p t) :
      Types T inLoop sc (.opAssign m target op value) t sc'
  | path {inLoop sc m ref ty} (written : T.env.classes.typeOf ref = .ok ty) :
      Types T inLoop sc (.path m ref) .classObject sc
  | connect {inLoop sc sc₁ sc' m op lhs rhs left right} (typedLeft : Types T inLoop sc lhs left sc₁)
      (notedLeft : T.noted lhs.id = some left) (typedRight : Types T inLoop sc₁ rhs right sc')
      (notedRight : T.noted rhs.id = some right) :
      Types T inLoop sc (.connect m op lhs rhs) (left.union right) sc'
  | ite {inLoop sc sc₁ sc₂ sc' m cond thenBody elseBody t ts us}
      (typed : Types T inLoop sc cond t sc₁) (noted : T.noted cond.id = some t)
      (typedThen : TypesAll T inLoop sc₁ thenBody ts sc₂)
      (typedElse : TypesAll T inLoop sc₂ elseBody us sc') :
      Types T inLoop sc (.ite m cond thenBody elseBody)
        ((ts.getLastD .nil).union (us.getLastD .nil)) sc'
  | loop {inLoop sc sc₁ sc' m cond body t ts} (typed : Types T inLoop sc cond t sc₁)
      (noted : T.noted cond.id = some t) (typedBody : TypesAll T true sc₁ body ts sc') :
      Types T inLoop sc (.loop m cond body) .nil sc'
  | control {sc m keyword} : Types T true sc (.control m keyword) .nil sc
  | callSelf {inLoop sc sc' m name args block parens ts t}
      (typedArgs : TypesAll T inLoop sc args ts sc')
      (typedBlock : TypesBlock T m.id sc' block) (call : T.AnswersSelf name ts t) :
      Types T inLoop sc (.call m none name args block parens) t sc'
  | pointer {inLoop sc m receiver target parens p t} (isVariable : receiver.variable? = some target)
      (place : T.place? sc target = some p) (reads : T.context.reads p t)
      (noted : T.noted receiver.id = some t) :
      Types T inLoop sc (.call m (some receiver) "ptr" [] none parens)
        (if t.isUnresolved then .unresolved else .pointer t) sc
  | callClass {inLoop sc sc' m receiver name args block parens ref ty ts t} (notPtr : name ≠ "ptr")
      (kind : T.env.receiverKind receiver = .ofClass ref)
      (written : T.env.classes.typeOf ref = .ok ty)
      (noted : T.noted receiver.id = some .classObject)
      (typedArgs : TypesAll T inLoop sc args ts sc') (typedBlock : TypesBlock T m.id sc' block)
      (call : T.AnswersClass ref.name ty name ts t) :
      Types T inLoop sc (.call m (some receiver) name args block parens) t sc'
  | callNative {inLoop sc sc₁ sc' m receiver name args block parens library f given verdict}
      (notPtr : name ≠ "ptr") (kind : T.env.receiverKind receiver = .ofLibrary library)
      (noted : T.noted receiver.id = some .classObject) (function : library.find? name = some f)
      (typedArgs : TypesNative T inLoop sc f.params args given sc₁)
      (typedBlock : TypesBlock T m.id sc₁ block)
      (fits : f.check T.env.hierarchy library.name given = .ok verdict)
      (fills : T.Fills sc₁ (args.zip f.params) sc') :
      Types T inLoop sc (.call m (some receiver) name args block parens) f.ret sc'
  | callValue {inLoop sc sc₁ sc' m receiver name args block parens self ts t}
      (notPtr : name ≠ "ptr")
      (kind : T.env.receiverKind receiver = .value) (typed : Types T inLoop sc receiver self sc₁)
      (noted : T.noted receiver.id = some self) (typedArgs : TypesAll T inLoop sc₁ args ts sc')
      (typedBlock : TypesBlock T m.id sc' block) (call : T.AnswersOn self name ts t) :
      Types T inLoop sc (.call m (some receiver) name args block parens) t sc'

/-- Several expressions one after the other; their types are noted. -/
inductive TypesAll (T : Typing) : Bool → Outline → List Expr → List Ty → Outline → Prop where
  | nil {inLoop sc} : TypesAll T inLoop sc [] [] sc
  | cons {inLoop sc sc₁ sc' e es t ts} (head : Types T inLoop sc e t sc₁)
      (noted : T.noted e.id = some t) (tail : TypesAll T inLoop sc₁ es ts sc') :
      TypesAll T inLoop sc (e :: es) (t :: ts) sc'

/-- The arguments of a native call.  What is noted for an `out` that the function assigns is
    noted when that happens. -/
inductive TypesNative (T : Typing) :
    Bool → Outline → List NativeParam → List Expr → List NativeArg → Outline → Prop where
  | nil {inLoop sc params} : TypesNative T inLoop sc params [] [] sc
  | out {inLoop sc sc' params m target es t given}
      (reads : ∀ p, T.place? sc target = some p → T.context.reads p t)
      (unknown : T.place? sc target = none → t = .unresolved ∧ ∃ name, target = .local name)
      (noted : (∀ param, params.head? = some param → param.mode = .byValue) →
        T.noted m.id = some t)
      (tail : TypesNative T inLoop sc params.tail es given sc') :
      TypesNative T inLoop sc params (.out m target :: es) (⟨t, true⟩ :: given) sc'
  | value {inLoop sc sc₁ sc' params e es t given} (notOut : e.outTarget? = none)
      (head : Types T inLoop sc e t sc₁) (noted : T.noted e.id = some t)
      (tail : TypesNative T inLoop sc₁ params.tail es given sc') :
      TypesNative T inLoop sc params (e :: es) (⟨t, false⟩ :: given) sc'

inductive TypesBlock (T : Typing) : NodeId → Outline → Option Block → Prop where
  | none {call sc} : TypesBlock T call sc none
  | some {call sc sc' params body ts}
      (typed : TypesAll T true ((sc.enter (.block call)).declareAll params) body ts sc') :
      TypesBlock T call sc (some (.mk params body))

end

/-! ### Units -/

inductive Params (T : Typing) : Outline → List Ty → List Param → Outline → Prop where
  | nil {sc args} : Params T sc args [] sc
  | given {sc sc' arg args p ps} (takes : T.context.Takes (.local T.key sc.owner p.name) arg)
      (rest : Params T (sc.declare p.name) args ps sc') : Params T sc (arg :: args) (p :: ps) sc'
  | default {sc sc₁ sc' p ps value t} (default : p.default = some value)
      (typed : T.Types false sc value t sc₁) (noted : T.noted value.id = some t)
      (takes : T.context.Takes (.local T.key sc₁.owner p.name) t)
      (rest : Params T (sc₁.declare p.name) [] ps sc') : Params T sc [] (p :: ps) sc'
  | missing {sc sc' p ps} (default : p.default = none)
      (rest : Params T (sc.declare p.name) [] ps sc') : Params T sc [] (p :: ps) sc'

def TypesUnit (t : Ty) : Prop :=
  match T.key with
  | none => ∃ ts sc, T.TypesAll false .empty T.env.topLevel ts sc ∧ t = ts.getLastD .nil
  | some key =>
    match T.env.methods.get? key.method with
    | none => True
    | some m => ∃ sc ts sc', T.Params .empty key.args m.definition.params sc ∧
        T.TypesAll false sc m.definition.body ts sc' ∧ t = ts.getLastD .nil ∧
        T.context.Takes (.returned key) t

end Typing

end UnionTyping
