/-
  UnionTyping/Proofs/Inference/Parallel.lean
  ==========================================
  **Two checks of expressions that differ in their numbers.**

  The numbers of nodes and methods play no part in what a check does, apart from the
  scopes that blocks open and the instances that are entered.  Two checks whose
  environments differ by a `Renaming` (`Env.Renamed`) therefore make the same steps one
  after the other.  If a relation `P` between steps is kept by sequencing and holds of
  the few steps that touch the state (`Parallel`), it holds of the checks of an expression
  and of the renamed expression (`Parallel.infer`) and of whole units
  (`Parallel.unitBody`).

  Problems, assignments and new instances take the location at which they come up.  All
  these satisfy `L` when the locations in the expressions do.  A property of one check is
  the case in which nothing is renamed and both sides are that check.
-/
import UnionTyping.Proofs.Inference.Declarations
import UnionTyping.Proofs.Inference.Runs
import UnionTyping.Proofs.Syntax.Places
import UnionTyping.Proofs.Syntax.Renaming

namespace UnionTyping

/-! ### Environments that differ in their numbers -/

/-- Other numbers for the nodes and the methods of a program. -/
structure Renaming where
  node : NodeId → NodeId
  method : MethodId → MethodId

def Renaming.same : Renaming := ⟨fun n => n, fun id => id⟩

def MethodEntry.rename (ρ : Renaming) (entry : MethodEntry) : MethodEntry :=
  ⟨ρ.method entry.id, entry.method.rename ρ.node⟩

def Candidate.rename (ρ : Renaming) : Candidate → Candidate
  | .method entry => .method (entry.rename ρ)
  | .primitive p => .primitive p

def Instantiation.rename (ρ : Renaming) (key : Instantiation) : Instantiation :=
  { key with method := ρ.method key.method }

theorem MethodEntry.rename_same (entry : MethodEntry) : entry.rename .same = entry := by
  obtain ⟨id, m⟩ := entry
  exact congrArg (MethodEntry.mk id) m.rename_id

theorem Candidate.signature_rename (ρ : Renaming) (k : Candidate) :
    (k.rename ρ).signature = k.signature := by
  cases k <;> rfl

/-- The second environment is the first with other numbers. -/
structure Env.Renamed (env : Env) (ρ : Renaming) (env' : Env) : Prop where
  classes : env'.classes = env.classes
  hierarchy : env'.hierarchy = env.hierarchy
  libraries : env'.libraries = env.libraries
  ownedBy : ∀ owner name,
    env'.methods.ownedBy owner name = (env.methods.ownedBy owner name).map (·.rename ρ)
  get? : ∀ id, env'.methods.get? (ρ.method id) = (env.methods.get? id).map (·.rename ρ.node)
  topLevel : env'.topLevel = Expr.renameAll ρ.node env.topLevel

theorem Methods.addUnhidden_map (ρ : Renaming) (found es : List MethodEntry) :
    addUnhidden (found.map (·.rename ρ)) (es.map (·.rename ρ)) =
      (addUnhidden found es).map (·.rename ρ) := by
  induction es generalizing found with
  | nil => rfl
  | cons e es ih =>
    have hhidden : (found.map (·.rename ρ)).any
        (·.method.signature == (e.rename ρ).method.signature) =
        found.any (·.method.signature == e.method.signature) := by
      rw [List.any_map]
      rfl
    rw [List.map_cons, addUnhidden, addUnhidden, hhidden, ← ih]
    congr 1
    split
    · rfl
    · rw [List.map_append]
      rfl

namespace Env.Renamed

variable {env env' : Env} {ρ : Renaming}

theorem refl (env : Env) : env.Renamed .same env where
  classes := rfl
  hierarchy := rfl
  libraries := rfl
  ownedBy := fun owner name => by simp only [MethodEntry.rename_same, List.map_id']
  get? := fun id => by
    simp only [Renaming.same, Method.rename_id, Option.map_id']
  topLevel := (Expr.renameAll_id _).symm

variable (h : env.Renamed ρ env')
include h

theorem lookup (id : ClassId) (name : String) :
    env'.methods.lookup env.classes id name =
      (env.methods.lookup env.classes id name).map (·.rename ρ) := by
  have hfold : ∀ (ancestors : List ClassId) (found : List MethodEntry),
      ancestors.foldl (fun found ancestor =>
          Methods.addUnhidden found (env'.methods.ownedBy (.ofClass ancestor) name))
        (found.map (·.rename ρ)) =
      (ancestors.foldl (fun found ancestor =>
          Methods.addUnhidden found (env.methods.ownedBy (.ofClass ancestor) name))
        found).map (·.rename ρ) := by
    intro ancestors
    induction ancestors with
    | nil => exact fun _ => rfl
    | cons a ancestors ih =>
      intro found
      rw [List.foldl_cons, List.foldl_cons, h.ownedBy, Methods.addUnhidden_map, ih]
  exact hfold _ []

theorem topLevelMethods (name : String) :
    (env'.methods.topLevel name).map Candidate.method =
      ((env.methods.topLevel name).map Candidate.method).map (·.rename ρ) := by
  rw [Methods.topLevel, h.ownedBy, List.map_map, List.map_map]
  rfl

theorem initializers (id : ClassId) (name : String) :
    (env'.methods.lookup env.classes id name).map Candidate.method =
      ((env.methods.lookup env.classes id name).map Candidate.method).map (·.rename ρ) := by
  rw [h.lookup, List.map_map, List.map_map]
  rfl

theorem candidates (member : Ty) (name : String) :
    env'.candidates member name = (env.candidates member name).map (·.rename ρ) := by
  unfold Env.candidates
  rw [h.classes]
  cases member with
  | con className args =>
    have hprimitives : (Primitive.on className args name).map Candidate.primitive =
        ((Primitive.on className args name).map Candidate.primitive).map (·.rename ρ) := by
      rw [List.map_map]
      rfl
    simp only [List.map_append, ← hprimitives]
    cases env.classes.lookup className with
    | none => rfl
    | some id => exact congrArg (· ++ _) (h.initializers id name)
  | unresolved => rfl
  | oneOf ms => rfl

theorem receiverKind (e : Expr) : env'.receiverKind (e.rename ρ.node) = env.receiverKind e := by
  cases e with
  | path m ref =>
    simp only [Expr.rename, Env.receiverKind, h.classes, h.libraries]
  | call m receiver name args block parens =>
    cases receiver <;> rcases block with _ | ⟨params, body⟩ <;> rfl
  | _ => rfl

end Env.Renamed

theorem Expr.outTarget?_rename (f : NodeId → NodeId) (e : Expr) :
    (e.rename f).outTarget? = e.outTarget? := by
  cases e with
  | call m receiver name args block parens =>
    cases receiver <;> rcases block with _ | ⟨params, body⟩ <;> rfl
  | _ => rfl

/-! ### Where things come up -/

def Expr.StandAt (L : Location → Prop) (nodes : List Expr) : Prop :=
  ∀ n ∈ nodes, ∀ l ∈ n.ownLocations, L l

structure Env.StandAt (env : Env) (L : Location → Prop) : Prop where
  topLevel : Expr.StandAt L (Expr.nodesOf env.topLevel)
  methods : ∀ m ∈ env.methods.declared,
    L m.definition.loc ∧ Expr.StandAt L (Expr.nodesOf m.definition.exprs)

theorem Env.standAt_any (env : Env) : env.StandAt fun _ => True where
  topLevel := fun _ _ _ _ => trivial
  methods := fun _ _ => ⟨trivial, fun _ _ _ _ => trivial⟩

theorem Expr.StandAt.loc {L : Location → Prop} {e : Expr} (h : Expr.StandAt L e.nodes) : L e.loc :=
  (forall_nodes.mp h).1 _ e.loc_mem_ownLocations

def Problem.isDeclarative : Problem → Bool
  | uninitializedConstant _ | superclassMismatch .. | wrongTypeArgumentCount .. => true
  | _ => false

namespace TypeRef

mutual

theorem locations_eq (r : TypeRef) : r.locations = r.nodes.map loc := by
  match r with
  | .mk name args l => rw [locations, nodes, List.map_cons, locationsOf_eq args]; rfl
termination_by structural r

theorem locationsOf_eq (rs : List TypeRef) : locationsOf rs = (nodesOf rs).map loc := by
  match rs with
  | [] => rfl
  | r :: rs => rw [locationsOf, nodesOf, List.map_append, locations_eq r, locationsOf_eq rs]
termination_by structural rs

end

end TypeRef

namespace ClassTable

/-- What is wrong with a written type is wrong at a place in it. -/
theorem location_of_typeOf (t : ClassTable) (ref : TypeRef) {d : Diagnostic}
    (h : t.typeOf ref = .error d) :
    d.location ∈ ref.locations ∧ d.related = none ∧ d.problem.isDeclarative = true := by
  obtain ⟨before, n, after, problem, hnodes, -, hflaw, rfl⟩ := typeOf_eq_error_iff.mp h
  have hn : n ∈ ref.nodes := by
    rw [hnodes]
    exact List.mem_append_right _ List.mem_cons_self
  refine ⟨?_, rfl, ?_⟩
  · rw [TypeRef.locations_eq]
    exact List.mem_map_of_mem hn
  · cases hflaw <;> rfl

end ClassTable

/-! ### Steps side by side -/

/-- Two checks whose steps are related by `P`.  Relations between results stand in front;
    most of them are equality. -/
structure Parallel (c c' : Checking) (ρ : Renaming) (L : Location → Prop)
    (P : ∀ {α β : Type}, (α → β → Prop) → WalkM α → WalkM β → Prop) : Prop where
  env : c.env.Renamed ρ c'.env
  self : c'.self = c.self
  ret : ∀ {α β : Type} {Q : α → β → Prop} {a b}, Q a b → P Q (pure a) (pure b)
  seq : ∀ {α β γ δ : Type} {Q : α → β → Prop} {S : γ → δ → Prop} {x y} {f : α → WalkM γ}
    {g : β → WalkM δ}, P Q x y → (∀ a b, Q a b → P S (f a) (g b)) → P S (x >>= f) (y >>= g)
  lookup : ∀ {name}, P Eq (Checking.lookup name) (Checking.lookup name)
  enter : ∀ {call}, P (fun (_ _ : Unit) => True)
    (WalkM.change fun walk => { walk with scopes := walk.scopes.enter (.block call) })
    (WalkM.change fun walk => { walk with scopes := walk.scopes.enter (.block (ρ.node call)) })
  leave : P (fun (_ _ : Unit) => True)
    (WalkM.change fun walk => { walk with scopes := walk.scopes.leave })
    (WalkM.change fun walk => { walk with scopes := walk.scopes.leave })
  loopDepth : P Eq Checking.loopDepth Checking.loopDepth
  deepen : P (fun (_ _ : Unit) => True)
    (WalkM.change fun walk => { walk with loopDepth := walk.loopDepth + 1 })
    (WalkM.change fun walk => { walk with loopDepth := walk.loopDepth + 1 })
  surface : P (fun (_ _ : Unit) => True)
    (WalkM.change fun walk => { walk with loopDepth := walk.loopDepth - 1 })
    (WalkM.change fun walk => { walk with loopDepth := walk.loopDepth - 1 })
  fail : ∀ {problem loc}, L loc → P Eq (c.fail problem loc) (c'.fail problem loc)
  noteType : ∀ {node node' ty}, P (fun _ _ => True) (Checking.noteType node ty)
    (Checking.noteType node' ty)
  noteCall : ∀ {node node' call call'}, P (fun _ _ => True) (Checking.noteCall node call)
    (Checking.noteCall node' call')
  bindLocal : ∀ {name}, P Eq (c.bindLocal name) (c'.bindLocal name)
  ivarBinding : ∀ {owner name},
    P Eq (Checking.bindingOf (.ivar owner name)) (Checking.bindingOf (.ivar owner name))
  returnedBinding :
    P Eq (Checking.bindingOf (.returned c.unit)) (Checking.bindingOf (.returned c'.unit))
  read : ∀ {i}, P Eq (c.read i) (c'.read i)
  assign : ∀ {i site ty}, L site → P (fun _ _ => True) (c.assign i site ty) (c'.assign i site ty)
  instanceOf : ∀ {site method self args}, L site → P Eq (c.instanceOf site method self args)
    (c'.instanceOf site (ρ.method method) self args)

namespace Parallel

variable {c c' : Checking} {ρ : Renaming} {L : Location → Prop}
  {P : ∀ {α β : Type}, (α → β → Prop) → WalkM α → WalkM β → Prop}

variable (h : Parallel c c' ρ L P)
include h

/-- Steps that give the same result, and what follows them. -/
theorem next {α γ δ : Type} {S : γ → δ → Prop} {x y : WalkM α} {f : α → WalkM γ} {g : α → WalkM δ}
    (hx : P Eq x y) (hf : ∀ a, P S (f a) (g a)) : P S (x >>= f) (y >>= g) :=
  h.seq hx fun a _ hab => hab ▸ hf a

theorem typed {node node' : NodeId} {x y : WalkM Ty} (hx : P Eq x y) :
    P Eq (Checking.typed node x) (Checking.typed node' y) :=
  h.next hx fun _ => h.seq h.noteType fun _ _ _ => h.ret rfl

theorem failNone {α : Type} {problem : Problem} {loc : Location} (hl : L loc) :
    P Eq (do let _ ← c.fail problem loc; pure (none : Option α))
      (do let _ ← c'.fail problem loc; pure none) :=
  h.next (h.fail hl) fun _ => h.ret rfl

/-! ### Variables -/

theorem ivarOf {name : String} {loc : Location} (hl : L loc) :
    P Eq (c.ivarOf name loc) (c'.ivarOf name loc) := by
  unfold Checking.ivarOf
  rw [h.self, h.env.classes]
  cases c.self.bind c.env.classes.classOf with
  | none => exact h.failNone hl
  | some owner =>
    simp only
    cases c.env.classes.kindOf owner with
    | value => exact h.failNone hl
    | reference => exact h.next h.ivarBinding fun _ => h.ret rfl

theorem readIvar {name : String} {loc : Location} (hl : L loc) :
    P Eq (c.readIvar name loc) (c'.readIvar name loc) :=
  h.next (h.ivarOf hl) fun o => by
    cases o with
    | none => exact h.ret rfl
    | some binding => exact h.read

theorem bindingToAssign {target : Target} {loc : Location} (hl : L loc) :
    P Eq (c.bindingToAssign target loc) (c'.bindingToAssign target loc) := by
  cases target with
  | «local» name =>
    refine h.next h.lookup fun o => ?_
    cases o with
    | none => exact h.next h.bindLocal fun _ => h.ret rfl
    | some binding => exact h.ret rfl
  | ivar name => exact h.ivarOf hl

theorem bindingToUpdate {mark mark' : Mark} {target : Target} {op : String} (hl : L mark.loc)
    (hloc : mark'.loc = mark.loc) :
    P Eq (c.bindingToUpdate mark target op) (c'.bindingToUpdate mark' target op) := by
  unfold Checking.bindingToUpdate
  rw [hloc]
  cases target with
  | «local» name =>
    refine h.next h.lookup fun o => ?_
    cases o with
    | none => exact h.failNone hl
    | some binding => exact h.ret rfl
  | ivar name => exact h.ivarOf hl

theorem assigned {i : BindingId} {ty : Ty} {loc : Location} (hl : L loc) :
    P Eq (do c.assign i loc ty; return ty) (do c'.assign i loc ty; return ty) :=
  h.seq (h.assign hl) fun _ _ _ => h.ret rfl

theorem outType {target : Target} {loc : Location} (hl : L loc) :
    P Eq (c.outType target loc) (c'.outType target loc) := by
  cases target with
  | «local» name =>
    refine h.next h.lookup fun o => ?_
    cases o with
    | none => exact h.fail hl
    | some binding => exact h.read
  | ivar name => exact h.readIvar hl

theorem nativeOutType {target : Target} {loc : Location} (hl : L loc) :
    P Eq (c.nativeOutType target loc) (c'.nativeOutType target loc) := by
  cases target with
  | «local» name =>
    refine h.next h.lookup fun o => ?_
    cases o with
    | none => exact h.ret rfl
    | some binding => exact h.read
  | ivar name => exact h.readIvar hl

theorem bindLocals (names : List String) :
    P (fun _ _ => True) (c.bindLocals names) (c'.bindLocals names) := by
  induction names with
  | nil => exact h.ret trivial
  | cons name names ih => exact h.next h.bindLocal fun _ => ih

theorem inLoop {x y : WalkM Ty} (hx : P Eq x y) :
    P Eq (Checking.inLoop x) (Checking.inLoop y) := by
  refine h.seq h.deepen fun _ _ _ => ?_
  refine h.next hx fun _ => ?_
  exact h.seq h.surface fun _ _ _ => h.ret rfl

theorem inBlock {call : NodeId} {params : List String} {x y : WalkM Ty} (hx : P Eq x y) :
    P (fun _ _ => True) (c.inBlock call params x) (c'.inBlock (ρ.node call) params y) := by
  refine h.seq h.enter fun _ _ _ => ?_
  refine h.seq (h.bindLocals params) fun _ _ _ => ?_
  exact h.next (h.inLoop hx) fun _ => h.leave

theorem loopControl {keyword : LoopControl} {loc : Location} (hl : L loc) :
    P Eq (c.loopControl keyword loc) (c'.loopControl keyword loc) := by
  refine h.next h.loopDepth fun depth => ?_
  split
  · exact h.fail hl
  · exact h.ret rfl

/-! ### Calls -/

theorem enterOne {site : Location} {self : Option Ty} {name : String} {args : List Ty}
    (hl : L site) (k : Candidate) :
    P (fun a b => a.1 = b.1) (c.enter site self name args k)
      (c'.enter site self name args (k.rename ρ)) := by
  cases k with
  | method entry => exact h.next (h.instanceOf hl) fun _ => h.ret rfl
  | primitive p => exact h.ret rfl

theorem enterAll {mark mark' : Mark} {self : Option Ty} {name : String}
    {candidates : List Candidate} {result : Ty} (found : List Overload.Match) (hl : L mark.loc)
    (hloc : mark'.loc = mark.loc) :
    P Eq (c.enterAll mark self name candidates result found)
      (c'.enterAll mark' self name (candidates.map (·.rename ρ)) result found) := by
  induction found generalizing result with
  | nil => exact h.ret rfl
  | cons m rest ih =>
    rw [Checking.enterAll, Checking.enterAll, List.getElem?_map, hloc]
    cases candidates[m.candidate]? with
    | none => exact ih
    | some k =>
      refine h.seq (h.enterOne hl k) fun a b hab => ?_
      obtain ⟨ty, target⟩ := a
      obtain ⟨_, target'⟩ := b
      cases hab
      exact h.seq h.noteCall fun _ _ _ => ih

theorem callAmong {mark mark' : Mark} {self : Option Ty} {name : String}
    {candidates : List Candidate} {args : List Ty} (hl : L mark.loc) (hloc : mark'.loc = mark.loc) :
    P Eq (c.callAmong mark self name candidates args)
      (c'.callAmong mark' self name (candidates.map (·.rename ρ)) args) := by
  have hsignatures : (candidates.map (·.rename ρ)).map Candidate.signature =
      candidates.map Candidate.signature := by
    rw [List.map_map]
    exact List.map_congr_left fun k _ => k.signature_rename ρ
  unfold Checking.callAmong
  simp only [hsignatures, h.env.hierarchy, hloc]
  cases Overload.requireArity (candidates.map Candidate.signature) args.length with
  | error failure => exact h.failNone hl
  | ok _ =>
    simp only
    split
    · exact h.ret rfl
    · cases Overload.resolve c.env.hierarchy (candidates.map Candidate.signature) args with
      | error failure => exact h.failNone hl
      | ok found => exact h.next (h.enterAll found hl hloc) fun _ => h.ret rfl

theorem callOnEach {mark mark' : Mark} {name : String} {args : List Ty} {result : Ty}
    (receivers : List Ty) (hl : L mark.loc) (hloc : mark'.loc = mark.loc) :
    P Eq (c.callOnEach mark name args result receivers)
      (c'.callOnEach mark' name args result receivers) := by
  induction receivers generalizing result with
  | nil => exact h.ret rfl
  | cons r rest ih =>
    rw [Checking.callOnEach, Checking.callOnEach, h.env.candidates, hloc]
    simp only [List.isEmpty_map]
    split
    · exact h.fail hl
    · refine h.next (h.callAmong hl hloc) fun o => ?_
      cases o with
      | none => exact h.ret rfl
      | some ty => exact ih

theorem callOn {mark mark' : Mark} {receiver : Ty} {name : String} {args : List Ty}
    (hl : L mark.loc) (hloc : mark'.loc = mark.loc) :
    P Eq (c.callOn mark receiver name args) (c'.callOn mark' receiver name args) :=
  h.callOnEach receiver.members hl hloc

/-- A call among candidates that has no type when it fails. -/
theorem onCandidates (candidates : List Candidate) {mark mark' : Mark} {self : Option Ty}
    {name : String} {args : List Ty} (hl : L mark.loc) (hloc : mark'.loc = mark.loc) :
    P Eq (do return (← c.callAmong mark self name candidates args).getD .unresolved)
      (do
        let ty ← c'.callAmong mark' self name (candidates.map (·.rename ρ)) args
        return ty.getD .unresolved) :=
  h.next (h.callAmong hl hloc) fun _ => h.ret rfl

theorem callTopLevel {mark mark' : Mark} {name : String} {args : List Ty} {bare : Bool}
    (hl : L mark.loc) (hloc : mark'.loc = mark.loc) :
    P Eq (c.callTopLevel mark name args bare) (c'.callTopLevel mark' name args bare) := by
  unfold Checking.callTopLevel
  rw [h.env.topLevelMethods]
  simp only [List.isEmpty_map, hloc]
  split
  · exact h.fail hl
  · exact h.onCandidates _ hl hloc

theorem callOnSelf {mark mark' : Mark} {name : String} {args : List Ty} {bare : Bool}
    (hl : L mark.loc) (hloc : mark'.loc = mark.loc) :
    P Eq (c.callOnSelf mark name args bare) (c'.callOnSelf mark' name args bare) := by
  unfold Checking.callOnSelf
  rw [h.self]
  cases c.self with
  | none => exact h.callTopLevel hl hloc
  | some self =>
    simp only [h.env.candidates, List.isEmpty_map]
    split
    · exact h.callTopLevel hl hloc
    · exact h.onCandidates _ hl hloc

theorem callNew {mark mark' : Mark} {ty : Ty} {args : List Ty} (hl : L mark.loc)
    (hloc : mark'.loc = mark.loc) :
    P Eq (c.callNew mark ty args) (c'.callNew mark' ty args) := by
  have hallocated : ∀ call, P Eq
      (do Checking.noteCall mark.id call; return ty)
      (do Checking.noteCall mark'.id call; return ty) := fun _ =>
    h.seq h.noteCall fun _ _ _ => h.ret rfl
  unfold Checking.callNew
  rw [h.env.classes]
  cases c.env.classes.classOf ty with
  | none => exact h.ret rfl
  | some id =>
    simp only [h.env.initializers, List.isEmpty_map, hloc]
    split
    · exact h.fail hl
    · split
      · exact h.next (h.ret rfl) fun o => by
          cases o with
          | none => exact h.ret rfl
          | some _ => exact hallocated _
      · exact h.next (h.callAmong hl hloc) fun o => by
          cases o with
          | none => exact h.ret rfl
          | some _ => exact hallocated _

theorem callMalloc {mark mark' : Mark} {ty : Ty} {args : List Ty} (hl : L mark.loc)
    (hloc : mark'.loc = mark.loc) :
    P Eq (c.callMalloc mark ty args) (c'.callMalloc mark' ty args) := by
  cases ty with
  | unresolved => exact h.ret rfl
  | oneOf ms => exact h.ret rfl
  | con className params =>
    unfold Checking.callMalloc
    simp only [hloc]
    cases Primitive.malloc className params with
    | error problem => exact h.fail hl
    | ok p => exact h.onCandidates [.primitive p] hl hloc

theorem callOnClass {mark mark' : Mark} {className name : String} {ty : Ty} {args : List Ty}
    (hl : L mark.loc) (hloc : mark'.loc = mark.loc) :
    P Eq (c.callOnClass mark className ty name args)
      (c'.callOnClass mark' className ty name args) := by
  unfold Checking.callOnClass
  split
  · exact h.callNew hl hloc
  · split
    · exact h.callMalloc hl hloc
    · rw [hloc]
      exact h.fail hl

theorem pointerTo {mark mark' : Mark} {receiver receiver' : NodeId} {given : Nat} {hasBlock : Bool}
    {i : BindingId} (hl : L mark.loc) (hloc : mark'.loc = mark.loc) :
    P Eq (c.pointerTo mark receiver given hasBlock i)
      (c'.pointerTo mark' receiver' given hasBlock i) := by
  unfold Checking.pointerTo
  rw [hloc]
  split
  · exact h.fail hl
  · split
    · exact h.fail hl
    · refine h.next h.read fun t => ?_
      refine h.seq h.noteType fun _ _ _ => ?_
      cases t.isUnresolved with
      | true => exact h.ret rfl
      | false => exact h.seq h.noteCall fun _ _ _ => h.ret rfl

theorem takePointer {mark mark' : Mark} {receiver : Expr} {given : Nat} {hasBlock : Bool}
    (hl : L mark.loc) (hloc : mark'.loc = mark.loc) (hreceiver : L receiver.loc) :
    P Eq (c.takePointer mark receiver given hasBlock)
      (c'.takePointer mark' (receiver.rename ρ.node) given hasBlock) := by
  cases hvariable : receiver.isVariable with
  | false =>
    rw [Checking.takePointer_other _ _ _ _ _ hvariable,
      Checking.takePointer_other _ _ _ _ _ (by rw [Expr.isVariable_rename, hvariable]), hloc]
    exact h.next (h.fail hl) fun _ => h.ret rfl
  | true =>
    cases receiver with
    | ident m name =>
      rw [Expr.rename, Checking.takePointer_ident, Checking.takePointer_ident, hloc]
      refine h.next h.lookup fun o => ?_
      cases o with
      | none => exact h.next (h.fail hl) fun _ => h.ret rfl
      | some binding => exact h.pointerTo hl hloc
    | ivar m name =>
      rw [Expr.rename, Checking.takePointer_ivar, Checking.takePointer_ivar]
      refine h.next (h.ivarOf hreceiver) fun o => ?_
      cases o with
      | none => exact h.ret rfl
      | some binding => exact h.pointerTo hl hloc
    | _ => cases hvariable

theorem assignOuts {args : List Expr} (params : List NativeParam) (hl : ∀ e ∈ args, L e.loc) :
    P (fun _ _ => True) (c.assignOuts (args.zip params))
      (c'.assignOuts ((Expr.renameAll ρ.node args).zip params)) := by
  induction args generalizing params with
  | nil => exact h.ret trivial
  | cons arg args ih =>
    cases params with
    | nil => exact h.ret trivial
    | cons param params =>
      obtain ⟨harg, hargs⟩ := List.forall_mem_cons.mp hl
      have hrest := ih params hargs
      rw [Expr.renameAll, List.zip_cons_cons, List.zip_cons_cons]
      cases hout : arg.outTarget? with
      | none =>
        have hskip : ∀ (d : Checking) (e : Expr) (pairs : List (Expr × NativeParam)),
            e.outTarget? = none → d.assignOuts ((e, param) :: pairs) = d.assignOuts pairs := by
          intro d e pairs he
          cases e with
          | out m target => cases he
          | _ => rfl
        rw [hskip c arg _ hout, hskip c' _ _ (by rw [Expr.outTarget?_rename, hout])]
        exact hrest
      | some target =>
        obtain ⟨m, rfl⟩ := Expr.outTarget?_eq_some hout
        obtain ⟨pname, ty, mode⟩ := param
        simp only [Expr.rename, Checking.assignOuts]
        cases mode with
        | byValue => exact hrest
        | out =>
          refine h.next (h.bindingToAssign harg) fun o => ?_
          cases o with
          | none => exact h.seq h.noteType fun _ _ _ => hrest
          | some binding =>
            refine h.seq (h.assign harg) fun _ _ _ => ?_
            exact h.seq h.noteType fun _ _ _ => hrest

theorem callNative {mark mark' : Mark} {lib : String} {f : NativeFunction} {args : List Expr}
    {given : List NativeArg} (hl : L mark.loc) (hloc : mark'.loc = mark.loc)
    (hargs : ∀ e ∈ args, L e.loc) :
    P Eq (c.callNative mark lib f args given)
      (c'.callNative mark' lib f (Expr.renameAll ρ.node args) given) := by
  unfold Checking.callNative
  rw [h.env.hierarchy, hloc]
  cases f.check c.env.hierarchy lib given with
  | error problem => exact h.fail hl
  | ok _ =>
    refine h.seq (h.assignOuts f.params hargs) fun _ _ _ => ?_
    exact h.seq h.noteCall fun _ _ _ => h.ret rfl

/-! ### Expressions -/

/-- A written type that is not one is reported inside it. -/
theorem failAt {ref : TypeRef} {d : Diagnostic} (hd : c.env.classes.typeOf ref = .error d)
    (href : ∀ l ∈ ref.locations, L l) :
    P Eq (c.fail d.problem d.location) (c'.fail d.problem d.location) :=
  h.fail (href _ (ClassTable.location_of_typeOf _ ref hd).1)

mutual

/-- The checks of an expression and of the renamed expression. -/
theorem infer (e : Expr) (hv : Expr.StandAt L e.nodes) :
    P Eq (c.infer e) (c'.infer (e.rename ρ.node)) := by
  have hl := hv.loc
  have hkids := (Expr.forall_nodes.mp hv).2
  match e with
  | .literal m value =>
    rw [Expr.rename, Checking.infer, Checking.infer]
    exact h.ret rfl
  | .ident m name =>
    rw [Expr.rename, Checking.infer, Checking.infer]
    refine h.next h.lookup fun o => ?_
    cases o with
    | none => exact h.callOnSelf hl rfl
    | some binding => exact h.read
  | .ivar m name =>
    rw [Expr.rename, Checking.infer, Checking.infer]
    exact h.readIvar hl
  | .out m target =>
    rw [Expr.rename, Checking.infer, Checking.infer]
    exact h.outType hl
  | .assign m target value =>
    rw [Expr.rename, Checking.infer, Checking.infer]
    have hvalue := (Expr.forall_nodesOf_cons.mp hkids).1
    refine h.next (h.typed (infer value hvalue)) fun ty => ?_
    refine h.next (h.bindingToAssign hl) fun o => ?_
    cases o with
    | none => exact h.ret rfl
    | some binding => exact h.assigned hl
  | .opAssign m target op value =>
    rw [Expr.rename, Checking.infer, Checking.infer]
    have hvalue := (Expr.forall_nodesOf_cons.mp hkids).1
    refine h.next (h.bindingToUpdate hl rfl) fun o => ?_
    cases o with
    | none => exact h.ret rfl
    | some binding =>
      refine h.next h.read fun current => ?_
      refine h.next (h.typed (infer value hvalue)) fun operand => ?_
      exact h.next (h.callOn hl rfl) fun ty => h.assigned hl
  | .path m ref =>
    rw [Expr.rename, Checking.infer, Checking.infer, h.env.classes]
    have href : ∀ l ∈ ref.locations, L l := fun l hmem =>
      (Expr.forall_nodes.mp hv).1 l (List.mem_cons_of_mem _ hmem)
    cases hty : c.env.classes.typeOf ref with
    | ok _ => exact h.ret rfl
    | error d => exact h.failAt hty href
  | .connect m op lhs rhs =>
    rw [Expr.rename, Checking.infer, Checking.infer]
    obtain ⟨hlhs, hrest⟩ := Expr.forall_nodesOf_cons.mp hkids
    have hrhs := (Expr.forall_nodesOf_cons.mp hrest).1
    refine h.next (h.typed (infer lhs hlhs)) fun left => ?_
    exact h.next (h.typed (infer rhs hrhs)) fun right => h.ret rfl
  | .ite m cond thenBody elseBody =>
    rw [Expr.rename, Checking.infer, Checking.infer]
    simp only [Expr.children, List.cons_append] at hkids
    obtain ⟨hcond, hbodies⟩ := Expr.forall_nodesOf_cons.mp hkids
    obtain ⟨hthen, helse⟩ := Expr.forall_nodesOf_append.mp hbodies
    refine h.next (h.typed (infer cond hcond)) fun _ => ?_
    refine h.next (inferBody thenBody hthen) fun _ => ?_
    exact h.next (inferBody elseBody helse) fun _ => h.ret rfl
  | .loop m cond body =>
    rw [Expr.rename, Checking.infer, Checking.infer]
    obtain ⟨hcond, hbody⟩ := Expr.forall_nodesOf_cons.mp hkids
    refine h.next (h.typed (infer cond hcond)) fun _ => ?_
    exact h.next (h.inLoop (inferBody body hbody)) fun _ => h.ret rfl
  | .control m keyword =>
    rw [Expr.rename, Checking.infer, Checking.infer]
    exact h.loopControl hl
  | .call m none name args block parens =>
    simp only [Expr.children, Option.toList_none, List.nil_append] at hkids
    obtain ⟨hargs, hblock⟩ := Expr.forall_nodesOf_append.mp hkids
    rw [Expr.rename_call, Option.map_none, Checking.infer, Checking.infer]
    simp only [Expr.isEmpty_renameAll]
    refine h.next (inferArgs args hargs) fun given => ?_
    refine h.seq (inferBlock block hblock) fun _ _ _ => ?_
    exact h.callOnSelf hl rfl
  | .call m (some receiver) name args block parens =>
    simp only [Expr.children, Option.toList_some, List.cons_append, List.nil_append] at hkids
    obtain ⟨hreceiver, hrest⟩ := Expr.forall_nodesOf_cons.mp hkids
    obtain ⟨hargs, hblock⟩ := Expr.forall_nodesOf_append.mp hrest
    have hout : ∀ e ∈ args, L e.loc := fun e he =>
      hargs e (Expr.mem_nodesOf he) _ e.loc_mem_ownLocations
    rw [Expr.rename_call, Option.map_some, Checking.infer, Checking.infer]
    simp only [Expr.length_renameAll, Option.isSome_map]
    split
    · exact h.takePointer hl rfl (Expr.StandAt.loc hreceiver)
    · rw [h.env.receiverKind, h.env.classes]
      cases hkind : c.env.receiverKind receiver with
      | ofClass ref =>
        have href : ∀ l ∈ ref.locations, L l := by
          obtain ⟨m', rfl⟩ := Env.receiverKind_ofClass hkind
          exact fun l hmem => (Expr.forall_nodes.mp hreceiver).1 l (List.mem_cons_of_mem _ hmem)
        simp only
        cases hty : c.env.classes.typeOf ref with
        | error d => exact h.failAt hty href
        | ok ty =>
          refine h.seq h.noteType fun _ _ _ => ?_
          refine h.next (inferArgs args hargs) fun given => ?_
          refine h.seq (inferBlock block hblock) fun _ _ _ => ?_
          exact h.callOnClass hl rfl
      | ofLibrary library =>
        refine h.seq h.noteType fun _ _ _ => ?_
        cases library.find? name with
        | none => exact h.fail hl
        | some f =>
          refine h.next (inferNativeArgs args hargs) fun given => ?_
          refine h.seq (inferBlock block hblock) fun _ _ _ => ?_
          exact h.callNative hl rfl hout
      | value =>
        refine h.next (h.typed (infer receiver hreceiver)) fun self => ?_
        refine h.next (inferArgs args hargs) fun given => ?_
        refine h.seq (inferBlock block hblock) fun _ _ _ => ?_
        exact h.callOn hl rfl
termination_by structural e

theorem inferBody (es : List Expr) (hv : Expr.StandAt L (Expr.nodesOf es))
    {last : Ty} :
    P Eq (c.inferBody last es) (c'.inferBody last (Expr.renameAll ρ.node es)) := by
  match es with
  | [] =>
    rw [Expr.renameAll, Checking.inferBody, Checking.inferBody]
    exact h.ret rfl
  | e :: es =>
    rw [Expr.renameAll, Checking.inferBody, Checking.inferBody]
    obtain ⟨he, hes⟩ := Expr.forall_nodesOf_cons.mp hv
    exact h.next (h.typed (infer e he)) fun _ => inferBody es hes
termination_by structural es

theorem inferArgs (es : List Expr) (hv : Expr.StandAt L (Expr.nodesOf es)) :
    P Eq (c.inferArgs es) (c'.inferArgs (Expr.renameAll ρ.node es)) := by
  match es with
  | [] =>
    rw [Expr.renameAll, Checking.inferArgs, Checking.inferArgs]
    exact h.ret rfl
  | e :: es =>
    rw [Expr.renameAll, Checking.inferArgs, Checking.inferArgs]
    obtain ⟨he, hes⟩ := Expr.forall_nodesOf_cons.mp hv
    refine h.next (h.typed (infer e he)) fun _ => ?_
    exact h.next (inferArgs es hes) fun _ => h.ret rfl
termination_by structural es

theorem inferBlock (block : Option Block)
    (hv : Expr.StandAt L (Expr.nodesOf (Block.bodyOf block))) {call : NodeId} :
    P (fun _ _ => True) (c.inferBlock call block)
      (c'.inferBlock (ρ.node call) (block.map (·.rename ρ.node))) := by
  match block with
  | none =>
    rw [Option.map_none, Checking.inferBlock, Checking.inferBlock]
    exact h.ret trivial
  | some (.mk params body) =>
    rw [Option.map_some, Block.rename, Checking.inferBlock, Checking.inferBlock]
    exact h.inBlock (inferBody body hv)
termination_by structural block

theorem inferNativeArgs (es : List Expr) (hv : Expr.StandAt L (Expr.nodesOf es)) :
    P Eq (c.inferNativeArgs es) (c'.inferNativeArgs (Expr.renameAll ρ.node es)) := by
  match es with
  | [] =>
    rw [Expr.renameAll, Checking.inferNativeArgs, Checking.inferNativeArgs]
    exact h.ret rfl
  | e :: es =>
    rw [Expr.renameAll, Checking.inferNativeArgs, Checking.inferNativeArgs, Expr.outTarget?_rename,
      Expr.loc_rename]
    obtain ⟨he, hes⟩ := Expr.forall_nodesOf_cons.mp hv
    have hrest : ∀ arg : NativeArg, P Eq
        (do return arg :: (← c.inferNativeArgs es))
        (do return arg :: (← c'.inferNativeArgs (Expr.renameAll ρ.node es))) := fun arg =>
      h.next (inferNativeArgs es hes) fun _ => h.ret rfl
    cases e.outTarget? with
    | some target =>
      exact h.next (h.typed (h.nativeOutType (Expr.StandAt.loc he))) fun ty => hrest ⟨ty, true⟩
    | none => exact h.next (h.typed (infer e he)) fun ty => hrest ⟨ty, false⟩
termination_by structural es

end

/-! ### Bodies of methods and units -/

theorem bindParams {site : Location} (hsite : L site) (args : List Ty) (params : List Param)
    (hv : Expr.StandAt L (Expr.nodesOf (params.flatMap Param.exprs))) :
    P (fun _ _ => True) (c.bindParams site args params)
      (c'.bindParams site args (params.map (·.rename ρ.node))) := by
  induction params generalizing args with
  | nil =>
    rw [List.map_nil, Checking.bindParams, Checking.bindParams]
    exact h.ret trivial
  | cons p ps ih =>
    rw [List.flatMap_cons] at hv
    obtain ⟨hp, hps⟩ := Expr.forall_nodesOf_append.mp hv
    have hrest : ∀ ty, P (fun _ _ => True)
        (do
          let binding ← c.bindLocal p.name
          c.assign binding site ty
          c.bindParams site args.tail ps)
        (do
          let binding ← c'.bindLocal p.name
          c'.assign binding site ty
          c'.bindParams site args.tail (ps.map (·.rename ρ.node))) := fun ty =>
      h.next h.bindLocal fun _ => h.seq (h.assign hsite) fun _ _ _ => ih args.tail hps
    obtain ⟨name, restriction, default⟩ := p
    rw [List.map_cons]
    unfold Checking.bindParams
    cases args with
    | cons arg args => exact h.next (h.ret rfl) fun ty => hrest ty
    | nil =>
      cases default with
      | none => exact h.next (h.ret rfl) fun ty => hrest ty
      | some value =>
        have hvalue : Expr.StandAt L value.nodes := (Expr.forall_nodesOf_cons.mp hp).1
        exact h.next (h.typed (h.infer value hvalue)) fun ty => hrest ty

theorem methodBody {d : Def} {args : List Ty} (hl : L d.loc)
    (hv : Expr.StandAt L (Expr.nodesOf d.exprs)) :
    P Eq (c.methodBody d args) (c'.methodBody (d.rename ρ.node) args) := by
  rw [Def.exprs] at hv
  obtain ⟨hparams, hbody⟩ := Expr.forall_nodesOf_append.mp hv
  refine h.seq (h.bindParams hl args d.params hparams) fun _ _ _ => ?_
  refine h.next (h.inferBody d.body hbody) fun ty => ?_
  exact h.next h.returnedBinding fun _ => h.assigned hl

/-- The checks of a unit. -/
theorem unitBody (hv : c.env.StandAt L) (key : Option Instantiation) :
    P Eq (c.unitBody key) (c'.unitBody (key.map (·.rename ρ))) := by
  cases key with
  | none =>
    rw [Option.map_none, Checking.unitBody, Checking.unitBody, h.env.topLevel]
    exact h.inferBody _ hv.topLevel
  | some key =>
    simp only [Option.map_some, Checking.unitBody, Instantiation.rename, h.env.get?]
    cases hm : c.env.methods.get? key.method with
    | none => exact h.ret rfl
    | some m =>
      obtain ⟨hl, hexprs⟩ := hv.methods m (List.mem_of_getElem? hm)
      exact h.methodBody hl hexprs

end Parallel

end UnionTyping
