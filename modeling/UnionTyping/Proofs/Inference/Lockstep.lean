/-
  UnionTyping/Proofs/Inference/Lockstep.lean
  ==========================================
  **Two checks of one expression, step by step.**

  Every argument about the check of an expression goes through the same forms of
  expressions.  This file goes through them once.  Two checks run side by side,
  and `P w Q x y` says of a step of each that, begun in a situation `w`, they end
  with results related by `Q`.  If the relation `P` is kept by sequencing and holds
  of the few steps that touch the state (`Steps`) and of the ways of carrying out
  a call (`Lockstep`), it holds of the checks of any expression that keeps to the
  vocabulary (`Lockstep.infer`), of the body of a method and of a whole unit
  (`Lockstep.unitBody`).

  Types of the two checks are related by `R` and bindings by `V`.  A situation
  says what there is already; it is later than another (`ext`) when more is there.
  A property of one check is the case in which both sides are that check.
-/
import Mathlib.Data.List.Forall2
import UnionTyping.Proofs.Inference.Vocabulary
import UnionTyping.Proofs.Ty.Members

namespace UnionTyping

/-- A candidate that the declarations offer, or a primitive whose type is related to
    itself. -/
def Candidate.Offered (env : Env) (R : Ty → Ty → Prop) : Candidate → Prop
  | .method entry => entry ∈ env.methods.live
  | .primitive p => R p.ret p.ret

namespace Candidate

variable {env : Env} {R R' : Ty → Ty → Prop} {name : String} {k : Candidate}

theorem Offered.mono (hRR' : ∀ t t', R t t' → R' t t') (h : k.Offered env R) :
    k.Offered env R' := by
  cases k with
  | method entry => exact h
  | primitive p => exact hRR' _ _ h

theorem offered_of_mem_lookup {id : ClassId}
    (hk : k ∈ (env.methods.lookup env.classes id name).map Candidate.method) : k.Offered env R := by
  obtain ⟨entry, hentry, rfl⟩ := List.mem_map.mp hk
  exact Methods.live_of_mem_lookup hentry

theorem offered_of_mem_topLevel
    (hk : k ∈ (env.methods.topLevel name).map Candidate.method) : k.Offered env R := by
  obtain ⟨entry, hentry, rfl⟩ := List.mem_map.mp hk
  exact Methods.live_of_mem_topLevel hentry

end Candidate

/-- What is called on a value is a method that its class finds, or a primitive. -/
theorem Env.mem_candidates {env : Env} {t : Ty} {name : String} {k : Candidate}
    (h : k ∈ env.candidates t name) :
    (∃ id, env.classes.classOf t = some id ∧
      k ∈ (env.methods.lookup env.classes id name).map .method) ∨
      ∃ className args p, t = .con className args ∧ p ∈ Primitive.on className args name ∧
        k = .primitive p := by
  cases t with
  | unresolved => cases h
  | oneOf ms => cases h
  | con className args =>
    rcases List.mem_append.mp h with h | h
    · cases hid : env.classes.lookup className with
      | none =>
        rw [hid] at h
        cases h
      | some id =>
        rw [hid] at h
        exact Or.inl ⟨id, hid, h⟩
    · obtain ⟨p, hp, rfl⟩ := List.mem_map.mp h
      exact Or.inr ⟨className, args, p, rfl, hp, rfl⟩

/-- Something is found only on an instance of a class. -/
theorem Env.isCon_of_candidates {env : Env} {t : Ty} {name : String}
    (h : ¬ (env.candidates t name).isEmpty = true) : t.IsCon := by
  cases t with
  | con className args => exact ⟨className, args, rfl⟩
  | unresolved => exact absurd rfl h
  | oneOf ms => exact absurd rfl h

/-- Only an instance of a class has a class. -/
theorem ClassTable.isCon_of_classOf {classes : ClassTable} {t : Ty} {id : ClassId}
    (h : classes.classOf t = some id) : t.IsCon := by
  cases t with
  | con className args => exact ⟨className, args, rfl⟩
  | unresolved => cases h
  | oneOf ms => cases h

/-- The relation `R` holds between a type that an expression of the vocabulary can
    bring up by itself and that type, and it is kept by unions. -/
structure TypeRelation (env : Env) (v : Vocabulary) (R : Ty → Ty → Prop) : Prop where
  literal : ∀ l : Literal, R l.ty l.ty
  classObject : R .classObject .classObject
  unresolved : R .unresolved .unresolved
  union : ∀ {a a' b b' : Ty}, R a a' → R b b' → R (a.union b) (a'.union b')
  written : ∀ {ref ty}, v.refs ref → env.classes.typeOf ref = .ok ty → R ty ty
  allocated : ∀ {ref className args p}, v.refs ref →
    env.classes.typeOf ref = .ok (.con className args) → Primitive.malloc className args = .ok p →
    R p.ret p.ret
  nativeParam : ∀ library ∈ env.libraries.libraries, ∀ f ∈ library.functions,
    ∀ p ∈ f.params, R p.ty p.ty
  nativeRet : ∀ library ∈ env.libraries.libraries, ∀ f ∈ library.functions, R f.ret f.ret

/-- The steps of two checks that do not carry out a call. -/
structure Steps {W : Type} (c c' : Checking) (v : Vocabulary) (R : Ty → Ty → Prop)
    (ext : W → W → Prop) (V : W → BindingId → BindingId → Prop)
    (P : ∀ {α β : Type}, W → (W → α → β → Prop) → WalkM α → WalkM β → Prop) : Prop where
  env : c.env.SameDeclarations c'.env
  self : c'.self = c.self
  types : TypeRelation c.env v R
  ofSelf : ∀ {self}, c.self = some self → R self self
  onSelf : ∀ {self name}, c.self = some self →
    ∀ k ∈ c.env.candidates self name, k.Offered c.env R
  ret : ∀ {α β : Type} {w : W} {Q : W → α → β → Prop} {a b}, Q w a b → P w Q (pure a) (pure b)
  seq : ∀ {α β γ δ : Type} {w : W} {Q : W → α → β → Prop} {S : W → γ → δ → Prop} {x y}
    {f : α → WalkM γ} {g : β → WalkM δ}, P w Q x y →
    (∀ w' a b, ext w w' → Q w' a b → P w' S (f a) (g b)) → P w S (x >>= f) (y >>= g)
  later : ∀ {w w' i j}, ext w w' → V w i j → V w' i j
  lookup : ∀ {w name}, P w (fun w' => Option.Rel (V w')) (Checking.lookup name)
    (Checking.lookup name)
  enter : ∀ {w call}, v.blocks call → P w (fun _ (_ _ : Unit) => True)
    (WalkM.change fun walk => { walk with scopes := walk.scopes.enter (.block call) })
    (WalkM.change fun walk => { walk with scopes := walk.scopes.enter (.block call) })
  leave : ∀ {w}, P w (fun _ (_ _ : Unit) => True)
    (WalkM.change fun walk => { walk with scopes := walk.scopes.leave })
    (WalkM.change fun walk => { walk with scopes := walk.scopes.leave })
  loopDepth : ∀ {w}, P w (fun _ => Eq) Checking.loopDepth Checking.loopDepth
  deepen : ∀ {w}, P w (fun _ (_ _ : Unit) => True)
    (WalkM.change fun walk => { walk with loopDepth := walk.loopDepth + 1 })
    (WalkM.change fun walk => { walk with loopDepth := walk.loopDepth + 1 })
  surface : ∀ {w}, P w (fun _ (_ _ : Unit) => True)
    (WalkM.change fun walk => { walk with loopDepth := walk.loopDepth - 1 })
    (WalkM.change fun walk => { walk with loopDepth := walk.loopDepth - 1 })
  fail : ∀ {w problem loc}, P w (fun _ => R) (c.fail problem loc) (c'.fail problem loc)
  noteType : ∀ {w node t t'}, v.ids node → R t t' →
    P w (fun _ _ _ => True) (Checking.noteType node t) (Checking.noteType node t')
  noteCall : ∀ {w node receiver callee args args' ret},
    v.ids node → Option.Rel R receiver receiver →
    List.Forall₂ R args args' → R ret ret →
    P w (fun _ _ _ => True) (Checking.noteCall node ⟨receiver, callee, args, ret⟩)
      (Checking.noteCall node ⟨receiver, callee, args', ret⟩)
  bindLocal : ∀ {w name}, v.names name → P w V (c.bindLocal name) (c'.bindLocal name)
  ivarBinding : ∀ {w owner name}, c.self.bind c.env.classes.classOf = some owner → v.names name →
    P w V (Checking.bindingOf (.ivar owner name)) (Checking.bindingOf (.ivar owner name))
  returnedBinding : ∀ {w},
    P w V (Checking.bindingOf (.returned c.unit)) (Checking.bindingOf (.returned c'.unit))
  read : ∀ {w i j}, V w i j → P w (fun _ => R) (c.read i) (c'.read j)
  assign : ∀ {w i j t t' site}, V w i j → R t t' →
    P w (fun _ _ _ => True) (c.assign i site t) (c'.assign j site t')

/-- The steps of two checks and the ways in which they carry out calls. -/
structure Lockstep {W : Type} (c c' : Checking) (v : Vocabulary) (R : Ty → Ty → Prop)
    (ext : W → W → Prop) (V : W → BindingId → BindingId → Prop)
    (P : ∀ {α β : Type}, W → (W → α → β → Prop) → WalkM α → WalkM β → Prop) : Prop
    extends Steps c c' v R ext V P where
  callAmong : ∀ {w mark self name candidates args args'}, v.ids mark.id → Option.Rel R self self →
    (∀ s, self = some s → s.IsCon) → (∀ k ∈ candidates, k.Offered c.env R) →
    List.Forall₂ R args args' →
    P w (fun _ => Option.Rel R) (c.callAmong mark self name candidates args)
      (c'.callAmong mark self name candidates args')
  callOn : ∀ {w mark t t' name args args'}, v.ids mark.id → R t t' → List.Forall₂ R args args' →
    P w (fun _ => R) (c.callOn mark t name args) (c'.callOn mark t' name args')
  takePointer : ∀ {w mark receiver given hasBlock}, v.pointers → v.ids mark.id →
    v.speaks receiver.nodes →
    P w (fun _ => R) (c.takePointer mark receiver given hasBlock)
      (c'.takePointer mark receiver given hasBlock)
  native : ∀ {w lib loc} {f : NativeFunction} {given given' : List NativeArg} {k k' : WalkM Ty},
    List.Forall₂ (fun a b => R a.ty b.ty ∧ a.isOut = b.isOut) given given' → P w (fun _ => R) k k' →
    P w (fun _ => R)
      (match f.check c.env.hierarchy lib given with
        | .error problem => c.fail problem loc
        | .ok _ => k)
      (match f.check c'.env.hierarchy lib given' with
        | .error problem => c'.fail problem loc
        | .ok _ => k')

namespace Steps

variable {W : Type} {c c' : Checking} {v : Vocabulary} {R : Ty → Ty → Prop}
  {ext : W → W → Prop} {V : W → BindingId → BindingId → Prop}
  {P : ∀ {α β : Type}, W → (W → α → β → Prop) → WalkM α → WalkM β → Prop}

variable (h : Steps c c' v R ext V P)
include h

theorem typed {w : W} {node : NodeId} {x y : WalkM Ty} (hid : v.ids node)
    (hx : P w (fun _ => R) x y) :
    P w (fun _ => R) (Checking.typed node x) (Checking.typed node y) := by
  refine h.seq hx fun w' t t' _ ht => ?_
  exact h.seq (h.noteType hid ht) fun _ _ _ _ _ => h.ret ht

theorem failNone {w : W} {problem : Problem} {loc : Location} :
    P w (fun w' => Option.Rel (V w')) (do let _ ← c.fail problem loc; pure none)
      (do let _ ← c'.fail problem loc; pure none) :=
  h.seq h.fail fun _ _ _ _ _ => h.ret .none

/-! ### Variables -/

theorem ivarOf {w : W} {name : String} {loc : Location} (hn : v.names name) :
    P w (fun w' => Option.Rel (V w')) (c.ivarOf name loc) (c'.ivarOf name loc) := by
  unfold Checking.ivarOf
  rw [h.self, h.env.classes]
  cases howner : c.self.bind c.env.classes.classOf with
  | none => exact h.failNone
  | some owner =>
    simp only
    cases c.env.classes.kindOf owner with
    | value => exact h.failNone
    | reference => exact h.seq (h.ivarBinding howner hn) fun _ _ _ _ hij => h.ret (.some hij)

theorem readIvar {w : W} {name : String} {loc : Location} (hn : v.names name) :
    P w (fun _ => R) (c.readIvar name loc) (c'.readIvar name loc) := by
  refine h.seq (h.ivarOf hn) fun _ o o' _ ho => ?_
  cases ho with
  | none => exact h.ret h.types.unresolved
  | some hij => exact h.read hij

theorem bindingToAssign {w : W} {target : Target} {loc : Location}
    (hn : v.names target.name) :
    P w (fun w' => Option.Rel (V w')) (c.bindingToAssign target loc)
      (c'.bindingToAssign target loc) := by
  cases target with
  | «local» name =>
    refine h.seq h.lookup fun _ o o' _ ho => ?_
    cases ho with
    | none => exact h.seq (h.bindLocal hn) fun _ _ _ _ hij => h.ret (.some hij)
    | some hij => exact h.ret (.some hij)
  | ivar name => exact h.ivarOf hn

theorem bindingToUpdate {w : W} {mark : Mark} {target : Target} {op : String}
    (hn : v.names target.name) :
    P w (fun w' => Option.Rel (V w')) (c.bindingToUpdate mark target op)
      (c'.bindingToUpdate mark target op) := by
  cases target with
  | «local» name =>
    refine h.seq h.lookup fun _ o o' _ ho => ?_
    cases ho with
    | none => exact h.failNone
    | some hij => exact h.ret (.some hij)
  | ivar name => exact h.ivarOf hn

theorem assigned {w : W} {i j : BindingId} {t t' : Ty} {loc : Location} (hij : V w i j)
    (ht : R t t') :
    P w (fun _ => R) (do c.assign i loc t; return t) (do c'.assign j loc t'; return t') :=
  h.seq (h.assign hij ht) fun _ _ _ _ _ => h.ret ht

theorem outType {w : W} {target : Target} {loc : Location} (hn : v.names target.name) :
    P w (fun _ => R) (c.outType target loc) (c'.outType target loc) := by
  cases target with
  | «local» name =>
    refine h.seq h.lookup fun _ o o' _ ho => ?_
    cases ho with
    | none => exact h.fail
    | some hij => exact h.read hij
  | ivar name => exact h.readIvar hn

theorem nativeOutType {w : W} {target : Target} {loc : Location}
    (hn : v.names target.name) :
    P w (fun _ => R) (c.nativeOutType target loc) (c'.nativeOutType target loc) := by
  cases target with
  | «local» name =>
    refine h.seq h.lookup fun _ o o' _ ho => ?_
    cases ho with
    | none => exact h.ret h.types.unresolved
    | some hij => exact h.read hij
  | ivar name => exact h.readIvar hn

theorem bindLocals {w : W} {names : List String} (hn : ∀ name ∈ names, v.names name) :
    P w (fun _ _ _ => True) (c.bindLocals names) (c'.bindLocals names) := by
  induction names generalizing w with
  | nil => exact h.ret trivial
  | cons name names ih =>
    refine h.seq (h.bindLocal (hn name (by simp))) fun _ _ _ _ _ => ?_
    exact ih fun n hmem => hn n (by simp [hmem])

theorem inLoop {w : W} {x y : WalkM Ty} (hx : ∀ w', P w' (fun _ => R) x y) :
    P w (fun _ => R) (Checking.inLoop x) (Checking.inLoop y) := by
  refine h.seq h.deepen fun _ _ _ _ _ => ?_
  refine h.seq (hx _) fun _ _ _ _ ht => ?_
  exact h.seq h.surface fun _ _ _ _ _ => h.ret ht

theorem inBlock {w : W} {call : NodeId} {params : List String} {x y : WalkM Ty}
    (hcall : v.blocks call) (hn : ∀ name ∈ params, v.names name)
    (hx : ∀ w', P w' (fun _ => R) x y) :
    P w (fun _ _ _ => True) (c.inBlock call params x) (c'.inBlock call params y) := by
  refine h.seq (h.enter hcall) fun _ _ _ _ _ => ?_
  refine h.seq (h.bindLocals hn) fun _ _ _ _ _ => ?_
  exact h.seq (h.inLoop hx) fun _ _ _ _ _ => h.leave

theorem loopControl {w : W} {keyword : LoopControl} {loc : Location} :
    P w (fun _ => R) (c.loopControl keyword loc) (c'.loopControl keyword loc) := by
  refine h.seq h.loopDepth fun _ depth depth' _ hdepth => ?_
  cases hdepth
  split
  · exact h.fail
  · exact h.ret (h.types.literal .nil)

end Steps

namespace Lockstep

variable {W : Type} {c c' : Checking} {v : Vocabulary} {R : Ty → Ty → Prop}
  {ext : W → W → Prop} {V : W → BindingId → BindingId → Prop}
  {P : ∀ {α β : Type}, W → (W → α → β → Prop) → WalkM α → WalkM β → Prop}

variable (h : Lockstep c c' v R ext V P)
include h

/-! ### Calls -/

theorem onCandidates {w : W} {mark : Mark} {self : Option Ty} {name : String}
    {candidates : List Candidate} {args args' : List Ty} (hid : v.ids mark.id)
    (hself : Option.Rel R self self) (hcon : ∀ s, self = some s → s.IsCon)
    (hk : ∀ k ∈ candidates, k.Offered c.env R) (ha : List.Forall₂ R args args') :
    P w (fun _ => R)
      (do return (← c.callAmong mark self name candidates args).getD .unresolved)
      (do return (← c'.callAmong mark self name candidates args').getD .unresolved) := by
  refine h.seq (h.callAmong hid hself hcon hk ha) fun _ o o' _ ho => h.ret ?_
  cases ho with
  | none => exact h.types.unresolved
  | some ht => exact ht

theorem callTopLevel {w : W} {mark : Mark} {name : String} {args args' : List Ty}
    {bare : Bool} (hid : v.ids mark.id) (ha : List.Forall₂ R args args') :
    P w (fun _ => R) (c.callTopLevel mark name args bare)
      (c'.callTopLevel mark name args' bare) := by
  unfold Checking.callTopLevel
  rw [h.env.methods]
  by_cases he : ((c.env.methods.topLevel name).map Candidate.method).isEmpty
  · rw [if_pos he, if_pos he]
    exact h.fail
  · rw [if_neg he, if_neg he]
    exact h.onCandidates hid .none (fun s hs => nomatch hs)
      (fun _ => Candidate.offered_of_mem_topLevel) ha

theorem callOnSelf {w : W} {mark : Mark} {name : String} {args args' : List Ty}
    {bare : Bool} (hid : v.ids mark.id) (ha : List.Forall₂ R args args') :
    P w (fun _ => R) (c.callOnSelf mark name args bare) (c'.callOnSelf mark name args' bare) := by
  unfold Checking.callOnSelf
  rw [h.self]
  cases hs : c.self with
  | none => exact h.callTopLevel hid ha
  | some self =>
    simp only [h.env.candidates]
    by_cases he : (c.env.candidates self name).isEmpty
    · rw [if_pos he, if_pos he]
      exact h.callTopLevel hid ha
    · rw [if_neg he, if_neg he]
      have hcon := Env.isCon_of_candidates he
      exact h.onCandidates hid (.some (h.ofSelf hs)) (fun s hs' => Option.some.inj hs' ▸ hcon)
        (h.onSelf hs) ha

theorem callNew {w : W} {mark : Mark} {ty : Ty} {args args' : List Ty} (hid : v.ids mark.id)
    (ht : R ty ty)
    (ha : List.Forall₂ R args args') :
    P w (fun _ => R) (c.callNew mark ty args) (c'.callNew mark ty args') := by
  unfold Checking.callNew
  rw [h.env.classes, h.env.methods]
  cases hclass : c.env.classes.classOf ty with
  | none => exact h.ret h.types.unresolved
  | some id =>
    have hcon := ClassTable.isCon_of_classOf hclass
    have hlen : args'.isEmpty = args.isEmpty := by cases ha <;> rfl
    simp only [hlen, ha.length_eq]
    split
    · exact h.fail
    · split
      · refine h.seq (h.ret (Q := fun _ => Option.Rel R) (.some h.types.unresolved))
          fun _ o o' _ ho => ?_
        cases ho with
        | none => exact h.ret h.types.unresolved
        | some _ => exact h.seq (h.noteCall hid .none ha ht) fun _ _ _ _ _ => h.ret ht
      · refine h.seq (h.callAmong hid (.some ht) (fun s hs => Option.some.inj hs ▸ hcon)
          (fun _ => Candidate.offered_of_mem_lookup) ha) fun _ o o' _ ho => ?_
        cases ho with
        | none => exact h.ret h.types.unresolved
        | some _ => exact h.seq (h.noteCall hid .none ha ht) fun _ _ _ _ _ => h.ret ht

theorem callMalloc {w : W} {mark : Mark} {ref : TypeRef} {ty : Ty} {args args' : List Ty}
    (hid : v.ids mark.id)
    (hr : v.refs ref) (hty : c.env.classes.typeOf ref = .ok ty) (ha : List.Forall₂ R args args') :
    P w (fun _ => R) (c.callMalloc mark ty args) (c'.callMalloc mark ty args') := by
  cases ty with
  | unresolved => exact h.ret h.types.unresolved
  | oneOf ms => exact h.ret h.types.unresolved
  | con className params =>
    unfold Checking.callMalloc
    simp only
    cases hp : Primitive.malloc className params with
    | error problem => exact h.fail
    | ok p =>
      refine h.onCandidates hid (.some (h.types.written hr hty))
        (fun s hs => Option.some.inj hs ▸ ⟨className, params, rfl⟩) (fun k hk => ?_) ha
      rw [List.mem_singleton] at hk
      subst hk
      exact h.types.allocated hr hty hp

theorem callOnClass {w : W} {mark : Mark} {className name : String} {ref : TypeRef}
    {ty : Ty} {args args' : List Ty} (hid : v.ids mark.id) (hr : v.refs ref)
    (hty : c.env.classes.typeOf ref = .ok ty)
    (ha : List.Forall₂ R args args') :
    P w (fun _ => R) (c.callOnClass mark className ty name args)
      (c'.callOnClass mark className ty name args') := by
  unfold Checking.callOnClass
  split
  · exact h.callNew hid (h.types.written hr hty) ha
  · split
    · exact h.callMalloc hid hr hty ha
    · exact h.fail

theorem assignOuts {w : W} {pairs : List (Expr × NativeParam)}
    (hv : ∀ m target param, (.out m target, param) ∈ pairs → param.mode = .out →
      v.admits (.out m target))
    (hp : ∀ pair ∈ pairs, R pair.2.ty pair.2.ty) :
    P w (fun _ _ _ => True) (c.assignOuts pairs) (c'.assignOuts pairs) := by
  induction pairs generalizing w with
  | nil => exact h.ret trivial
  | cons pair rest ih =>
    obtain ⟨arg, param⟩ := pair
    have hrest : ∀ w, P w (fun _ _ _ => True) (c.assignOuts rest) (c'.assignOuts rest) := fun w =>
      ih (fun m target param hmem => hv m target param (List.mem_cons_of_mem _ hmem))
        (fun p hmem => hp p (List.mem_cons_of_mem _ hmem))
    have hty : R param.ty param.ty := hp (arg, param) List.mem_cons_self
    simp only [Checking.assignOuts]
    split
    · rename_i m target hmode
      obtain ⟨hm, hn⟩ := hv m target param List.mem_cons_self hmode
      refine h.seq (h.bindingToAssign hn) fun _ o o' _ ho => ?_
      cases ho with
      | none => exact h.seq (h.noteType hm hty) fun _ _ _ _ _ => hrest _
      | some hij =>
        refine h.seq (h.assign hij hty) fun _ _ _ _ _ => ?_
        exact h.seq (h.noteType hm hty) fun _ _ _ _ _ => hrest _
    · exact hrest w

theorem callNative {w : W} {mark : Mark} (hid : v.ids mark.id) {library : Library}
    {f : NativeFunction}
    {args : List Expr} {given given' : List NativeArg}
    (hl : library ∈ c.env.libraries.libraries) (hf : f ∈ library.functions)
    (hv : ∀ m target, .out m target ∈ args → v.admits (.out m target))
    (hg : List.Forall₂ (fun a b : NativeArg => R a.ty b.ty ∧ a.isOut = b.isOut) given given') :
    P w (fun _ => R) (c.callNative mark library.name f args given)
      (c'.callNative mark library.name f args given') := by
  refine h.native hg ?_
  have hret : R f.ret f.ret := h.types.nativeRet library hl f hf
  have htypes : List.Forall₂ R (given.map NativeArg.ty) (given'.map NativeArg.ty) := by
    rw [List.forall₂_map_left_iff, List.forall₂_map_right_iff]
    exact hg.imp fun _ _ hab => hab.1
  refine h.seq (h.assignOuts (fun m target param hmem _ => ?_) (fun pair hmem => ?_))
    fun _ _ _ _ _ => ?_
  · exact hv m target (List.of_mem_zip hmem).1
  · exact h.types.nativeParam library hl f hf _ (List.of_mem_zip hmem).2
  · exact h.seq (h.noteCall hid .none htypes hret) fun _ _ _ _ _ => h.ret hret

/-! ### Compound assignments -/

/-- The call and the assignment that a compound assignment stands for. -/
theorem operated {w : W} {mark : Mark} {op : String} {i j : BindingId} {t t' a a' : Ty}
    (hid : v.ids mark.id) (hij : V w i j) (ht : R t t') (ha : R a a') :
    P w (fun _ => R)
      (do
        let ty ← c.callOn mark t op [a]
        c.assign i mark.loc ty
        return ty)
      (do
        let ty ← c'.callOn mark t' op [a']
        c'.assign j mark.loc ty
        return ty) :=
  h.seq (h.callOn hid ht (.cons ha .nil)) fun _ _ _ hext hr =>
    h.assigned (h.later hext hij) hr

/-- What a compound assignment does with the type that its variable has. -/
theorem operate {w : W} {mark : Mark} {op : String} {value : Expr}
    {i j : BindingId} {t t' : Ty} (hid : v.ids mark.id) (hvid : v.ids value.id)
    (hvalue : ∀ w, P w (fun _ => R) (c.infer value) (c'.infer value))
    (hij : V w i j) (ht : R t t') :
    P w (fun _ => R)
      (do
        let operand ← Checking.typed value.id (c.infer value)
        let ty ← c.callOn mark t op [operand]
        c.assign i mark.loc ty
        return ty)
      (do
        let operand ← Checking.typed value.id (c'.infer value)
        let ty ← c'.callOn mark t' op [operand]
        c'.assign j mark.loc ty
        return ty) :=
  h.seq (h.typed hvid (hvalue w)) fun _ _ _ hext ha => h.operated hid (h.later hext hij) ht ha

/-! ### Expressions -/

mutual

/-- The check of an expression. -/
theorem infer (e : Expr) (hv : v.speaks e.nodes) (w : W) :
    P w (fun _ => R) (c.infer e) (c'.infer e) := by
  obtain ⟨⟨hid, hadm⟩, hkids⟩ := Vocabulary.speaks_nodes.mp hv
  match e with
  | .literal m value =>
    rw [Checking.infer, Checking.infer]
    exact h.ret (h.types.literal value)
  | .ident m name =>
    rw [Checking.infer, Checking.infer]
    refine h.seq h.lookup fun _ o o' _ ho => ?_
    cases ho with
    | none => exact h.callOnSelf hid .nil
    | some hij => exact h.read hij
  | .ivar m name =>
    rw [Checking.infer, Checking.infer]
    exact h.readIvar hadm
  | .out m target =>
    rw [Checking.infer, Checking.infer]
    exact h.outType hadm
  | .assign m target value =>
    rw [Checking.infer, Checking.infer]
    have hvalue := (Vocabulary.speaks_nodesOf_cons.mp hkids).1
    refine h.seq (h.typed (Vocabulary.ids_of_speaks hvalue) (infer value hvalue w))
      fun _ t t' _ ht => ?_
    refine h.seq (h.bindingToAssign hadm) fun _ o o' _ ho => ?_
    cases ho with
    | none => exact h.ret h.types.unresolved
    | some hij => exact h.assigned hij ht
  | .opAssign m target op value =>
    rw [Checking.infer, Checking.infer]
    have hvalue := (Vocabulary.speaks_nodesOf_cons.mp hkids).1
    refine h.seq (h.bindingToUpdate hadm) fun _ o o' _ ho => ?_
    cases ho with
    | none => exact h.ret h.types.unresolved
    | some hij =>
      refine h.seq (h.read hij) fun w₁ t t' hw₁ ht => ?_
      exact h.operate hid (Vocabulary.ids_of_speaks hvalue)
        (fun w => infer value hvalue w) (h.later hw₁ hij) ht
  | .path m ref =>
    rw [Checking.infer, Checking.infer, h.env.classes]
    cases c.env.classes.typeOf ref with
    | ok _ => exact h.ret h.types.classObject
    | error d => exact h.fail
  | .connect m op lhs rhs =>
    rw [Checking.infer, Checking.infer]
    obtain ⟨hlhs, hrest⟩ := Vocabulary.speaks_nodesOf_cons.mp hkids
    have hrhs := (Vocabulary.speaks_nodesOf_cons.mp hrest).1
    refine h.seq (h.typed (Vocabulary.ids_of_speaks hlhs) (infer lhs hlhs w)) fun w₁ a a' _ ha => ?_
    refine h.seq (h.typed (Vocabulary.ids_of_speaks hrhs) (infer rhs hrhs w₁)) fun _ b b' _ hb => ?_
    exact h.ret (h.types.union ha hb)
  | .ite m cond thenBody elseBody =>
    rw [Checking.infer, Checking.infer]
    simp only [Expr.children, List.cons_append, Vocabulary.speaks_nodesOf_cons,
      Expr.nodesOf_append, Vocabulary.speaks_append] at hkids
    obtain ⟨hcond, hthen, helse⟩ := hkids
    refine h.seq (h.typed (Vocabulary.ids_of_speaks hcond) (infer cond hcond w))
      fun w₁ _ _ _ _ => ?_
    refine h.seq (inferBody thenBody hthen w₁ (h.types.literal .nil)) fun w₂ a a' _ ha => ?_
    refine h.seq (inferBody elseBody helse w₂ (h.types.literal .nil)) fun _ b b' _ hb => ?_
    exact h.ret (h.types.union ha hb)
  | .loop m cond body =>
    rw [Checking.infer, Checking.infer]
    obtain ⟨hcond, hbody⟩ := Vocabulary.speaks_nodesOf_cons.mp hkids
    refine h.seq (h.typed (Vocabulary.ids_of_speaks hcond) (infer cond hcond w))
      fun w₁ _ _ _ _ => ?_
    refine h.seq (h.inLoop fun w' => inferBody body hbody w' (h.types.literal .nil))
      fun _ _ _ _ _ => ?_
    exact h.ret (h.types.literal .nil)
  | .control m keyword =>
    rw [Checking.infer, Checking.infer]
    exact h.loopControl
  | .call m none name args block parens =>
    rw [Checking.infer, Checking.infer]
    obtain ⟨hargs, hblock⟩ := Vocabulary.speaks_callSelf.mp hkids
    refine h.seq (inferArgs args hargs w) fun w₁ as as' _ ha => ?_
    refine h.seq (inferBlock block hblock w₁ hadm.2) fun _ _ _ _ _ => ?_
    exact h.callOnSelf hid ha
  | .call m (some receiver) name args block parens =>
    rw [Checking.infer, Checking.infer]
    obtain ⟨hreceiver, hargs, hblock⟩ := Vocabulary.speaks_call.mp hkids
    split
    · rename_i hptr
      exact h.takePointer (hadm.1 rfl hptr) hid hreceiver
    · rw [h.env.receiverKind, h.env.classes]
      cases hkind : c.env.receiverKind receiver with
      | ofClass ref =>
        have hr : v.refs ref := by
          obtain ⟨m', rfl⟩ := Env.receiverKind_ofClass hkind
          exact (Vocabulary.admits_of_speaks hreceiver).2
        simp only
        cases hty : c.env.classes.typeOf ref with
        | error d => exact h.fail
        | ok ty =>
          refine h.seq (h.noteType (Vocabulary.ids_of_speaks hreceiver) h.types.classObject)
            fun w₁ _ _ _ _ => ?_
          refine h.seq (inferArgs args hargs w₁) fun w₂ as as' _ ha => ?_
          refine h.seq (inferBlock block hblock w₂ hadm.2) fun _ _ _ _ _ => ?_
          exact h.callOnClass hid hr hty ha
      | ofLibrary library =>
        have hl := Env.receiverKind_ofLibrary hkind
        refine h.seq (h.noteType (Vocabulary.ids_of_speaks hreceiver) h.types.classObject)
          fun w₁ _ _ _ _ => ?_
        cases hf : library.find? name with
        | none => exact h.fail
        | some f =>
          refine h.seq (inferNativeArgs args hargs w₁) fun w₂ as as' _ ha => ?_
          refine h.seq (inferBlock block hblock w₂ hadm.2) fun _ _ _ _ _ => ?_
          refine h.callNative hid hl (List.mem_of_find?_eq_some hf)
            (fun m target hout => ?_) ha
          exact hargs _ (Expr.mem_nodesOf hout)
      | value =>
        refine h.seq (h.typed (Vocabulary.ids_of_speaks hreceiver) (infer receiver hreceiver w))
          fun w₁ t t' _ ht => ?_
        refine h.seq (inferArgs args hargs w₁) fun w₂ as as' _ ha => ?_
        refine h.seq (inferBlock block hblock w₂ hadm.2) fun _ _ _ _ _ => ?_
        exact h.callOn hid ht ha
termination_by structural e

theorem inferBody (es : List Expr) (hv : v.speaks (Expr.nodesOf es)) (w : W)
    {last last' : Ty} (hlast : R last last') :
    P w (fun _ => R) (c.inferBody last es) (c'.inferBody last' es) := by
  match es with
  | [] =>
    rw [Checking.inferBody, Checking.inferBody]
    exact h.ret hlast
  | e :: es =>
    rw [Checking.inferBody, Checking.inferBody]
    obtain ⟨he, hes⟩ := Vocabulary.speaks_nodesOf_cons.mp hv
    refine h.seq (h.typed (Vocabulary.ids_of_speaks he) (infer e he w)) fun w₁ t t' _ ht => ?_
    exact inferBody es hes w₁ ht
termination_by structural es

theorem inferArgs (es : List Expr) (hv : v.speaks (Expr.nodesOf es)) (w : W)
    :
    P w (fun _ => List.Forall₂ R) (c.inferArgs es) (c'.inferArgs es) := by
  match es with
  | [] =>
    rw [Checking.inferArgs, Checking.inferArgs]
    exact h.ret .nil
  | e :: es =>
    rw [Checking.inferArgs, Checking.inferArgs]
    obtain ⟨he, hes⟩ := Vocabulary.speaks_nodesOf_cons.mp hv
    refine h.seq (h.typed (Vocabulary.ids_of_speaks he) (infer e he w)) fun w₁ t t' _ ht => ?_
    exact h.seq (inferArgs es hes w₁) fun _ _ _ _ hrest => h.ret (.cons ht hrest)
termination_by structural es

theorem inferBlock (block : Option Block) (hv : v.speaks (Expr.nodesOf (Block.bodyOf block)))
    (w : W) {call : NodeId}
    (hblock : ∀ params body, block = some (.mk params body) →
      v.blocks call ∧ ∀ p ∈ params, v.names p) :
    P w (fun _ _ _ => True) (c.inferBlock call block) (c'.inferBlock call block) := by
  match block with
  | none =>
    rw [Checking.inferBlock, Checking.inferBlock]
    exact h.ret trivial
  | some (.mk params body) =>
    rw [Checking.inferBlock, Checking.inferBlock]
    obtain ⟨hcall, hparams⟩ := hblock params body rfl
    exact h.inBlock hcall hparams fun w' => inferBody body hv w' (h.types.literal .nil)
termination_by structural block

theorem inferNativeArgs (es : List Expr) (hv : v.speaks (Expr.nodesOf es)) (w : W)
    :
    P w (fun _ => List.Forall₂ fun a b : NativeArg => R a.ty b.ty ∧ a.isOut = b.isOut)
      (c.inferNativeArgs es) (c'.inferNativeArgs es) := by
  match es with
  | [] =>
    rw [Checking.inferNativeArgs, Checking.inferNativeArgs]
    exact h.ret .nil
  | e :: es =>
    rw [Checking.inferNativeArgs, Checking.inferNativeArgs]
    obtain ⟨he, hes⟩ := Vocabulary.speaks_nodesOf_cons.mp hv
    have hrest : ∀ (w : W) (a b : NativeArg), R a.ty b.ty ∧ a.isOut = b.isOut →
        P w (fun _ => List.Forall₂ fun a b : NativeArg => R a.ty b.ty ∧ a.isOut = b.isOut)
          (do return a :: (← c.inferNativeArgs es))
          (do return b :: (← c'.inferNativeArgs es)) := fun w a b hab =>
      h.seq (inferNativeArgs es hes w) fun _ _ _ _ hr => h.ret (.cons hab hr)
    cases ht : e.outTarget? with
    | some target =>
      have hn : v.names target.name := by
        obtain ⟨m, rfl⟩ := Expr.outTarget?_eq_some ht
        exact (Vocabulary.admits_of_speaks he).2
      refine h.seq (h.typed (Vocabulary.ids_of_speaks he) (h.nativeOutType hn))
        fun w₁ t t' _ ht => ?_
      exact hrest w₁ ⟨t, true⟩ ⟨t', true⟩ ⟨ht, rfl⟩
    | none =>
      refine h.seq (h.typed (Vocabulary.ids_of_speaks he) (infer e he w)) fun w₁ t t' _ ht => ?_
      exact hrest w₁ ⟨t, false⟩ ⟨t', false⟩ ⟨ht, rfl⟩
termination_by structural es

end

/-! ### Bodies of methods and units -/

theorem bindParams {w : W} {site : Location} {args args' : List Ty} {params : List Param}
    (hn : ∀ p ∈ params, v.names p.name) (hv : v.speaks (Expr.nodesOf (params.flatMap Param.exprs)))
    (ha : List.Forall₂ R args args') :
    P w (fun _ _ _ => True) (c.bindParams site args params) (c'.bindParams site args' params) := by
  induction params generalizing w args args' with
  | nil =>
    unfold Checking.bindParams
    exact h.ret trivial
  | cons p ps ih =>
    rw [List.flatMap_cons, Expr.nodesOf_append, Vocabulary.speaks_append] at hv
    unfold Checking.bindParams
    have hrest : ∀ w t t', R t t' → P w (fun _ _ _ => True)
        (do
          let binding ← c.bindLocal p.name
          c.assign binding site t
          c.bindParams site args.tail ps)
        (do
          let binding ← c'.bindLocal p.name
          c'.assign binding site t'
          c'.bindParams site args'.tail ps) := by
      intro w t t' ht
      refine h.seq (h.bindLocal (hn p List.mem_cons_self)) fun _ _ _ _ hij => ?_
      refine h.seq (h.assign hij ht) fun _ _ _ _ _ => ?_
      refine ih (fun q hq => hn q (List.mem_cons_of_mem _ hq)) hv.2 ?_
      cases ha with
      | nil => exact .nil
      | cons _ htail => exact htail
    cases ha with
    | cons harg htail => exact h.seq (h.ret (Q := fun _ => R) harg) fun _ _ _ _ ht => hrest _ _ _ ht
    | nil =>
      cases hdefault : p.default with
      | none =>
        exact h.seq (h.ret (Q := fun _ => R) h.types.unresolved) fun _ _ _ _ ht => hrest _ _ _ ht
      | some value =>
        have hvalue : v.speaks value.nodes := by
          have hp := hv.1
          rw [Param.exprs, hdefault, Option.toList_some] at hp
          exact (Vocabulary.speaks_nodesOf_cons.mp hp).1
        exact h.seq (h.typed (Vocabulary.ids_of_speaks hvalue) (h.infer value hvalue w))
          fun _ _ _ _ ht => hrest _ _ _ ht

theorem methodBody {w : W} {d : Def} {args args' : List Ty} (hv : v.speaksDef d)
    (ha : List.Forall₂ R args args') :
    P w (fun _ => R) (c.methodBody d args) (c'.methodBody d args') := by
  obtain ⟨hn, hv⟩ := hv
  rw [Def.exprs, Expr.nodesOf_append, Vocabulary.speaks_append] at hv
  refine h.seq (h.bindParams hn hv.1 ha) fun _ _ _ _ _ => ?_
  refine h.seq (h.inferBody d.body hv.2 _ (h.types.literal .nil)) fun _ _ _ _ ht => ?_
  refine h.seq h.returnedBinding fun _ _ _ _ hij => ?_
  exact h.seq (h.assign hij ht) fun _ _ _ _ _ => h.ret ht

/-- The check of a unit. -/
theorem unitBody {w : W} {key key' : Option Instantiation}
    (hkey : Option.Rel (fun k k' => k'.method = k.method ∧ List.Forall₂ R k.args k'.args) key key')
    (hv : v.speaksUnit c.env key) :
    P w (fun _ => R) (c.unitBody key) (c'.unitBody key') := by
  cases hkey with
  | none =>
    rw [Checking.unitBody, Checking.unitBody, h.env.topLevel]
    exact h.inferBody _ hv w (h.types.literal .nil)
  | @some k k' hk =>
    obtain ⟨hmethod, hargs⟩ := hk
    rw [Checking.unitBody, Checking.unitBody, h.env.methods, hmethod]
    cases hm : c.env.methods.get? k.method with
    | none => exact h.ret h.types.unresolved
    | some m => exact h.methodBody (hv m hm) hargs

end Lockstep

end UnionTyping
