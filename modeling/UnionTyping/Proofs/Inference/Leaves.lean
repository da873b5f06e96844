/-
  UnionTyping/Proofs/Inference/Leaves.lean
  ========================================
  **What the parts of a check leave as it is.**

  A part of a check changes only some of the findings: reading a variable notes no
  call.  `Leaves p x` says that the step `x` does not change what `p` shows of the
  findings.  Carrying out a call notes calls and reports problems, and nothing else: what
  these two steps keep to, all calls keep to (`CallFrame`), for instance to the scopes
  (`keepsScopes`).
-/
import UnionTyping.Proofs.Inference.Runs

namespace UnionTyping

/-- The step leaves what `p` shows of the findings as it is. -/
def Leaves {γ α : Type} (p : Walk → γ) (x : WalkM α) : Prop :=
  ∀ w e a w' e', runWalk x w e = (.ok (a, w'), e') → p w' = p w

namespace Leaves

variable {γ α β : Type} {p : Walk → γ} {c : Checking}

theorem bind {x : WalkM α} {f : α → WalkM β} (hx : Leaves p x) (hf : ∀ a, Leaves p (f a)) :
    Leaves p (x >>= f) := by
  intro w e b w' e' h
  obtain ⟨a, w₁, e₁, hrx, hrf⟩ := runWalk_bind_eq_ok h
  exact (hf a _ _ _ _ _ hrf).trans (hx _ _ _ _ _ hrx)

theorem pure (a : α) : Leaves p (pure a : WalkM α) := by
  intro w e b w' e' h
  rw [runWalk_pure] at h
  cases h
  rfl

theorem change {f : Walk → Walk} (hf : ∀ w, p (f w) = p w) :
    Leaves p (WalkM.change f) := by
  intro w e b w' e' h
  rw [runWalk_change] at h
  cases h
  exact hf w

theorem get : Leaves p (get : WalkM Walk) := by
  intro w e b w' e' h
  rw [runWalk_get] at h
  cases h
  rfl

theorem lift (x : EngineM α) : Leaves p (liftM x : WalkM α) := by
  intro w e a w' e' h
  rw [runWalk_lift] at h
  rcases hx : runEngine x e with ⟨_ | a, e₁⟩ <;> rw [hx] at h <;> cases h
  rfl

theorem lookup (name : String) : Leaves p (Checking.lookup name) := by
  intro w e a w' e' h
  rw [runWalk_lookup] at h
  cases h
  rfl

theorem read (i : BindingId) : Leaves p (c.read i) := lift _

theorem assign (i : BindingId) (site : Location) (ty : Ty) : Leaves p (c.assign i site ty) := lift _

/-! ### Reading variables -/

section

variable (hp : ∀ (w : Walk) (ds : List Diagnostic), p { w with diagnostics := ds } = p w)
include hp

theorem fail (problem : Problem) (loc : Location) : Leaves p (c.fail problem loc) := by
  refine bind (change fun w => ?_) fun _ => pure _
  split
  · rfl
  · exact hp w _

theorem ivarOf (name : String) (loc : Location) : Leaves p (c.ivarOf name loc) := by
  unfold Checking.ivarOf
  split
  · exact bind (fail hp _ _) fun _ => pure _
  · split
    · exact bind (fail hp _ _) fun _ => pure _
    · exact bind (lift _) fun _ => pure _

theorem bindingToUpdate (mark : Mark) (target : Target) (op : String) :
    Leaves p (c.bindingToUpdate mark target op) := by
  cases target with
  | «local» name =>
    refine bind (lookup name) fun o => ?_
    cases o with
    | some _ => exact pure _
    | none => exact bind (fail hp _ _) fun _ => pure _
  | ivar name => exact ivarOf hp name mark.loc

theorem readIvar (name : String) (loc : Location) : Leaves p (c.readIvar name loc) := by
  refine bind (ivarOf hp name loc) fun o => ?_
  cases o with
  | some i => exact read i
  | none => exact pure _

theorem outType (target : Target) (loc : Location) : Leaves p (c.outType target loc) := by
  cases target with
  | «local» name =>
    refine bind (lookup name) fun o => ?_
    cases o with
    | some i => exact read i
    | none => exact fail hp _ _
  | ivar name => exact readIvar hp name loc

theorem nativeOutType (target : Target) (loc : Location) :
    Leaves p (c.nativeOutType target loc) := by
  cases target with
  | «local» name =>
    refine bind (lookup name) fun o => ?_
    cases o with
    | some i => exact read i
    | none => exact pure _
  | ivar name => exact readIvar hp name loc

omit hp in
theorem bindLocal (hs : ∀ (w : Walk) (sc : Scopes), p { w with scopes := sc } = p w)
    (name : String) : Leaves p (c.bindLocal name) :=
  bind get fun _ => bind (lift _) fun _ => bind (change fun w => hs w _) fun _ => pure _

theorem bindingToAssign (hs : ∀ (w : Walk) (sc : Scopes), p { w with scopes := sc } = p w)
    (target : Target) (loc : Location) : Leaves p (c.bindingToAssign target loc) := by
  cases target with
  | «local» name =>
    refine bind (lookup name) fun o => ?_
    cases o with
    | some _ => exact pure _
    | none => exact bind (bindLocal hs name) fun _ => pure _
  | ivar name => exact ivarOf hp name loc

end

end Leaves

/-! ### Steps that note no call -/

abbrev NotesNoCall {α : Type} (x : WalkM α) : Prop := Leaves Walk.calls x

namespace NotesNoCall

variable {c : Checking}

theorem typed {node : NodeId} {x : WalkM Ty} (hx : NotesNoCall x) :
    NotesNoCall (Checking.typed node x) :=
  .bind hx fun _ => .bind (.change fun _ => rfl) fun _ => .pure _

theorem assignOuts (pairs : List (Expr × NativeParam)) : NotesNoCall (c.assignOuts pairs) := by
  induction pairs with
  | nil => exact .pure ()
  | cons pair pairs ih =>
    obtain ⟨arg, param⟩ := pair
    simp only [Checking.assignOuts]
    split
    · refine .bind (.bindingToAssign (fun _ _ => rfl) (fun _ _ => rfl) _ _) fun o => ?_
      cases o with
      | some i => exact .bind (.assign _ _ _) fun _ => .bind (.change fun _ => rfl) fun _ => ih
      | none => exact .bind (.change fun _ => rfl) fun _ => ih
    · exact ih

end NotesNoCall

/-! ### Steps that carry out calls -/

def Walk.noted (walk : Walk) (node : NodeId) (call : Resolution) : Walk :=
  { walk with
    calls := walk.calls.alter node fun known =>
      let calls := known.getD []
      if calls.any (· == call) then calls else calls ++ [call] }

def Relates {α : Type} (R : Walk → Walk → Prop) (x : WalkM α) : Prop :=
  ∀ w e a w' e', runWalk x w e = (.ok (a, w'), e') → R w w'

/-- Reporting a problem and noting a call keep to the relation, and so do several such steps
    in a row. -/
structure CallFrame (R : Walk → Walk → Prop) : Prop where
  refl : ∀ w, R w w
  trans : ∀ w w₁ w', R w w₁ → R w₁ w' → R w w'
  diagnostics : ∀ w (ds : List Diagnostic), R w { w with diagnostics := ds }
  noted : ∀ w node call, R w (w.noted node call)

namespace CallFrame

variable {R : Walk → Walk → Prop} (hR : CallFrame R) {c : Checking} {mark : Mark} {name : String}
  {args : List Ty} {α β : Type}
include hR

theorem bind {x : WalkM α} {f : α → WalkM β} (hx : Relates R x) (hf : ∀ a, Relates R (f a)) :
    Relates R (x >>= f) := by
  intro w e b w' e' h
  obtain ⟨a, w₁, e₁, hrx, hrf⟩ := runWalk_bind_eq_ok h
  exact hR.trans w w₁ w' (hx _ _ _ _ _ hrx) (hf a _ _ _ _ _ hrf)

theorem pure (a : α) : Relates R (pure a : WalkM α) := by
  intro w e b w' e' h
  rw [runWalk_pure] at h
  cases h
  exact hR.refl w

theorem lift (x : EngineM α) : Relates R (liftM x : WalkM α) := by
  intro w e a w' e' h
  rw [runWalk_lift] at h
  rcases hx : runEngine x e with ⟨_ | a, e₁⟩ <;> rw [hx] at h <;> cases h
  exact hR.refl w

theorem fail (problem : Problem) (loc : Location) : Relates R (c.fail problem loc) := by
  refine hR.bind (fun w e a w' e' h => ?_) fun _ => hR.pure _
  rw [runWalk_change] at h
  cases h
  split
  · exact hR.refl w
  · exact hR.diagnostics w _

theorem noteCall (node : NodeId) (call : Resolution) : Relates R (Checking.noteCall node call) := by
  intro w e a w' e' h
  unfold Checking.noteCall at h
  rw [runWalk_change] at h
  cases h
  exact hR.noted w node call

theorem instanceOf (site : Location) (method : MethodId) (self : Option Ty) :
    Relates R (c.instanceOf site method self args) := by
  refine hR.bind (hR.lift _) fun engine => ?_
  have hreturn : ∀ unit, Relates R (c.readReturn unit) := fun unit =>
    hR.bind (hR.lift _) fun _ => hR.bind (hR.lift _) fun _ => hR.pure _
  simp only
  split
  · exact hR.bind (hR.pure _) fun unit => hreturn unit
  · exact hR.bind (hR.lift _) fun _ => hR.bind (hR.lift _) fun _ => hR.bind (hR.pure _)
      fun unit => hreturn unit

theorem enter (site : Location) (self : Option Ty) (candidate : Candidate) :
    Relates R (c.enter site self name args candidate) := by
  cases candidate with
  | method entry => exact hR.bind (hR.instanceOf _ _ _) fun _ => hR.pure _
  | primitive p => exact hR.pure _

theorem enterAll (self : Option Ty) (candidates : List Candidate) (result : Ty)
    (found : List Overload.Match) :
    Relates R (c.enterAll mark self name candidates result found) := by
  induction found generalizing result with
  | nil => exact hR.pure _
  | cons m rest ih =>
    rw [Checking.enterAll]
    split
    · exact ih result
    · exact hR.bind (hR.enter _ _ _) fun _ => hR.bind (hR.noteCall _ _) fun _ => ih _

theorem callAmong (self : Option Ty) (candidates : List Candidate) :
    Relates R (c.callAmong mark self name candidates args) := by
  unfold Checking.callAmong
  simp only
  split
  · exact hR.bind (hR.fail _ _) fun _ => hR.pure _
  · split
    · exact hR.pure _
    · split
      · exact hR.bind (hR.fail _ _) fun _ => hR.pure _
      · exact hR.bind (hR.enterAll _ _ _ _) fun _ => hR.pure _

theorem callOnEach (result : Ty) (receivers : List Ty) :
    Relates R (c.callOnEach mark name args result receivers) := by
  induction receivers generalizing result with
  | nil => exact hR.pure _
  | cons r rest ih =>
    rw [Checking.callOnEach]
    split
    · exact hR.fail _ _
    · refine hR.bind (hR.callAmong _ _) fun o => ?_
      cases o with
      | none => exact hR.pure _
      | some t => exact ih _

theorem callOn (receiver : Ty) : Relates R (c.callOn mark receiver name args) :=
  hR.callOnEach _ _

theorem callTopLevel (bare : Bool) : Relates R (c.callTopLevel mark name args bare) := by
  unfold Checking.callTopLevel
  simp only
  split
  · exact hR.fail _ _
  · exact hR.bind (hR.callAmong _ _) fun _ => hR.pure _

theorem callOnSelf (bare : Bool) : Relates R (c.callOnSelf mark name args bare) := by
  unfold Checking.callOnSelf
  split
  · exact hR.callTopLevel bare
  · simp only
    split
    · exact hR.callTopLevel bare
    · exact hR.bind (hR.callAmong _ _) fun _ => hR.pure _

/-- What is left of an allocation when the initializer was entered. -/
theorem allocated (ty : Ty) (entered : Option Ty) (id : ClassId) : Relates R (match entered with
    | none => Pure.pure .unresolved
    | some _ => do
      Checking.noteCall mark.id ⟨none, .allocate (c.env.classes.nameOf id), args, ty⟩
      return ty) := by
  cases entered with
  | none => exact hR.pure _
  | some _ => exact hR.bind (hR.noteCall _ _) fun _ => hR.pure _

theorem callNew (ty : Ty) : Relates R (c.callNew mark ty args) := by
  unfold Checking.callNew
  split
  · exact hR.pure _
  · simp only
    split
    · exact hR.fail _ _
    · split
      · exact hR.bind (hR.pure _) fun _ => hR.allocated ty _ _
      · exact hR.bind (hR.callAmong _ _) fun _ => hR.allocated ty _ _

theorem callMalloc (ty : Ty) : Relates R (c.callMalloc mark ty args) := by
  unfold Checking.callMalloc
  split
  · split
    · exact hR.fail _ _
    · exact hR.bind (hR.callAmong _ _) fun _ => hR.pure _
  · exact hR.pure _

theorem callOnClass (className : String) (ty : Ty) :
    Relates R (c.callOnClass mark className ty name args) := by
  unfold Checking.callOnClass
  split
  · exact hR.callNew ty
  · split
    · exact hR.callMalloc ty
    · exact hR.fail _ _

end CallFrame

/-- Carrying out calls changes no scope. -/
theorem keepsScopes : CallFrame fun w w' => w'.scopes = w.scopes where
  refl := fun _ => rfl
  trans := fun _ _ _ h h' => h'.trans h
  diagnostics := fun _ _ => rfl
  noted := fun _ _ _ => rfl

end UnionTyping
