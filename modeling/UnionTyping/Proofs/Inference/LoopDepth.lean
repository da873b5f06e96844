/-
  UnionTyping/Proofs/Inference/LoopDepth.lean
  ===========================================
  **The count of loops and blocks is the same before and after every check.**

  A body raises the count by one and lowers it again, and no other step touches it
  (`Checking.restoring`).  So the check of a `break` or `next` meets the count of the bodies
  around it in the expression whose check was begun, and the check of a unit ends with the
  count 0 with which it begins (`Checking.loopDepth_unitBody`).
-/
import UnionTyping.Proofs.Inference.Leaves
import UnionTyping.Proofs.Inference.Pervasive

namespace UnionTyping

namespace Leaves

/-- The steps of a body may not touch the count any more than others. -/
theorem inLoop {x : WalkM Ty} (hx : Leaves Walk.loopDepth x) :
    Leaves Walk.loopDepth (Checking.inLoop x) := by
  intro w e t w' e' h
  unfold Checking.inLoop at h
  rw [runWalk_bind_ok (runWalk_change _ w e)] at h
  obtain ⟨ty, w₁, e₁, hrun, hlast⟩ := runWalk_bind_eq_ok h
  rw [runWalk_bind_ok (runWalk_change _ w₁ e₁), runWalk_pure] at hlast
  cases hlast
  -- the steps of the body begin with one more, and end with it
  have hdepth : w₁.loopDepth = w.loopDepth + 1 := hx _ _ _ _ _ hrun
  exact congrArg (· - 1) hdepth

theorem loopControl {γ : Type} {p : Walk → γ} {c : Checking}
    (hp : ∀ (w : Walk) (ds : List Diagnostic), p { w with diagnostics := ds } = p w)
    (keyword : LoopControl) (loc : Location) : Leaves p (c.loopControl keyword loc) := by
  refine bind (bind get fun w => pure w.loopDepth) fun depth => ?_
  split
  · exact fail hp _ _
  · exact pure _

theorem instanceOf {γ : Type} {p : Walk → γ} {c : Checking} (site : Location) (method : MethodId)
    (self : Option Ty) (args : List Ty) : Leaves p (c.instanceOf site method self args) := by
  have hreturn : ∀ unit, Leaves p (c.readReturn unit) := fun unit =>
    bind (lift _) fun _ => bind (lift _) fun _ => pure _
  refine bind (lift _) fun engine => ?_
  simp only
  split
  · exact bind (pure _) hreturn
  · exact bind (lift _) fun _ => bind (lift _) fun _ => bind (pure _) hreturn

end Leaves

namespace Checking

/-- Every step leaves the count as it is. -/
theorem restoring (c : Checking) : Elementary c fun _ => Leaves Walk.loopDepth where
  ret := .pure
  seq := .bind
  lookup := .lookup
  enter := fun _ => .change fun _ => rfl
  leave := .change fun _ => rfl
  bindLocal := .bindLocal fun _ _ => rfl
  noteType := fun _ _ => .change fun _ => rfl
  noteCall := fun _ _ => .change fun _ => rfl
  fail := fun loc _ => .fail (fun _ _ => rfl) _ loc
  control := .loopControl fun _ _ => rfl
  bindingOf := fun _ => .lift _
  read := .read
  assign := .assign
  inLoop := .inLoop
  instanceOf := .instanceOf

theorem permits_loopControl (c : Checking) (depth : Nat) (e : Expr) :
    c.Permits (fun _ => Leaves Walk.loopDepth) depth e :=
  fun _ m keyword _ => .loopControl (fun _ _ => rfl) keyword m.loc

theorem loopDepth_infer (c : Checking) (e : Expr) : Leaves Walk.loopDepth (c.infer e) :=
  c.restoring.pervasive.infer e 0 (c.permits_loopControl 0 e)

theorem loopDepth_typed (c : Checking) (e : Expr) :
    Leaves Walk.loopDepth (typed e.id (c.infer e)) :=
  @Pervasive.typed c _ 0 c.restoring.pervasive _ _ (c.loopDepth_infer e)

theorem loopDepth_inferBody (c : Checking) (last : Ty) (es : List Expr) :
    Leaves Walk.loopDepth (c.inferBody last es) :=
  c.restoring.pervasive.inferBody es 0 last fun e _ => c.permits_loopControl 0 e

theorem loopDepth_bindParams (c : Checking) (site : Location) (args : List Ty)
    (params : List Param) : Leaves Walk.loopDepth (c.bindParams site args params) :=
  c.restoring.pervasive.bindParams (fun name => .bindLocal (fun _ _ => rfl) name) site args params
    fun e _ => c.permits_loopControl 0 e

theorem loopDepth_unitBody (c : Checking) (key : Option Instantiation) :
    Leaves Walk.loopDepth (c.unitBody key) :=
  c.restoring.pervasive.unitBody (fun name => .bindLocal (fun _ _ => rfl) name)
    (fun e _ => c.permits_loopControl 0 e) (fun _ _ e _ => c.permits_loopControl 0 e) key

end Checking

end UnionTyping
