/-
  UnionTyping/Proofs/Inference/Kept.lean
  ======================================
  **What the steps of one check keep.**

  `Maintains S I Q x y` says that the step `x` leads from findings and states that satisfy
  `I` to such findings and states again, and that it gives up only with a stop that
  satisfies `S`.  When `I` looks only at the diagnostics that were found, at the worklist
  and at the units, few steps can break it: a report, an assignment and a new instance
  (`Checking.Keeping.parallel`).
-/
import UnionTyping.Proofs.Inference.Parallel

namespace UnionTyping

/-- The step `x` keeps `I` and gives up only with `S`.  Its result goes with one of `y`. -/
def Maintains (S : IterationLimit → Prop) (I : Walk → Engine → Prop) {α β : Type} (Q : α → β → Prop)
    (x : WalkM α) (_ : WalkM β) : Prop :=
  ∀ w e, I w e → ∀ r e', runWalk x w e = (r, e') →
    (∀ stop, r = .error stop → S stop) ∧ ∀ a w', r = .ok (a, w') → I w' e' ∧ ∃ b, Q a b

namespace Maintains

variable {S : IterationLimit → Prop} {I : Walk → Engine → Prop} {α β γ δ : Type}

theorem ret {Q : α → β → Prop} {a : α} {b : β} (hQ : Q a b) :
    Maintains S I Q (pure a) (pure b) := by
  intro w e hI r e' hr
  cases hr
  refine ⟨(fun _ hne => nomatch hne), fun a' w' ha => ?_⟩
  cases ha
  exact ⟨hI, b, hQ⟩

theorem bind {Q : α → β → Prop} {R : γ → δ → Prop} {x : WalkM α} {y : WalkM β} {f : α → WalkM γ}
    {g : β → WalkM δ} (hx : Maintains S I Q x y) (hf : ∀ a b, Q a b → Maintains S I R (f a) (g b)) :
    Maintains S I R (x >>= f) (y >>= g) := by
  intro w e hI r e' hr
  rcases runWalk_bind_eq hr with ⟨stop, hstop, rfl⟩ | ⟨a, w₁, e₁, hrx, hrf⟩
  · refine ⟨fun stop' hstop' => ?_, fun _ _ hne => nomatch hne⟩
    cases hstop'
    exact (hx w e hI _ _ hstop).1 stop rfl
  · obtain ⟨hI₁, b, hab⟩ := (hx w e hI _ _ hrx).2 a w₁ rfl
    exact hf a b hab w₁ e₁ hI₁ r e' hrf

/-- A step that always comes to its end. -/
theorem of_runs {Q : α → β → Prop} {x : WalkM α} {y : WalkM β} (hQ : ∀ a, ∃ b, Q a b)
    (h : ∀ w e, I w e → ∃ a w' e', runWalk x w e = (.ok (a, w'), e') ∧ I w' e') :
    Maintains S I Q x y := by
  intro w e hI r e' hr
  obtain ⟨a, w₁, e₁, hrun, hI₁⟩ := h w e hI
  rw [hrun] at hr
  cases hr
  refine ⟨(fun _ hne => nomatch hne), fun a' w' ha => ?_⟩
  cases ha
  exact ⟨hI₁, hQ a⟩

end Maintains

/-- What `I` says about a check depends on the diagnostics, the worklist and the units only,
    and is kept by reports, assignments and new instances at locations that satisfy `L`. -/
structure Checking.Keeping (c : Checking) (S : IterationLimit → Prop) (L : Location → Prop)
    (I : Walk → Engine → Prop) : Prop where
  walk : ∀ {w w' e}, w'.diagnostics = w.diagnostics → I w e → I w' e
  bindings : ∀ {w e} (bindings : List Binding), I w e →
    I w { e with store := { e.store with bindings } }
  fail : ∀ {w e problem loc}, L loc → I w e →
    I { w with
        diagnostics := w.diagnostics ++ [⟨problem, loc, if c.recheck then c.cause else none⟩] } e
  assign : ∀ {w e site}, L site → I w e → ∀ readers : List UnitId,
    I w (e.withQueue (e.store.queue.enqueueAll readers (some (c.cause.getD site))))
  begin : ∀ {w e site key r e'}, L site → I w e →
    runEngine (c.begin e.units.length (c.cause.getD site)) (e.add key) = (r, e') →
    (∀ stop, r = .error stop → S stop) ∧ (r = .ok () → I w e')

namespace Checking.Keeping

variable {c : Checking} {S : IterationLimit → Prop} {L : Location → Prop} {I : Walk → Engine → Prop}
  (h : c.Keeping S L I)
include h

theorem bindingOf (slot : Slot) : Maintains S I Eq (bindingOf slot) (bindingOf slot) := by
  refine .of_runs (fun a => ⟨a, rfl⟩) fun w e hI => ⟨_, _, _, runWalk_onStore _ _ w e, ?_⟩
  have hintern : (e.store.intern slot).2 =
      { e.store with bindings := (e.store.intern slot).2.bindings } := by
    unfold Store.intern
    split <;> rfl
  rw [hintern]
  exact h.bindings _ hI

theorem read (i : BindingId) : Maintains S I Eq (c.read i) (c.read i) :=
  .of_runs (fun a => ⟨a, rfl⟩) fun w e hI => ⟨_, _, _, runWalk_onStore _ _ w e, h.bindings _ hI⟩

theorem assignAt {i : BindingId} {site : Location} {ty : Ty} (hl : L site) :
    Maintains S I (fun _ _ => True) (c.assign i site ty) (c.assign i site ty) := by
  refine .of_runs (fun _ => ⟨(), trivial⟩) fun w e hI => ⟨_, _, _, runWalk_onStore _ _ w e, ?_⟩
  simp only [Store.assign]
  split
  · exact hI
  · split
    · exact hI
    · split
      · exact h.bindings _ hI
      · rename_i b _ _
        exact h.bindings _ (h.assign hl hI b.readers)

theorem readReturn (unit : UnitId) : Maintains S I Eq (c.readReturn unit) (c.readReturn unit) :=
  .bind (h.bindingOf _) fun i _ hij => hij ▸ .bind (h.read i) fun _ _ hab => hab ▸ .ret rfl

theorem instanceOf {site : Location} {method : MethodId} {self : Option Ty} {args : List Ty}
    (hl : L site) :
    Maintains S I Eq (c.instanceOf site method self args) (c.instanceOf site method self args) := by
  intro w e hI r e' hr
  rcases instanceOf_cases hr with
    ⟨unit, _, hread⟩ | ⟨_, ⟨stop, rfl, hbegun⟩ | ⟨e₁, hbegun, hread⟩⟩
  · exact h.readReturn unit w e hI r e' hread
  · refine ⟨fun stop' hstop => ?_, fun _ _ hne => nomatch hne⟩
    cases hstop
    exact (h.begin hl hI hbegun).1 stop rfl
  · exact h.readReturn _ w e₁ ((h.begin hl hI hbegun).2 rfl) r e' hread

theorem failAt {problem : Problem} {loc : Location} (hl : L loc) :
    Maintains S I Eq (c.fail problem loc) (c.fail problem loc) := by
  refine .of_runs (fun a => ⟨a, rfl⟩) fun w e hI => ⟨_, _, _, rfl, ?_⟩
  dsimp only
  split
  · exact hI
  · exact h.fail hl hI

/-- A step on the findings that reports nothing. -/
theorem found {f : Walk → Walk} {y : WalkM Unit} (hf : ∀ w, (f w).diagnostics = w.diagnostics) :
    Maintains S I (fun _ _ => True) (WalkM.change f) y :=
  .of_runs (fun _ => ⟨(), trivial⟩) fun w e hI => ⟨_, _, _, runWalk_change f w e, h.walk (hf w) hI⟩

theorem bindLocal {name : String} : Maintains S I Eq (c.bindLocal name) (c.bindLocal name) := by
  refine .bind (Q := Eq) (y := (get : WalkM Walk))
    (.of_runs (fun a => ⟨a, rfl⟩) fun w e hI => ⟨_, _, _, runWalk_get w e, hI⟩) fun w _ hw => ?_
  cases hw
  refine .bind (h.bindingOf _) fun i _ hij => ?_
  cases hij
  exact .bind (h.found fun _ => rfl) fun _ _ _ => .ret rfl

/-- A check of which few steps can break `I`, next to itself. -/
theorem parallel : Parallel c c .same L (Maintains S I) where
  env := .refl c.env
  self := rfl
  ret := .ret
  seq := .bind
  lookup := .of_runs (fun a => ⟨a, rfl⟩) fun w e hI => ⟨_, _, _, runWalk_lookup _ w e, hI⟩
  enter := h.found fun _ => rfl
  leave := h.found fun _ => rfl
  loopDepth := .of_runs (fun a => ⟨a, rfl⟩) fun w e hI => ⟨_, _, _, runWalk_loopDepth w e, hI⟩
  deepen := h.found fun _ => rfl
  surface := h.found fun _ => rfl
  fail := h.failAt
  noteType := h.found fun _ => rfl
  noteCall := h.found fun _ => rfl
  bindLocal := h.bindLocal
  ivarBinding := h.bindingOf _
  returnedBinding := h.bindingOf _
  read := h.read _
  assign := h.assignAt
  instanceOf := h.instanceOf

/-- The whole check of a unit. -/
theorem unitBody (hv : c.env.StandAt L) (key : Option Instantiation) {w : Walk} {e e' : Engine}
    {r : Except IterationLimit (Ty × Walk)} (hI : I w e)
    (hr : runWalk (c.unitBody key) w e = (r, e')) :
    (∀ stop, r = .error stop → S stop) ∧ ∀ ty w', r = .ok (ty, w') → I w' e' := by
  obtain ⟨herror, hok⟩ := h.parallel.unitBody hv key w e hI r e' hr
  exact ⟨herror, fun ty w' hty => (hok ty w' hty).1⟩

end Checking.Keeping

end UnionTyping
