/-
  UnionTyping/Proofs/Inference/Desugaring.lean
  ============================================
  **A compound assignment is checked like what it stands for.**

  `x op= v` stands for `x = x.op(v)`.  The two are checked in different ways: the first looks
  its variable up once, and the second when it reads it and again when it assigns it, and it
  notes the types of two more nodes on the way.  Neither makes a difference
  (`Checking.infer_opAssign`):

  - What types are noted plays no part in a check (`Checking.heedless`).
  - A check makes names visible that were not, and no name that is visible gets another meaning,
    so the variable is found again after any value (`Checking.growing`).
  - A call is carried out alike wherever it is noted (`Accords.callOn`).
-/
import UnionTyping.Proofs.Inference.Leaves
import UnionTyping.Proofs.Inference.Pervasive
import UnionTyping.Proofs.Scopes

namespace UnionTyping

/-! ### Outcomes that go together -/

/-- Two outcomes of a step: both were given up in the same state, or both came to their end with
    the same result in the same state, and with findings that are in the relation. -/
inductive SameOutcome {α : Type} (R : Walk → Walk → Prop) :
    Except IterationLimit (α × Walk) × Engine → Except IterationLimit (α × Walk) × Engine →
      Prop where
  | stopped (stop : IterationLimit) (e : Engine) : SameOutcome R (.error stop, e) (.error stop, e)
  | ended (a : α) {w w' : Walk} (e : Engine) (related : R w w') :
    SameOutcome R (.ok (a, w), e) (.ok (a, w'), e)

namespace SameOutcome

variable {α β : Type} {R S : Walk → Walk → Prop} {w w' : Walk} {e : Engine}

/-- What follows may use what the first step has led to. -/
theorem bind {x y : WalkM α} {f g : α → WalkM β}
    (h : SameOutcome R (runWalk x w e) (runWalk y w' e))
    (hf : ∀ a w₁ w₁' e₁, runWalk x w e = (.ok (a, w₁), e₁) → R w₁ w₁' →
      SameOutcome S (runWalk (f a) w₁ e₁) (runWalk (g a) w₁' e₁)) :
    SameOutcome S (runWalk (x >>= f) w e) (runWalk (y >>= g) w' e) := by
  rw [runWalk_bind, runWalk_bind]
  generalize hx : runWalk x w e = rx at h
  generalize runWalk y w' e = ry at h
  cases h with
  | stopped stop e₁ => exact .stopped stop e₁
  | ended a e₁ hrelated => exact hf a _ _ e₁ hx hrelated

/-- The type of a node may be noted besides, where the types do not matter. -/
theorem typed {x y : WalkM Ty} (h : SameOutcome R (runWalk x w e) (runWalk y w' e))
    (hR : ∀ (w w' : Walk) (types : NodeMap Ty), R w w' → R w { w' with types := types })
    (node : NodeId) : SameOutcome R (runWalk x w e) (runWalk (Checking.typed node y) w' e) := by
  rw [Checking.typed, runWalk_bind]
  generalize runWalk x w e = rx at h
  generalize runWalk y w' e = ry at h
  cases h with
  | stopped stop e₁ => exact .stopped stop e₁
  | ended ty e₁ hrelated => exact .ended ty e₁ (hR _ _ _ hrelated)

end SameOutcome

/-- Begun with findings that are in the relation, the two steps have outcomes that go together,
    with findings that are in the relation again. -/
def Accords {α : Type} (R : Walk → Walk → Prop) (x y : WalkM α) : Prop :=
  ∀ w w' e, R w w' → SameOutcome R (runWalk x w e) (runWalk y w' e)

namespace Accords

variable {α β : Type} {R : Walk → Walk → Prop} {c : Checking}

theorem ret (a : α) : Accords R (pure a) (pure a) := by
  intro w w' e h
  exact .ended a e h

theorem seq {x y : WalkM α} {f g : α → WalkM β} (hx : Accords R x y)
    (hf : ∀ a, Accords R (f a) (g a)) : Accords R (x >>= f) (y >>= g) := by
  intro w w' e h
  apply (hx w w' e h).bind
  intro a w₁ w₁' e₁ _ hrelated
  exact hf a w₁ w₁' e₁ hrelated

/-- A step of the run is the same whatever was found. -/
theorem lift (x : EngineM α) : Accords R (liftM x) (liftM x) := by
  intro w w' e h
  rw [runWalk_lift, runWalk_lift]
  rcases runEngine x e with ⟨stop | a, e₁⟩
  · exact .stopped stop e₁
  · exact .ended a e₁ h

theorem change {f g : Walk → Walk} (hfg : ∀ w w', R w w' → R (f w) (g w')) :
    Accords R (WalkM.change f) (WalkM.change g) := by
  intro w w' e h
  exact .ended () e (hfg w w' h)

theorem instanceOf (site : Location) (method : MethodId) (self : Option Ty) (args : List Ty) :
    Accords R (c.instanceOf site method self args) (c.instanceOf site method self args) := by
  have hreturn : ∀ unit, Accords R (c.readReturn unit) (c.readReturn unit) := by
    intro unit
    apply seq (lift _)
    intro returned
    exact seq (lift _) fun ty => ret (unit, ty)
  unfold Checking.instanceOf
  apply seq (lift _)
  intro engine
  simp only
  split
  · exact seq (ret _) hreturn
  · apply seq (lift _)
    intro unit
    exact seq (lift _) fun _ => seq (ret unit) hreturn

/-! #### Relations that fix what is visible -/

section

variable (hscopes : ∀ w w' : Walk, R w w' → w.scopes = w'.scopes)
include hscopes

theorem lookup (name : String) : Accords R (Checking.lookup name) (Checking.lookup name) := by
  intro w w' e h
  rw [runWalk_lookup, runWalk_lookup, hscopes w w' h]
  exact .ended _ e h

variable (hvisible : ∀ (w w' : Walk) (f : Scopes → Scopes), R w w' →
  R { w with scopes := f w.scopes } { w' with scopes := f w'.scopes })
include hvisible

theorem bindLocal (name : String) : Accords R (c.bindLocal name) (c.bindLocal name) := by
  intro w w' e h
  unfold Checking.bindLocal
  rw [runWalk_bind_ok (runWalk_get w e), runWalk_bind_ok (runWalk_get w' e), hscopes w w' h]
  refine seq (lift _) (fun i => ?_) w w' e h
  exact seq (change fun w w' h => hvisible w w' (·.declare name i) h) fun _ => ret i

end

theorem fail (hsame : ∀ w w' : Walk, R w w' → w.diagnostics = w'.diagnostics)
    (hreport : ∀ (w w' : Walk) (ds : List Diagnostic), R w w' →
      R { w with diagnostics := ds } { w' with diagnostics := ds })
    (problem : Problem) (loc : Location) :
    Accords R (c.fail problem loc) (c.fail problem loc) := by
  refine seq (change fun w w' h => ?_) fun _ => ret _
  simp only [hsame w w' h]
  split
  · exact h
  · exact hreport w w' _ h

end Accords

/-! ### The types that are noted -/

/-- Findings that differ in the types at most. -/
structure Walk.Similar (w w' : Walk) : Prop where
  scopes : w.scopes = w'.scopes
  loopDepth : w.loopDepth = w'.loopDepth
  diagnostics : w.diagnostics = w'.diagnostics
  calls : w.calls = w'.calls

namespace Checking

theorem similar_fail (c : Checking) (problem : Problem) (loc : Location) :
    Accords Walk.Similar (c.fail problem loc) (c.fail problem loc) := by
  apply Accords.fail
  · intro w w' h
    exact h.diagnostics
  · intro w w' ds h
    exact ⟨h.scopes, h.loopDepth, rfl, h.calls⟩

theorem similar_loopControl (c : Checking) (keyword : LoopControl) (loc : Location) :
    Accords Walk.Similar (c.loopControl keyword loc) (c.loopControl keyword loc) := by
  have hdepth : Accords Walk.Similar loopDepth loopDepth := by
    intro w w' e h
    rw [runWalk_loopDepth, runWalk_loopDepth, h.loopDepth]
    exact .ended _ e h
  apply Accords.seq hdepth
  intro depth
  split
  · exact c.similar_fail _ loc
  · exact .ret _

/-- No step heeds the types that were noted. -/
theorem heedless (c : Checking) : Elementary c fun _ _ x => Accords Walk.Similar x x := by
  have hscopes : ∀ w w' : Walk, w.Similar w' → w.scopes = w'.scopes := fun _ _ h => h.scopes
  have hvisible : ∀ (w w' : Walk) (f : Scopes → Scopes), w.Similar w' →
      Walk.Similar { w with scopes := f w.scopes } { w' with scopes := f w'.scopes } :=
    fun _ _ f h => ⟨congrArg f h.scopes, h.loopDepth, h.diagnostics, h.calls⟩
  have hdepth : ∀ (w w' : Walk) (f : Nat → Nat), w.Similar w' →
      Walk.Similar { w with loopDepth := f w.loopDepth } { w' with loopDepth := f w'.loopDepth } :=
    fun _ _ f h => ⟨h.scopes, congrArg f h.loopDepth, h.diagnostics, h.calls⟩
  constructor
  · exact .ret
  · exact .seq
  · exact .lookup hscopes
  · exact fun call => .change fun w w' h => hvisible w w' (·.enter (.block call)) h
  · exact .change fun w w' h => hvisible w w' (·.leave) h
  · exact .bindLocal hscopes hvisible
  · exact fun _ _ => .change fun _ _ h => ⟨h.scopes, h.loopDepth, h.diagnostics, h.calls⟩
  · exact fun _ _ => .change fun _ _ h =>
      ⟨h.scopes, h.loopDepth, h.diagnostics, by simp only [h.calls]⟩
  · exact fun loc _ => c.similar_fail _ loc
  · exact c.similar_loopControl
  · exact fun _ => .lift _
  · exact fun _ => .lift _
  · exact fun _ _ _ => .lift _
  · intro _ x hx
    apply Accords.seq (.change fun _ _ h => hdepth _ _ (· + 1) h)
    intro _
    apply Accords.seq hx
    intro ty
    exact .seq (.change fun _ _ h => hdepth _ _ (· - 1) h) fun _ => .ret ty
  · exact .instanceOf

end Checking

/-! ### Names that stay visible -/

namespace Scopes

variable {s s' s'' : Scopes} {name : String} {i : BindingId}

/-- Another name means the same after a declaration. -/
theorem lookup_declare_of_ne {other : String} (h : other ≠ name) :
    (s.declare name i).lookup other = s.lookup other := by
  rw [lookup_declare, if_neg h]

/-- What was declared in a frame is forgotten with the frame. -/
theorem leave_declare (h : s.inner ≠ []) :
    (s.declare name i).inner ≠ [] ∧ (s.declare name i).leave = s.leave := by
  obtain ⟨inner, body⟩ := s
  cases inner with
  | nil => exact absurd rfl h
  | cons frame outer =>
    constructor
    · exact List.cons_ne_nil _ _
    · rfl

/-- Scopes that come from other ones in between entering a frame and leaving it: only the
    innermost frame has changed. -/
def Within (s s' : Scopes) : Prop := s.inner ≠ [] → s'.inner ≠ [] ∧ s'.leave = s.leave

theorem Within.trans (h : s.Within s') (h' : s'.Within s'') : s.Within s'' := by
  intro hinner
  obtain ⟨hinner', hleave⟩ := h hinner
  obtain ⟨hinner'', hleave'⟩ := h' hinner'
  exact ⟨hinner'', hleave'.trans hleave⟩

structure Grows (s s' : Scopes) : Prop where
  visible : ∀ name i, s.lookup name = some i → s'.lookup name = some i
  within : s.Within s'

namespace Grows

theorem refl (s : Scopes) : s.Grows s where
  visible := fun _ _ h => h
  within := fun h => ⟨h, rfl⟩

theorem trans (h : s.Grows s') (h' : s'.Grows s'') : s.Grows s'' where
  visible := fun name i hi => h'.visible name i (h.visible name i hi)
  within := h.within.trans h'.within

theorem declare (h : s.lookup name = none) (i : BindingId) : s.Grows (s.declare name i) where
  visible := by
    intro other j hj
    have hne : other ≠ name := by
      intro heq
      rw [heq, h] at hj
      cases hj
    rw [lookup_declare_of_ne hne, hj]
  within := leave_declare

end Grows

end Scopes

namespace Checking

/-- Carrying out calls declares no name. -/
theorem grows : CallFrame fun w w' => w.scopes.Grows w'.scopes where
  refl := fun w => .refl w.scopes
  trans := fun _ _ _ h h' => h.trans h'
  diagnostics := fun w _ => .refl w.scopes
  noted := fun w _ _ => .refl w.scopes

/-- A declaration makes the name visible, whatever it meant before. -/
theorem runWalk_bindLocal (c : Checking) (name : String) (w : Walk) (e : Engine) :
    ∃ i e', runWalk (c.bindLocal name) w e =
      (.ok (i, { w with scopes := w.scopes.declare name i }), e') :=
  ⟨_, _, rfl⟩

/-- Parameters may hide names that are visible, but only until their block is left. -/
theorem within_bindLocals (c : Checking) (names : List String) :
    Relates (fun w w' => w.scopes.Within w'.scopes) (c.bindLocals names) := by
  induction names with
  | nil =>
    intro w e a w' e' h hinner
    cases h
    exact ⟨hinner, rfl⟩
  | cons name names ih =>
    intro w e a w' e' h
    obtain ⟨i, e₁, hrun⟩ := c.runWalk_bindLocal name w e
    rw [bindLocals, runWalk_bind_ok hrun] at h
    have hfirst : w.scopes.Within (w.scopes.declare name i) := Scopes.leave_declare
    exact hfirst.trans (ih _ _ _ _ _ h)

theorem grows_inLoop {x : WalkM Ty} (hx : Relates (fun w w' => w.scopes.Grows w'.scopes) x) :
    Relates (fun w w' => w.scopes.Grows w'.scopes) (inLoop x) := by
  have hchange : ∀ f : Walk → Walk, (∀ w, (f w).scopes = w.scopes) →
      Relates (fun w w' => w.scopes.Grows w'.scopes) (WalkM.change f) := by
    intro f hf w e a w' e' h
    rw [runWalk_change] at h
    cases h
    rw [hf w]
    exact .refl w.scopes
  unfold inLoop
  apply grows.bind
  · exact hchange _ fun _ => rfl
  · intro _
    apply grows.bind hx
    intro ty
    exact grows.bind (hchange _ fun _ => rfl) fun _ => grows.pure ty

theorem grows_loopControl (c : Checking) (keyword : LoopControl) (loc : Location) :
    Relates (fun w w' => w.scopes.Grows w'.scopes) (c.loopControl keyword loc) := by
  have hdepth : Relates (fun w w' => w.scopes.Grows w'.scopes) loopDepth := by
    intro w e a w' e' h
    rw [runWalk_loopDepth] at h
    cases h
    exact .refl w.scopes
  apply grows.bind hdepth
  intro depth
  split
  · exact grows.fail _ loc
  · exact grows.pure _

/-- After a block the same names are visible as before it. -/
theorem grows_inBlock (c : Checking) {call : NodeId} {params : List String} {x : WalkM Ty}
    (hx : Relates (fun w w' => w.scopes.Grows w'.scopes) x) :
    Relates (fun w w' => w.scopes.Grows w'.scopes) (c.inBlock call params x) := by
  intro w e a w' e' h
  rw [inBlock, runWalk_bind_ok (runWalk_change _ w e)] at h
  obtain ⟨_, w₁, e₁, hparams, h⟩ := runWalk_bind_eq_ok h
  obtain ⟨_, w₂, e₂, hsteps, h⟩ := runWalk_bind_eq_ok h
  rw [runWalk_change] at h
  cases h
  have hwithin := (c.within_bindLocals params _ _ _ _ _ hparams).trans
    (grows_inLoop hx _ _ _ _ _ hsteps).within
  have hleave : w₂.scopes.leave = w.scopes := (hwithin (List.cons_ne_nil _ _)).2
  rw [hleave]
  exact .refl w.scopes

/-- No check takes away a name that is visible, or gives it another binding. -/
theorem growing (c : Checking) :
    Pervasive c fun _ => Relates fun w w' => w.scopes.Grows w'.scopes := by
  constructor
  · exact grows.pure
  · exact grows.bind
  · intro _ name w e a w' e' h
    cases h
    exact .refl w.scopes
  · intro _ node ty w e a w' e' h
    cases h
    exact .refl w.scopes
  · exact grows.noteCall
  · exact fun loc _ => grows.fail _ loc
  · exact c.grows_loopControl
  · exact fun _ => grows.lift _
  · exact fun _ => grows.lift _
  · exact fun _ _ _ => grows.lift _
  · intro _ name loc w e a w' e' h
    unfold bindingToAssign at h
    rw [runWalk_bind_ok (runWalk_lookup name w e)] at h
    cases hlookup : w.scopes.lookup name with
    | some i =>
      rw [hlookup] at h
      cases h
      exact .refl w.scopes
    | none =>
      obtain ⟨i, e₁, hrun⟩ := c.runWalk_bindLocal name w e
      simp only [hlookup] at h
      rw [runWalk_bind_ok hrun] at h
      cases h
      exact .declare hlookup i
  · exact grows_inLoop
  · exact c.grows_inBlock
  · exact fun site method self _ => grows.instanceOf site method self

end Checking

/-! ### Calls at another node -/

def Walk.notedAll (walk : Walk) (node : NodeId) (noted : List Resolution) : Walk :=
  noted.foldl (·.noted node ·) walk

theorem Walk.notedAll_concat (walk : Walk) (node : NodeId) (noted : List Resolution)
    (call : Resolution) :
    walk.notedAll node (noted ++ [call]) = (walk.notedAll node noted).noted node call :=
  List.foldl_concat _ _ _ _

/-- Findings that differ in the types, and in that the same calls were noted at one node in
    the one and at another node in the other. -/
structure Walk.Alike (node node' : NodeId) (w w' : Walk) : Prop where
  scopes : w.scopes = w'.scopes
  loopDepth : w.loopDepth = w'.loopDepth
  diagnostics : w.diagnostics = w'.diagnostics
  calls : ∃ (before : Walk) (noted : List Resolution),
    w.calls = (before.notedAll node noted).calls ∧ w'.calls = (before.notedAll node' noted).calls

/-- The same calls were noted at any two nodes if none were. -/
theorem Walk.Similar.alike {w w' : Walk} (h : w.Similar w') (node node' : NodeId) :
    w.Alike node node' w' :=
  ⟨h.scopes, h.loopDepth, h.diagnostics, w', [], h.calls, rfl⟩

namespace Accords

variable {R : Walk → Walk → Prop} {c : Checking} {mark mark' : Mark} {self : Option Ty}
  {name : String} {args : List Ty}

theorem noteCall (node node' : NodeId) (call : Resolution) :
    Accords (Walk.Alike node node') (Checking.noteCall node call)
      (Checking.noteCall node' call) := by
  refine change fun w w' h => ?_
  obtain ⟨before, noted, hcalls, hcalls'⟩ := h.calls
  refine ⟨h.scopes, h.loopDepth, h.diagnostics, before, noted ++ [call], ?_, ?_⟩
  · rw [Walk.notedAll_concat, Walk.noted, ← hcalls]
  · rw [Walk.notedAll_concat, Walk.noted, ← hcalls']

/-! #### Carrying out a call at two nodes of one place -/

section

variable (hloc : mark.loc = mark'.loc)
  (hfail : ∀ problem loc, Accords R (c.fail problem loc) (c.fail problem loc))
  (hnote : ∀ call, Accords R (Checking.noteCall mark.id call) (Checking.noteCall mark'.id call))
include hloc hnote

theorem enterAll {candidates : List Candidate} {result : Ty} (found : List Overload.Match) :
    Accords R (c.enterAll mark self name candidates result found)
      (c.enterAll mark' self name candidates result found) := by
  induction found generalizing result with
  | nil => exact ret result
  | cons m rest ih =>
    rw [Checking.enterAll, Checking.enterAll, ← hloc]
    cases candidates[m.candidate]? with
    | none => exact ih
    | some candidate =>
      have henter : Accords R (c.enter mark.loc self name m.args candidate)
          (c.enter mark.loc self name m.args candidate) := by
        cases candidate with
        | method entry => exact seq (instanceOf mark.loc entry.id self m.args) fun _ => ret _
        | primitive p => exact ret _
      apply seq henter
      intro entered
      exact seq (hnote _) fun _ => ih

include hfail

theorem callAmong {candidates : List Candidate} :
    Accords R (c.callAmong mark self name candidates args)
      (c.callAmong mark' self name candidates args) := by
  unfold Checking.callAmong
  rw [← hloc]
  simp only
  split
  · exact seq (hfail _ _) fun _ => ret none
  · split
    · exact ret _
    · split
      · exact seq (hfail _ _) fun _ => ret none
      · exact seq (enterAll hloc hnote _) fun ty => ret (some ty)

theorem callOnEach {result : Ty} (receivers : List Ty) :
    Accords R (c.callOnEach mark name args result receivers)
      (c.callOnEach mark' name args result receivers) := by
  induction receivers generalizing result with
  | nil => exact ret result
  | cons member rest ih =>
    rw [Checking.callOnEach, Checking.callOnEach, ← hloc]
    split
    · exact hfail _ _
    · apply seq (callAmong hloc hfail hnote)
      intro o
      cases o with
      | none => exact ret _
      | some ty => exact ih

/-- A call on a value is carried out alike at both nodes. -/
theorem callOn (receiver : Ty) :
    Accords R (c.callOn mark receiver name args) (c.callOn mark' receiver name args) :=
  callOnEach hloc hfail hnote receiver.members

end

end Accords

/-! ### Compound assignments -/

/-- `x = x.op(v)`, which `x op= v` stands for. -/
def Expr.reassign (assign call receiver : Mark) (x op : String) (v : Expr) (parens : Bool) : Expr :=
  .assign assign (.local x) (.call call (some (.ident receiver x)) op [v] none parens)

namespace Checking

variable (c : Checking)

/-- A compound assignment looks its variable up once. -/
theorem runWalk_opAssign {w : Walk} {x : String} {i : BindingId} (h : w.scopes.lookup x = some i)
    (m : Mark) (op : String) (v : Expr) (e : Engine) :
    runWalk (c.infer (.opAssign m (.local x) op v)) w e =
      runWalk (do
        let current ← c.read i
        let operand ← typed v.id (c.infer v)
        let ty ← c.callOn m current op [operand]
        c.assign i m.loc ty
        return ty) w e := by
  have hbinding : runWalk (c.bindingToUpdate m (.local x) op) w e = (.ok (some i, w), e) := by
    unfold bindingToUpdate
    simp only
    rw [runWalk_bind_ok (runWalk_lookup x w e), h]
    rfl
  rw [infer, runWalk_bind_ok hbinding]

/-- The value of an assignment to a visible local goes to its binding. -/
theorem runWalk_bindingToAssign {w : Walk} {x : String} {i : BindingId}
    (h : w.scopes.lookup x = some i) (loc : Location) (e : Engine) :
    runWalk (c.bindingToAssign (.local x) loc) w e = (.ok (some i, w), e) := by
  unfold bindingToAssign
  simp only
  rw [runWalk_bind_ok (runWalk_lookup x w e), h]
  rfl

/-- What a compound assignment stands for reads its variable as the receiver of the call. -/
theorem runWalk_reassign {w : Walk} {x : String} {i : BindingId} (h : w.scopes.lookup x = some i)
    (assign call receiver : Mark) {op : String} (hop : op ≠ "ptr") (v : Expr)
    (parens : Bool) (e : Engine) :
    runWalk (c.infer (Expr.reassign assign call receiver x op v parens)) w e =
      runWalk (do
        let current ← typed receiver.id (c.read i)
        let operand ← typed v.id (c.infer v)
        let ty ← typed call.id (c.callOn call current op [operand])
        match ← c.bindingToAssign (.local x) assign.loc with
        | some binding =>
          c.assign binding assign.loc ty
          return ty
        | none => return .unresolved) w e := by
  have hform : c.infer (Expr.reassign assign call receiver x op v parens) = (do
      let current ← typed receiver.id (c.infer (.ident receiver x))
      let operand ← typed v.id (c.infer v)
      let ty ← typed call.id (c.callOn call current op [operand])
      match ← c.bindingToAssign (.local x) assign.loc with
      | some binding =>
        c.assign binding assign.loc ty
        return ty
      | none => return .unresolved) := by
    simp only [Expr.reassign, infer, if_neg hop, Env.receiverKind, inferArgs, inferBlock, typed,
      bind_assoc, pure_bind]
    rfl
  have hread : runWalk (c.infer (.ident receiver x)) w e = runWalk (c.read i) w e := by
    rw [infer, runWalk_bind_ok (runWalk_lookup x w e), h]
  have htyped : runWalk (typed receiver.id (c.infer (.ident receiver x))) w e =
      runWalk (typed receiver.id (c.read i)) w e := by
    rw [typed, runWalk_bind, hread, ← runWalk_bind, ← typed]
  rw [hform, runWalk_bind, htyped, ← runWalk_bind]

/-- A compound assignment to a visible local is checked like the assignment of the call that it
    stands for: with the same result, the same steps of the run, the same names and problems,
    and the same ways of carrying out its call, or both are given up. -/
theorem infer_opAssign {w : Walk} {m assign call : Mark} {x op : String} {i : BindingId}
    (hassign : assign.loc = m.loc) (hcall : call.loc = m.loc) (hop : op ≠ "ptr")
    (hx : w.scopes.lookup x = some i) (receiver : Mark) (v : Expr) (parens : Bool)
    (e : Engine) :
    SameOutcome (Walk.Alike m.id call.id)
      (runWalk (c.infer (.opAssign m (.local x) op v)) w e)
      (runWalk (c.infer (Expr.reassign assign call receiver x op v parens)) w e) := by
  rw [c.runWalk_opAssign hx, c.runWalk_reassign hx assign call receiver hop]
  have hsimilar : w.Similar w := ⟨rfl, rfl, rfl, rfl⟩
  -- The variable is read.
  have hreads : Accords Walk.Similar (c.read i) (c.read i) := .lift _
  have hread := (hreads w w e hsimilar).typed
    (fun _ _ _ h => ⟨h.scopes, h.loopDepth, h.diagnostics, h.calls⟩) receiver.id
  apply hread.bind
  intro current w₁ w₁' e₁ hrun₁ hsimilar₁
  have hgrows₁ : w.scopes.Grows w₁.scopes := grows.lift _ _ _ _ _ _ hrun₁
  -- The value is evaluated.
  have hheedless := c.heedless.pervasive
  have hvalue := hheedless.infer v 0 fun _ m keyword _ => c.similar_loopControl keyword m.loc
  have htyped := @hheedless.typed _ _ 0 v.id _ hvalue
  apply (htyped w₁ w₁' e₁ hsimilar₁).bind
  intro operand w₂ w₂' e₂ hrun₂ hsimilar₂
  have hgrowing := c.growing.infer v 0 fun _ m keyword _ => c.grows_loopControl keyword m.loc
  have hgrows₂ : w₁.scopes.Grows w₂.scopes :=
    @c.growing.typed _ _ 0 v.id _ hgrowing _ _ _ _ _ hrun₂
  -- The call is carried out at the one node or at the other.
  have hfail : ∀ problem loc,
      Accords (Walk.Alike m.id call.id) (c.fail problem loc) (c.fail problem loc) := by
    intro problem loc
    apply Accords.fail
    · intro w w' h
      exact h.diagnostics
    · intro w w' ds h
      exact ⟨h.scopes, h.loopDepth, rfl, h.calls⟩
  have hcallOn : Accords (Walk.Alike m.id call.id) (c.callOn m current op [operand])
      (c.callOn call current op [operand]) :=
    .callOn hcall.symm hfail (.noteCall m.id call.id) current
  have hcalled := (hcallOn w₂ w₂' e₂ (hsimilar₂.alike m.id call.id)).typed
    (fun _ _ _ h => ⟨h.scopes, h.loopDepth, h.diagnostics, h.calls⟩) call.id
  apply hcalled.bind
  intro ty w₃ w₃' e₃ hrun₃ halike
  have hgrows₃ : w₂.scopes.Grows w₃.scopes := grows.callOn current _ _ _ _ _ hrun₃
  -- The variable is still there, so it is what is assigned.
  have hx' : w₃'.scopes.lookup x = some i := by
    rw [← halike.scopes]
    exact ((hgrows₁.trans hgrows₂).trans hgrows₃).visible x i hx
  rw [runWalk_bind_ok (c.runWalk_bindingToAssign hx' assign.loc e₃), hassign]
  exact Accords.seq (.lift _) (fun _ => .ret ty) w₃ w₃' e₃ halike

def ofScript : Checking :=
  let classes := ClassTable.empty.addBuiltins.2
  ⟨⟨{}, classes, classes.hierarchy, .empty, .empty, []⟩, topUnit, none, none, false,
    fun _ _ => pure ()⟩

def starting : Expr := .assign ⟨1, .unplaced⟩ (.local "n") (.literal ⟨0, .unplaced⟩ .int)

/-- The statement `n += 1`. -/
def counting : Expr := .opAssign ⟨3, .unplaced⟩ (.local "n") "+" (.literal ⟨2, .unplaced⟩ .int)

/-- The statement `n = n.+(1)`. -/
def recounting : Expr :=
  .reassign ⟨6, .unplaced⟩ ⟨5, .unplaced⟩ ⟨4, .unplaced⟩ "n" "+"
    (.literal ⟨2, .unplaced⟩ .int) false

/-- After `n = 1`, the addition in `n += 1` is noted as the one in `n = n.+(1)` would be. -/
theorem counting_like_recounting :
    ∃ w e w' e', runWalk (ofScript.infer starting) .start .start = (.ok (.int, w), e) ∧
      w.scopes.lookup "n" = some 0 ∧
      runWalk (ofScript.infer counting) w e = (.ok (.int, w'), e') ∧
      w'.calls.find? 3 ≠ none ∧
      SameOutcome (Walk.Alike 3 5) (runWalk (ofScript.infer counting) w e)
        (runWalk (ofScript.infer recounting) w e) := by
  have hop : "+" ≠ "ptr" := by decide
  refine ⟨_, _, _, _, rfl, rfl, rfl, ?_, ?_⟩
  · decide +kernel
  · exact @infer_opAssign ofScript _ ⟨3, .unplaced⟩ ⟨6, .unplaced⟩ ⟨5, .unplaced⟩ "n" "+" 0
      rfl rfl hop rfl ⟨4, .unplaced⟩ (.literal ⟨2, .unplaced⟩ .int) false _

end Checking

end UnionTyping
