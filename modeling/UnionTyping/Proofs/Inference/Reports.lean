/-
  UnionTyping/Proofs/Inference/Reports.lean
  =========================================
  **What a check can report.**

  A check reports ordinary problems, and each `break` and `next` that is loose in what it checks
  outside of loops.  Calls, blocks and new instances do not add to that: a block is checked as
  the body of a loop, and the check of an instance begins outside of all loops, wherever it is
  called.  A property that these problems have (`Env.Reports`) is therefore kept by every check
  (`reported_checkOnce`), however often units are checked, and the problem for which a run
  rejects a program has it (`Program.reported_of_rejected`).  Two properties go with that: no
  `break` or `next` is reported that stands in a loop (`Program.orderly_of_rejected`), and a
  number of arguments that is reported as wrong is wrong.
-/
import UnionTyping.Proofs.Inference.Located
import UnionTyping.Proofs.Inference.Pervasive

namespace UnionTyping

variable {P : Problem → Prop}

/-! ### Steps of a check -/

def Reported (P : Problem → Prop) (ds : List Diagnostic) : Prop := ∀ d ∈ ds, P d.problem

def UnitRecord.AllReported (P : Problem → Prop) (us : List UnitRecord) : Prop :=
  ∀ u ∈ us, Reported P u.diagnostics

/-- A step in so many loops and blocks after which the problems that are reported satisfy `P` if
    they did before. -/
def KeepsReported (P : Problem → Prop) (depth : Nat) {α : Type} (x : WalkM α) : Prop :=
  Maintains (fun _ => True)
    (fun w e => w.loopDepth = depth ∧ Reported P w.diagnostics ∧
      UnitRecord.AllReported P e.units) Eq x x

namespace KeepsReported

variable {α β : Type} {c : Checking} {depth : Nat}

theorem bind {x : WalkM α} {f : α → WalkM β} (hx : KeepsReported P depth x)
    (hf : ∀ a, KeepsReported P depth (f a)) : KeepsReported P depth (x >>= f) := by
  refine Maintains.bind hx fun a b hab => ?_
  rw [← hab]
  exact hf a

/-- A step on the findings. -/
theorem found {f : Walk → Walk} (hdepth : ∀ w, (f w).loopDepth = w.loopDepth)
    (hf : ∀ w, Reported P w.diagnostics → Reported P (f w).diagnostics) :
    KeepsReported P depth (WalkM.change f) := by
  apply Maintains.of_runs
  · exact fun a => ⟨a, rfl⟩
  · intro w e h
    exact ⟨_, _, _, runWalk_change f w e, (hdepth w).trans h.1, hf w h.2.1, h.2.2⟩

/-- A step on the bindings. -/
theorem onStore (op : Operation) (f : Store → α × Store) :
    KeepsReported P depth (liftM (Engine.onStore op f)) := by
  apply Maintains.of_runs
  · exact fun a => ⟨a, rfl⟩
  · intro w e h
    exact ⟨_, _, _, runWalk_onStore op f w e, h⟩

theorem lookup (name : String) : KeepsReported P depth (Checking.lookup name) := by
  apply Maintains.of_runs
  · exact fun a => ⟨a, rfl⟩
  · intro w e h
    exact ⟨_, _, _, runWalk_lookup name w e, h⟩

theorem fail {problem : Problem} (loc : Location) (hproblem : P problem) :
    KeepsReported P depth (c.fail problem loc) := by
  refine bind (found (fun w => ?_) fun w h => ?_) fun _ => .ret rfl
  · split <;> rfl
  split
  · exact h
  · exact List.forall_mem_append.mpr ⟨h, List.forall_mem_singleton.mpr hproblem⟩

theorem bindLocal (name : String) : KeepsReported P depth (c.bindLocal name) := by
  have hget : KeepsReported P depth (get : WalkM Walk) := by
    apply Maintains.of_runs
    · exact fun a => ⟨a, rfl⟩
    · intro w e h
      exact ⟨_, _, _, runWalk_get w e, h⟩
  apply bind hget
  intro w
  apply bind (onStore _ _)
  intro i
  exact bind (found (fun _ => rfl) fun _ h => h) fun _ => .ret rfl

/-- A new instance reports nothing, and what is done about it keeps what is reported. -/
theorem instanceOf
    (hbegin : ∀ unit loc, Engine.KeepsUnits (UnitRecord.AllReported P) (c.begin unit loc))
    (site : Location) (method : MethodId) (self : Option Ty) (args : List Ty) :
    KeepsReported P depth (c.instanceOf site method self args) := by
  have hreturn : ∀ unit, KeepsReported P depth (c.readReturn unit) := fun unit =>
    bind (onStore _ _) fun i => bind (onStore _ _) fun ty => .ret rfl
  intro w e h r e' hr
  rcases instanceOf_cases hr with
    ⟨unit, _, hread⟩ | ⟨_, ⟨stop, rfl, _⟩ | ⟨e₁, hbegun, hread⟩⟩
  · exact hreturn unit w e h r e' hread
  · exact ⟨fun _ _ => trivial, fun _ _ hne => nomatch hne⟩
  · have hadded : UnitRecord.AllReported P (e.add ⟨method, self, args⟩).units :=
      List.forall_mem_append.mpr
        ⟨h.2.2, List.forall_mem_singleton.mpr (List.forall_mem_nil _)⟩
    exact hreturn _ w e₁ ⟨h.1, h.2.1, hbegin _ _ _ _ hadded hbegun⟩ r e' hread

/-- In the body of a loop or a block the steps are one level deeper. -/
theorem inLoop {x : WalkM Ty} (hx : KeepsReported P (depth + 1) x) :
    KeepsReported P depth (Checking.inLoop x) := by
  intro w e h r e' hr
  unfold Checking.inLoop at hr
  rw [runWalk_bind_ok (runWalk_change _ w e)] at hr
  have hdeeper := hx { w with loopDepth := w.loopDepth + 1 } e ⟨congrArg (· + 1) h.1, h.2⟩
  rcases runWalk_bind_eq hr with ⟨stop, _, rfl⟩ | ⟨ty, w₁, e₁, hrun, hlast⟩
  · exact ⟨fun _ _ => trivial, fun _ _ hne => nomatch hne⟩
  · obtain ⟨⟨hdepth, hreported⟩, _⟩ := (hdeeper _ _ hrun).2 ty w₁ rfl
    rw [runWalk_bind_ok (runWalk_change _ w₁ e₁), runWalk_pure] at hlast
    cases hlast
    refine ⟨fun _ _ => trivial, fun a w' ha => ?_⟩
    cases ha
    exact ⟨⟨congrArg (· - 1) hdepth, hreported⟩, ty, rfl⟩

/-- A `break` or `next` in the body of a loop or a block is not reported. -/
theorem control (keyword : LoopControl) (loc : Location) :
    KeepsReported P (depth + 1) (c.loopControl keyword loc) := by
  apply Maintains.of_runs
  · exact fun a => ⟨a, rfl⟩
  · intro w e h
    refine ⟨.nil, w, e, ?_, h⟩
    unfold Checking.loopControl
    rw [runWalk_bind_ok (runWalk_loopDepth w e), h.1, if_neg (Nat.succ_ne_zero depth)]
    rfl

theorem stray {keyword : LoopControl} (loc : Location)
    (h : P (.strayLoopControl keyword.keyword)) :
    KeepsReported P 0 (c.loopControl keyword loc) := by
  intro w e hw r e' hr
  unfold Checking.loopControl at hr
  rw [runWalk_bind_ok (runWalk_loopDepth w e), hw.1, if_pos rfl] at hr
  exact fail loc h w e hw r e' hr

/-- A property of ordinary problems is kept by every step but the report of a `break` or
    `next`. -/
theorem elementary (hordinary : ∀ problem, problem.isOrdinary = true → P problem)
    (hbegin : ∀ unit loc, Engine.KeepsUnits (UnitRecord.AllReported P) (c.begin unit loc)) :
    Elementary c (KeepsReported P) where
  ret := fun _ => .ret rfl
  seq := bind
  lookup := lookup
  enter := fun _ => found (fun _ => rfl) fun _ h => h
  leave := found (fun _ => rfl) fun _ h => h
  bindLocal := bindLocal
  noteType := fun _ _ => found (fun _ => rfl) fun _ h => h
  noteCall := fun _ _ => found (fun _ => rfl) fun _ h => h
  fail := fun loc h => fail loc (hordinary _ h)
  control := control
  bindingOf := fun _ => onStore _ _
  read := fun _ => onStore _ _
  assign := fun _ _ _ => onStore _ _
  inLoop := inLoop
  instanceOf := instanceOf hbegin

end KeepsReported

/-! ### Checks and runs -/

/-- What can be reported of an expression outside of loops, besides ordinary problems. -/
def Expr.Reports (P : Problem → Prop) (e : Expr) : Prop :=
  ∀ m keyword, Loose (.control m keyword) e → P (.strayLoopControl keyword.keyword)

/-- All that checks can report satisfies `P`. -/
structure Env.Reports (env : Env) (P : Problem → Prop) : Prop where
  ordinary : ∀ problem, problem.isOrdinary = true → P problem
  topLevel : ∀ e ∈ env.topLevel, e.Reports P
  methods : ∀ m ∈ env.methods.declared, ∀ e ∈ m.definition.exprs, e.Reports P

variable {env : Env}

theorem reported_checkOnce (henv : env.Reports P) (begin : Engine.Begin) (recheck : Bool)
    (hbegin : ∀ unit loc, Engine.KeepsUnits (UnitRecord.AllReported P) (begin recheck unit loc))
    (unit : UnitId) (cause : Option Location) :
    Engine.KeepsUnits (UnitRecord.AllReported P)
      (Engine.checkOnce env begin unit cause recheck) := by
  intro e e' h hr
  obtain ⟨_, result, walk, e₁, hrun, rfl⟩ := exists_unitBody_of_checkOnce hr
  let c := e.checkingOf env begin unit cause recheck
  have hsteps : Elementary c (KeepsReported P) :=
    KeepsReported.elementary henv.ordinary hbegin
  have hpermits : ∀ e : Expr, e.Reports P → c.Permits (KeepsReported P) 0 e :=
    fun _ hreports _ m keyword hloose => KeepsReported.stray m.loc (hreports m keyword hloose)
  have hbody : KeepsReported P 0 (c.unitBody (e.keyOf unit)) :=
    hsteps.pervasive.unitBody hsteps.bindLocal (fun e he => hpermits e (henv.topLevel e he))
      (fun m hm e he => hpermits e (henv.methods m hm e he)) _
  have hstart : Reported P Walk.start.diagnostics := List.forall_mem_nil _
  obtain ⟨⟨_, hwalk, hunits⟩, _⟩ :=
    (hbody .start e.count ⟨rfl, hstart, h⟩ _ _ hrun).2 result walk rfl
  exact Store.forall_mem_modify hunits fun _ _ => hwalk

theorem reported_final (henv : env.Reports P) {e : Engine} (hr : Engine.final env = (.ok (), e)) :
    UnitRecord.AllReported P e.units :=
  Engine.keeps_final (reported_checkOnce henv)
    (List.forall_mem_singleton.mpr (List.forall_mem_nil _)) hr

/-! ### Answers -/

/-- A program is rejected for a problem that a check or a declaration can have. -/
theorem Program.reported_of_rejected {p : Program} {settings : Settings} {d : Diagnostic}
    (hordinary : ∀ problem, problem.isOrdinary = true → P problem)
    (hp : ∀ e ∈ p.items.flatMap Item.exprs, e.Reports P)
    (h : p.check settings = .error (.rejected d)) : P d.problem := by
  rcases check_eq_rejected h with hdeclared | ⟨env, e, henv, hfinal, hd⟩
  · have hdeclarative := (Env.misdeclared_of_ofProgram hdeclared).declarative
    exact hordinary _ (Problem.isOrdinary_of_isDeclarative hdeclarative)
  · have hreports : env.Reports P := {
      ordinary := hordinary
      topLevel := fun e he => hp e (Env.topLevel_subset henv he)
      methods := fun m hm e he => hp e (Env.exprs_subset henv hm he) }
    obtain ⟨u, hu, hd⟩ := Engine.exists_unit_of_firstDiagnostic? hd
    exact reported_final hreports hfinal u hu d hd

/-- A program in which each `break` and `next` is in the body of a loop or of a block is not
    rejected for one. -/
theorem Program.orderly_of_rejected {p : Program} {settings : Settings} {d : Diagnostic}
    (hp : ∀ e ∈ p.items.flatMap Item.exprs, e.Contained)
    (h : p.check settings = .error (.rejected d)) : d.problem.isLoopControl = false :=
  reported_of_rejected (fun _ => Problem.isLoopControl_of_isOrdinary)
    (fun e he m keyword hloose => absurd hloose (hp e he m keyword)) h

end UnionTyping
