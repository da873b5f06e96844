/-
  UnionTyping/Proofs/Inference/Execution.lean
  ===========================================
  **The journal of a run is an execution.**

  `Enabled past event` says what can happen next in a run in which `past` has happened, and
  `RunEvent.effect` to which state it leads.  Every journal is put together of such steps
  (`Engine.execution_journal`), from the first state of the run to its last
  (`Engine.after_journal`), so it leaves out no state and notes each as it was.  What such
  steps keep is true of all runs, and is shown without a look at the checks (`Execution.induct`).
-/
import UnionTyping.Proofs.Inference.Chronicle
import UnionTyping.Proofs.Inference.Pervasive

namespace UnionTyping

/-! ### What an event does -/

/-- What an operation makes of the store. -/
def Store.after (s : Store) : Operation → Store
  | .intern slot => (s.intern slot).2
  | .read id reader => (s.read id reader).2
  | .assign id site ty cause => (s.assign id site ty cause).2
  | .enqueue unit cause => s.enqueue unit cause
  | .pop => s.pop.2
  | .sealStarved ty => (s.sealStarved ty).2
  | .find _ | .peek _ | .isIdle => s

/-- The state to which an event leads. -/
def RunEvent.effect (m : Moment) : RunEvent → Engine
  | operation op => { m.engine with store := m.engine.store.after op }
  | instantiated key => m.engine.add key
  | counted => m.engine.count
  | checkBegins _ _ _ | found _ => m.engine
  | checkEnds result =>
    match m.underWay with
    | [] => m.engine
    | check :: _ => m.engine.record check.task.unit check.walk result

def RunEvent.entryAfter (event : RunEvent) (past : List Entry) : Entry :=
  ⟨event, event.effect (Moment.after past)⟩

/-! ### What can happen next -/

/-- The related location of what the check reports. -/
def CheckTask.related (task : CheckTask) : Option Location :=
  if task.recheck then task.cause else none

theorem CheckTask.related_eq_some {task : CheckTask} {l : Location} (h : task.related = some l) :
    task.recheck = true ∧ task.cause = some l := by
  rw [CheckTask.related] at h
  split at h
  · exact ⟨‹_›, h⟩
  · cases h

/-- From what it has found, the check goes on to these findings, with at most one new report. -/
def OpenCheck.Reports (check : OpenCheck) (walk : Walk) : Prop :=
  walk.diagnostics = check.walk.diagnostics ∨
    ∃ problem loc, walk.diagnostics = check.walk.diagnostics ++ [⟨problem, loc, check.task.related⟩]

/-- It is the turn of this unit to be checked. -/
inductive Due : List Entry → UnitId → Option Location → Bool → Prop where
  | top : Due [] topUnit none false
  /-- The unit was taken off the worklist just now. -/
  | taken {past : List Entry} {next : Pending} {after : Engine}
      (first : (Moment.after past).engine.store.pop.1 = some next) :
      Due (past ++ [⟨.operation .pop, after⟩]) next.unit next.cause true
  /-- An instance got the unit just now, in the check of another. -/
  | nested {past : List Entry} {key : Instantiation} {added : Engine} {check : OpenCheck}
      {others : List OpenCheck} (inside : UnderWay (check :: others) past) (site : Location) :
      Due (past ++ [⟨.instantiated key, added⟩]) (Moment.after past).engine.units.length
        (some (check.task.cause.getD site)) check.task.recheck

/-- What can happen next in a run. -/
inductive Enabled : List Entry → RunEvent → Prop where
  | intern {past : List Entry} {check : OpenCheck} {others : List OpenCheck}
      (inside : UnderWay (check :: others) past) (slot : Slot) :
      Enabled past (.operation (.intern slot))
  | read {past : List Entry} {check : OpenCheck} {others : List OpenCheck}
      (inside : UnderWay (check :: others) past) (id : BindingId) :
      Enabled past (.operation (.read id check.task.unit))
  | assign {past : List Entry} {check : OpenCheck} {others : List OpenCheck}
      (inside : UnderWay (check :: others) past) (id : BindingId) (site : Location) (ty : Ty) :
      Enabled past (.operation (.assign id site ty (check.task.cause.getD site)))
  | instantiated {past : List Entry} {check : OpenCheck} {others : List OpenCheck}
      {key : Instantiation} (inside : UnderWay (check :: others) past)
      (unknown : (Moment.after past).engine.unitOf key = none) : Enabled past (.instantiated key)
  /-- A new instance that is too deep waits for its check. -/
  | putOff {past : List Entry} {check : OpenCheck} {others : List OpenCheck} {key : Instantiation}
      {added : Engine} (inside : UnderWay (check :: others) past) (site : Location) :
      Enabled (past ++ [⟨.instantiated key, added⟩])
        (.operation (.enqueue (Moment.after past).engine.units.length
          (some (check.task.cause.getD site))))
  | pop {past : List Entry} (between : UnderWay [] past) : Enabled past (.operation .pop)
  /-- Nothing is waiting, and no problem is known. -/
  | sealStarved {past : List Entry} (between : UnderWay [] past)
      (idle : (Moment.after past).engine.store.isIdle = true)
      (faultless : (Moment.after past).engine.knowsProblem = false) :
      Enabled past (.operation (.sealStarved .nil))
  | counted {past : List Entry} {unit : UnitId} {cause : Option Location} {recheck : Bool}
      (due : Due past unit cause recheck) : Enabled past .counted
  | checkBegins {past : List Entry} {counted : Engine} {unit : UnitId} {cause : Option Location}
      {recheck : Bool} (due : Due past unit cause recheck) :
      Enabled (past ++ [⟨.counted, counted⟩]) (.checkBegins unit cause recheck)
  | found {past : List Entry} {check : OpenCheck} {others : List OpenCheck} {walk : Walk}
      (inside : UnderWay (check :: others) past) (reports : check.Reports walk) :
      Enabled past (.found walk)
  | checkEnds {past : List Entry} {check : OpenCheck} {others : List OpenCheck}
      (inside : UnderWay (check :: others) past) (result : Ty) : Enabled past (.checkEnds result)

inductive Execution : List Entry → Prop where
  | start : Execution []
  | step {past : List Entry} {event : RunEvent} (run : Execution past)
      (next : Enabled past event) : Execution (past ++ [event.entryAfter past])

namespace Execution

variable {past : List Entry} {event : RunEvent} {e : Engine}

theorem concat (run : Execution past) (next : Enabled past event)
    (he : event.effect (Moment.after past) = e) : Execution (past ++ [⟨event, e⟩]) := by
  subst he
  exact .step run next

theorem operation (run : Execution past) (he : (Moment.after past).engine = e) {op : Operation}
    (next : Enabled past (.operation op)) {s : Store} (hs : s = e.store.after op) :
    Execution (past ++ [⟨.operation op, { e with store := s }⟩]) := by
  subst he hs
  exact .step run next

/-- What the beginning has and each step keeps, all beginnings of an execution have. -/
theorem induct {I : List Entry → Prop} (run : Execution past) (start : I [])
    (step : ∀ {past event}, (∀ before, before <+: past → I before) → Enabled past event →
      I (past ++ [event.entryAfter past])) : ∀ before, before <+: past → I before := by
  induction run with
  | start =>
    intro before hbefore
    rwa [List.prefix_nil.mp hbefore]
  | step _ next ih =>
    intro before hbefore
    rcases List.prefix_concat_iff.mp hbefore with rfl | hbefore
    · exact step ih next
    · exact ih before hbefore

end Execution

/-! ### Steps of a check -/

def Checking.task (c : Checking) : CheckTask := ⟨c.unit, c.cause, c.recheck⟩

def Checking.Executes (c : Checking) {α : Type} (x : WalkM α) : Prop :=
  ∀ past others walk e, LeadsTo past (⟨c.task, walk⟩ :: others) e → Execution past →
    ChecksThrough Execution past c.task others x walk e

/-- A new instance is seen to as the check that meets it can do. -/
def BeginsExecution (recheck : Bool) (begin : UnitId → Location → EngineM Unit) : Prop :=
  ∀ past check others (e : Engine) key site, LeadsTo past (check :: others) e →
    check.task.recheck = recheck → Execution (past ++ [⟨.instantiated key, e.add key⟩]) →
    RunsThrough Execution (past ++ [⟨.instantiated key, e.add key⟩])
      (begin e.units.length (check.task.cause.getD site)) (e.add key)
      fun _ => UnderWay (check :: others)

namespace Checking.Executes

variable {c : Checking} {α β : Type}

theorem ret (a : α) : c.Executes (pure a) := fun _ _ _ _ hled here => .rest a hled here

theorem seq {x : WalkM α} {f : α → WalkM β} (hx : c.Executes x) (hf : ∀ a, c.Executes (f a)) :
    c.Executes (x >>= f) :=
  fun past others walk e hled here => .seq (hx past others walk e hled here)
    fun a walk₁ e₁ past₁ _ hled₁ here₁ => hf a past₁ others walk₁ e₁ hled₁ here₁

theorem looked {f : Walk → α} : c.Executes (do return f (← get)) :=
  seq (fun _ _ _ _ hled here => .look hled here) fun _ => ret _

theorem change {f : Walk → Walk} (hf : ∀ walk, OpenCheck.Reports ⟨c.task, walk⟩ (f walk)) :
    c.Executes (WalkM.change f) := fun _ _ walk _ hled here =>
  .change f hled here (here.concat (.found hled.underWay (hf walk)) hled.engine)

/-- A step on the findings that reports nothing. -/
theorem changeSilently {f : Walk → Walk} (hf : ∀ walk, (f walk).diagnostics = walk.diagnostics) :
    c.Executes (WalkM.change f) :=
  change fun walk => Or.inl (hf walk)

theorem fail (problem : Problem) (loc : Location) : c.Executes (c.fail problem loc) := by
  refine seq (change fun walk => ?_) fun _ => ret _
  split
  · exact Or.inl rfl
  · exact Or.inr ⟨problem, loc, rfl⟩

theorem onStore {op : Operation} {f : Store → α × Store} (hf : ∀ s, (f s).2 = s.after op)
    (hop : ∀ past others walk, UnderWay (⟨c.task, walk⟩ :: others) past →
      Enabled past (.operation op)) : c.Executes (liftM (Engine.onStore op f)) :=
  fun past others walk e hled here => .onStore hled here
    (here.operation hled.engine (hop past others walk hled.underWay) (hf e.store))

theorem bindingOf (slot : Slot) : c.Executes (Checking.bindingOf slot) :=
  onStore (fun _ => rfl) fun _ _ _ inside => .intern inside slot

theorem read (i : BindingId) : c.Executes (c.read i) :=
  onStore (fun _ => rfl) fun _ _ _ inside => .read inside i

theorem assign (i : BindingId) (site : Location) (ty : Ty) : c.Executes (c.assign i site ty) :=
  onStore (fun _ => rfl) fun _ _ _ inside => .assign inside i site ty

theorem readReturn (unit : UnitId) : c.Executes (c.readReturn unit) :=
  seq (bindingOf _) fun i => seq (read i) fun _ => ret _

theorem bindLocal (name : String) : c.Executes (c.bindLocal name) :=
  seq (fun _ _ _ _ hled here => .look hled here) fun _ => seq (bindingOf _) fun _ =>
    seq (changeSilently fun _ => rfl) fun _ => ret _

theorem inLoop {x : WalkM Ty} (hx : c.Executes x) : c.Executes (Checking.inLoop x) :=
  seq (changeSilently fun _ => rfl) fun _ => seq hx fun _ =>
    seq (changeSilently fun _ => rfl) fun _ => ret _

theorem loopControl (keyword : LoopControl) (loc : Location) :
    c.Executes (c.loopControl keyword loc) := by
  refine seq looked fun depth => ?_
  split
  · exact fail _ loc
  · exact ret _

theorem instanceOf (hbegin : BeginsExecution c.recheck c.begin) (site : Location)
    (method : MethodId) (self : Option Ty) (args : List Ty) :
    c.Executes (c.instanceOf site method self args) := by
  intro past others walk e hled here
  unfold Checking.instanceOf
  refine .seq (.run (.look hled.engine here hled.underWay) fun _ _ h => h)
    fun engine walk₁ e₁ past₁ hr hled₁ here₁ => ?_
  cases hr
  cases hknown : e.unitOf ⟨method, self, args⟩ with
  | some unit => exact seq (ret _) readReturn past₁ others walk e hled₁ here₁
  | none =>
    let key : Instantiation := ⟨method, self, args⟩
    have hadded : Execution (past₁ ++ [⟨.instantiated key, e.add key⟩]) :=
      here₁.concat (.instantiated hled₁.underWay (by rwa [hled₁.engine]))
        (congrArg (Engine.add · key) hled₁.engine)
    refine .seqWith (Q := fun r past₂ => r = (e.units.length, walk) ∧
        past₂ = past₁ ++ [⟨.instantiated key, e.add key⟩])
      (.entry here₁ rfl rfl hadded ⟨rfl, rfl⟩) fun unit walk₂ e₂ past₂ hr _ _ hadds => ?_
    obtain ⟨_, rfl⟩ := hadds
    cases hr
    exact .seq (.run (hbegin past₁ _ others e key site hled₁ rfl hadded) fun _ _ h => h)
      fun _ walk₃ e₃ past₃ _ hled₃ here₃ =>
        seq (ret _) readReturn past₃ others walk₃ e₃ hled₃ here₃

/-- The check of anything is put together of steps that can come next. -/
theorem elementary (hbegin : BeginsExecution c.recheck c.begin) :
    Elementary c fun _ => c.Executes where
  ret := ret
  seq := seq
  lookup := fun _ => looked
  enter := fun _ => changeSilently fun _ => rfl
  leave := changeSilently fun _ => rfl
  bindLocal := bindLocal
  noteType := fun _ _ => changeSilently fun _ => rfl
  noteCall := fun _ _ => changeSilently fun _ => rfl
  fail := fun loc _ => fail _ loc
  control := loopControl
  bindingOf := bindingOf
  read := read
  assign := assign
  inLoop := inLoop
  instanceOf := instanceOf hbegin

end Checking.Executes

/-! ### Checks of units, and whole runs -/

section

variable {env : Env} {past : List Entry} {checks : List OpenCheck} {e : Engine}

theorem execution_checkOnce {begin : Engine.Begin} {recheck : Bool}
    (hbegin : BeginsExecution recheck (begin recheck)) (hled : LeadsTo past checks e)
    (here : Execution past) {unit : UnitId} {cause : Option Location}
    (due : Due past unit cause recheck) :
    RunsThrough Execution past (Engine.checkOnce env begin unit cause recheck) e
      fun _ => UnderWay checks := by
  have hcounted : Execution (past ++ [⟨.counted, e.count⟩]) :=
    here.concat (.counted due) (congrArg Engine.count hled.engine)
  have hbegins := hcounted.concat (.checkBegins due) (Moment.engine_after_concat _ _)
  have helementary := Checking.Executes.elementary
    (c := e.checkingOf env begin unit cause recheck) hbegin
  refine .checkOnce rfl hled.underWay here hcounted hbegins (fun hbegun => ?_)
    fun result walk e₁ past₁ _ hled₁ here₁ => ?_
  · have hbody := helementary.pervasive.unitBody Checking.Executes.bindLocal
      (fun _ _ _ m keyword _ => Checking.Executes.loopControl keyword m.loc)
      (fun _ _ _ _ _ m keyword _ => Checking.Executes.loopControl keyword m.loc) (e.keyOf unit)
    exact hbody _ checks .start e.count hbegun hbegins
  · refine here₁.concat (.checkEnds hled₁.underWay result) ?_
    rw [RunEvent.effect, hled₁.underWay, hled₁.engine]

theorem beginsExecution_nested (depth : Nat) (recheck : Bool) :
    BeginsExecution recheck (Engine.nestedBegin env depth recheck) := by
  induction depth with
  | zero =>
    intro past check others e key site hled _ hadded
    obtain ⟨rfl, hunder⟩ := hled
    change RunsThrough Execution _ (Engine.enqueue _ (some _)) _ _
    exact .onStore (hunder.concat fun _ => rfl) hadded
      (hadded.operation (Moment.engine_after_concat _ _) (.putOff hunder site) rfl)
  | succ depth ih =>
    intro past check others e key site hled hrecheck hadded
    obtain ⟨rfl, hunder⟩ := hled
    subst hrecheck
    change RunsThrough Execution _ (Engine.checkNested env depth _ (some _) _) _ _
    rw [Engine.checkNested_eq]
    exact execution_checkOnce ih ⟨Moment.engine_after_concat _ _, hunder.concat fun _ => rfl⟩
      hadded (.nested hunder site)

theorem sustains_execution : Sustains env Execution Due where
  check := fun hled here due => by
    rw [Engine.checkNested_eq]
    exact execution_checkOnce (beginsExecution_nested _ _) hled here due
  pop := fun hled here => by
    obtain ⟨rfl, hunder⟩ := hled
    exact ⟨.step here (.pop hunder), fun _ hnext => .taken hnext⟩
  sealed := fun hled here hidle hfaultless => by
    obtain ⟨rfl, hunder⟩ := hled
    exact .step here (.sealStarved hunder hidle hfaultless)

end

/-- The journal of a run notes every step of it, each with the state to which it leads. -/
theorem Engine.execution_journal (env : Env) : Execution (Engine.journal env) :=
  (sustains_execution.runsThrough_runAll .start .top).meets _ List.prefix_rfl

/-- The last state of the journal is the one in which the run ends. -/
theorem Engine.after_journal (env : Env) :
    (Moment.after (Engine.journal env)).engine = (Engine.final env).2 :=
  (sustains_execution.runsThrough_runAll .start .top).stops

end UnionTyping
