/-
  UnionTyping/Proofs/Inference/Causes.lean
  ========================================
  **Why a diagnostic names a related location.**

  A diagnostic names the cause of the check in which it came up, if the unit was checked
  again, as the run puts it.  Three things lead to such a check of a unit (`Led`): an
  assignment widened a binding that the unit had read before; or the unit belongs to a new
  instance that was too deep to be checked at once, and was put on the worklist; or a
  starved binding that the unit had read was sealed.  A new instance that is met in such a
  check is counted as checked again too.

  `Accounts` says that all causes that are around go back to one of these.  Each step of an
  execution keeps it (`Accounts.step`), so it is true of every journal.
  So the unit that reports a related location was checked for one of these reasons
  (`Program.check_related`), and nothing need have widened (`unwidened_related`).
-/
import UnionTyping.Proofs.Binding.Bookkeeping
import UnionTyping.Proofs.Inference.Execution
import UnionTyping.Proofs.Inference.Located

namespace UnionTyping

/-! ### What leads to a check -/

/-- What happened so far leads to a check of the unit for `cause`. -/
inductive Led : List Entry → UnitId → Option Location → Prop where
  /-- An assignment for `cause` widened a binding that the unit had read. -/
  | widened {before later : List Entry} {after : Engine} {id : BindingId} {site cause : Location}
      {ty : Ty} {unit : UnitId} (read : unit ∈ (Moment.after before).engine.store.readersOf id)
      (widens : (Moment.after before).engine.store.assign id site ty cause = (true, after.store)) :
    Led (before ++ ⟨.operation (.assign id site ty cause), after⟩ :: later) unit (some cause)
  /-- An instance got the unit, which was put on the worklist for `cause` at once. -/
  | putOff {before later : List Entry} {added after : Engine} {key : Instantiation}
      {cause : Location} :
    Led (before ++ ⟨.instantiated key, added⟩ ::
        ⟨.operation (.enqueue (Moment.after before).engine.units.length (some cause)), after⟩ ::
        later)
      (Moment.after before).engine.units.length (some cause)
  /-- A binding was sealed that the unit had read and that held nothing. -/
  | sealed {before later : List Entry} {after : Engine} {b : Binding} {unit : UnitId}
      (known : b ∈ (Moment.after before).engine.store.bindings) (starved : b.isStarved = true)
      (read : unit ∈ b.readers) :
    Led (before ++ ⟨.operation (.sealStarved .nil), after⟩ :: later) unit none
  /-- An instance got the unit in a check that was led to. -/
  | nested {before later : List Entry} {added : Engine} {key : Instantiation} {check : OpenCheck}
      {others : List OpenCheck} (inside : UnderWay (check :: others) before)
      (recheck : check.task.recheck = true) (led : Led before check.task.unit check.task.cause)
      (site : Location) :
    Led (before ++ ⟨.instantiated key, added⟩ :: later) (Moment.after before).engine.units.length
      (some (check.task.cause.getD site))

/-- The unit was checked again for `cause`, and something had led to that. -/
def Rechecked (past : List Entry) (unit : UnitId) (cause : Option Location) : Prop :=
  ∃ before engine later, past = before ++ ⟨.checkBegins unit cause true, engine⟩ :: later ∧
    Led before unit cause

section

variable {past : List Entry} {unit : UnitId} {cause : Option Location}

theorem Led.append (h : Led past unit cause) (later : List Entry) :
    Led (past ++ later) unit cause := by
  cases h with
  | widened read widens =>
    rw [List.append_assoc]
    exact .widened read widens
  | putOff =>
    rw [List.append_assoc]
    exact .putOff
  | sealed known starved read =>
    rw [List.append_assoc]
    exact .sealed known starved read
  | nested inside recheck led site =>
    rw [List.append_assoc]
    exact .nested inside recheck led site

theorem Rechecked.append (h : Rechecked past unit cause) (later : List Entry) :
    Rechecked (past ++ later) unit cause := by
  obtain ⟨before, engine, rest, rfl, hled⟩ := h
  exact ⟨before, engine, rest ++ later, by rw [List.append_assoc, List.cons_append], hled⟩

theorem Rechecked.led (h : Rechecked past unit cause) : Led past unit cause := by
  obtain ⟨before, engine, later, rfl, hled⟩ := h
  exact hled.append _

end

/-! ### What happened accounts for all causes -/

/-- What happened so far accounts for the check, and its findings name its cause. -/
structure OpenCheck.Accounted (past : List Entry) (check : OpenCheck) : Prop where
  cause : check.task.recheck = true → Rechecked past check.task.unit check.task.cause
  findings : ∀ d ∈ check.walk.diagnostics, ∀ l, d.related = some l →
    check.task.recheck = true ∧ check.task.cause = some l

/-- What happened so far accounts for the causes on the worklist, in the diagnostics of the units
    and of the checks under way. -/
structure Accounts (past : List Entry) : Prop where
  queue : ∀ i ∈ (Moment.after past).engine.store.queue, Led past i.unit i.cause
  reports : ∀ (unit : UnitId) u, (Moment.after past).engine.units[unit]? = some u →
    ∀ d ∈ u.diagnostics, ∀ l, d.related = some l → Rechecked past unit (some l)
  underWay : ∀ check ∈ (Moment.after past).underWay, check.Accounted past

theorem OpenCheck.Accounted.append {past : List Entry} {check : OpenCheck}
    (h : check.Accounted past) (later : List Entry) : check.Accounted (past ++ later) :=
  ⟨fun hrecheck => (h.cause hrecheck).append later, h.findings⟩

namespace Accounts

variable {past : List Entry} {event : RunEvent}

theorem start : Accounts [] where
  queue := List.forall_mem_nil _
  reports := by
    intro unit u hu d hd
    rw [List.mem_singleton.mp (List.mem_of_getElem? hu)] at hd
    cases hd
  underWay := List.forall_mem_nil _

theorem queue_append (h : Accounts past) (later : List Entry) :
    ∀ i ∈ (Moment.after past).engine.store.queue, Led (past ++ later) i.unit i.cause :=
  fun i hi => (h.queue i hi).append later

theorem reports_append (h : Accounts past) (later : List Entry) : ∀ (unit : UnitId) u,
    (Moment.after past).engine.units[unit]? = some u → ∀ d ∈ u.diagnostics, ∀ l,
      d.related = some l → Rechecked (past ++ later) unit (some l) :=
  fun unit u hu d hd l hl => (h.reports unit u hu d hd l hl).append later

theorem underWay_append (h : Accounts past) (later : List Entry) :
    ∀ check ∈ (Moment.after past).underWay, check.Accounted (past ++ later) :=
  fun check hcheck => (h.underWay check hcheck).append later

/-- One more step, after which everything is accounted for. -/
theorem concat
    (queue : ∀ i ∈ (event.effect (Moment.after past)).store.queue,
      Led (past ++ [event.entryAfter past]) i.unit i.cause)
    (reports : ∀ (unit : UnitId) u, (event.effect (Moment.after past)).units[unit]? = some u →
      ∀ d ∈ u.diagnostics, ∀ l, d.related = some l →
        Rechecked (past ++ [event.entryAfter past]) unit (some l))
    (underWay : ∀ check ∈ ((Moment.after past).next (event.entryAfter past)).underWay,
      check.Accounted (past ++ [event.entryAfter past])) :
    Accounts (past ++ [event.entryAfter past]) where
  queue := by
    rw [Moment.engine_after_concat]
    exact queue
  reports := by
    rw [Moment.engine_after_concat]
    exact reports
  underWay := by
    rw [Moment.after_concat]
    exact underWay

/-- An operation that leaves nothing on the worklist which is not accounted for. -/
theorem operation (h : Accounts past) {op : Operation}
    (hqueue : ∀ i ∈ ((Moment.after past).engine.store.after op).queue,
      Led (past ++ [(RunEvent.operation op).entryAfter past]) i.unit i.cause) :
    Accounts (past ++ [(RunEvent.operation op).entryAfter past]) :=
  concat hqueue (h.reports_append _) (h.underWay_append _)

theorem intern (h : Accounts past) (slot : Slot) :
    Accounts (past ++ [(RunEvent.operation (.intern slot)).entryAfter past]) := by
  refine h.operation ?_
  rw [Store.after, Store.queue_intern]
  exact h.queue_append _

theorem assign (h : Accounts past) (id : BindingId) (site : Location) (ty : Ty)
    (cause : Location) :
    Accounts (past ++ [(RunEvent.operation (.assign id site ty cause)).entryAfter past]) := by
  refine h.operation ?_
  rw [Store.after, Store.queue_assign]
  split
  · rename_i hwidens
    exact Worklist.forall_enqueueAll (h.queue_append _) fun unit hunit =>
      .widened hunit (Prod.ext hwidens rfl)
  · exact h.queue_append _

theorem pop (h : Accounts past) :
    Accounts (past ++ [(RunEvent.operation .pop).entryAfter past]) := by
  refine h.operation fun i hi => h.queue_append _ i ?_
  rw [Store.after, Store.pop] at hi
  split at hi
  · exact hi
  · rename_i hqueue
    rw [hqueue]
    exact List.mem_cons_of_mem _ hi

theorem sealed (h : Accounts past) :
    Accounts (past ++ [(RunEvent.operation (.sealStarved .nil)).entryAfter past]) := by
  refine h.operation (Worklist.forall_enqueueAll (h.queue_append _) fun unit hunit => ?_)
  obtain ⟨b, hb, hstarved, hread⟩ := Store.mem_starvedReaders.mp hunit
  exact .sealed hb hstarved hread

theorem count (h : Accounts past) : Accounts (past ++ [RunEvent.counted.entryAfter past]) :=
  concat (h.queue_append _) (h.reports_append _) (h.underWay_append _)

theorem add (h : Accounts past) (key : Instantiation) :
    Accounts (past ++ [(RunEvent.instantiated key).entryAfter past]) := by
  refine concat (h.queue_append _) (fun unit u hu d hd l hl => ?_) (h.underWay_append _)
  change ((Moment.after past).engine.units ++ [_])[unit]? = some u at hu
  rw [List.getElem?_append] at hu
  split at hu
  · exact h.reports_append _ unit u hu d hd l hl
  · rw [List.mem_singleton.mp (List.mem_of_getElem? hu)] at hd
    cases hd

theorem checkBegins (h : Accounts past) {unit : UnitId} {cause : Option Location} {recheck : Bool}
    (hled : recheck = true → Led past unit cause) :
    Accounts (past ++ [(RunEvent.checkBegins unit cause recheck).entryAfter past]) := by
  refine concat (h.queue_append _) (h.reports_append _) (List.forall_mem_cons.mpr
    ⟨⟨fun hrecheck => ?_, nofun⟩, h.underWay_append _⟩)
  dsimp only at hrecheck
  subst hrecheck
  exact ⟨past, _, [], rfl, hled rfl⟩

theorem found (h : Accounts past) {check : OpenCheck} {others : List OpenCheck}
    (inside : UnderWay (check :: others) past) {walk : Walk} (reports : check.Reports walk) :
    Accounts (past ++ [(RunEvent.found walk).entryAfter past]) := by
  refine concat (h.queue_append _) (h.reports_append _) ?_
  have hchecks := h.underWay_append [(RunEvent.found walk).entryAfter past]
  rw [inside] at hchecks
  obtain ⟨hcheck, hothers⟩ := List.forall_mem_cons.mp hchecks
  rw [RunEvent.entryAfter, Moment.next, inside]
  refine List.forall_mem_cons.mpr ⟨⟨hcheck.cause, fun d hd l hl => ?_⟩, hothers⟩
  rcases reports with hsame | ⟨problem, loc, hnew⟩
  · exact hcheck.findings d (hsame ▸ hd) l hl
  · rcases List.mem_append.mp (hnew ▸ hd) with hd | hd
    · exact hcheck.findings d hd l hl
    · rw [List.mem_singleton.mp hd] at hl
      exact CheckTask.related_eq_some hl

theorem checkEnds (h : Accounts past) {check : OpenCheck} {others : List OpenCheck}
    (inside : UnderWay (check :: others) past) (result : Ty) :
    Accounts (past ++ [(RunEvent.checkEnds result).entryAfter past]) := by
  have hchecks := h.underWay_append [(RunEvent.checkEnds result).entryAfter past]
  rw [inside] at hchecks
  obtain ⟨hcheck, hothers⟩ := List.forall_mem_cons.mp hchecks
  have heffect : (RunEvent.checkEnds result).effect (Moment.after past) =
      (Moment.after past).engine.record check.task.unit check.walk result := by
    rw [RunEvent.effect, inside]
  refine concat ?_ (fun unit u hu d hd l hl => ?_) ?_
  · rw [heffect]
    exact h.queue_append _
  · rw [heffect, Engine.record, List.getElem?_modify] at hu
    obtain ⟨u₀, hu₀, rfl⟩ := Option.map_eq_some_iff.mp hu
    -- the unit now has the findings of the check, and all others what they had
    split at hd
    · rename_i hunit
      obtain ⟨hrecheck, hcause⟩ := hcheck.findings d hd l hl
      exact hunit ▸ hcause ▸ hcheck.cause hrecheck
    · exact h.reports_append _ unit u₀ hu₀ d hd l hl
  · rw [RunEvent.entryAfter, Moment.next, inside]
    exact hothers

end Accounts

section

variable {past : List Entry}

theorem Store.mem_queue_of_pop {s : Store} {next : Pending} (h : s.pop.1 = some next) :
    next ∈ s.queue := by
  rw [Store.pop] at h
  split at h
  · cases h
  · rename_i hqueue
    cases h
    rw [hqueue]
    exact List.mem_cons_self

/-- Something led to each check that is counted as one of a unit that was checked before. -/
theorem Due.led {unit : UnitId} {cause : Option Location} {recheck : Bool}
    (due : Due past unit cause recheck) (hbefore : ∀ before, before <+: past → Accounts before)
    (hrecheck : recheck = true) : Led past unit cause := by
  cases due with
  | top => cases hrecheck
  | taken first =>
    have haccounts := hbefore _ (List.prefix_append _ _)
    exact (haccounts.queue _ (Store.mem_queue_of_pop first)).append _
  | nested inside site =>
    have haccounts := hbefore _ (List.prefix_append _ _)
    have hcheck := haccounts.underWay _ (inside ▸ List.mem_cons_self)
    exact .nested inside hrecheck (hcheck.cause hrecheck).led site

/-- Whatever happens next is accounted for. -/
theorem Accounts.step {event : RunEvent} (hbefore : ∀ before, before <+: past → Accounts before)
    (next : Enabled past event) : Accounts (past ++ [event.entryAfter past]) := by
  have here := hbefore past List.prefix_rfl
  cases next with
  | intern _ slot => exact here.intern slot
  | read => exact here.operation (here.queue_append _)
  | assign _ id site ty => exact here.assign id site ty _
  | instantiated => exact here.add _
  | putOff =>
    refine here.operation (Worklist.forall_enqueue (here.queue_append _) ?_)
    rw [List.append_assoc]
    exact .putOff
  | pop => exact here.pop
  | sealStarved => exact here.sealed
  | counted => exact here.count
  | checkBegins due =>
    refine here.checkBegins fun hrecheck => (due.led (fun before hearlier => ?_) hrecheck).append _
    exact hbefore before (hearlier.trans (List.prefix_append _ _))
  | found inside reports => exact here.found inside reports
  | checkEnds inside result => exact here.checkEnds inside result

theorem Execution.accounts (run : Execution past) : Accounts past :=
  run.induct .start .step past List.prefix_rfl

end

/-! ### Rejections with a related location -/

/-- When a program is rejected for a diagnostic with a related location, then a unit reports it
    that was checked again for that location in the course of the run, and something had led
    to that check: an assignment widened what the unit had read, or the unit was put on the
    worklist when its instance was met, or what the unit had read was sealed, or its instance
    was met in such a check.  What happened is told by the journal, which leaves out no step. -/
theorem Program.check_related {p : Program} {settings : Settings} {d : Diagnostic} {l : Location}
    (h : p.check settings = .error (.rejected d)) (hrelated : d.related = some l) :
    ∃ env e unit u, Env.ofProgram settings p = .ok env ∧ Engine.final env = (.ok (), e) ∧
      e.units[unit]? = some u ∧ d ∈ u.diagnostics ∧ Execution (Engine.journal env) ∧
      Rechecked (Engine.journal env) unit (some l) := by
  rcases check_eq_rejected h with hdeclared | ⟨env, e, henv, hfinal, hd⟩
  · rw [(Env.standsAt_of_ofProgram hdeclared).unrelated] at hrelated
    cases hrelated
  · have hexecution := Engine.execution_journal env
    have hlast : (Moment.after (Engine.journal env)).engine = e :=
      (Engine.after_journal env).trans (congrArg Prod.snd hfinal)
    obtain ⟨u, hu, hd⟩ := Engine.exists_unit_of_firstDiagnostic? hd
    obtain ⟨unit, hunit⟩ := List.mem_iff_getElem?.mp hu
    exact ⟨env, e, unit, u, henv, hfinal, hunit, hd, hexecution,
      hexecution.accounts.reports unit u (hlast.symm ▸ hunit) d hd l hrelated⟩

/-- The widening of `exposedProgram` accounts for the related location of its rejection. -/
theorem exposedProgram_related :
    ∃ d l, exposedProgram.check {} = .error (.rejected d) ∧ d.related = some l ∧
      ∃ env e unit u, Env.ofProgram {} exposedProgram = .ok env ∧
        Engine.final env = (.ok (), e) ∧ e.units[unit]? = some u ∧ d ∈ u.diagnostics ∧
        Execution (Engine.journal env) ∧ Rechecked (Engine.journal env) unit (some l) := by
  have hrelated : CheckError.relatedOf (exposedProgram.check {}) = some ⟨"exposed.qz", 3, 1⟩ := by
    decide +kernel
  obtain ⟨d, hrejected, hd⟩ := CheckError.exists_of_relatedOf hrelated
  exact ⟨d, _, hrejected, hd, Program.check_related hrejected hd⟩

/-! ### Related locations where nothing widened -/

/-- The operation widens a binding that was read before. -/
def Store.widensRead (s : Store) : Operation → Bool
  | .assign id site ty cause =>
    !(s.readersOf id).isEmpty && (s.assign id site ty cause).1
  | _ => false

def NeverWidensRead (journal : List Entry) : Prop :=
  ∀ before op after later, journal = before ++ ⟨.operation op, after⟩ :: later →
    (Moment.after before).engine.store.widensRead op = false

def neverWidensReadFrom (e : Engine) : List Entry → Bool
  | [] => true
  | ⟨.operation op, after⟩ :: rest =>
    !e.store.widensRead op && neverWidensReadFrom after rest
  | ⟨_, after⟩ :: rest => neverWidensReadFrom after rest

theorem neverWidensRead_of_from {past journal : List Entry}
    (h : neverWidensReadFrom (Moment.after past).engine journal = true) :
    ∀ before op after later, journal = before ++ ⟨.operation op, after⟩ :: later →
      (Moment.after (past ++ before)).engine.store.widensRead op = false := by
  induction journal generalizing past with
  | nil =>
    intro before op after later hjournal
    cases before <;> cases hjournal
  | cons entry rest ih =>
    have hrest : neverWidensReadFrom (Moment.after (past ++ [entry])).engine rest = true := by
      rw [Moment.engine_after_concat]
      rcases entry with ⟨_ | _, _⟩
      · exact (Bool.and_eq_true_iff.mp h).2
      all_goals exact h
    intro before op after later hjournal
    cases before with
    | nil =>
      cases hjournal
      rw [List.append_nil]
      exact Bool.not_eq_true' _ |>.mp (Bool.and_eq_true_iff.mp h).1
    | cons first before =>
      obtain ⟨rfl, rfl⟩ := List.cons.inj hjournal
      have hlater := ih hrest before op after later rfl
      rwa [List.append_assoc] at hlater

/-- The program is rejected with the related location `l`, and no assignment of its run widens
    a binding that was read before. -/
def relatedUnwidened (p : Program) (settings : Settings) (l : Location) : Bool :=
  CheckError.relatedOf (p.check settings) == some l &&
    match Env.ofProgram settings p with
    | .error _ => false
    | .ok env => neverWidensReadFrom .start (Engine.journal env)

theorem exists_of_relatedUnwidened {p : Program} {settings : Settings} {l : Location}
    (h : relatedUnwidened p settings l = true) :
    ∃ d env, p.check settings = .error (.rejected d) ∧ d.related = some l ∧
      Env.ofProgram settings p = .ok env ∧ NeverWidensRead (Engine.journal env) := by
  obtain ⟨hrelated, h⟩ := Bool.and_eq_true_iff.mp h
  obtain ⟨d, hrejected, hd⟩ := CheckError.exists_of_relatedOf (eq_of_beq hrelated)
  cases henv : Env.ofProgram settings p with
  | error d' =>
    rw [henv] at h
    cases h
  | ok env =>
    rw [henv] at h
    have hnever := @neverWidensRead_of_from [] _ h
    exact ⟨d, env, hrejected, hd, rfl, hnever⟩

/-- A method that always fails, and a call of it: `def f; nope; end` and `f`. -/
def putOffProgram : Program :=
  let m : Mark := ⟨0, .unplaced⟩
  .ofItems "putoff.qz" [
    .method ⟨"f", [], [.ident m "nope"], .unplaced⟩,
    .expr (.ident m "f")]

/-- A method that always fails, called with the parameter of a block that nothing ever passes:
    `def g(a); nope; end` and `1.+(1) { |p| g(p) }`. -/
def sealedFirstProgram : Program :=
  let m : Mark := ⟨0, .unplaced⟩
  .ofItems "sealed.qz" [
    .method ⟨"g", [⟨"a", none, none⟩], [.ident m "nope"], .unplaced⟩,
    .expr (.call m (some (.literal m .int)) "+" [.literal m .int]
      (some (.mk ["p"] [.call m none "g" [.ident m "p"] none true])) true)]

/-- A related location does not mean that something widened.  A method that is put on the
    worklist because it is too deep, and one that is first entered after sealing, are checked
    for the first time there, and what they report names the call that led to them, although
    no assignment of the run widens a binding that was read before. -/
theorem unwidened_related :
    (∃ d env, putOffProgram.check { maxNesting := 0 } = .error (.rejected d) ∧
      d.related = some ⟨"putoff.qz", 2, 1⟩ ∧
      Env.ofProgram { maxNesting := 0 } putOffProgram = .ok env ∧
      NeverWidensRead (Engine.journal env)) ∧
    ∃ d env, sealedFirstProgram.check {} = .error (.rejected d) ∧
      d.related = some ⟨"sealed.qz", 2, 1⟩ ∧
      Env.ofProgram {} sealedFirstProgram = .ok env ∧ NeverWidensRead (Engine.journal env) :=
  ⟨exists_of_relatedUnwidened (by decide +kernel), exists_of_relatedUnwidened (by decide +kernel)⟩

end UnionTyping
