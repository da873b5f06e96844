/-
  UnionTyping/Proofs/Inference/Chronicle.lean
  ===========================================
  **The moments of a run, read off its journal.**

  A `Moment` is the state of a run together with what the checks under way have found so
  far, and with a map from instances to units that is kept beside the units.
  `Moment.after past` is the moment to which the entries `past` of a journal lead.  A journal
  leaves out no state of its run (`Engine.execution_journal`).

  `RunsThrough I past x e Q` says that a step of a run which begins in the state `e`, when
  the journal is `past`, keeps `I` with every entry that it writes, whether it comes to its
  end or gives up, and that `Q` holds when it comes to its end.  There is a lemma for each
  way of making a step.
-/
import UnionTyping.Proofs.Inference.Runs

namespace UnionTyping

/-! ### A map of instances -/

/-- A map from instances to units, in which instances that are the same have one entry. -/
structure InstanceTable where
  entries : List (Instantiation × UnitId)

namespace InstanceTable

variable {t : InstanceTable} {key : Instantiation}

def lookup (t : InstanceTable) (key : Instantiation) : Option UnitId :=
  (t.entries.find? fun entry => key == entry.1).map Prod.snd

/-- Sets the unit of an instance.  An entry that is there already keeps its instance. -/
def insert (t : InstanceTable) (key : Instantiation) (unit : UnitId) : InstanceTable :=
  if t.entries.any fun entry => key == entry.1 then
    ⟨t.entries.map fun entry => if key == entry.1 then (entry.1, unit) else entry⟩
  else ⟨t.entries ++ [(key, unit)]⟩

theorem insert_of_lookup_eq_none (h : t.lookup key = none) (unit : UnitId) :
    t.insert key unit = ⟨t.entries ++ [(key, unit)]⟩ := by
  have hnone : (t.entries.any fun entry => key == entry.1) = false := by
    rw [List.any_eq_false]
    exact List.find?_eq_none.mp (Option.map_eq_none_iff.mp h)
  rw [insert, hnone]
  rfl

theorem lookup_insert (h : t.lookup key = none) (unit : UnitId) (k : Instantiation) :
    (t.insert key unit).lookup k = (t.lookup k).or (if k == key then some unit else none) := by
  rw [insert_of_lookup_eq_none h, lookup, List.find?_append, Option.map_or, ← lookup]
  congr 1
  cases hk : k == key <;> simp [hk]

end InstanceTable

/-! ### Moments -/

structure CheckTask where
  unit : UnitId
  cause : Option Location
  recheck : Bool

/-- A check that is under way, with what it has found so far. -/
structure OpenCheck where
  task : CheckTask
  walk : Walk

structure Moment where
  /-- The innermost check first. -/
  underWay : List OpenCheck
  engine : Engine
  instances : InstanceTable

namespace Moment

def start : Moment := ⟨[], .start, ⟨[]⟩⟩

def next (m : Moment) : Entry → Moment
  | ⟨.checkBegins unit cause recheck, engine⟩ =>
    { m with engine, underWay := ⟨⟨unit, cause, recheck⟩, .start⟩ :: m.underWay }
  | ⟨.found walk, engine⟩ =>
    { m with engine, underWay := m.underWay.modifyHead fun check => { check with walk } }
  | ⟨.checkEnds _, engine⟩ => { m with engine, underWay := m.underWay.tail }
  | ⟨.instantiated key, engine⟩ =>
    { m with engine, instances := m.instances.insert key m.engine.units.length }
  | ⟨.operation _, engine⟩ | ⟨.counted, engine⟩ => { m with engine }

/-- The moment to which a journal leads. -/
def after (past : List Entry) : Moment := past.foldl next start

theorem after_concat (past : List Entry) (entry : Entry) :
    after (past ++ [entry]) = (after past).next entry := by
  rw [after, List.foldl_append]
  rfl

theorem engine_next (m : Moment) (entry : Entry) : (m.next entry).engine = entry.engine := by
  rcases entry with ⟨_ | _, _⟩ <;> rfl

/-- The state at a moment is the one that the journal notes last. -/
theorem engine_after_concat (past : List Entry) (entry : Entry) :
    (after (past ++ [entry])).engine = entry.engine := by
  rw [after_concat, engine_next]

end Moment

/-! ### The journal of a step -/

section

variable {α β : Type}

def journalOf (x : EngineM α) (e : Engine) : List Entry := (x.run.run e).log

theorem journalOf_bind (x : EngineM α) (f : α → EngineM β) (e : Engine) :
    journalOf (x >>= f) e = journalOf x e ++
      match runEngine x e with
      | (.ok a, e₁) => journalOf (f a) e₁
      | (.error _, _) => [] := by
  unfold journalOf runEngine
  change _ ++ Logged.log (ExceptT.bindCont f (x.run.run e).value.1 (x.run.run e).value.2) = _
  rcases (x.run.run e).value with ⟨_ | a, e₁⟩ <;> rfl

end

/-! ### What a step runs through -/

abbrev UnderWay (checks : List OpenCheck) (past : List Entry) : Prop :=
  (Moment.after past).underWay = checks

/-- After the entries `past`, the run is in the state `e` with these checks under way. -/
structure LeadsTo (past : List Entry) (checks : List OpenCheck) (e : Engine) : Prop where
  engine : (Moment.after past).engine = e
  underWay : UnderWay checks past

theorem LeadsTo.start : LeadsTo [] [] .start := ⟨rfl, rfl⟩

/-- An entry that is about no check leaves the checks as they are. -/
theorem UnderWay.concat {past : List Entry} {checks : List OpenCheck} {entry : Entry}
    (h : UnderWay checks past) (hsame : ∀ m : Moment, (m.next entry).underWay = m.underWay) :
    UnderWay checks (past ++ [entry]) := by
  rw [UnderWay, Moment.after_concat, hsame]
  exact h

/-- A step that begins in the state `e`, after the entries `past`, keeps `I` with every entry
    that it writes.  If it comes to its end with `a`, then `Q a` holds. -/
structure RunsThrough {α : Type} (I : List Entry → Prop) (past : List Entry) (x : EngineM α)
    (e : Engine) (Q : α → List Entry → Prop) : Prop where
  meets : ∀ entries, entries <+: journalOf x e → I (past ++ entries)
  stops : (Moment.after (past ++ journalOf x e)).engine = (runEngine x e).2
  arrives : ∀ a e', runEngine x e = (.ok a, e') → Q a (past ++ journalOf x e)

abbrev ChecksThrough {α : Type} (I : List Entry → Prop) (past : List Entry) (task : CheckTask)
    (others : List OpenCheck) (x : WalkM α) (walk : Walk) (e : Engine) : Prop :=
  RunsThrough I past (x.run walk) e fun r => UnderWay (⟨task, r.2⟩ :: others)

namespace RunsThrough

variable {I : List Entry → Prop} {past : List Entry} {α β : Type} {x : EngineM α} {e : Engine}
  {Q R : α → List Entry → Prop}

/-- A step that only looks at the state, or gives up. -/
theorem silent (hengine : (Moment.after past).engine = e) (here : I past)
    (hlog : journalOf x e = []) (hsame : (runEngine x e).2 = e)
    (hQ : ∀ a, runEngine x e = (.ok a, e) → Q a past) : RunsThrough I past x e Q where
  meets := by
    intro entries hentries
    rw [hlog, List.prefix_nil] at hentries
    rwa [hentries, List.append_nil]
  stops := by rw [hlog, List.append_nil, hsame, hengine]
  arrives := by
    intro a e' hr
    rw [hr] at hsame
    subst hsame
    rw [hlog, List.append_nil]
    exact hQ a hr

theorem rest {a : α} (hengine : (Moment.after past).engine = e) (here : I past) (hQ : Q a past) :
    RunsThrough I past (pure a) e Q :=
  silent hengine here rfl rfl fun a' ha => by
    cases ha
    exact hQ

theorem look {Q : Engine → List Entry → Prop} (hengine : (Moment.after past).engine = e)
    (here : I past) (hQ : Q e past) : RunsThrough I past get e Q :=
  silent hengine here rfl rfl fun a ha => by
    cases ha
    exact hQ

theorem giveUp {stop : IterationLimit} (hengine : (Moment.after past).engine = e) (here : I past) :
    RunsThrough I past (throw stop) e Q :=
  silent hengine here rfl rfl fun _ ha => nomatch ha

/-- A step that writes one entry. -/
theorem entry {a : α} {entry : Entry} (here : I past) (hlog : journalOf x e = [entry])
    (hr : runEngine x e = (.ok a, entry.engine)) (hafter : I (past ++ [entry]))
    (hQ : Q a (past ++ [entry])) : RunsThrough I past x e Q where
  meets := by
    intro entries hentries
    rw [hlog, List.prefix_cons_iff] at hentries
    obtain rfl | ⟨t, rfl, ht⟩ := hentries
    · rwa [List.append_nil]
    · rwa [List.prefix_nil.mp ht]
  stops := by rw [hlog, hr, Moment.engine_after_concat]
  arrives := by
    intro a' e' hr'
    rw [hr] at hr'
    cases hr'
    rwa [hlog]

theorem act {event : RunEvent} {f : Engine → α × Engine} (here : I past)
    (hafter : I (past ++ [⟨event, (f e).2⟩])) (hQ : Q (f e).1 (past ++ [⟨event, (f e).2⟩])) :
    RunsThrough I past (Engine.act event f) e Q :=
  entry here rfl rfl hafter hQ

/-- An operation on the store. -/
theorem onStore {op : Operation} {f : Store → α × Store} {checks : List OpenCheck}
    (hunder : UnderWay checks past) (here : I past)
    (hafter : I (past ++ [⟨.operation op, { e with store := (f e.store).2 }⟩])) :
    RunsThrough I past (Engine.onStore op f) e fun _ => UnderWay checks :=
  act here hafter (hunder.concat fun _ => rfl)

/-- Two steps in a row. -/
theorem seq {f : α → EngineM β} {R : β → List Entry → Prop} (first : RunsThrough I past x e Q)
    (next : ∀ a e₁ past₁, runEngine x e = (.ok a, e₁) → (Moment.after past₁).engine = e₁ →
      I past₁ → Q a past₁ → RunsThrough I past₁ (f a) e₁ R) :
    RunsThrough I past (x >>= f) e R := by
  have hjournal := journalOf_bind x f e
  have hlast : I (past ++ journalOf x e) := first.meets _ List.prefix_rfl
  have hstops := first.stops
  rcases hx : runEngine x e with ⟨stop | a, e₁⟩
  -- a run that gives up in the first step has written nothing else
  · rw [hx, List.append_nil] at hjournal
    rw [hx] at hstops
    refine ⟨?_, ?_, fun b e' hr => ?_⟩
    · rw [hjournal]
      exact first.meets
    · rw [hjournal, runEngine_bind_error hx, hstops]
    · rw [runEngine_bind_error hx] at hr
      cases hr
  · rw [hx] at hjournal hstops
    have hnext := next a e₁ _ hx hstops hlast (first.arrives a e₁ hx)
    refine ⟨fun entries hentries => ?_, ?_, fun b e' hr => ?_⟩
    · rw [hjournal] at hentries
      -- a moment before the end of the first step, or one of the second
      rcases List.prefix_or_prefix_of_prefix hentries (List.prefix_append _ _) with h | ⟨t, rfl⟩
      · exact first.meets entries h
      · rw [← List.append_assoc]
        exact hnext.meets t ((List.prefix_append_right_inj _).mp hentries)
    · rw [hjournal, ← List.append_assoc, runEngine_bind_ok hx]
      exact hnext.stops
    · rw [runEngine_bind_ok hx] at hr
      rw [hjournal, ← List.append_assoc]
      exact hnext.arrives b e' hr

end RunsThrough

namespace ChecksThrough

variable {I : List Entry → Prop} {past : List Entry} {task : CheckTask} {others : List OpenCheck}
  {α β : Type} {walk : Walk} {e : Engine}

theorem rest (a : α) (h : LeadsTo past (⟨task, walk⟩ :: others) e) (here : I past) :
    ChecksThrough I past task others (pure a) walk e :=
  RunsThrough.rest h.engine here h.underWay

theorem look (h : LeadsTo past (⟨task, walk⟩ :: others) e) (here : I past) :
    ChecksThrough I past task others get walk e :=
  RunsThrough.rest (a := (walk, walk)) h.engine here h.underWay

theorem change (f : Walk → Walk) (h : LeadsTo past (⟨task, walk⟩ :: others) e) (here : I past)
    (hafter : I (past ++ [⟨.found (f walk), e⟩])) :
    ChecksThrough I past task others (WalkM.change f) walk e := by
  refine RunsThrough.entry (a := ((), f walk)) here rfl rfl hafter ?_
  rw [UnderWay, Moment.after_concat, Moment.next, h.underWay]
  rfl

/-- A step of the run that is made in a check. -/
theorem run {x : EngineM α} {Q : α → List Entry → Prop} (h : RunsThrough I past x e Q)
    (hQ : ∀ a past', Q a past' → UnderWay (⟨task, walk⟩ :: others) past') :
    ChecksThrough I past task others (liftM x) walk e :=
  RunsThrough.seq (f := fun a => pure (a, walk)) h fun a _ past₁ _ hengine here ha =>
    .rest hengine here (hQ a past₁ ha)

/-- An operation on the store. -/
theorem onStore {op : Operation} {f : Store → α × Store}
    (h : LeadsTo past (⟨task, walk⟩ :: others) e) (here : I past)
    (hafter : I (past ++ [⟨.operation op, { e with store := (f e.store).2 }⟩])) :
    ChecksThrough I past task others (liftM (Engine.onStore op f)) walk e :=
  .run (.onStore h.underWay here hafter) fun _ _ hunder => hunder

/-- Two steps in a row, with anything that is known after the first. -/
theorem seqWith {x : WalkM α} {f : α → WalkM β} {Q : α × Walk → List Entry → Prop}
    (first : RunsThrough I past (x.run walk) e Q)
    (next : ∀ a walk₁ e₁ past₁, runWalk x walk e = (.ok (a, walk₁), e₁) →
      (Moment.after past₁).engine = e₁ → I past₁ → Q (a, walk₁) past₁ →
      ChecksThrough I past₁ task others (f a) walk₁ e₁) :
    ChecksThrough I past task others (x >>= f) walk e :=
  RunsThrough.seq first fun r e₁ past₁ hr hengine here hQ =>
    next r.1 r.2 e₁ past₁ hr hengine here hQ

/-- Two steps in a row. -/
theorem seq {x : WalkM α} {f : α → WalkM β} (first : ChecksThrough I past task others x walk e)
    (next : ∀ a walk₁ e₁ past₁, runWalk x walk e = (.ok (a, walk₁), e₁) →
      LeadsTo past₁ (⟨task, walk₁⟩ :: others) e₁ → I past₁ →
      ChecksThrough I past₁ task others (f a) walk₁ e₁) :
    ChecksThrough I past task others (x >>= f) walk e :=
  seqWith first fun a walk₁ e₁ past₁ hr hengine here hunder =>
    next a walk₁ e₁ past₁ hr ⟨hengine, hunder⟩ here

end ChecksThrough

/-! ### Checks of units, and whole runs -/

section

variable {I : List Entry → Prop} {past : List Entry} {checks : List OpenCheck} {e : Engine}
  {env : Env}

theorem RunsThrough.countCheck (here : I past) (hcounted : I (past ++ [⟨.counted, e.count⟩]))
    (limit : Nat) :
    RunsThrough I past (Engine.countCheck limit) e
      fun _ past' => past' = past ++ [⟨.counted, e.count⟩] := by
  refine .seq (Q := fun _ past' => past' = past ++ [⟨.counted, e.count⟩])
    (.act here hcounted rfl) fun _ e₁ past₁ _ hengine₁ here₁ hpast₁ => ?_
  refine .seq (.look (Q := fun _ past' => past' = past ++ [⟨.counted, e.count⟩]) hengine₁ here₁
    hpast₁) fun s e₂ past₂ _ hengine₂ here₂ hpast₂ => ?_
  split
  · exact .giveUp hengine₂ here₂
  · exact .rest hengine₂ here₂ hpast₂

/-- The check of a unit from scratch. -/
theorem RunsThrough.checkOnce {begin : Engine.Begin} {unit : UnitId} {cause : Option Location}
    {recheck : Bool} {begun : List Entry}
    (hbegun : begun =
      past ++ [⟨.counted, e.count⟩] ++ [⟨.checkBegins unit cause recheck, e.count⟩])
    (hunder : UnderWay checks past) (here : I past) (hcounted : I (past ++ [⟨.counted, e.count⟩]))
    (hbegins : I begun)
    (hbody : LeadsTo begun (⟨⟨unit, cause, recheck⟩, .start⟩ :: checks) e.count →
      ChecksThrough I begun ⟨unit, cause, recheck⟩ checks
        ((e.checkingOf env begin unit cause recheck).unitBody (e.keyOf unit)) .start e.count)
    (hends : ∀ result walk e₁ past₁,
      runWalk ((e.checkingOf env begin unit cause recheck).unitBody (e.keyOf unit)) .start e.count =
        (.ok (result, walk), e₁) →
      LeadsTo past₁ (⟨⟨unit, cause, recheck⟩, walk⟩ :: checks) e₁ → I past₁ →
      I (past₁ ++ [⟨.checkEnds result, e₁.record unit walk result⟩])) :
    RunsThrough I past (Engine.checkOnce env begin unit cause recheck) e
      fun _ => UnderWay checks := by
  subst hbegun
  unfold Engine.checkOnce
  refine .seq (.countCheck here hcounted _) fun _ e₁ past₁ _ hengine₁ here₁ hpast₁ => ?_
  subst hpast₁
  have hcount := (Moment.engine_after_concat past ⟨.counted, e.count⟩).symm.trans hengine₁
  dsimp only at hcount
  subst hcount
  refine .seq (.look (Q := fun s past' => s = e.count ∧ past' = past ++ [⟨.counted, e.count⟩])
    hengine₁ here₁ ⟨rfl, rfl⟩) fun s e₂ past₂ hr _ _ hlooked => ?_
  obtain ⟨rfl, rfl⟩ := hlooked
  cases hr
  refine .seq (Q := fun _ past' => past' =
      past ++ [⟨.counted, e.count⟩] ++ [⟨.checkBegins unit cause recheck, e.count⟩])
    (.act here₁ hbegins rfl) fun _ e₃ past₃ hr hengine₃ _ hpast₃ => ?_
  subst hpast₃
  cases hr
  have hunder₃ : UnderWay (⟨⟨unit, cause, recheck⟩, .start⟩ :: checks)
      (past ++ [⟨.counted, e.count⟩] ++ [⟨.checkBegins unit cause recheck, e.count⟩]) := by
    rw [UnderWay, Moment.after_concat, Moment.next, hunder.concat fun _ => rfl]
  refine .seq (hbody ⟨hengine₃, hunder₃⟩) ?_
  rintro ⟨result, walk⟩ e₄ past₄ hr hengine₄ here₄ hunder₄
  refine .act here₄ (hends result walk e₄ past₄ hr ⟨hengine₄, hunder₄⟩ here₄) ?_
  rw [UnderWay, Moment.after_concat, Moment.next, hunder₄]
  rfl

theorem Engine.isIdle_of_pop {e₁ : Engine}
    (hr : runEngine (Engine.onStore .pop Store.pop) e = (.ok none, e₁)) :
    e₁.store.isIdle = true := by
  rw [runEngine_pop] at hr
  cases hq : e.store.queue with
  | cons next rest =>
    rw [hq] at hr
    cases hr
  | nil =>
    rw [hq] at hr
    cases hr
    rw [Store.isIdle, hq]
    rfl

/-- What a run needs to keep `I`: units may be checked when they are due, and the units that
    are taken off the worklist are. -/
structure Sustains (env : Env) (I : List Entry → Prop)
    (Due : List Entry → UnitId → Option Location → Bool → Prop) : Prop where
  check : ∀ {past checks e unit cause recheck}, LeadsTo past checks e → I past →
    Due past unit cause recheck →
    RunsThrough I past (Engine.checkNested env env.settings.maxNesting unit cause recheck) e
      fun _ => UnderWay checks
  pop : ∀ {past e}, LeadsTo past [] e → I past →
    I (past ++ [⟨.operation .pop, { e with store := e.store.pop.2 }⟩]) ∧ ∀ next ∈ e.store.pop.1,
      Due (past ++ [⟨.operation .pop, { e with store := e.store.pop.2 }⟩]) next.unit next.cause true
  sealed : ∀ {past e}, LeadsTo past [] e → I past → e.store.isIdle = true →
    e.knowsProblem = false → I (past ++ [⟨.operation (.sealStarved .nil), e.sealed⟩])

namespace Sustains

variable {Due : List Entry → UnitId → Option Location → Bool → Prop} (h : Sustains env I Due)
include h

theorem runsThrough_pop (hled : LeadsTo past [] e) (here : I past) :
    RunsThrough I past (Engine.onStore .pop Store.pop) e fun o past' =>
      UnderWay [] past' ∧ ∀ next ∈ o, Due past' next.unit next.cause true := by
  obtain ⟨hpopped, hdue⟩ := h.pop hled here
  exact .act here hpopped ⟨hled.underWay.concat fun _ => rfl, hdue⟩

theorem runsThrough_nextUnit (hled : LeadsTo past [] e) (here : I past) :
    RunsThrough I past Engine.nextUnit e fun o past' =>
      UnderWay [] past' ∧ ∀ next ∈ o, Due past' next.unit next.cause true := by
  unfold Engine.nextUnit
  refine .seq (h.runsThrough_pop hled here) fun o e₁ past₁ hr hengine₁ here₁ hpopped => ?_
  cases o with
  | some next => exact .rest hengine₁ here₁ hpopped
  | none =>
    have hidle : e₁.store.isIdle = true := Engine.isIdle_of_pop hr
    refine .seq (.look (Q := fun s past' => s = e₁ ∧ UnderWay [] past') hengine₁ here₁
      ⟨rfl, hpopped.1⟩) fun s e₂ past₂ hr₂ hengine₂ here₂ hlooked => ?_
    obtain ⟨rfl, hunder₂⟩ := hlooked
    cases hr₂
    split
    · exact .rest hengine₂ here₂ ⟨hunder₂, nofun⟩
    -- sealing can put units on the worklist, of which the first is taken
    · rename_i hfaultless
      have hsealed := h.sealed ⟨hengine₂, hunder₂⟩ here₂ hidle (Bool.not_eq_true _ ▸ hfaultless)
      exact .seq (.onStore hunder₂ here₂ hsealed)
        fun _ e₃ past₃ _ hengine₃ here₃ hunder₃ => h.runsThrough_pop ⟨hengine₃, hunder₃⟩ here₃

theorem runsThrough_settle (rounds : Nat) (hled : LeadsTo past [] e) (here : I past) :
    RunsThrough I past (Engine.settle env rounds) e fun _ => UnderWay [] := by
  induction rounds generalizing past e with
  | zero => exact .giveUp hled.engine here
  | succ rounds ih =>
    rw [Engine.settle]
    refine .seq (h.runsThrough_nextUnit hled here)
      fun o e₁ past₁ _ hengine₁ here₁ hchosen => ?_
    obtain ⟨hunder₁, hdue⟩ := hchosen
    cases o with
    | none => exact .rest hengine₁ here₁ hunder₁
    | some next =>
      exact .seq (h.check ⟨hengine₁, hunder₁⟩ here₁ (hdue next rfl))
        fun _ e₂ past₂ _ hengine₂ here₂ hunder₂ => ih ⟨hengine₂, hunder₂⟩ here₂

/-- The top level is due at the beginning. -/
theorem runsThrough_runAll (hstart : I []) (htop : Due [] topUnit none false) :
    RunsThrough I [] (Engine.runAll env) .start fun _ => UnderWay [] :=
  .seq (h.check .start hstart htop) fun _ _ _ _ hengine here hunder =>
    h.runsThrough_settle _ ⟨hengine, hunder⟩ here

end Sustains

end

end UnionTyping
