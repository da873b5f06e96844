/-
  UnionTyping/Inference/Fixpoint.lean
  ===================================
  **Checking units until nothing they have read changes any more.**

  The check of a unit goes through its body from scratch and replaces what the
  last check found.  A new instance of a method is checked inside the check of
  its first caller, down to a certain depth, and waits on the worklist below it.

  After the top level was checked, the waiting units are checked again, one after
  the other.  When none is left, what was read and has no type yet is sealed to
  nil and its readers are checked once more, unless a problem is known by then.
  The run ends when nothing is waiting and nothing was left to seal.
-/
import UnionTyping.Inference.Expressions

namespace UnionTyping

namespace Checking

variable (c : Checking)

/-- Gives the parameters of a method instance their types: that of the argument, or
    else of the default value. -/
def bindParams (site : Location) : (args : List Ty) → List Param → WalkM Unit
  | _, [] => return ()
  | args, p :: ps => do
    let ty ← match args, p.default with
      | arg :: _, _ => pure arg
      | [], some value => c.check value
      | [], none => pure .unresolved
    let binding ← c.bindLocal p.name
    c.assign binding site ty
    bindParams site args.tail ps

def methodBody (d : Def) (args : List Ty) : WalkM Ty := do
  c.bindParams d.loc args d.params
  let ty ← c.inferBody .nil d.body
  let returned ← bindingOf (.returned c.unit)
  c.assign returned d.loc ty
  return ty

def unitBody : Option Instantiation → WalkM Ty
  | none => c.inferBody .nil c.env.topLevel
  | some key =>
    match c.env.methods.get? key.method with
    | some method => c.methodBody method.definition key.args
    | none => return .unresolved

end Checking

/-- The findings of a check, in place of those of the last one. -/
def UnitRecord.found (u : UnitRecord) (walk : Walk) (result : Ty) : UnitRecord :=
  { u with diagnostics := walk.diagnostics, types := walk.types, calls := walk.calls, result }

namespace Engine

/-- What is done about a new instance, given whether the unit that met it was being
    checked again, its unit, and the assignment or call that led to it. -/
abbrev Begin := (recheck : Bool) → UnitId → Location → EngineM Unit

def checkOnce (env : Env) (begin : Begin) (unit : UnitId) (cause : Option Location)
    (recheck : Bool) : EngineM Unit := do
  countCheck env.settings.maxIterations
  let key := ((← get).units[unit]?).bind UnitRecord.key
  let c : Checking := ⟨env, unit, key.bind Instantiation.self, cause, recheck, begin recheck⟩
  act (.checkBegins unit cause recheck) fun e => ((), e)
  let (result, walk) ← (c.unitBody key).run .start
  act (.checkEnds result) fun e =>
    ((), { e with units := e.units.modify unit fun u => u.found walk result })

/-- Checks a unit; new instances are checked inside it for `depth` levels and put on
    the worklist below. -/
def checkNested (env : Env) : (depth : Nat) → (unit : UnitId) → (cause : Option Location) →
    (recheck : Bool) → EngineM Unit
  | 0 => checkOnce env fun _ unit cause => enqueue unit (some cause)
  | depth + 1 => checkOnce env fun recheck unit cause =>
    checkNested env depth unit (some cause) recheck

/-- Checks a unit, nesting new instances as deep as the settings allow. -/
def recheck (env : Env) (i : Pending) : EngineM Unit :=
  checkNested env env.settings.maxNesting i.unit i.cause true

/-- The next waiting unit.  When none is waiting and no problem is known, starved
    bindings are sealed to nil first. -/
def nextUnit : EngineM (Option Pending) := do
  match ← onStore .pop Store.pop with
  | some i => return some i
  | none =>
    if (← get).knowsProblem then return none
    let _ ← onStore (.sealStarved .nil) (·.sealStarved .nil)
    onStore .pop Store.pop

/-- Checks waiting units until none is left.  `rounds` bounds their number; each
    round makes a check, so as many rounds as checks are allowed are enough. -/
def settle (env : Env) : (rounds : Nat) → EngineM Unit
  | 0 => throw ⟨env.settings.maxIterations⟩
  | rounds + 1 => do
    match ← nextUnit with
    | none => return ()
    | some i =>
      recheck env i
      settle env rounds

def runAll (env : Env) : EngineM Unit := do
  checkNested env env.settings.maxNesting topUnit none false
  settle env env.settings.maxIterations

/-- The state in which a run ends, and whether it was given up. -/
def final (env : Env) : Except IterationLimit Unit × Engine := ((runAll env).run.run .start).value

def journal (env : Env) : List Entry := ((runAll env).run.run .start).log

end Engine

end UnionTyping
