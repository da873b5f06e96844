/-
  UnionTyping/Inference/Engine.lean
  =================================
  **The state of a run, and the state of one check of one unit.**

  The engine holds the bindings of all units with the worklist, and for each unit
  what its last check found.  A unit is the top level or a method instantiated
  for one receiver and one combination of argument types; no two units have the
  same instance.  The engine gives up after a number of checks.

  During one check a `Walk` goes along: the names that are visible at the moment
  and everything found out so far.  `Checking` holds what stays fixed in a check.

  A run keeps a journal of every change, with the state after it.  Nothing in a run
  depends on the journal.
-/
import UnionTyping.Binding.Session
import UnionTyping.Inference.Environment
import UnionTyping.Journal
import UnionTyping.NodeMap

namespace UnionTyping

/-! ### What a check finds -/

inductive Callee where
  /-- A method, as one of its instances. -/
  | method (definition : MethodId) (unit : UnitId)
  | primitive (name : String)
  | native (lib function : String)
  /-- A new instance of a class. -/
  | allocate (className : String)
  /-- The address of a variable. -/
  | pointer
deriving DecidableEq, Repr

/-- One way in which a call is carried out.  A call with unions among its receiver
    and arguments has several. -/
structure Resolution where
  receiver : Option Ty
  callee : Callee
  args : List Ty
  ret : Ty
deriving BEq, Repr

structure Instantiation where
  method : MethodId
  self : Option Ty
  args : List Ty
deriving BEq, Repr

/-- A unit with the findings of its last check. -/
structure UnitRecord where
  /-- None for the top level. -/
  key : Option Instantiation
  diagnostics : List Diagnostic
  types : NodeMap Ty
  calls : NodeMap (List Resolution)
  result : Ty
deriving Repr

def UnitRecord.fresh (key : Option Instantiation) : UnitRecord :=
  ⟨key, [], .empty, .empty, .unresolved⟩

/-! ### The engine -/

structure Engine where
  store : Store
  units : List UnitRecord
  /-- The number of checks made so far. -/
  checks : Nat
deriving Repr

/-- The run was given up after this many checks. -/
structure IterationLimit where
  limit : Nat
deriving DecidableEq, Repr

/-- What is visible and what was found so far in the check of a unit. -/
structure Walk where
  scopes : Scopes
  /-- The number of bodies of loops and blocks around what is checked. -/
  loopDepth : Nat
  diagnostics : List Diagnostic
  types : NodeMap Ty
  calls : NodeMap (List Resolution)
deriving Repr

def Walk.start : Walk := ⟨.empty, 0, [], .empty, .empty⟩

/-- A step of a run that changes something. -/
inductive RunEvent where
  | operation (op : Operation)
  /-- An instance gets a unit. -/
  | instantiated (key : Instantiation)
  /-- One more check is counted. -/
  | counted
  | checkBegins (unit : UnitId) (cause : Option Location) (recheck : Bool)
  /-- What the innermost check has found is now this. -/
  | found (walk : Walk)
  /-- The innermost check comes to its end, and its findings become those of its unit. -/
  | checkEnds (result : Ty)
deriving Repr

structure Entry where
  event : RunEvent
  engine : Engine

/-- Steps of a run.  A run that is given up shows the state it had reached. -/
abbrev EngineM := ExceptT IterationLimit (StateT Engine (Logged Entry))

namespace Engine

def start : Engine := ⟨.empty, [.fresh none], 0⟩

def unitOf (e : Engine) (key : Instantiation) : Option UnitId :=
  e.units.findIdx? fun u => u.key.any (key == ·)

def knowsProblem (e : Engine) : Bool := e.units.any fun u => !u.diagnostics.isEmpty

def returnedType (e : Engine) (unit : UnitId) : Ty :=
  ((e.store.find (.returned unit)).map e.store.typeOf).getD .unresolved

/-- Changes the state, and writes into the journal what happens. -/
def act {α : Type} (event : RunEvent) (f : Engine → α × Engine) : EngineM α := do
  let (a, e) := f (← get)
  liftM (Logged.note (Entry.mk event e))
  set e
  return a

/-- Performs an operation on the bindings and the worklist; `f` says what it answers and
    makes of them. -/
def onStore {α : Type} (op : Operation) (f : Store → α × Store) : EngineM α :=
  act (.operation op) fun e =>
    let (a, store) := f e.store
    (a, { e with store })

def enqueue (unit : UnitId) (cause : Option Location) : EngineM Unit :=
  onStore (.enqueue unit cause) fun s => ((), s.enqueue unit cause)

def addUnit (key : Instantiation) : EngineM UnitId :=
  act (.instantiated key) fun e =>
    (e.units.length, { e with units := e.units ++ [.fresh (some key)] })

/-- Counts one more check, or gives up. -/
def countCheck (limit : Nat) : EngineM Unit := do
  act .counted fun e => ((), { e with checks := e.checks + 1 })
  if limit < (← get).checks then throw ⟨limit⟩

end Engine

/-! ### One check -/

abbrev WalkM := StateT Walk EngineM

def WalkM.change (f : Walk → Walk) : WalkM Unit := do
  modify f
  let walk ← get
  liftM (Engine.act (.found walk) fun e => ((), e))

/-- What stays fixed in the check of a unit. -/
structure Checking where
  env : Env
  unit : UnitId
  /-- The type of `self`. -/
  self : Option Ty
  /-- The assignment whose widening this check goes back to, if any.  Assignments
      made in the check are put down to it. -/
  cause : Option Location
  /-- Whether the unit was on the worklist. -/
  recheck : Bool
  /-- Sees to a new instance: checks it at once or puts it on the worklist. -/
  begin : UnitId → Location → EngineM Unit

namespace Checking

variable (c : Checking)

/-- Reports a problem, once for each place.  What failed has no type. -/
def fail (problem : Problem) (loc : Location) : WalkM Ty := do
  WalkM.change fun w =>
    if w.diagnostics.any fun d => decide (d.location = loc) && d.problem == problem then w
    else
      let related := if c.recheck then c.cause else none
      { w with diagnostics := w.diagnostics ++ [⟨problem, loc, related⟩] }
  return .unresolved

def noteType (node : NodeId) (ty : Ty) : WalkM Unit :=
  WalkM.change fun w => { w with types := w.types.insert node ty }

/-- Notes a way in which a call is carried out, once. -/
def noteCall (node : NodeId) (call : Resolution) : WalkM Unit :=
  WalkM.change fun w => { w with
    calls := w.calls.alter node fun known =>
      let calls := known.getD []
      if calls.any (· == call) then calls else calls ++ [call] }

def typed (node : NodeId) (step : WalkM Ty) : WalkM Ty := do
  let ty ← step
  noteType node ty
  return ty

/-! ### Variables -/

def lookup (name : String) : WalkM (Option BindingId) := return (← get).scopes.lookup name

def bindingOf (slot : Slot) : WalkM BindingId := Engine.onStore (.intern slot) (·.intern slot)

/-- The current type of a binding; the unit is a reader from now on. -/
def read (binding : BindingId) : WalkM Ty :=
  Engine.onStore (.read binding c.unit) (·.read binding c.unit)

def assign (binding : BindingId) (site : Location) (ty : Ty) : WalkM Unit :=
  let cause := c.cause.getD site
  Engine.onStore (.assign binding site ty cause) fun s => ((), (s.assign binding site ty cause).2)

def bindLocal (name : String) : WalkM BindingId := do
  let owner := (← get).scopes.owner
  let binding ← bindingOf (.local c.unit owner name)
  WalkM.change fun w => { w with scopes := w.scopes.declare name binding }
  return binding

/-- The binding of an instance variable of `self`.  Only instances of reference
    classes have instance variables. -/
def ivarOf (name : String) (loc : Location) : WalkM (Option BindingId) := do
  match c.self.bind c.env.classes.classOf with
  | none =>
    let _ ← c.fail .ivarOutsideClass loc
    return none
  | some owner =>
    match c.env.classes.kindOf owner with
    | .value =>
      let _ ← c.fail (.ivarInValueClass (c.env.classes.nameOf owner)) loc
      return none
    | .reference => return some (← bindingOf (.ivar owner name))

/-- The binding that an assignment writes.  A local that is not visible is declared
    by it. -/
def bindingToAssign (target : Target) (loc : Location) : WalkM (Option BindingId) := do
  match target with
  | .local name =>
    match ← lookup name with
    | some binding => return some binding
    | none => return some (← c.bindLocal name)
  | .ivar name => c.ivarOf name loc

/-- Reads an instance variable; it has no type where there can be none. -/
def readIvar (name : String) (loc : Location) : WalkM Ty := do
  match ← c.ivarOf name loc with
  | some binding => c.read binding
  | none => return .unresolved

/-- The type of the variable behind an `out` that is not passed to a native
    function. -/
def outType (target : Target) (loc : Location) : WalkM Ty := do
  match target with
  | .local name =>
    match ← lookup name with
    | some binding => c.read binding
    | none => c.fail (.undefinedName name) loc
  | .ivar name => c.readIvar name loc

/-- The type of the variable behind an `out` argument of a native function.  The
    variable need not be there yet. -/
def nativeOutType (target : Target) (loc : Location) : WalkM Ty := do
  match target with
  | .local name =>
    match ← lookup name with
    | some binding => c.read binding
    | none => return .unresolved
  | .ivar name => c.readIvar name loc

end Checking

end UnionTyping
