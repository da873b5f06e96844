/-
  UnionTyping/Inference/Outcome.lean
  ==================================
  **What the check of a program answers.**

  A program is rejected for its first problem: the one with the least location,
  and among several at one place that of the earliest unit, in the order in which
  it was reported.  Otherwise the findings of all units are put together: a node
  that was checked in several instances has the union of its types, and its calls
  are those of all instances.  What is still unresolved then is nil.
-/
import UnionTyping.Inference.Fixpoint

namespace UnionTyping

structure InstanceSummary where
  unit : UnitId
  method : MethodId
  name : String
  self : Option Ty
  args : List Ty
  ret : Ty
deriving BEq, Repr

structure Report where
  types : NodeMap Ty
  calls : NodeMap (List Resolution)
  /-- In the order of their creation. -/
  instances : List InstanceSummary
  /-- The type of the last top-level expression, if there is one. -/
  result : Option Ty
deriving Repr

def Report.instancesOf (r : Report) (name : String) : List InstanceSummary :=
  r.instances.filter (·.name == name)

inductive CheckError where
  | rejected (diagnostic : Diagnostic)
  /-- The run was given up after so many checks. -/
  | iterationLimit (limit : Nat)
deriving Repr

def CheckError.message : CheckError → String
  | rejected d => d.message
  | iterationLimit limit =>
    "internal error: inference did not reach a fixpoint within " ++ toString limit ++ " checks"

namespace Engine

/-- Of a diagnostic and those that follow it, the first with the least location. -/
def firstFrom (best : Diagnostic) : List Diagnostic → Diagnostic
  | [] => best
  | d :: ds => firstFrom (if (d.location.compare best.location).isLT then d else best) ds

/-- The problem for which a program is rejected. -/
def firstDiagnostic? (e : Engine) : Option Diagnostic :=
  match e.units.flatMap UnitRecord.diagnostics with
  | [] => none
  | d :: ds => some (firstFrom d ds)

def mergeTypes (types : NodeMap Ty) (u : UnitRecord) : NodeMap Ty :=
  u.types.entries.foldl
    (fun types (node, ty) => types.alter node fun known => (known.getD .unresolved).union ty) types

/-- A call as it is reported: with the type that its method returns in the end, and
    nothing unresolved. -/
def finalCall (e : Engine) (call : Resolution) : Resolution :=
  let ret := match call.callee with
    | .method _ unit => e.returnedType unit
    | _ => call.ret
  { call with args := call.args.map Ty.settled, ret := ret.settled }

def addCalls (known : List Resolution) : List Resolution → List Resolution
  | [] => known
  | call :: rest => addCalls (if known.any (· == call) then known else known ++ [call]) rest

def mergeCalls (e : Engine) (calls : NodeMap (List Resolution)) (u : UnitRecord) :
    NodeMap (List Resolution) :=
  u.calls.entries.foldl
    (fun calls (node, found) =>
      calls.alter node fun known => addCalls (known.getD []) (found.map e.finalCall))
    calls

def instances (env : Env) (e : Engine) : List InstanceSummary :=
  e.units.zipIdx.filterMap fun (u, unit) =>
    u.key.map fun key =>
      ⟨unit, key.method, ((env.methods.get? key.method).map Method.name).getD "", key.self,
        key.args, (e.returnedType unit).settled⟩

def report (env : Env) (e : Engine) : Report :=
  { types := (e.units.foldl mergeTypes .empty).map Ty.settled
    calls := e.units.foldl e.mergeCalls .empty
    instances := instances env e
    result := if env.topLevel.isEmpty then none else e.units.head?.map (·.result.settled) }

end Engine

def Env.check (env : Env) : Except CheckError Report :=
  match Engine.final env with
  | (.error stop, _) => .error (.iterationLimit stop.limit)
  | (.ok (), e) =>
    match e.firstDiagnostic? with
    | some d => .error (.rejected d)
    | none => .ok (e.report env)

def Program.check (p : Program) (settings : Settings) : Except CheckError Report :=
  match Env.ofProgram settings p with
  | .error d => .error (.rejected d)
  | .ok env => env.check

end UnionTyping
