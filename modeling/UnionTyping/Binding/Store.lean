/-
  UnionTyping/Binding/Store.lean
  ==============================
  **The types of variables, and who has read them.**

  A binding is a local of one unit, an instance variable of one class, or the
  value returned by one instance of a method.  It keeps the places at which it
  was assigned with the types assigned there.  Its current type is the union of
  these types, so it can only grow.

  A unit that reads a binding is remembered as a reader.  When an assignment
  widens the binding, all its readers go on the worklist, in ascending order.  A
  binding that is read while it has no type stays unresolved until something known is
  assigned to it.  When the worklist is empty, `sealStarved` gives all that are still
  unresolved one type and puts their readers on the worklist.  They are told by their
  type: nothing was assigned to them, or only what was not known at the time.
-/
import UnionTyping.Binding.Worklist
import UnionTyping.ClassTable
import UnionTyping.Scopes

namespace UnionTyping

/-- What a binding belongs to. -/
inductive Slot where
  /-- A local of a unit that was declared in the given scope. -/
  | local (unit : UnitId) (scope : Scope) (name : String)
  /-- An instance variable, common to all instances of the class. -/
  | ivar (owner : ClassId) (name : String)
  /-- The value that a unit returns. -/
  | returned (unit : UnitId)
deriving DecidableEq, Repr

structure Assignment where
  site : Location
  ty : Ty
deriving BEq, Repr

structure Binding where
  slot : Slot
  /-- The assignments in order, each once. -/
  history : List Assignment
  current : Ty
  /-- The units that have read the binding, in ascending order. -/
  readers : List UnitId
deriving Repr

namespace Binding

def fresh (slot : Slot) : Binding := ⟨slot, [], .unresolved, []⟩

/-- Puts a unit among others in ascending order, once. -/
def insertUnit (unit : UnitId) : List UnitId → List UnitId
  | [] => [unit]
  | u :: us =>
    if unit < u then unit :: u :: us
    else if unit = u then u :: us
    else u :: insertUnit unit us

def readBy (b : Binding) (unit : UnitId) : Binding :=
  { b with readers := insertUnit unit b.readers }

def assigned (b : Binding) (a : Assignment) : Binding :=
  let widened := b.current.union a.ty
  { b with
    history := if b.history.any (· == a) then b.history else b.history ++ [a]
    current := if widened == b.current then b.current else widened }

/-- Whether the binding was read but holds nothing. -/
def isStarved (b : Binding) : Bool := b.current.isUnresolved && !b.readers.isEmpty

end Binding

/-- All bindings, and the units that wait for a new check.  The place of a binding
    is its identity. -/
structure Store where
  bindings : List Binding
  queue : Worklist
deriving Repr, Inhabited

namespace Store

def empty : Store := ⟨[], []⟩

/-! ### Bindings -/

def find (s : Store) (slot : Slot) : Option BindingId :=
  s.bindings.findIdx? fun b => decide (b.slot = slot)

def intern (s : Store) (slot : Slot) : BindingId × Store :=
  match s.find slot with
  | some id => (id, s)
  | none => (s.bindings.length, { s with bindings := s.bindings ++ [.fresh slot] })

def typeOf (s : Store) (id : BindingId) : Ty :=
  (s.bindings[id]?.map Binding.current).getD .unresolved

/-- The current type of a binding, with `reader` remembered as one of its
    readers. -/
def read (s : Store) (id : BindingId) (reader : UnitId) : Ty × Store :=
  (s.typeOf id, { s with bindings := s.bindings.modify id (·.readBy reader) })

/-- Assigns a type to a binding at `site`, and says whether that widened it.  The
    readers of a widened binding are put on the worklist for `cause`.  Assigning
    the unresolved type does nothing. -/
def assign (s : Store) (id : BindingId) (site : Location) (ty : Ty) (cause : Location) :
    Bool × Store :=
  if ty.isUnresolved then (false, s)
  else
    match s.bindings[id]? with
    | none => (false, s)
    | some b =>
      let bindings := s.bindings.modify id (·.assigned ⟨site, ty⟩)
      if b.current.union ty == b.current then (false, { s with bindings })
      else (true, ⟨bindings, s.queue.enqueueAll b.readers (some cause)⟩)

/-! ### The worklist -/

def enqueue (s : Store) (unit : UnitId) (cause : Option Location) : Store :=
  { s with queue := s.queue.enqueue unit cause }

def pop (s : Store) : Option Pending × Store :=
  match s.queue with
  | [] => (none, s)
  | next :: rest => (some next, { s with queue := rest })

def isIdle (s : Store) : Bool := s.queue.isEmpty

/-! ### Sealing -/

/-- The readers of the starved ones among the bindings, in ascending order. -/
def starvedReaders (bindings : List Binding) : List UnitId :=
  (bindings.filter Binding.isStarved).foldl
    (fun units b => b.readers.foldl (fun units u => Binding.insertUnit u units) units) []

/-- Gives every binding that was read and has no type yet the type `ty`, and says
    whether there was one.  Their readers are put on the worklist. -/
def sealStarved (s : Store) (ty : Ty) : Bool × Store :=
  let readers := starvedReaders s.bindings
  (!readers.isEmpty,
    ⟨s.bindings.map fun b => if b.isStarved then { b with current := ty } else b,
      s.queue.enqueueAll readers none⟩)

/-- Sealing is only meaningful when no unit is waiting, and refused otherwise. -/
def seal? (s : Store) (ty : Ty) : Option (Bool × Store) :=
  if s.isIdle then some (s.sealStarved ty) else none

end Store

end UnionTyping
