/-
  UnionTyping/Proofs/Binding/Indexed.lean
  =======================================
  **A store that does not search its lists.**

  A `Store` goes through all its bindings to find the one of a slot, and through all
  waiting units to see whether one of them is waiting.  Here an index of the slots stands
  beside the bindings and the set of the waiting units beside the worklist, and both are
  updated with the lists.  The operations are the same ones and are refused when they are
  refused there.
-/
import Mathlib.Data.Finmap
import UnionTyping.Binding.Session

namespace UnionTyping

/-- A store with an index of the slots and the set of the waiting units. -/
structure IndexedStore extends Store where
  index : Finmap fun _ : Slot => BindingId
  waiting : Finset UnitId

namespace IndexedStore

def empty : IndexedStore := ⟨.empty, ∅, ∅⟩

/-! ### Bindings -/

def find (x : IndexedStore) (slot : Slot) : Option BindingId := x.index.lookup slot

/-- The binding of a slot, made and indexed on first use. -/
def intern (x : IndexedStore) (slot : Slot) : BindingId × IndexedStore :=
  match x.find slot with
  | some id => (id, x)
  | none =>
    let id := x.bindings.length
    (id, { x with
      bindings := x.bindings ++ [.fresh slot]
      index := x.index.insert slot id })

/-- The current type of a binding, with `reader` remembered as one of its
    readers. -/
def read (x : IndexedStore) (id : BindingId) (reader : UnitId) : Ty × IndexedStore :=
  (x.typeOf id, { x with bindings := x.bindings.modify id (·.readBy reader) })

/-! ### The worklist -/

def enqueue (x : IndexedStore) (unit : UnitId) (cause : Option Location) : IndexedStore :=
  if unit ∈ x.waiting then x
  else { x with queue := x.queue ++ [⟨unit, cause⟩], waiting := insert unit x.waiting }

def enqueueAll (x : IndexedStore) (units : List UnitId) (cause : Option Location) :
    IndexedStore :=
  units.foldl (fun x unit => x.enqueue unit cause) x

def pop (x : IndexedStore) : Option Pending × IndexedStore :=
  match x.queue with
  | [] => (none, x)
  | next :: rest => (some next, { x with queue := rest, waiting := x.waiting.erase next.unit })

/-! ### Assigning and sealing -/

/-- Assigns a type to a binding at `site`, and says whether that widened it.  The
    readers of a widened binding are put on the worklist for `cause`. -/
def assign (x : IndexedStore) (id : BindingId) (site : Location) (ty : Ty) (cause : Location) :
    Bool × IndexedStore :=
  if ty.isUnresolved then (false, x)
  else
    match x.bindings[id]? with
    | none => (false, x)
    | some b =>
      let recorded : IndexedStore :=
        { x with bindings := x.bindings.modify id (·.assigned ⟨site, ty⟩) }
      if b.current.union ty == b.current then (false, recorded)
      else (true, recorded.enqueueAll b.readers (some cause))

/-- Gives every binding that was read and has no type yet the type `ty`, and says
    whether there was one.  Their readers are put on the worklist. -/
def sealStarved (x : IndexedStore) (ty : Ty) : Bool × IndexedStore :=
  let readers := Store.starvedReaders x.bindings
  let settled : IndexedStore := { x with
    bindings := x.bindings.map fun b => if b.isStarved then { b with current := ty } else b }
  (!readers.isEmpty, settled.enqueueAll readers none)

/-! ### Sessions -/

def perform (x : IndexedStore) : Operation → Option (Answer × IndexedStore)
  | .intern slot =>
    let (id, x) := x.intern slot
    some (.binding id, x)
  | .find slot => some (.found (x.find slot), x)
  | .read id reader =>
    if id < x.bindings.length then
      let (ty, x) := x.read id reader
      some (.type ty, x)
    else none
  | .peek id => if id < x.bindings.length then some (.type (x.typeOf id), x) else none
  | .assign id site ty cause =>
    if ty.isUnresolved || decide (id < x.bindings.length) then
      let (widened, x) := x.assign id site ty cause
      some (.flag widened, x)
    else none
  | .enqueue unit cause => some (.done, x.enqueue unit cause)
  | .pop =>
    let (pending, x) := x.pop
    some (.next pending, x)
  | .isIdle => some (.flag x.isIdle, x)
  | .sealStarved ty =>
    if x.isIdle then
      let (any, x) := x.sealStarved ty
      some (.flag any, x)
    else none

def performAll (x : IndexedStore) : List Operation → Option (Log × IndexedStore)
  | [] => some ([], x)
  | op :: ops => do
    let (answer, next) ← x.perform op
    let (log, last) ← next.performAll ops
    return ((op, answer) :: log, last)

end IndexedStore

end UnionTyping
