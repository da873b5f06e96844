/-
  UnionTyping/Binding/Session.lean
  ================================
  **Any sequence of operations on the store, with what each of them answered.**

  The check of a program uses the store in one particular way.  What the store promises
  holds however it is used, so here an operation is a value (`Operation`), and a session
  performs a list of them one after the other.  An operation on a binding that does not
  exist, and sealing while a unit is waiting, are refused, and a session with such an
  operation has no result.
-/
import UnionTyping.Binding.Store

namespace UnionTyping

inductive Operation where
  | intern (slot : Slot)
  | find (slot : Slot)
  | read (id : BindingId) (reader : UnitId)
  | peek (id : BindingId)
  | assign (id : BindingId) (site : Location) (ty : Ty) (cause : Location)
  | enqueue (unit : UnitId) (cause : Option Location)
  | pop
  | isIdle
  | sealStarved (ty : Ty)
deriving Repr

inductive Answer where
  | done
  | flag (holds : Bool)
  | binding (id : BindingId)
  | found (id : Option BindingId)
  | type (ty : Ty)
  | next (pending : Option Pending)
deriving Repr

abbrev Log := List (Operation × Answer)

namespace Store

def perform (s : Store) : Operation → Option (Answer × Store)
  | .intern slot =>
    let (id, s) := s.intern slot
    some (.binding id, s)
  | .find slot => some (.found (s.find slot), s)
  | .read id reader =>
    if id < s.bindings.length then
      let (ty, s) := s.read id reader
      some (.type ty, s)
    else none
  | .peek id => if id < s.bindings.length then some (.type (s.typeOf id), s) else none
  | .assign id site ty cause =>
    -- The unresolved type is passed over before the binding is looked at.
    if ty.isUnresolved || decide (id < s.bindings.length) then
      let (widened, s) := s.assign id site ty cause
      some (.flag widened, s)
    else none
  | .enqueue unit cause => some (.done, s.enqueue unit cause)
  | .pop =>
    let (pending, s) := s.pop
    some (.next pending, s)
  | .isIdle => some (.flag s.isIdle, s)
  | .sealStarved ty => do
    let (any, s) ← s.seal? ty
    return (.flag any, s)

/-- What an operation that is not refused answers and makes of the store. -/
inductive Performs (s : Store) : Operation → Answer → Store → Prop where
  | intern (slot : Slot) :
    Performs s (.intern slot) (.binding (s.intern slot).1) (s.intern slot).2
  | find (slot : Slot) : Performs s (.find slot) (.found (s.find slot)) s
  | read (id : BindingId) (reader : UnitId) (known : id < s.bindings.length) :
    Performs s (.read id reader) (.type (s.typeOf id)) (s.read id reader).2
  | peek (id : BindingId) (known : id < s.bindings.length) :
    Performs s (.peek id) (.type (s.typeOf id)) s
  | assign (id : BindingId) (site : Location) (ty : Ty) (cause : Location)
      (known : ty.isUnresolved = true ∨ id < s.bindings.length) :
    Performs s (.assign id site ty cause) (.flag (s.assign id site ty cause).1)
      (s.assign id site ty cause).2
  | enqueue (unit : UnitId) (cause : Option Location) :
    Performs s (.enqueue unit cause) .done (s.enqueue unit cause)
  | pop : Performs s .pop (.next s.pop.1) s.pop.2
  | isIdle : Performs s .isIdle (.flag s.isIdle) s
  | sealStarved (ty : Ty) (idle : s.isIdle = true) :
    Performs s (.sealStarved ty) (.flag (s.sealStarved ty).1) (s.sealStarved ty).2

theorem perform_iff {s s' : Store} {op : Operation} {answer : Answer} :
    s.perform op = some (answer, s') ↔ s.Performs op answer s' := by
  constructor
  · intro hstep
    cases op with
    | intern slot => cases hstep; exact .intern slot
    | find slot => cases hstep; exact .find slot
    | enqueue unit cause => cases hstep; exact .enqueue unit cause
    | pop => cases hstep; exact .pop
    | isIdle => cases hstep; exact .isIdle
    | read id reader =>
      obtain ⟨hid, heq⟩ := Option.ite_none_right_eq_some.mp hstep
      cases heq
      exact .read id reader hid
    | peek id =>
      obtain ⟨hid, heq⟩ := Option.ite_none_right_eq_some.mp hstep
      cases heq
      exact .peek id hid
    | assign id site ty cause =>
      obtain ⟨hid, heq⟩ := Option.ite_none_right_eq_some.mp hstep
      cases heq
      exact .assign id site ty cause (by simpa using hid)
    | sealStarved ty =>
      obtain ⟨⟨any, after⟩, hseal, heq⟩ := Option.bind_eq_some_iff.mp hstep
      obtain ⟨hidle, hafter⟩ := Option.ite_none_right_eq_some.mp hseal
      cases heq
      cases hafter
      exact .sealStarved ty hidle
  · intro hstep
    cases hstep <;> simp_all [perform, seal?, Store.read]

def performAll (s : Store) : List Operation → Option (Log × Store)
  | [] => some ([], s)
  | op :: ops => do
    let (answer, next) ← s.perform op
    let (log, last) ← next.performAll ops
    return ((op, answer) :: log, last)

theorem performAll_cons_iff {s t : Store} {op : Operation} {ops : List Operation} {log : Log} :
    s.performAll (op :: ops) = some (log, t) ↔ ∃ answer next rest,
      s.perform op = some (answer, next) ∧ next.performAll ops = some (rest, t) ∧
        log = (op, answer) :: rest := by
  simp only [performAll, Option.bind_eq_bind, Option.bind_eq_some_iff, Option.pure_def,
    Option.some.injEq, Prod.exists, Prod.mk.injEq]
  constructor
  · rintro ⟨answer, next, hperform, rest, last, hrest, rfl, rfl⟩
    exact ⟨answer, next, rest, hperform, hrest, rfl⟩
  · rintro ⟨answer, next, rest, hperform, hrest, rfl⟩
    exact ⟨answer, next, hperform, rest, t, hrest, rfl, rfl⟩

/-- The log lists the operations of the session. -/
theorem map_fst_of_performAll {s t : Store} {ops : List Operation} {log : Log}
    (hrun : s.performAll ops = some (log, t)) : log.map Prod.fst = ops := by
  induction ops generalizing s log with
  | nil =>
    cases hrun
    rfl
  | cons op ops ih =>
    obtain ⟨answer, next, rest, -, hrest, rfl⟩ := performAll_cons_iff.mp hrun
    rw [List.map_cons, ih hrest]

/-- What every operation of a session keeps holds at its end. -/
theorem performAll_keeps {I : Store → Prop} {s t : Store} {ops : List Operation} {log : Log}
    (hrun : s.performAll ops = some (log, t)) (hstart : I s)
    (hstep : ∀ (r r' : Store) (op : Operation) (answer : Answer), (op, answer) ∈ log → I r →
      r.perform op = some (answer, r') → I r') : I t := by
  induction ops generalizing s log with
  | nil =>
    cases hrun
    exact hstart
  | cons op ops ih =>
    obtain ⟨answer, next, rest, hperform, hrest, rfl⟩ := performAll_cons_iff.mp hrun
    refine ih hrest (hstep s next op answer List.mem_cons_self hstart hperform) ?_
    intro r r' op' answer' hmem
    exact hstep r r' op' answer' (List.mem_cons_of_mem _ hmem)

/-- An entry of the log is an operation that was performed in the middle of the session. -/
theorem exists_perform_of_log {s t : Store} {ops : List Operation} {log : Log} {k : Nat}
    {op : Operation} {answer : Answer} (hrun : s.performAll ops = some (log, t))
    (hentry : log[k]? = some (op, answer)) :
    ∃ (r r' : Store) (later : List Operation),
      r.perform op = some (answer, r') ∧ r'.performAll later = some (log.drop (k + 1), t) := by
  induction ops generalizing s log k with
  | nil =>
    cases hrun
    cases hentry
  | cons first ops ih =>
    obtain ⟨answer', next, rest, hperform, hrest, rfl⟩ := performAll_cons_iff.mp hrun
    cases k with
    | zero =>
      cases hentry
      exact ⟨s, next, ops, hperform, hrest⟩
    | succ k =>
      rw [List.getElem?_cons_succ] at hentry
      rw [List.drop_succ_cons]
      exact ih hrest hentry

end Store

end UnionTyping
