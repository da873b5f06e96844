/-
  UnionTyping/Proofs/Binding/Bookkeeping.lean
  ===========================================
  **The index, the worklist and the set of waiting units stay in step.**

  A store with an index gives the answers of a store that searches its lists, whatever the
  operations (`IndexedStore.InStep.performAll`).  After any session the index is a bijection between
  the slots that were asked for and the bindings, no unit waits twice, the set of waiting units is
  that of the units on the worklist, and units leave the worklist in the order of their first
  pending invalidations, each with the cause of that one (`IndexedStore.performAll_consistent`).

  What the worklist has to hold is told by the events of the session alone (`Event.firsts`):
  an invalidation counts when the unit was not invalidated since it was last popped.  One operation
  puts the invalidations that count at the end of the worklist or takes the first one off
  (`Store.arrivals_perform`).  That popping leaves nothing of the unit behind needs that no
  unit waits twice.
-/
import UnionTyping.Proofs.Binding.Indexed
import UnionTyping.Proofs.Binding.Growth

namespace UnionTyping

/-! ### What happens to units -/

/-- What happens to a unit: something that it has read has changed, or it is taken off the
    worklist. -/
inductive Event where
  | invalidated (unit : UnitId) (cause : Option Location)
  | popped (unit : UnitId)
deriving DecidableEq, Repr

namespace Event

/-- Whether a unit was invalidated and has not been popped since.  The past is told beginning
    with the last event. -/
def awaited (unit : UnitId) : List Event → Bool
  | [] => false
  | .invalidated u _ :: past => u == unit || awaited unit past
  | .popped u :: past => u != unit && awaited unit past

/-- The invalidations among the events that find their unit not awaited, in order. -/
def firsts (past : List Event) : List Event → List Pending
  | [] => []
  | .invalidated unit cause :: events =>
    (if awaited unit past then [] else [⟨unit, cause⟩]) ++
      firsts (.invalidated unit cause :: past) events
  | .popped unit :: events => firsts (.popped unit :: past) events

theorem firsts_append (past events later : List Event) :
    firsts past (events ++ later) =
      firsts past events ++ firsts (events.reverse ++ past) later := by
  induction events generalizing past with
  | nil => rfl
  | cons event events ih =>
    cases event with
    | invalidated unit cause => simp [firsts, ih]
    | popped unit => simp [firsts, ih]

end Event

def Log.popped (log : Log) : List Pending :=
  log.filterMap fun
    | (.pop, .next next) => next
    | _ => none

theorem Log.popped_cons (entry : Operation × Answer) (log : Log) :
    Log.popped (entry :: log) = Log.popped [entry] ++ log.popped :=
  List.filterMap_append (l := [entry])

namespace Store

def readersOf (s : Store) (id : BindingId) : List UnitId :=
  (s.bindings[id]?.map Binding.readers).getD []

def events (s : Store) : Operation → List Event
  | .enqueue unit cause => [.invalidated unit cause]
  | .assign id site ty cause =>
    if (s.assign id site ty cause).1 then
      (s.readersOf id).map fun unit => .invalidated unit (some cause)
    else []
  | .sealStarved _ => (starvedReaders s.bindings).map fun unit => .invalidated unit none
  | .pop => s.queue.head?.toList.map fun next => .popped next.unit
  | .intern _ | .find _ | .read _ _ | .peek _ | .isIdle => []

def history (s : Store) : List Operation → List Event
  | [] => []
  | op :: ops => s.events op ++ ((s.perform op).map fun result => result.2.history ops).getD []

end Store

/-! ### The worklist and the events -/

namespace Worklist

open Event (awaited firsts)

variable {w : Worklist} {past : List Event}

def Agrees (w : Worklist) (past : List Event) : Prop := ∀ unit, w.holds unit = awaited unit past

theorem Agrees.enqueue (h : w.Agrees past) (unit : UnitId) (cause : Option Location) :
    w.enqueue unit cause = w ++ firsts past [.invalidated unit cause] ∧
      (w.enqueue unit cause).Agrees (.invalidated unit cause :: past) := by
  rw [Worklist.enqueue, h unit]
  cases hwaits : awaited unit past with
  | true =>
    refine ⟨by simp [firsts, hwaits], fun u => ?_⟩
    by_cases hu : unit = u
    · subst hu
      simp [awaited, h unit, hwaits]
    · simp [awaited, h u, hu]
  | false =>
    refine ⟨by simp [firsts, hwaits], fun u => ?_⟩
    have hold := h u
    simp only [holds] at hold
    simp [holds, awaited, hold, Bool.or_comm]

theorem Agrees.enqueueAll (h : w.Agrees past) (units : List UnitId) (cause : Option Location) :
    w.enqueueAll units cause = w ++ firsts past (units.map (.invalidated · cause)) ∧
      (w.enqueueAll units cause).Agrees ((units.map (.invalidated · cause)).reverse ++ past) := by
  induction units generalizing w past with
  | nil => exact ⟨(List.append_nil w).symm, h⟩
  | cons unit units ih =>
    obtain ⟨hfirst, hnext⟩ := h.enqueue unit cause
    obtain ⟨hrest, hlast⟩ := ih hnext
    have hsplit := Event.firsts_append past [.invalidated unit cause]
      (units.map (.invalidated · cause))
    constructor
    · calc w.enqueueAll (unit :: units) cause
        _ = w.enqueue unit cause ++
              firsts (.invalidated unit cause :: past) (units.map (.invalidated · cause)) := hrest
        _ = w ++ firsts past ((unit :: units).map (.invalidated · cause)) := by
          rw [hfirst, List.append_assoc]
          exact congrArg (w ++ ·) hsplit.symm
    · rw [List.map_cons, List.reverse_cons, List.append_assoc]
      exact hlast

/-- Popping a unit leaves nothing of it behind, since no unit waits twice. -/
theorem Agrees.tail {next : Pending} {rest : Worklist} (h : Agrees (next :: rest) past)
    (hdistinct : ((next :: rest).map Pending.unit).Nodup) :
    Agrees rest (.popped next.unit :: past) := by
  intro unit
  have hold := h unit
  by_cases hunit : next.unit = unit
  · subst hunit
    have hgone : rest.holds next.unit = false :=
      Bool.eq_false_iff.mpr fun hholds => (List.nodup_cons.mp hdistinct).1 (holds_iff.mp hholds)
    simp [awaited, hgone]
  · have hother : (next.unit == unit) = false := beq_false_of_ne hunit
    simp only [holds, List.any_cons, hother, Bool.false_or] at hold
    simp [holds, awaited, hold, hunit]

end Worklist

namespace Store

open Event (awaited firsts)

variable {s s' t : Store} {op : Operation} {ops : List Operation} {answer : Answer} {log : Log}
  {slot : Slot} {id : BindingId} {past : List Event}

theorem queue_assign (s : Store) (id : BindingId) (site : Location) (ty : Ty) (cause : Location) :
    (s.assign id site ty cause).2.queue =
      if (s.assign id site ty cause).1 then s.queue.enqueueAll (s.readersOf id) (some cause)
      else s.queue := by
  unfold assign
  split
  · rfl
  · cases hb : s.bindings[id]? with
    | none => rfl
    | some b =>
      simp only
      split
      · rfl
      · simp [readersOf, hb]

def Distinct (s : Store) : Prop := (s.queue.map Pending.unit).Nodup

theorem Distinct.perform (h : s.Distinct) (hstep : s.perform op = some (answer, s')) :
    s'.Distinct := by
  cases perform_iff.mp hstep with
  | intern slot =>
    rw [Distinct, queue_intern]
    exact h
  | assign id site ty cause =>
    rw [Distinct, queue_assign]
    split
    · exact Worklist.nodup_enqueueAll _ _ h
    · exact h
  | enqueue unit cause => exact Worklist.nodup_enqueue unit cause h
  | sealStarved ty => exact Worklist.nodup_enqueueAll _ _ h
  | pop =>
    unfold Store.pop
    cases hqueue : s.queue with
    | nil => exact h
    | cons next rest =>
      rw [Distinct, hqueue] at h
      exact (List.nodup_cons.mp h).2
  | read | find | peek | isIdle => exact h

/-- An operation puts the units that it invalidates at the end of the worklist, those that are
    not waiting, or takes the first unit off. -/
theorem arrivals_perform (hdistinct : s.Distinct) (h : s.queue.Agrees past)
    (hstep : s.perform op = some (answer, s')) :
    Log.popped [(op, answer)] ++ s'.queue = s.queue ++ firsts past (s.events op) ∧
      s'.queue.Agrees ((s.events op).reverse ++ past) := by
  -- operations that invalidate nothing
  have hsame : ∀ {w : Worklist}, w = s.queue →
      w = s.queue ++ firsts past [] ∧ w.Agrees ([].reverse ++ past) := by
    rintro w rfl
    exact ⟨(List.append_nil _).symm, h⟩
  cases perform_iff.mp hstep with
  | intern slot => exact hsame (queue_intern s slot)
  | read | find | peek | isIdle => exact hsame rfl
  | enqueue unit cause => exact h.enqueue unit cause
  | assign id site ty cause =>
    rw [queue_assign]
    simp only [events]
    split
    · exact h.enqueueAll (s.readersOf id) (some cause)
    · exact hsame rfl
  | sealStarved ty => exact h.enqueueAll (starvedReaders s.bindings) none
  | pop =>
    unfold Store.pop
    cases hqueue : s.queue with
    | nil => simpa [events, hqueue, Log.popped, firsts] using h
    | cons next rest =>
      rw [hqueue] at h
      rw [Distinct, hqueue] at hdistinct
      refine ⟨by simp [events, hqueue, Log.popped, firsts], ?_⟩
      simpa [events, hqueue] using h.tail hdistinct

/-- The units that were popped and after them those that wait are the ones whose invalidations
    count, in the order of these. -/
theorem arrivals_performAll (hdistinct : s.Distinct) (h : s.queue.Agrees past)
    (hrun : s.performAll ops = some (log, t)) :
    log.popped ++ t.queue = s.queue ++ firsts past (s.history ops) := by
  induction ops generalizing s past log with
  | nil =>
    cases hrun
    exact (List.append_nil _).symm
  | cons op ops ih =>
    obtain ⟨answer, next, rest, hperform, hrest, rfl⟩ := performAll_cons_iff.mp hrun
    obtain ⟨hqueue, hnext⟩ := arrivals_perform hdistinct h hperform
    have hhistory : s.history (op :: ops) = s.events op ++ next.history ops := by
      simp [history, hperform]
    calc Log.popped ((op, answer) :: rest) ++ t.queue
      _ = Log.popped [(op, answer)] ++ (rest.popped ++ t.queue) := by
        rw [Log.popped_cons, List.append_assoc]
      _ = (Log.popped [(op, answer)] ++ next.queue) ++
            firsts ((s.events op).reverse ++ past) (next.history ops) := by
        rw [ih (hdistinct.perform hperform) hnext hrest, List.append_assoc]
      _ = s.queue ++ firsts past (s.history (op :: ops)) := by
        rw [hqueue, hhistory, Event.firsts_append, List.append_assoc]

/-! ### Slots and bindings -/

def slots (s : Store) : List Slot := s.bindings.map Binding.slot

theorem find_eq_findIdx? (s : Store) (slot : Slot) :
    s.find slot = s.slots.findIdx? fun slot' => decide (slot' = slot) := by
  rw [find, slots, List.findIdx?_map]
  rfl

theorem find_eq_none_iff : s.find slot = none ↔ slot ∉ s.slots := by
  rw [find_eq_findIdx?, List.findIdx?_eq_none_iff]
  constructor
  · intro hnone hmem
    simpa using hnone slot hmem
  · rintro hnot slot' hmem
    exact decide_eq_false fun heq => hnot (heq ▸ hmem)

/-- Where the slots are different, the binding of a slot is the one at its place. -/
theorem find_eq_some_iff (h : s.slots.Nodup) :
    s.find slot = some id ↔ s.slots[id]? = some slot := by
  rw [find_eq_findIdx?, List.findIdx?_eq_some_iff_getElem, List.getElem?_eq_some_iff]
  constructor
  · rintro ⟨hlt, hslot, -⟩
    exact ⟨hlt, of_decide_eq_true hslot⟩
  · rintro ⟨hlt, hslot⟩
    refine ⟨hlt, decide_eq_true hslot, fun j hj hsame => ?_⟩
    have heq := (of_decide_eq_true hsame).trans hslot.symm
    exact Nat.ne_of_lt hj ((h.getElem_inj_iff).mp heq)

/-- Where the slots are different, each has a binding of its own. -/
theorem bijOn_find (h : s.slots.Nodup) :
    Set.BijOn s.find {slot | slot ∈ s.slots} (some '' Set.Iio s.bindings.length) := by
  have hlength : s.slots.length = s.bindings.length := List.length_map _
  refine ⟨?_, ?_, ?_⟩
  · intro slot hslot
    obtain ⟨id, hid⟩ := List.getElem?_of_mem hslot
    rw [(find_eq_some_iff h).mpr hid]
    exact ⟨id, hlength ▸ (List.getElem?_eq_some_iff.mp hid).1, rfl⟩
  · intro slot hslot slot' _ hsame
    obtain ⟨id, hid⟩ := List.getElem?_of_mem hslot
    have hfind := (find_eq_some_iff h).mpr hid
    have hid' := (find_eq_some_iff h).mp (hsame ▸ hfind)
    exact Option.some.inj (hid.symm.trans hid')
  · rintro _ ⟨id, hid, rfl⟩
    obtain ⟨slot, hplace⟩ : ∃ slot, s.slots[id]? = some slot :=
      ⟨_, List.getElem?_eq_getElem (hlength.symm ▸ hid : id < s.slots.length)⟩
    exact ⟨slot, List.mem_of_getElem? hplace, (find_eq_some_iff h).mpr hplace⟩

/-- The only operation that adds a slot asks for one that has no binding. -/
theorem slots_perform (hstep : s.perform op = some (answer, s')) :
    (∃ slot, op = .intern slot ∧ slot ∉ s.slots ∧ s'.slots = s.slots ++ [slot]) ∨
      ((∀ slot, op = .intern slot → slot ∈ s.slots) ∧ s'.slots = s.slots) := by
  cases perform_iff.mp hstep with
  | intern slot =>
    unfold Store.intern
    cases hfind : s.find slot with
    | none =>
      refine .inl ⟨slot, rfl, find_eq_none_iff.mp hfind, ?_⟩
      simp [slots, Binding.fresh]
    | some id =>
      refine .inr ⟨?_, rfl⟩
      rintro _ ⟨⟩
      by_contra hnot
      rw [find_eq_none_iff.mpr hnot] at hfind
      cases hfind
  | read id reader =>
    exact .inr ⟨by simp, map_slot_modify (f := (·.readBy reader)) fun _ => rfl⟩
  | assign id site ty cause =>
    refine .inr ⟨by simp, ?_⟩
    rcases bindings_assign_cases s id site ty cause with hsame | hmodified
    · rw [slots, hsame, slots]
    · rw [slots, hmodified, map_slot_modify (f := (·.assigned ⟨site, ty⟩)) fun _ => rfl, slots]
  | pop =>
    refine .inr ⟨by simp, ?_⟩
    rw [slots, bindings_pop, slots]
  | sealStarved ty => exact .inr ⟨by simp, map_slot_sealed s.bindings ty⟩
  | find | peek | isIdle | enqueue => exact .inr ⟨by simp, rfl⟩

theorem nodup_slots_perform (h : s.slots.Nodup) (hstep : s.perform op = some (answer, s')) :
    s'.slots.Nodup := by
  obtain ⟨slot, -, hnew, hslots⟩ | ⟨-, hslots⟩ := slots_perform hstep
  · rw [hslots, ← List.concat_eq_append]
    exact h.concat hnew
  · rw [hslots]
    exact h

theorem mem_slots_perform (hstep : s.perform op = some (answer, s')) :
    slot ∈ s'.slots ↔ slot ∈ s.slots ∨ op = .intern slot := by
  obtain ⟨slot', rfl, -, hslots⟩ | ⟨hold, hslots⟩ := slots_perform hstep
  · simp [hslots, eq_comm]
  · rw [hslots]
    exact ⟨.inl, fun h => h.elim id (hold slot)⟩

theorem mem_slots_performAll (hrun : s.performAll ops = some (log, t)) :
    slot ∈ t.slots ↔ slot ∈ s.slots ∨ .intern slot ∈ ops := by
  induction ops generalizing s log with
  | nil =>
    cases hrun
    simp
  | cons op ops ih =>
    obtain ⟨answer, next, rest, hperform, hrest, rfl⟩ := performAll_cons_iff.mp hrun
    rw [ih hrest, mem_slots_perform hperform, List.mem_cons, or_assoc, eq_comm]

/-- A slot keeps its binding. -/
theorem find_perform (h : s.find slot = some id) (hstep : s.perform op = some (answer, s')) :
    s'.find slot = some id := by
  rw [find_eq_findIdx?] at h ⊢
  obtain ⟨slot', -, -, hslots⟩ | ⟨-, hslots⟩ := slots_perform hstep
  · rw [hslots, List.findIdx?_append, h]
    rfl
  · rw [hslots]
    exact h

/-- What was answered when a slot was asked for is its binding at the end. -/
theorem find_of_log (hrun : s.performAll ops = some (log, t))
    (hentry : (.intern slot, answer) ∈ log) :
    ∃ id, answer = .binding id ∧ t.find slot = some id := by
  obtain ⟨k, hk⟩ := List.getElem?_of_mem hentry
  obtain ⟨r, r', later, hperform, hlater⟩ := exists_perform_of_log hrun hk
  cases perform_iff.mp hperform with
  | intern slot =>
    refine ⟨_, rfl, ?_⟩
    refine performAll_keeps (I := fun p => p.find slot = some (r.intern slot).1) hlater
      (find_intern r slot) fun p p' op answer _ hfind hstep => ?_
    exact find_perform hfind hstep

end Store

/-! ### A store with an index -/

namespace IndexedStore

variable {x : IndexedStore} {t : Store} {ops : List Operation} {log : Log}

/-- The index gives the bindings that a search finds, and the set of waiting units holds those
    that a search finds waiting. -/
structure InStep (x : IndexedStore) : Prop where
  index : ∀ slot, x.index.lookup slot = x.toStore.find slot
  waiting : x.waiting = (x.queue.map Pending.unit).toFinset

/-- An operation gives the same answer on both stores and makes of them the same store, with an
    index that is in step. -/
structure Simulates {α : Type} (r : α × IndexedStore) (r' : α × Store) : Prop where
  answer : r.1 = r'.1
  store : r.2.toStore = r'.2
  inStep : r.2.InStep

theorem Simulates.map {α β : Type} {r : α × IndexedStore} {r' : α × Store} (h : Simulates r r')
    (f : α → β) : Simulates (f r.1, r.2) (f r'.1, r'.2) :=
  ⟨congrArg f h.answer, h.store, h.inStep⟩

theorem inStep_empty : empty.InStep := ⟨fun _ => Finmap.lookup_empty _, rfl⟩

namespace InStep

theorem simulates {α : Type} (h : x.InStep) (a : α) : Simulates (a, x) (a, x.toStore) :=
  ⟨rfl, rfl, h⟩

/-- Bindings may change in place as long as their slots stay. -/
theorem withBindings (h : x.InStep) {bindings : List Binding}
    (hslots : bindings.map Binding.slot = x.toStore.slots) :
    InStep { x with bindings } where
  index := by
    intro slot
    rw [h.index slot, Store.find_eq_findIdx?, Store.find_eq_findIdx?]
    exact congrArg (List.findIdx? _) hslots.symm
  waiting := h.waiting

theorem intern (h : x.InStep) (slot : Slot) :
    Simulates (x.intern slot) (x.toStore.intern slot) := by
  unfold IndexedStore.intern Store.intern IndexedStore.find
  rw [h.index slot]
  cases hfind : x.toStore.find slot with
  | some id => exact h.simulates id
  | none =>
    refine ⟨rfl, rfl, fun slot' => ?_, h.waiting⟩
    have hnew : slot ∉ x.toStore.slots := Store.find_eq_none_iff.mp hfind
    have hslots : Store.slots { x.toStore with bindings := x.bindings ++ [.fresh slot] } =
        x.toStore.slots ++ [slot] := by simp [Store.slots, Binding.fresh]
    rw [Store.find_eq_findIdx?, hslots, List.findIdx?_append, ← Store.find_eq_findIdx?]
    by_cases hslot : slot' = slot
    · subst hslot
      simp [hfind, Store.slots]
    · rw [Finmap.lookup_insert_of_ne _ hslot, h.index slot']
      simp [Ne.symm hslot]

theorem enqueue (h : x.InStep) (unit : UnitId) (cause : Option Location) :
    (x.enqueue unit cause).toStore = x.toStore.enqueue unit cause ∧
      (x.enqueue unit cause).InStep := by
  have hmem : unit ∈ x.waiting ↔ x.queue.holds unit = true := by
    rw [h.waiting, List.mem_toFinset, Worklist.holds_iff]
  unfold IndexedStore.enqueue Store.enqueue Worklist.enqueue
  by_cases hwaits : unit ∈ x.waiting
  · rw [if_pos hwaits, if_pos (hmem.mp hwaits)]
    exact ⟨rfl, h⟩
  · rw [if_neg hwaits, if_neg (mt hmem.mpr hwaits)]
    refine ⟨rfl, h.index, ?_⟩
    simp [h.waiting, Finset.union_comm]

theorem enqueueAll (h : x.InStep) (units : List UnitId) (cause : Option Location) :
    (x.enqueueAll units cause).toStore =
        { x.toStore with queue := x.queue.enqueueAll units cause } ∧
      (x.enqueueAll units cause).InStep := by
  induction units generalizing x with
  | nil => exact ⟨rfl, h⟩
  | cons unit units ih =>
    obtain ⟨hfirst, hnext⟩ := h.enqueue unit cause
    obtain ⟨hrest, hlast⟩ := ih hnext
    refine ⟨hrest.trans ?_, hlast⟩
    rw [hfirst]
    rfl

theorem read (h : x.InStep) (id : BindingId) (reader : UnitId) :
    Simulates (x.read id reader) (x.toStore.read id reader) :=
  ⟨rfl, rfl, h.withBindings (Store.map_slot_modify (f := (·.readBy reader)) fun _ => rfl)⟩

theorem assign (h : x.InStep) (id : BindingId) (site : Location) (ty : Ty) (cause : Location) :
    Simulates (x.assign id site ty cause) (x.toStore.assign id site ty cause) := by
  unfold IndexedStore.assign Store.assign
  split
  · exact h.simulates false
  · cases x.bindings[id]? with
    | none => exact h.simulates false
    | some b =>
      have hrecorded := h.withBindings
        (Store.map_slot_modify (i := id) (f := (·.assigned ⟨site, ty⟩)) fun _ => rfl)
      simp only
      split
      · exact hrecorded.simulates false
      · obtain ⟨hstore, hnext⟩ := hrecorded.enqueueAll b.readers (some cause)
        exact ⟨rfl, hstore, hnext⟩

theorem sealStarved (h : x.InStep) (ty : Ty) :
    Simulates (x.sealStarved ty) (x.toStore.sealStarved ty) := by
  have hsettled := h.withBindings (Store.map_slot_sealed x.bindings ty)
  obtain ⟨hstore, hnext⟩ := hsettled.enqueueAll (Store.starvedReaders x.bindings) none
  exact ⟨rfl, hstore, hnext⟩

/-- The unit that is popped is out of the set and off the worklist, since it waited only once. -/
theorem pop (h : x.InStep) (hdistinct : x.toStore.Distinct) :
    Simulates x.pop x.toStore.pop := by
  unfold IndexedStore.pop Store.pop
  cases hqueue : x.queue with
  | nil => exact h.simulates none
  | cons next rest =>
    refine ⟨rfl, rfl, h.index, ?_⟩
    rw [Store.Distinct, hqueue, List.map_cons, List.nodup_cons] at hdistinct
    simp only [h.waiting, hqueue, List.map_cons, List.toFinset_cons]
    exact Finset.erase_insert (mt List.mem_toFinset.mp hdistinct.1)

theorem perform (h : x.InStep) (hdistinct : x.toStore.Distinct) (op : Operation) :
    Option.Rel Simulates (x.perform op) (x.toStore.perform op) := by
  cases op with
  | intern slot => exact .some ((h.intern slot).map Answer.binding)
  | find slot =>
    have hfind : x.find slot = x.toStore.find slot := h.index slot
    refine .some ?_
    rw [hfind]
    exact h.simulates _
  | enqueue unit cause =>
    obtain ⟨hstore, hnext⟩ := h.enqueue unit cause
    exact .some ⟨rfl, hstore, hnext⟩
  | pop => exact .some ((h.pop hdistinct).map Answer.next)
  | isIdle => exact .some (h.simulates _)
  | read id reader =>
    simp only [IndexedStore.perform, Store.perform]
    split
    · exact .some ((h.read id reader).map Answer.type)
    · exact .none
  | peek id =>
    simp only [IndexedStore.perform, Store.perform]
    split
    · exact .some (h.simulates _)
    · exact .none
  | assign id site ty cause =>
    simp only [IndexedStore.perform, Store.perform]
    split
    · exact .some ((h.assign id site ty cause).map Answer.flag)
    · exact .none
  | sealStarved ty =>
    simp only [IndexedStore.perform, Store.perform, Store.seal?]
    split
    · exact .some ((h.sealStarved ty).map Answer.flag)
    · exact .none

/-- Whatever the operations, both stores refuse the same ones and give the same answers. -/
theorem performAll (h : x.InStep) (hdistinct : x.toStore.Distinct) (ops : List Operation) :
    Option.Rel Simulates (x.performAll ops) (x.toStore.performAll ops) := by
  induction ops generalizing x with
  | nil => exact .some (h.simulates [])
  | cons op ops ih =>
    have hstep := h.perform hdistinct op
    simp only [IndexedStore.performAll, Store.performAll]
    generalize hs : x.toStore.perform op = r' at hstep
    generalize x.perform op = r at hstep
    cases hstep with
    | none => exact .none
    | @some r r' hsame =>
      obtain ⟨answer, next⟩ := r
      obtain ⟨answer', after⟩ := r'
      obtain ⟨rfl, rfl, hnext⟩ := hsame
      have hrest := ih hnext (hdistinct.perform hs)
      simp only [Option.bind_eq_bind, Option.bind_some]
      generalize next.toStore.performAll ops = last' at hrest
      generalize next.performAll ops = last at hrest
      cases hrest with
      | none => exact .none
      | some hlast => exact .some (hlast.map ((op, answer) :: ·))

end InStep

/-- What holds of a store with an index at the end of a session in which `ops` were performed and
    answered as the log says. -/
structure Consistent (ops : List Operation) (log : Log) (x : IndexedStore) : Prop where
  /-- A slot is indexed with a binding exactly when the binding is its own. -/
  slot : ∀ slot id, x.index.lookup slot = some id ↔
    ∃ b, x.bindings[id]? = some b ∧ b.slot = slot
  /-- Each slot that was asked for has a binding of its own, and each binding is that of a slot. -/
  index : Set.BijOn x.index.lookup {slot | .intern slot ∈ ops}
    (some '' Set.Iio x.bindings.length)
  /-- No other slot is indexed. -/
  absent : ∀ slot, .intern slot ∉ ops → x.index.lookup slot = none
  /-- Whenever a slot was asked for, the answer was its binding. -/
  answers : ∀ slot answer, (.intern slot, answer) ∈ log →
    ∃ id, answer = .binding id ∧ x.index.lookup slot = some id
  /-- No unit waits twice. -/
  distinct : (x.queue.map Pending.unit).Nodup
  /-- The set of the waiting units is that of the units on the worklist. -/
  waiting : x.waiting = (x.queue.map Pending.unit).toFinset
  /-- A unit that waits keeps its place and its first cause. -/
  again : ∀ unit ∈ x.waiting, ∀ cause, x.enqueue unit cause = x
  /-- The units that were popped and after them those that wait are those whose invalidations
      found them not awaited, in the order of these. -/
  arrival : log.popped ++ x.queue = Event.firsts [] (Store.empty.history ops)

theorem exists_performAll (hrun : Store.empty.performAll ops = some (log, t)) :
    ∃ x : IndexedStore, empty.performAll ops = some (log, x) ∧ x.toStore = t ∧ x.InStep := by
  have hsame := inStep_empty.performAll List.nodup_nil ops
  have hempty : empty.toStore = Store.empty := rfl
  rw [hempty, hrun] at hsame
  generalize empty.performAll ops = r at hsame
  cases hsame with
  | @some r _ hsame =>
    obtain ⟨log', x⟩ := r
    obtain ⟨rfl, rfl, hx⟩ := hsame
    exact ⟨x, rfl, rfl, hx⟩

/-- A store with an index goes through every session of a store that searches its lists and gives
    the same answers.  At its end the index, the bindings, the worklist and the set of waiting units
    agree with each other and with the session.  Since a session may end anywhere, so it is at
    each point of a session. -/
theorem performAll_consistent (hrun : Store.empty.performAll ops = some (log, t)) :
    ∃ x : IndexedStore, empty.performAll ops = some (log, x) ∧ x.toStore = t ∧
      x.Consistent ops log := by
  obtain ⟨x, hx, rfl, hstep⟩ := exists_performAll hrun
  have hslots : x.toStore.slots.Nodup :=
    Store.performAll_keeps (I := fun s => s.slots.Nodup) hrun List.nodup_nil
      fun _ _ _ _ _ hs hperform => Store.nodup_slots_perform hs hperform
  have hdistinct : x.toStore.Distinct :=
    Store.performAll_keeps (I := Store.Distinct) hrun List.nodup_nil
      fun _ _ _ _ _ hs hperform => hs.perform hperform
  have hasked : ∀ slot, slot ∈ x.toStore.slots ↔ .intern slot ∈ ops := by
    intro slot
    rw [Store.mem_slots_performAll hrun]
    exact or_iff_right List.not_mem_nil
  refine ⟨x, hx, rfl, ?_⟩
  exact {
    slot := by
      intro slot id
      rw [hstep.index, Store.find_eq_some_iff hslots, Store.slots, List.getElem?_map]
      exact Option.map_eq_some_iff
    index := by
      have hbij := Store.bijOn_find hslots
      simp only [hasked] at hbij
      exact hbij.congr fun slot _ => (hstep.index slot).symm
    absent := by
      intro slot hslot
      rw [hstep.index, Store.find_eq_none_iff, hasked]
      exact hslot
    answers := by
      intro slot answer hentry
      rw [hstep.index]
      exact Store.find_of_log hrun hentry
    distinct := hdistinct
    waiting := hstep.waiting
    again := fun unit hunit cause => if_pos hunit
    arrival := Store.arrivals_performAll (s := Store.empty) List.nodup_nil (fun _ => rfl) hrun }

/-- Two slots are asked for, one of them twice.  Two units read the first variable and are
    invalidated when it is assigned, one of them once more while it waits; the other one still waits
    when the variable is assigned again. -/
def requeueing : List Operation :=
  [.intern (.ivar 0 "a"), .intern (.returned 1), .intern (.ivar 0 "a"), .read 0 3, .read 0 2,
    .assign 0 default .char ⟨"", 1, 1⟩, .enqueue 2 (some ⟨"", 2, 1⟩), .pop,
    .assign 0 default .int ⟨"", 3, 1⟩, .enqueue 3 none, .pop]

/-- The third unit keeps its place and its first cause, and the second one comes after it when it
    is invalidated again. -/
theorem requeueing_consistent :
    ∃ log x, empty.performAll requeueing = some (log, x) ∧
      log[0]? = some (.intern (.ivar 0 "a"), .binding 0) ∧
      log[1]? = some (.intern (.returned 1), .binding 1) ∧
      log[2]? = some (.intern (.ivar 0 "a"), .binding 0) ∧
      x.index.lookup (.ivar 0 "a") = some 0 ∧ x.index.lookup (.returned 1) = some 1 ∧
      x.index.lookup (.returned 2) = none ∧
      Log.popped log = [⟨2, some ⟨"", 1, 1⟩⟩, ⟨3, some ⟨"", 1, 1⟩⟩] ∧
      x.queue = [⟨2, some ⟨"", 3, 1⟩⟩] ∧ x.waiting = {2} ∧ x.enqueue 2 none = x ∧
      Event.firsts [] (Store.empty.history requeueing) = Log.popped log ++ x.queue := by
  obtain ⟨log, t, hrun, hfirst, hsecond, hthird, hpopped, hqueue⟩ : ∃ log t,
      Store.empty.performAll requeueing = some (log, t) ∧
      log[0]? = some (.intern (.ivar 0 "a"), .binding 0) ∧
      log[1]? = some (.intern (.returned 1), .binding 1) ∧
      log[2]? = some (.intern (.ivar 0 "a"), .binding 0) ∧
      Log.popped log = [⟨2, some ⟨"", 1, 1⟩⟩, ⟨3, some ⟨"", 1, 1⟩⟩] ∧
      t.queue = [⟨2, some ⟨"", 3, 1⟩⟩] := ⟨_, _, rfl, rfl, rfl, rfl, rfl, rfl⟩
  obtain ⟨x, hx, rfl, hconsistent⟩ := performAll_consistent hrun
  have hindexed : ∀ (k : Nat) (slot : Slot) (id : BindingId),
      log[k]? = some (.intern slot, .binding id) → x.index.lookup slot = some id := by
    intro k slot id hk
    obtain ⟨_, hanswer, hid⟩ := hconsistent.answers slot _ (List.mem_of_getElem? hk)
    cases hanswer
    exact hid
  have hwaiting : x.waiting = {2} := by
    rw [hconsistent.waiting, hqueue]
    rfl
  exact ⟨log, x, hx, hfirst, hsecond, hthird, hindexed 0 _ _ hfirst, hindexed 1 _ _ hsecond,
    hconsistent.absent _ (by simp [requeueing]), hpopped, hqueue, hwaiting,
    hconsistent.again 2 (by simp [hwaiting]) none, hconsistent.arrival.symm⟩

end IndexedStore

end UnionTyping
