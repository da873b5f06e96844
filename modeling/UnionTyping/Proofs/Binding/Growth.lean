/-
  UnionTyping/Proofs/Binding/Growth.lean
  ======================================
  **Bindings only grow, and whoever has read one that grew is waiting.**

  Nothing in the store is taken back: a binding keeps its slot and its place, its
  members, its assignments and its readers (`Binding.Grows`), and the worklist
  only gets longer while a unit is checked (`Store.Grows`).  A binding whose type
  has changed has put all its readers on the worklist, so a unit that is not
  waiting still holds what it has read.

  `Store.Ok` collects what is true of every store of a run.  Each operation keeps
  it and makes the store grow.
-/
import UnionTyping.Binding.Store
import UnionTyping.Proofs.Ty.Members

namespace UnionTyping

/-! ### The worklist -/

namespace Worklist

theorem holds_iff {w : Worklist} {unit : UnitId} :
    w.holds unit = true ↔ unit ∈ w.map Pending.unit := by
  simp only [holds, List.any_eq_true, beq_iff_eq, List.mem_map]

theorem holds_of_prefix {w w' : Worklist} (h : w <+: w') {unit : UnitId}
    (hold : w.holds unit = true) : w'.holds unit = true :=
  holds_iff.mpr ((h.map Pending.unit).mem (holds_iff.mp hold))

theorem prefix_enqueue (w : Worklist) (unit : UnitId) (cause : Option Location) :
    w <+: w.enqueue unit cause := by
  unfold enqueue
  split
  · exact List.prefix_rfl
  · exact List.prefix_append _ _

theorem holds_enqueue (w : Worklist) (unit : UnitId) (cause : Option Location) :
    (w.enqueue unit cause).holds unit = true := by
  unfold enqueue
  split
  · assumption
  · exact holds_iff.mpr (by simp)

theorem unit_of_mem_enqueue {w : Worklist} {unit : UnitId} {cause : Option Location} {p : Pending}
    (h : p ∈ w.enqueue unit cause) : p ∈ w ∨ p.unit = unit := by
  unfold enqueue at h
  split at h
  · exact Or.inl h
  · rcases List.mem_append.mp h with h | h
    · exact Or.inl h
    · exact Or.inr (by rw [List.mem_singleton.mp h])

theorem nodup_enqueue {w : Worklist} (unit : UnitId) (cause : Option Location)
    (h : (w.map Pending.unit).Nodup) : ((w.enqueue unit cause).map Pending.unit).Nodup := by
  unfold enqueue
  split
  · exact h
  · rename_i hnew
    rw [List.map_append, List.map_singleton]
    refine List.nodup_append.mpr ⟨h, List.pairwise_singleton _ _, fun a ha b hb => ?_⟩
    rw [List.mem_singleton.mp hb]
    rintro rfl
    exact hnew (holds_iff.mpr ha)

theorem prefix_enqueueAll (w : Worklist) (units : List UnitId) (cause : Option Location) :
    w <+: w.enqueueAll units cause := by
  induction units generalizing w with
  | nil => exact List.prefix_rfl
  | cons u us ih => exact (prefix_enqueue w u cause).trans (ih _)

theorem holds_enqueueAll (w : Worklist) {units : List UnitId} (cause : Option Location)
    {unit : UnitId} (h : unit ∈ units) : (w.enqueueAll units cause).holds unit = true := by
  induction units generalizing w with
  | nil => cases h
  | cons u us ih =>
    rcases List.mem_cons.mp h with rfl | h
    · exact holds_of_prefix (prefix_enqueueAll _ us cause) (holds_enqueue w unit cause)
    · exact ih _ h

theorem unit_of_mem_enqueueAll {w : Worklist} {units : List UnitId} {cause : Option Location}
    {p : Pending} (h : p ∈ w.enqueueAll units cause) : p ∈ w ∨ p.unit ∈ units := by
  induction units generalizing w with
  | nil => exact Or.inl h
  | cons u us ih =>
    rcases ih h with h | h
    · rcases unit_of_mem_enqueue h with h | h
      · exact Or.inl h
      · exact Or.inr (by rw [h]; exact List.mem_cons_self)
    · exact Or.inr (List.mem_cons_of_mem _ h)

theorem nodup_enqueueAll {w : Worklist} (units : List UnitId) (cause : Option Location)
    (h : (w.map Pending.unit).Nodup) : ((w.enqueueAll units cause).map Pending.unit).Nodup := by
  induction units generalizing w with
  | nil => exact h
  | cons u us ih => exact ih (nodup_enqueue u cause h)

end Worklist

/-! ### One binding -/

/-- Assignments are the same when they stand at the same place and the types are the same. -/
theorem Assignment.beq_iff {a a' : Assignment} :
    (a == a') = true ↔ a.site = a'.site ∧ (a.ty == a'.ty) = true := by
  have hsplit : (a == a') = (a.site == a'.site && a.ty == a'.ty) := rfl
  rw [hsplit, Bool.and_eq_true, beq_iff_eq]

instance : ReflBEq Assignment where
  rfl := Assignment.beq_iff.mpr ⟨rfl, BEq.rfl⟩

namespace Binding

theorem mem_insertUnit {unit u : UnitId} {us : List UnitId} :
    u ∈ insertUnit unit us ↔ u = unit ∨ u ∈ us := by
  induction us with
  | nil => simp [insertUnit]
  | cons v vs ih =>
    rw [insertUnit]
    split
    · exact List.mem_cons
    · split
      · rename_i heq
        rw [heq]
        simp
      · rw [List.mem_cons, List.mem_cons, ih]
        exact or_left_comm

theorem sorted_insertUnit {unit : UnitId} {us : List UnitId} (h : us.Pairwise (· < ·)) :
    (insertUnit unit us).Pairwise (· < ·) := by
  induction us with
  | nil => exact List.pairwise_singleton _ _
  | cons v vs ih =>
    obtain ⟨hv, hvs⟩ := List.pairwise_cons.mp h
    rw [insertUnit]
    split
    · rename_i hlt
      refine List.pairwise_cons.mpr ⟨fun a ha => ?_, h⟩
      rcases List.mem_cons.mp ha with rfl | ha
      · exact hlt
      · exact Nat.lt_trans hlt (hv a ha)
    · rename_i hge
      split
      · exact h
      · rename_i hne
        refine List.pairwise_cons.mpr ⟨fun a ha => ?_, ih hvs⟩
        rcases mem_insertUnit.mp ha with rfl | ha
        · exact Nat.lt_of_le_of_ne (Nat.le_of_not_lt hge) (Ne.symm hne)
        · exact hv a ha

/-- A unit that is there already is not put in again. -/
theorem insertUnit_of_mem {unit : UnitId} {us : List UnitId} (h : us.Pairwise (· < ·))
    (hmem : unit ∈ us) : insertUnit unit us = us := by
  induction us with
  | nil => cases hmem
  | cons v vs ih =>
    obtain ⟨hv, hvs⟩ := List.pairwise_cons.mp h
    rw [insertUnit]
    rcases List.mem_cons.mp hmem with rfl | hmem
    · simp
    · have hlt := hv unit hmem
      rw [if_neg (Nat.lt_asymm hlt), if_neg (Nat.ne_of_gt hlt), ih hvs hmem]

structure Grows (b b' : Binding) : Prop where
  slot : b'.slot = b.slot
  history : b.history <+: b'.history
  readers : b.readers ⊆ b'.readers
  members : b.current.members <+: b'.current.members

theorem Grows.refl (b : Binding) : b.Grows b :=
  ⟨rfl, List.prefix_rfl, List.Subset.refl _, List.prefix_rfl⟩

theorem Grows.trans {a b c : Binding} (hab : a.Grows b) (hbc : b.Grows c) : a.Grows c where
  slot := hbc.slot.trans hab.slot
  history := hab.history.trans hbc.history
  readers := fun _ h => hbc.readers (hab.readers h)
  members := hab.members.trans hbc.members

/-- What is true of every binding of a run with `n` units. -/
structure Ok (C : Ty → Prop) (slotOk : Slot → Prop) (n : Nat) (b : Binding) : Prop where
  isOver : b.current.Over C
  slot : slotOk b.slot
  sorted : b.readers.Pairwise (· < ·)
  readers : ∀ u ∈ b.readers, u < n

variable {C : Ty → Prop} {slotOk : Slot → Prop} {n : Nat} {b : Binding}

theorem grows_readBy (b : Binding) (unit : UnitId) : b.Grows (b.readBy unit) :=
  ⟨rfl, List.prefix_rfl, fun _ hu => mem_insertUnit.mpr (Or.inr hu), List.prefix_rfl⟩

theorem Ok.readBy (h : b.Ok C slotOk n) {unit : UnitId} (hunit : unit < n) :
    (b.readBy unit).Ok C slotOk n where
  isOver := h.isOver
  slot := h.slot
  sorted := sorted_insertUnit h.sorted
  readers := by
    intro u hu
    rcases mem_insertUnit.mp hu with rfl | hu
    · exact hunit
    · exact h.readers u hu

theorem readBy_of_mem (h : b.Ok C slotOk n) {unit : UnitId} (hmem : unit ∈ b.readers) :
    b.readBy unit = b := by
  rw [Binding.readBy, insertUnit_of_mem h.sorted hmem]

theorem any_history_assigned (b : Binding) (a : Assignment) :
    (b.assigned a).history.any (· == a) = true := by
  unfold assigned
  simp only
  split
  · assumption
  · rw [List.any_append, List.any_cons, BEq.rfl, Bool.true_or, Bool.or_true]

section Union

variable (hC : ∀ m, C m → m.IsCon)
include hC

/-- The type of a binding after an assignment, whether or not that widens it. -/
theorem current_assigned (h : b.Ok C slotOk n) {a : Assignment} (ha : a.ty.Over C) :
    (b.assigned a).current = b.current.union a.ty := by
  unfold assigned
  simp only
  split
  · rename_i hsame
    exact (Ty.union_eq_of_beq hC h.isOver ha hsame).symm
  · rfl

theorem grows_assigned (h : b.Ok C slotOk n) {a : Assignment} (ha : a.ty.Over C) :
    b.Grows (b.assigned a) where
  slot := rfl
  history := by
    unfold assigned
    simp only
    split
    · exact List.prefix_rfl
    · exact List.prefix_append _ _
  readers := List.Subset.refl _
  members := by
    rw [current_assigned hC h ha]
    exact Ty.prefix_members_union hC h.isOver ha

theorem Ok.assigned (h : b.Ok C slotOk n) {a : Assignment} (ha : a.ty.Over C) :
    (b.assigned a).Ok C slotOk n where
  isOver := by
    rw [current_assigned hC h ha]
    exact h.isOver.union hC ha
  slot := h.slot
  sorted := h.sorted
  readers := h.readers

/-- An assignment that was made before changes nothing. -/
theorem assigned_again (h : b.Ok C slotOk n) {a : Assignment} (ha : a.ty.Over C) {b' : Binding}
    {slotOk' : Slot → Prop} {n' : Nat} (h' : b'.Ok C slotOk' n')
    (hgrows : (b.assigned a).Grows b') :
    b'.assigned a = b' ∧ b'.current.union a.ty = b'.current := by
  have hhistory : b'.history.any (· == a) = true := by
    obtain ⟨x, hx, hsame⟩ := List.any_eq_true.mp (any_history_assigned b a)
    exact List.any_eq_true.mpr ⟨x, hgrows.history.mem hx, hsame⟩
  have hunion : b'.current.union a.ty = b'.current := by
    refine Ty.union_eq_left hC h'.isOver ha fun m hm => ?_
    have hany := Ty.any_union_right hC h.isOver ha hm
    rw [← current_assigned hC h ha] at hany
    obtain ⟨x, hx, hsame⟩ := List.any_eq_true.mp hany
    exact List.any_eq_true.mpr ⟨x, hgrows.members.mem hx, hsame⟩
  refine ⟨?_, hunion⟩
  unfold Binding.assigned
  simp only [hhistory, if_true, hunion, BEq.rfl]

end Union

end Binding

/-! ### The store -/

namespace Store

/-- The second store holds the bindings of the first one some time later. -/
def Extends (s s' : Store) : Prop :=
  ∀ (i : BindingId) (b : Binding), s.bindings[i]? = some b →
    ∃ b', s'.bindings[i]? = some b' ∧ b.Grows b'

theorem Extends.refl (s : Store) : s.Extends s := fun _ b hb => ⟨b, hb, .refl b⟩

theorem Extends.trans {s t r : Store} (hst : s.Extends t) (htr : t.Extends r) : s.Extends r := by
  intro i b hb
  obtain ⟨b', hb', hgrows⟩ := hst i b hb
  obtain ⟨b'', hb'', hgrows'⟩ := htr i b' hb'
  exact ⟨b'', hb'', hgrows.trans hgrows'⟩

theorem Extends.length_le {s t : Store} (h : s.Extends t) :
    s.bindings.length ≤ t.bindings.length := by
  rcases Nat.eq_zero_or_pos s.bindings.length with hzero | hpos
  · rw [hzero]
    exact Nat.zero_le _
  · obtain ⟨b', hb', _⟩ := h (s.bindings.length - 1) _
      (List.getElem?_eq_getElem (Nat.sub_lt hpos Nat.one_pos))
    have := (List.getElem?_eq_some_iff.mp hb').1
    omega

/-- The store some time later in the check of a unit: who has read a binding that
    changed is waiting. -/
structure Grows (s s' : Store) : Prop where
  bindings : s.Extends s'
  queue : s.queue <+: s'.queue
  queued : ∀ (i : BindingId) (b b' : Binding), s.bindings[i]? = some b →
    s'.bindings[i]? = some b' → b'.current ≠ b.current → ∀ u ∈ b.readers, s'.queue.holds u = true

theorem Grows.refl (s : Store) : s.Grows s where
  bindings := .refl s
  queue := List.prefix_rfl
  queued := by
    intro i b b' hb hb' hne
    rw [hb] at hb'
    cases hb'
    exact absurd rfl hne

theorem Grows.trans {s t r : Store} (hst : s.Grows t) (htr : t.Grows r) : s.Grows r where
  bindings := hst.bindings.trans htr.bindings
  queue := hst.queue.trans htr.queue
  queued := by
    intro i b b'' hb hb'' hne u hu
    obtain ⟨b', hb', hgrows⟩ := hst.bindings i b hb
    by_cases hsame : b'.current = b.current
    · exact htr.queued i b' b'' hb' hb'' (by rw [hsame]; exact hne) u (hgrows.readers hu)
    · exact Worklist.holds_of_prefix htr.queue (hst.queued i b b' hb hb' hsame u hu)

/-- What is true of every store of a run with `n` units. -/
structure Ok (C : Ty → Prop) (slotOk : Slot → Prop) (n : Nat) (s : Store) : Prop where
  bindings : ∀ b ∈ s.bindings, b.Ok C slotOk n
  slots : (s.bindings.map Binding.slot).Nodup
  queued : ∀ p ∈ s.queue, p.unit < n
  distinct : (s.queue.map Pending.unit).Nodup

variable {C : Ty → Prop} {slotOk : Slot → Prop} {n : Nat} {s t : Store}

theorem Ok.getElem? (h : s.Ok C slotOk n) {i : BindingId} {b : Binding}
    (hb : s.bindings[i]? = some b) : b.Ok C slotOk n :=
  h.bindings b (List.mem_of_getElem? hb)

/-- What is true of stores with certain instances and slots and a bound on units is true with
    more instances and slots and a larger bound. -/
theorem Ok.weaken {C' : Ty → Prop} {slotOk' : Slot → Prop} {n' : Nat} (h : s.Ok C slotOk n)
    (hC : ∀ m, C m → C' m) (hslot : ∀ slot, slotOk slot → slotOk' slot) (hle : n ≤ n') :
    s.Ok C' slotOk' n' where
  bindings := fun b hb =>
    { isOver := (h.bindings b hb).isOver.mono hC
      slot := hslot _ (h.bindings b hb).slot
      sorted := (h.bindings b hb).sorted
      readers := fun u hu => Nat.lt_of_lt_of_le ((h.bindings b hb).readers u hu) hle }
  slots := h.slots
  queued := fun p hp => Nat.lt_of_lt_of_le (h.queued p hp) hle
  distinct := h.distinct

/-! ### Changing one binding -/

theorem getElem?_modify_eq_some {α : Type} {l : List α} {i j : Nat} {f : α → α} {a : α}
    (h : l[j]? = some a) : (l.modify i f)[j]? = some (if i = j then f a else a) := by
  rw [List.getElem?_modify, h]
  rfl

theorem forall_mem_modify {α : Type} {p : α → Prop} {l : List α} {i : Nat} {f : α → α}
    (h : ∀ a ∈ l, p a) (hf : ∀ a, l[i]? = some a → p (f a)) : ∀ a ∈ l.modify i f, p a := by
  intro a ha
  obtain ⟨j, hj⟩ := List.getElem?_of_mem ha
  rw [List.getElem?_modify] at hj
  obtain ⟨x, hx, rfl⟩ := Option.map_eq_some_iff.mp hj
  split
  · rename_i heq
    exact hf x (by rw [heq]; exact hx)
  · exact h x (List.mem_of_getElem? hx)

theorem modify_eq_self {α : Type} {l : List α} {i : Nat} {f : α → α}
    (h : ∀ a, l[i]? = some a → f a = a) : l.modify i f = l := by
  refine List.ext_getElem? fun j => ?_
  cases hj : l[j]? with
  | none =>
    rw [List.getElem?_modify, hj]
    rfl
  | some a =>
    rw [getElem?_modify_eq_some hj]
    split
    · rename_i heq
      rw [h a (by rw [heq]; exact hj)]
    · rfl

theorem extends_modify {i : BindingId} {f : Binding → Binding} {queue : Worklist}
    (hf : ∀ b, s.bindings[i]? = some b → b.Grows (f b)) :
    s.Extends ⟨s.bindings.modify i f, queue⟩ := by
  intro j b hb
  refine ⟨_, getElem?_modify_eq_some hb, ?_⟩
  split
  · rename_i heq
    exact hf b (by rw [heq]; exact hb)
  · exact .refl b

/-- What is changed in place has the image changed in place. -/
theorem map_modify {α β : Type} (f : α → β) (g : α → α) (g' : β → β)
    (h : ∀ a, f (g a) = g' (f a)) (as : List α) (i : Nat) :
    (as.map f).modify i g' = (as.modify i g).map f := by
  induction as generalizing i with
  | nil => cases i <;> rfl
  | cons a as ih =>
    cases i with
    | zero => exact congrArg (· :: as.map f) (h a).symm
    | succ i => exact congrArg (f a :: ·) (ih i)

/-- What a change in place leaves alone. -/
theorem map_modify_eq {α β : Type} {f : α → β} {g : α → α} (h : ∀ a, f (g a) = f a) (as : List α)
    (i : Nat) : (as.modify i g).map f = as.map f :=
  (map_modify f g id h as i).symm.trans (modify_eq_self fun _ _ => rfl)

theorem map_slot_modify {i : BindingId} {f : Binding → Binding} {bs : List Binding}
    (hf : ∀ b, (f b).slot = b.slot) : (bs.modify i f).map Binding.slot = bs.map Binding.slot :=
  map_modify_eq hf bs i

/-- Sealing leaves the slots alone. -/
theorem map_slot_sealed (bs : List Binding) (ty : Ty) :
    (bs.map fun b => if b.isStarved then { b with current := ty } else b).map Binding.slot =
      bs.map Binding.slot := by
  rw [List.map_map]
  refine List.map_congr_left fun b _ => ?_
  simp only [Function.comp_apply]
  split <;> rfl

/-! ### Asking for the binding of a slot -/

theorem find_eq_some {slot : Slot} {i : BindingId} (h : s.find slot = some i) :
    ∃ b, s.bindings[i]? = some b ∧ b.slot = slot := by
  obtain ⟨hlt, hslot, _⟩ := List.findIdx?_eq_some_iff_getElem.mp h
  exact ⟨_, List.getElem?_eq_getElem hlt, of_decide_eq_true hslot⟩

/-- A slot that has a binding has the same one for good. -/
theorem Extends.find (h : s.Extends t) {slot : Slot} {i : BindingId} (hi : s.find slot = some i) :
    t.find slot = some i := by
  obtain ⟨hlt, hslot, hbefore⟩ := List.findIdx?_eq_some_iff_getElem.mp hi
  have hlt' : i < t.bindings.length := Nat.lt_of_lt_of_le hlt h.length_le
  have hkept : ∀ j (hj : j < s.bindings.length) (hj' : j < t.bindings.length),
      (t.bindings[j]).slot = (s.bindings[j]).slot := by
    intro j hj hj'
    obtain ⟨b', hb', hgrows⟩ := h j _ (List.getElem?_eq_getElem hj)
    rw [List.getElem?_eq_getElem hj'] at hb'
    cases hb'
    exact hgrows.slot
  refine List.findIdx?_eq_some_iff_getElem.mpr ⟨hlt', ?_, fun j hj => ?_⟩
  · rw [hkept i hlt hlt']
    exact hslot
  · rw [hkept j (Nat.lt_trans hj hlt) (Nat.lt_trans hj hlt')]
    exact hbefore j hj

theorem grows_intern (s : Store) (slot : Slot) : s.Grows (s.intern slot).2 := by
  unfold intern
  cases s.find slot with
  | some i => exact .refl s
  | none =>
    have happend : ∀ i b, s.bindings[i]? = some b →
        (s.bindings ++ [Binding.fresh slot])[i]? = some b := fun i b hb =>
      (List.getElem?_append_left (List.getElem?_eq_some_iff.mp hb).1).trans hb
    refine ⟨fun i b hb => ⟨b, happend i b hb, .refl b⟩, List.prefix_rfl, ?_⟩
    intro i b b' hb hb' hne
    have heq := (happend i b hb).symm.trans hb'
    cases heq
    exact absurd rfl hne

theorem queue_intern (s : Store) (slot : Slot) : (s.intern slot).2.queue = s.queue := by
  unfold intern
  cases s.find slot <;> rfl

theorem find_intern (s : Store) (slot : Slot) :
    (s.intern slot).2.find slot = some (s.intern slot).1 := by
  unfold intern
  cases hfind : s.find slot with
  | some i => exact hfind
  | none =>
    have hnone := List.findIdx?_eq_none_iff.mp hfind
    refine List.findIdx?_eq_some_iff_getElem.mpr ⟨by simp, by simp [Binding.fresh], fun j hj => ?_⟩
    have hj' : j < s.bindings.length := hj
    rw [List.getElem_append_left hj', hnone _ (List.getElem_mem hj')]
    exact Bool.false_ne_true

/-- Asking for a slot again gives the same binding and changes nothing. -/
theorem intern_again {slot : Slot} (h : (s.intern slot).2.Extends t) :
    t.intern slot = ((s.intern slot).1, t) := by
  have hfind := h.find (find_intern s slot)
  rw [intern, hfind]

theorem Ok.intern (h : s.Ok C slotOk n) {slot : Slot} (hslot : slotOk slot) :
    (s.intern slot).2.Ok C slotOk n := by
  unfold Store.intern
  cases hfind : s.find slot with
  | some i => exact h
  | none =>
    refine ⟨?_, ?_, h.queued, h.distinct⟩
    · intro b hb
      rcases List.mem_append.mp hb with hb | hb
      · exact h.bindings b hb
      · rw [List.mem_singleton.mp hb]
        exact ⟨.unresolved, hslot, List.Pairwise.nil, fun _ hu => nomatch hu⟩
    · rw [List.map_append, List.map_singleton]
      refine List.nodup_append.mpr ⟨h.slots, List.pairwise_singleton _ _, fun a ha b hb => ?_⟩
      rw [List.mem_singleton.mp hb]
      obtain ⟨b', hb', rfl⟩ := List.mem_map.mp ha
      exact of_decide_eq_false (List.findIdx?_eq_none_iff.mp hfind b' hb')

/-! ### Reading -/

theorem typeOf_eq {i : BindingId} {b : Binding} (hb : s.bindings[i]? = some b) :
    s.typeOf i = b.current := by
  rw [typeOf, hb]
  rfl

theorem grows_read (s : Store) (i : BindingId) (reader : UnitId) :
    s.Grows (s.read i reader).2 := by
  refine ⟨extends_modify fun b _ => b.grows_readBy reader, List.prefix_rfl, ?_⟩
  intro j b b' hb hb' hne
  have heq := (getElem?_modify_eq_some hb).symm.trans hb'
  rw [← Option.some.inj heq] at hne
  split at hne
  · exact absurd rfl hne
  · exact absurd rfl hne

theorem Ok.read (h : s.Ok C slotOk n) (i : BindingId) {reader : UnitId} (hreader : reader < n) :
    (s.read i reader).2.Ok C slotOk n where
  bindings := forall_mem_modify h.bindings fun _ hb => (h.getElem? hb).readBy hreader
  slots := by
    simp only [Store.read]
    rw [map_slot_modify (f := (·.readBy reader)) fun b => rfl]
    exact h.slots
  queued := h.queued
  distinct := h.distinct

/-- After it has read a binding, a unit is one of its readers. -/
theorem mem_readers_read {i : BindingId} {b : Binding} (hb : s.bindings[i]? = some b)
    (reader : UnitId) : ∃ b', (s.read i reader).2.bindings[i]? = some b' ∧ reader ∈ b'.readers ∧
      b'.current = b.current := by
  refine ⟨b.readBy reader, ?_, Binding.mem_insertUnit.mpr (Or.inl rfl), rfl⟩
  exact (getElem?_modify_eq_some hb).trans (by rw [if_pos rfl])

/-- Reading a binding again changes nothing. -/
theorem read_again (h : t.Ok C slotOk n) {i : BindingId} {b : Binding}
    (hb : t.bindings[i]? = some b) {reader : UnitId} (hmem : reader ∈ b.readers) :
    t.read i reader = (b.current, t) := by
  have hself : t.bindings.modify i (·.readBy reader) = t.bindings := by
    refine modify_eq_self fun a ha => ?_
    rw [hb] at ha
    cases ha
    exact Binding.readBy_of_mem (h.getElem? hb) hmem
  rw [read, typeOf_eq hb, hself]

/-- The members of a binding stay where they are. -/
theorem Extends.prefix_members (h : s.Extends t) (i : BindingId) :
    (s.typeOf i).members <+: (t.typeOf i).members := by
  cases hb : s.bindings[i]? with
  | none =>
    rw [typeOf, hb]
    exact List.nil_prefix
  | some b =>
    obtain ⟨b', hb', hgrows⟩ := h i b hb
    rw [typeOf_eq hb, typeOf_eq hb']
    exact hgrows.members

theorem Extends.members_le (h : s.Extends t) (i : BindingId) :
    (s.typeOf i).members.length ≤ (t.typeOf i).members.length :=
  (h.prefix_members i).length_le

/-- Some binding has more members in the second store. -/
def Widens (s s' : Store) : Prop :=
  ∃ i, (s.typeOf i).members.length < (s'.typeOf i).members.length

theorem Widens.later {r : Store} (h : s.Widens t) (htr : t.Extends r) : s.Widens r := by
  obtain ⟨i, hlt⟩ := h
  exact ⟨i, Nat.lt_of_lt_of_le hlt (htr.members_le i)⟩

theorem Widens.earlier {r : Store} (h : t.Widens r) (hst : s.Extends t) : s.Widens r := by
  obtain ⟨i, hlt⟩ := h
  exact ⟨i, Nat.lt_of_le_of_lt (hst.members_le i) hlt⟩

/-! ### Assigning -/

/-- The bindings after an assignment of a type that is known. -/
theorem bindings_assign {i : BindingId} {b : Binding} (hb : s.bindings[i]? = some b) {ty : Ty}
    (hty : ty.isUnresolved = false) (site cause : Location) :
    (s.assign i site ty cause).2.bindings = s.bindings.modify i (·.assigned ⟨site, ty⟩) := by
  unfold assign
  rw [hty, hb]
  simp only [Bool.false_eq_true, if_false]
  split <;> rfl

/-- The binding that was assigned. -/
theorem getElem?_assign {i : BindingId} {b : Binding} (hb : s.bindings[i]? = some b) {ty : Ty}
    (hty : ty.isUnresolved = false) (site cause : Location) :
    (s.assign i site ty cause).2.bindings[i]? = some (b.assigned ⟨site, ty⟩) := by
  rw [bindings_assign hb hty, getElem?_modify_eq_some hb, if_pos rfl]

theorem bindings_assign_cases (s : Store) (i : BindingId) (site : Location) (ty : Ty)
    (cause : Location) : (s.assign i site ty cause).2.bindings = s.bindings ∨
      (s.assign i site ty cause).2.bindings = s.bindings.modify i (·.assigned ⟨site, ty⟩) := by
  cases hty : ty.isUnresolved with
  | true => simp [assign, hty]
  | false =>
    cases hb : s.bindings[i]? with
    | none => simp [assign, hb]
    | some b => exact Or.inr (bindings_assign hb hty site cause)

theorem prefix_queue_assign (s : Store) (i : BindingId) (site : Location) (ty : Ty)
    (cause : Location) : s.queue <+: (s.assign i site ty cause).2.queue := by
  unfold assign
  split
  · exact List.prefix_rfl
  · cases s.bindings[i]? with
    | none => exact List.prefix_rfl
    | some b =>
      simp only
      split
      · exact List.prefix_rfl
      · exact Worklist.prefix_enqueueAll _ _ _

/-- The readers of a binding that is widened are put on the worklist. -/
theorem holds_assign {i : BindingId} {b : Binding} (hb : s.bindings[i]? = some b) {ty : Ty}
    (hknown : ty.isUnresolved = false) (hwidens : (b.current.union ty == b.current) = false)
    {unit : UnitId} (hunit : unit ∈ b.readers) (site cause : Location) :
    (s.assign i site ty cause).2.queue.holds unit = true := by
  unfold assign
  rw [hknown, hb]
  simp only [Bool.false_eq_true, if_false, hwidens]
  exact Worklist.holds_enqueueAll _ _ hunit

/-- Who has read a binding whose type an assignment changes is waiting. -/
theorem queued_assign {i j : BindingId} {site cause : Location} {ty : Ty} {b b' : Binding}
    (hb : s.bindings[j]? = some b) (hb' : (s.assign i site ty cause).2.bindings[j]? = some b')
    (hne : b'.current ≠ b.current) :
    ∀ u ∈ b.readers, (s.assign i site ty cause).2.queue.holds u = true := by
  intro u hu
  have hunchanged : (s.assign i site ty cause).2.bindings ≠ s.bindings := by
    intro hsame
    rw [hsame, hb] at hb'
    cases hb'
    exact hne rfl
  have hafter := (bindings_assign_cases s i site ty cause).resolve_left hunchanged
  rw [hafter, getElem?_modify_eq_some hb] at hb'
  by_cases hij : i = j
  · subst hij
    rw [if_pos rfl] at hb'
    cases hb'
    have hknown : ty.isUnresolved = false :=
      Bool.eq_false_iff.mpr fun hty => hunchanged (by simp [assign, hty])
    have hwidens : (b.current.union ty == b.current) = false :=
      Bool.eq_false_iff.mpr fun hsame => hne (by simp [Binding.assigned, hsame])
    exact holds_assign hb hknown hwidens hu site cause
  · rw [if_neg hij] at hb'
    cases hb'
    exact absurd rfl hne

section Union

variable (hC : ∀ m, C m → m.IsCon)
include hC

theorem grows_assign (h : s.Ok C slotOk n) (i : BindingId) {ty : Ty} (hty : ty.Over C)
    (site cause : Location) : s.Grows (s.assign i site ty cause).2 := by
  refine ⟨?_, prefix_queue_assign s i site ty cause, fun _ _ _ hb hb' => queued_assign hb hb'⟩
  have hgrows : ∀ x, s.bindings[i]? = some x → x.Grows (x.assigned ⟨site, ty⟩) := fun x hx =>
    Binding.grows_assigned hC (h.getElem? hx) hty
  rcases bindings_assign_cases s i site ty cause with hsame | hmodified
  · intro j b hb
    exact ⟨b, hsame ▸ hb, .refl b⟩
  · intro j b hb
    rw [hmodified]
    exact (extends_modify hgrows : s.Extends ⟨_, s.queue⟩) j b hb

/-- A binding holds what was assigned to it. -/
theorem any_assign (h : s.Ok C slotOk n) {i : BindingId} (hi : i < s.bindings.length) {ty m : Ty}
    (hty : ty.Over C) (hm : m ∈ ty.members) (site cause : Location) :
    ((s.assign i site ty cause).2.typeOf i).members.any (· == m) = true := by
  have hb : s.bindings[i]? = some s.bindings[i] := List.getElem?_eq_getElem hi
  have hok := h.getElem? hb
  rw [typeOf_eq (getElem?_assign hb (Ty.isUnresolved_of_mem hm) site cause),
    Binding.current_assigned hC hok hty]
  exact Ty.any_union_right hC hok.isOver hty hm

/-- An assignment puts units on the worklist only when it widens the binding. -/
theorem widens_assign (h : s.Ok C slotOk n) (i : BindingId) {ty : Ty} (hty : ty.Over C)
    (site cause : Location) : (s.assign i site ty cause).2.queue = s.queue ∨
      s.Widens (s.assign i site ty cause).2 := by
  unfold assign
  split
  · exact Or.inl rfl
  · cases hb : s.bindings[i]? with
    | none => exact Or.inl rfl
    | some b =>
      have hok := h.getElem? hb
      simp only
      split
      · exact Or.inl rfl
      · rename_i hwidened
        refine Or.inr ⟨i, ?_⟩
        have hafter := (getElem?_modify_eq_some (f := (·.assigned ⟨site, ty⟩)) (i := i) hb)
        rw [if_pos rfl] at hafter
        rw [typeOf_eq hb, typeOf_eq hafter, Binding.current_assigned hC hok hty]
        refine (Ty.union_eq_or_longer hC hok.isOver hty).resolve_left fun hsame => ?_
        rw [hsame, BEq.rfl] at hwidened
        exact hwidened rfl

theorem Ok.assign (h : s.Ok C slotOk n) (i : BindingId) {ty : Ty} (hty : ty.Over C)
    (site cause : Location) : (s.assign i site ty cause).2.Ok C slotOk n := by
  unfold Store.assign
  split
  · exact h
  · cases hb : s.bindings[i]? with
    | none => exact h
    | some b =>
      have hbindings : ∀ x ∈ s.bindings.modify i (·.assigned ⟨site, ty⟩), x.Ok C slotOk n :=
        forall_mem_modify h.bindings fun x hx => (h.getElem? hx).assigned hC hty
      have hslots : ((s.bindings.modify i (·.assigned ⟨site, ty⟩)).map Binding.slot).Nodup := by
        rw [map_slot_modify (f := (·.assigned ⟨site, ty⟩)) fun b => rfl]
        exact h.slots
      simp only
      split
      · exact ⟨hbindings, hslots, h.queued, h.distinct⟩
      · refine ⟨hbindings, hslots, fun p hp => ?_, Worklist.nodup_enqueueAll _ _ h.distinct⟩
        rcases Worklist.unit_of_mem_enqueueAll hp with hp | hp
        · exact h.queued p hp
        · exact (h.getElem? hb).readers _ hp

/-- An assignment that was made before changes nothing. -/
theorem assign_again {slotOk' : Slot → Prop} {n' : Nat} (h : s.Ok C slotOk n)
    (ht : t.Ok C slotOk' n') {i : BindingId} {ty : Ty}
    (hty : ty.Over C) (hi : i < s.bindings.length) (site cause cause' : Location)
    (hgrows : (s.assign i site ty cause).2.Extends t) :
    (t.assign i site ty cause').2 = t := by
  cases hu : ty.isUnresolved with
  | true => rw [assign, hu, if_pos rfl]
  | false =>
    have hb : s.bindings[i]? = some s.bindings[i] := List.getElem?_eq_getElem hi
    obtain ⟨b', hb', hgrows'⟩ : ∃ b', t.bindings[i]? = some b' ∧
        ((s.bindings[i]).assigned ⟨site, ty⟩).Grows b' :=
      hgrows i _ (getElem?_assign hb hu site cause)
    obtain ⟨hassigned, hunion⟩ :=
      Binding.assigned_again hC (h.getElem? hb) hty (ht.getElem? hb') hgrows'
    have hself : t.bindings.modify i (·.assigned ⟨site, ty⟩) = t.bindings := by
      refine modify_eq_self fun a ha => ?_
      rw [hb'] at ha
      cases ha
      exact hassigned
    rw [assign, hu, if_neg Bool.false_ne_true, hb']
    simp only [hself, hunion, BEq.rfl, if_true]

end Union

/-! ### Waiting and sealing -/

theorem grows_enqueue (s : Store) (unit : UnitId) (cause : Option Location) :
    s.Grows (s.enqueue unit cause) := by
  refine ⟨.refl s, Worklist.prefix_enqueue _ _ _, ?_⟩
  intro i b b' hb hb' hne
  rw [enqueue, hb] at hb'
  cases hb'
  exact absurd rfl hne

theorem Ok.enqueue (h : s.Ok C slotOk n) {unit : UnitId} (hunit : unit < n)
    (cause : Option Location) : (s.enqueue unit cause).Ok C slotOk n where
  bindings := h.bindings
  slots := h.slots
  queued := by
    intro p hp
    rcases Worklist.unit_of_mem_enqueue hp with hp | hp
    · exact h.queued p hp
    · rw [hp]
      exact hunit
  distinct := Worklist.nodup_enqueue _ _ h.distinct

theorem Ok.withQueue (h : s.Ok C slotOk n) {next : Pending} {rest : Worklist}
    (hq : s.queue = next :: rest) : Ok C slotOk n { s with queue := rest } where
  bindings := h.bindings
  slots := h.slots
  queued := fun p hp => h.queued p (by rw [hq]; exact List.mem_cons_of_mem _ hp)
  distinct := by
    have hdistinct := h.distinct
    rw [hq] at hdistinct
    exact (List.nodup_cons.mp hdistinct).2

theorem bindings_pop (s : Store) : s.pop.2.bindings = s.bindings := by
  unfold pop
  split <;> rfl

theorem Ok.pop (h : s.Ok C slotOk n) : s.pop.2.Ok C slotOk n := by
  unfold Store.pop
  cases hq : s.queue with
  | nil => exact h
  | cons next rest => exact h.withQueue hq

theorem mem_foldl_insertUnit {us units : List UnitId} {u : UnitId} :
    u ∈ us.foldl (fun units u => Binding.insertUnit u units) units ↔ u ∈ us ∨ u ∈ units := by
  induction us generalizing units with
  | nil => simp
  | cons v vs ih =>
    rw [List.foldl_cons, ih, Binding.mem_insertUnit, List.mem_cons]
    constructor
    · rintro (h | rfl | h)
      · exact Or.inl (Or.inr h)
      · exact Or.inl (Or.inl rfl)
      · exact Or.inr h
    · rintro ((rfl | h) | h)
      · exact Or.inr (Or.inl rfl)
      · exact Or.inl h
      · exact Or.inr (Or.inr h)

/-- The readers of starved bindings. -/
theorem mem_starvedReaders {bs : List Binding} {u : UnitId} :
    u ∈ starvedReaders bs ↔ ∃ b ∈ bs, b.isStarved = true ∧ u ∈ b.readers := by
  have key : ∀ (starved : List Binding) (units : List UnitId),
      u ∈ starved.foldl
        (fun units b => b.readers.foldl (fun units u => Binding.insertUnit u units) units) units ↔
      (∃ b ∈ starved, u ∈ b.readers) ∨ u ∈ units := by
    intro starved
    induction starved with
    | nil => simp
    | cons b bs ih =>
      intro units
      rw [List.foldl_cons, ih, mem_foldl_insertUnit]
      constructor
      · rintro (⟨x, hx, hu⟩ | hu | hu)
        · exact Or.inl ⟨x, List.mem_cons_of_mem _ hx, hu⟩
        · exact Or.inl ⟨b, List.mem_cons_self, hu⟩
        · exact Or.inr hu
      · rintro (⟨x, hx, hu⟩ | hu)
        · rcases List.mem_cons.mp hx with rfl | hx
          · exact Or.inr (Or.inl hu)
          · exact Or.inl ⟨x, hx, hu⟩
        · exact Or.inr (Or.inr hu)
  rw [starvedReaders, key]
  simp only [List.mem_filter, List.not_mem_nil, or_false, and_assoc]

theorem isStarved_iff {b : Binding} :
    b.isStarved = true ↔ b.current.isUnresolved = true ∧ b.readers ≠ [] := by
  rw [Binding.isStarved, Bool.and_eq_true, Bool.not_eq_true', List.isEmpty_eq_false_iff]

/-- What sealing makes of a binding. -/
theorem grows_seal {b : Binding} (hb : b.Ok C slotOk n) (ty : Ty) :
    b.Grows (if b.isStarved then { b with current := ty } else b) := by
  split
  · rename_i hstarved
    refine ⟨rfl, List.prefix_rfl, List.Subset.refl _, ?_⟩
    rw [hb.isOver.isUnresolved_iff.mp (isStarved_iff.mp hstarved).1]
    exact List.nil_prefix
  · exact .refl b

/-- Who has read a binding that is sealed is waiting. -/
theorem queued_sealStarved {ty : Ty} {i : BindingId} {b b' : Binding}
    (hb : s.bindings[i]? = some b) (hb' : (s.sealStarved ty).2.bindings[i]? = some b')
    (hne : b'.current ≠ b.current) :
    ∀ u ∈ b.readers, (s.sealStarved ty).2.queue.holds u = true := by
  intro u hu
  simp only [sealStarved, List.getElem?_map, hb, Option.map_some, Option.some.injEq] at hb'
  split at hb'
  · rename_i hstarved
    refine Worklist.holds_enqueueAll _ _ (mem_starvedReaders.mpr ?_)
    exact ⟨b, List.mem_of_getElem? hb, hstarved, hu⟩
  · rw [hb'] at hne
    exact absurd rfl hne

theorem grows_sealStarved (h : s.Ok C slotOk n) (ty : Ty) : s.Grows (s.sealStarved ty).2 := by
  refine ⟨?_, Worklist.prefix_enqueueAll _ _ _, fun _ _ _ hb hb' => queued_sealStarved hb hb'⟩
  intro i b hb
  refine ⟨_, ?_, grows_seal (h.getElem? hb) ty⟩
  simp only [sealStarved, List.getElem?_map, hb, Option.map_some]

/-- Sealing puts units on the worklist only when it widens a binding. -/
theorem widens_sealStarved (h : s.Ok C slotOk n) {ty : Ty} (hty : ty.members ≠ []) :
    (s.sealStarved ty).2.queue = s.queue ∨ s.Widens (s.sealStarved ty).2 := by
  cases hreaders : starvedReaders s.bindings with
  | nil =>
    left
    simp only [sealStarved, hreaders]
    rfl
  | cons u us =>
    right
    have hu : u ∈ starvedReaders s.bindings := by
      rw [hreaders]
      exact List.mem_cons_self
    obtain ⟨b, hb, hstarved, _⟩ := mem_starvedReaders.mp hu
    obtain ⟨i, hi⟩ := List.getElem?_of_mem hb
    have hafter : (s.sealStarved ty).2.bindings[i]? = some { b with current := ty } := by
      simp only [sealStarved, List.getElem?_map, hi, Option.map_some, hstarved, if_true]
    refine ⟨i, ?_⟩
    rw [typeOf_eq hi, typeOf_eq hafter,
      (h.bindings b hb).isOver.isUnresolved_iff.mp (isStarved_iff.mp hstarved).1]
    exact List.length_pos_iff.mpr hty

theorem Ok.sealStarved (h : s.Ok C slotOk n) {ty : Ty} (hty : ty.Over C) :
    (s.sealStarved ty).2.Ok C slotOk n where
  bindings := by
    intro x hx
    obtain ⟨b, hb, rfl⟩ := List.mem_map.mp hx
    have hok := h.bindings b hb
    split
    · exact ⟨hty, hok.slot, hok.sorted, hok.readers⟩
    · exact hok
  slots := by
    simp only [Store.sealStarved]
    rw [map_slot_sealed]
    exact h.slots
  queued := by
    intro p hp
    rcases Worklist.unit_of_mem_enqueueAll hp with hp | hp
    · exact h.queued p hp
    · obtain ⟨b, hb, _, hu⟩ := mem_starvedReaders.mp hp
      exact (h.bindings b hb).readers _ hu
  distinct := Worklist.nodup_enqueueAll _ _ h.distinct

/-! ### A property of every binding -/

section Everywhere

variable {A : Binding → Prop}

theorem forall_intern {slot : Slot} (h : ∀ b ∈ s.bindings, A b) (hslot : A (.fresh slot)) :
    ∀ b ∈ (s.intern slot).2.bindings, A b := by
  unfold intern
  split
  · exact h
  · exact List.forall_mem_append.mpr ⟨h, List.forall_mem_singleton.mpr hslot⟩

theorem forall_read {i : BindingId} {reader : UnitId} (h : ∀ b ∈ s.bindings, A b)
    (hi : ∀ b, s.bindings[i]? = some b → A (b.readBy reader)) :
    ∀ b ∈ (s.read i reader).2.bindings, A b :=
  forall_mem_modify h hi

theorem forall_assign {i : BindingId} {site cause : Location} {ty : Ty} (h : ∀ b ∈ s.bindings, A b)
    (hi : ty.isUnresolved = false → ∀ b, s.bindings[i]? = some b → A (b.assigned ⟨site, ty⟩)) :
    ∀ b ∈ (s.assign i site ty cause).2.bindings, A b := by
  cases hu : ty.isUnresolved with
  | true =>
    simp only [assign, hu, if_true]
    exact h
  | false =>
    cases hb : s.bindings[i]? with
    | none =>
      simp only [assign, hu, hb, Bool.false_eq_true, if_false]
      exact h
    | some b =>
      rw [bindings_assign hb hu]
      exact forall_mem_modify h (hi hu)

theorem forall_sealStarved {ty : Ty} (h : ∀ b ∈ s.bindings, A b)
    (hstarved : ∀ b ∈ s.bindings, b.isStarved = true → A { b with current := ty }) :
    ∀ b ∈ (s.sealStarved ty).2.bindings, A b := by
  intro b hb
  obtain ⟨b', hb', rfl⟩ := List.mem_map.mp hb
  split
  · rename_i hs
    exact hstarved b' hb' hs
  · exact h b' hb'

end Everywhere

end Store

end UnionTyping
