/-
  UnionTyping/Proofs/Typing/Model.lean
  ====================================
  **States that stay below a model.**

  A `Model` of a program is a context together with a typing of every unit that is entered
  in it: whatever a unit assigns may be held by its place, and whatever it calls is entered.
  A state is `Below` a model when its bindings hold and its units are no more than the
  model says.  A step `Stays` below the model when from such a state it leads to such a
  state; what it finds is then part of what the model says, and no problem is reported.

  This file is about the steps that read, assign and declare variables.  Types are plain
  here, so being part of a type is set inclusion of members.
-/
import UnionTyping.Proofs.Inference.AddressFree
import UnionTyping.Proofs.Typing.CallRules

namespace UnionTyping

open Ty (Over Plain)

/-! ### Parts of types -/

/-- The type consists of some of the members of the other, which are plain. -/
structure Ty.PartOf (a t : Ty) : Prop where
  isOver : a.Over Plain
  mem : ∀ m ∈ a.members, m ∈ t.members

namespace Ty.PartOf

variable {a b t u : Ty}

theorem refl (h : t.Over Plain) : t.PartOf t := ⟨h, fun _ hm => hm⟩

theorem of_plain (h : t.Plain) : t.PartOf t := .refl h.isOver

theorem nil : Ty.nil.PartOf .nil := .of_plain (Ty.plain_atom "Nil")

theorem classObject : Ty.classObject.PartOf .classObject := .of_plain (Ty.plain_atom "Class")

theorem unresolved (t : Ty) : Ty.unresolved.PartOf t := ⟨.unresolved, fun _ hm => nomatch hm⟩

theorem of_within (h : a.PartOf t) (hwithin : t.Within u) : a.PartOf u :=
  ⟨h.isOver, fun m hm => (h.isOver.all m hm).mem_of_any (hwithin m (h.mem m hm))⟩

theorem union (h : a.PartOf t) (h' : b.PartOf t) : (a.union b).PartOf t := by
  refine ⟨h.isOver.union (fun _ hm => hm.isCon) h'.isOver, fun m hm => ?_⟩
  rcases (mem_union_iff h.isOver h'.isOver).mp hm with hm | hm
  · exact h.mem m hm
  · exact h'.mem m hm

theorem union_union (h : a.PartOf t) (h' : b.PartOf u) (ht : t.Over Plain) (hu : u.Over Plain) :
    (a.union b).PartOf (t.union u) := by
  refine ⟨h.isOver.union (fun _ hm => hm.isCon) h'.isOver, fun m hm => ?_⟩
  rw [mem_union_iff ht hu]
  exact ((mem_union_iff h.isOver h'.isOver).mp hm).imp (h.mem m) (h'.mem m)

/-- Where the other type is not known yet, this one is not either. -/
theorem isUnresolved (h : a.PartOf t) (ht : t.isUnresolved = true) : a.isUnresolved = true := by
  refine h.isOver.isUnresolved_iff.mpr (List.eq_nil_iff_forall_not_mem.mpr fun m hm => ?_)
  cases t with
  | unresolved => exact nomatch h.mem m hm
  | _ => cases ht

end Ty.PartOf

/-! ### Models -/

/-- A context with typings of the units that are entered in it. -/
structure Model where
  env : Env
  context : Context
  noted : Option Instantiation → NodeId → Option Ty
  called : Option Instantiation → NodeId → Resolution → Prop

def Model.typing (M : Model) (key : Option Instantiation) : Typing :=
  ⟨M.env, M.context, M.noted key, M.called key, key⟩

/-- The typings of a model are right: what is read covers what the place may hold, and every
    unit that is entered has a type. -/
structure Model.Closed (M : Model) : Prop where
  libraries : M.env.libraries.Plain
  reads : ∀ {p t}, M.context.reads p t → t.Over Plain
  covers : ∀ {p t m}, M.context.reads p t → M.context.holds p m → m ∈ t.members
  noted : ∀ {key node t}, M.noted key node = some t → t.Over Plain
  typed : ∀ key, (∀ k, key = some k → k.Plain ∧ M.context.entered k) →
    ∃ t, (M.typing key).TypesUnit t

/-- The place may hold what the binding holds, and it may be read if the binding was. -/
structure Context.Admits (Γ : Context) (p : Place) (b : Binding) : Prop where
  holds : ∀ m ∈ b.current.members, Γ.holds p m
  reads : b.readers ≠ [] → ∃ t, Γ.reads p t

/-- What is in the state is in the model. -/
structure Engine.Below (M : Model) (e : Engine) : Prop where
  top : [none] <+: e.keys
  keys : ∀ key, some key ∈ e.keys → key.Plain ∧ M.context.entered key
  bindings : ∀ b ∈ e.store.bindings, ∃ p, e.slotAt p = some b.slot ∧ M.context.Admits p b
  silent : ∀ u ∈ e.units, u.diagnostics = []

/-! ### Places -/

namespace Engine

variable {e e' : Engine} {M : Model}

theorem unitAt_of_prefix (h : e.keys <+: e'.keys) {key : Option Instantiation} {unit : UnitId}
    (hunit : e.unitAt key = some unit) : e'.unitAt key = some unit := by
  cases key with
  | none => exact hunit
  | some k => exact unitOf_of_prefix h hunit

theorem slotAt_of_prefix (h : e.keys <+: e'.keys) {p : Place} {slot : Slot}
    (hslot : e.slotAt p = some slot) : e'.slotAt p = some slot := by
  cases p with
  | «local» key scope name =>
    obtain ⟨unit, hunit, rfl⟩ := Option.map_eq_some_iff.mp hslot
    rw [slotAt, unitAt_of_prefix h hunit]
    rfl
  | ivar owner name => exact hslot
  | returned key =>
    obtain ⟨unit, hunit, rfl⟩ := Option.map_eq_some_iff.mp hslot
    rw [slotAt, unitOf_of_prefix h hunit]
    rfl

theorem Extends.idAt (h : e.Extends e') {p : Place} {i : BindingId} (hid : e.idAt p = some i) :
    e'.idAt p = some i := by
  obtain ⟨slot, hslot, hfind⟩ := Option.bind_eq_some_iff.mp hid
  rw [Engine.idAt, slotAt_of_prefix h.keys hslot]
  exact h.bindings.find hfind

/-- An instance has the unit that has it, and no other instance has that unit. -/
theorem Below.keyOf_eq (h : e.Below M) {key : Instantiation} {unit : UnitId}
    (hunit : e.unitOf key = some unit) : e.keyOf unit = some key := by
  obtain ⟨k, hk, hsame⟩ := exists_key_of_unitOf hunit
  rw [hk, (h.keys k (mem_keys hk)).1.eq_of_beq_right hsame]

theorem Below.keyOf_top (h : e.Below M) : e.keyOf topUnit = none := by
  obtain ⟨rest, hkeys⟩ := h.top
  rw [Engine.keyOf_eq, ← hkeys]
  rfl

/-- A unit belongs to one instance only. -/
theorem Below.unitAt_inj (h : e.Below M) {key key' : Option Instantiation} {unit : UnitId}
    (hunit : e.unitAt key = some unit) (hunit' : e.unitAt key' = some unit) : key = key' := by
  have hkey : ∀ {key : Option Instantiation}, e.unitAt key = some unit → e.keyOf unit = key := by
    intro key hunit
    cases key with
    | none =>
      cases hunit
      exact h.keyOf_top
    | some k => exact h.keyOf_eq hunit
  rw [← hkey hunit, hkey hunit']

/-- A slot is that of one place only. -/
theorem Below.slotAt_inj (h : e.Below M) {p p' : Place} {slot : Slot}
    (hslot : e.slotAt p = some slot) (hslot' : e.slotAt p' = some slot) : p = p' := by
  cases p with
  | «local» key scope name =>
    obtain ⟨unit, hunit, rfl⟩ := Option.map_eq_some_iff.mp hslot
    cases p' with
    | «local» key' scope' name' =>
      obtain ⟨unit', hunit', heq⟩ := Option.map_eq_some_iff.mp hslot'
      cases heq
      rw [h.unitAt_inj hunit hunit']
    | ivar => cases hslot'
    | returned =>
      obtain ⟨_, _, heq⟩ := Option.map_eq_some_iff.mp hslot'
      cases heq
  | ivar owner name =>
    cases hslot
    cases p' with
    | «local» =>
      obtain ⟨_, _, heq⟩ := Option.map_eq_some_iff.mp hslot'
      cases heq
    | ivar owner' name' =>
      cases hslot'
      rfl
    | returned =>
      obtain ⟨_, _, heq⟩ := Option.map_eq_some_iff.mp hslot'
      cases heq
  | returned key =>
    obtain ⟨unit, hunit, rfl⟩ := Option.map_eq_some_iff.mp hslot
    cases p' with
    | «local» =>
      obtain ⟨_, _, heq⟩ := Option.map_eq_some_iff.mp hslot'
      cases heq
    | ivar => cases hslot'
    | returned key' =>
      obtain ⟨unit', hunit', heq⟩ := Option.map_eq_some_iff.mp hslot'
      cases heq
      have hkey := @Below.unitAt_inj _ _ h (some key) (some key') _ hunit hunit'
      cases hkey
      rfl

theorem Below.admits (h : e.Below M) {p : Place} {i : BindingId} {b : Binding}
    (hid : e.idAt p = some i) (hb : e.store.bindings[i]? = some b) :
    e.slotAt p = some b.slot ∧ M.context.Admits p b := by
  obtain ⟨slot, hslot, hfind⟩ := Option.bind_eq_some_iff.mp hid
  obtain ⟨b', hb', rfl⟩ := Store.find_eq_some hfind
  rw [hb] at hb'
  cases hb'
  obtain ⟨p', hslot', hadmits⟩ := h.bindings b (List.mem_of_getElem? hb)
  rw [h.slotAt_inj hslot hslot']
  exact ⟨hslot', hadmits⟩

/-- A state is still below the model when only bindings have changed, and the new ones are
    admitted. -/
theorem Below.of_store (h : e.Below M) {s : Store}
    (hs : ∀ b ∈ s.bindings, ∃ p, e.slotAt p = some b.slot ∧ M.context.Admits p b) :
    Below M { e with store := s } :=
  ⟨h.top, h.keys, hs, h.silent⟩

end Engine

end UnionTyping
