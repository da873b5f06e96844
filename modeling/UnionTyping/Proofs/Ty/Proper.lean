/-
  UnionTyping/Proofs/Ty/Proper.lean
  =================================
  **Types of values.**

  The type arguments of an instance are types that a value can have: they are
  known, and each is determined by its members.  When that holds at every depth
  the type is `Proper`.  All types that come up in a program are made of proper
  instances.

  Proper types are in normal form, so sameness is an equivalence relation on them, and they are
  resolved, so settling leaves them as they are.  A type with no union anywhere in it (`Plain`) is
  proper.
-/
import UnionTyping.Proofs.Ty.Settling

namespace UnionTyping.Ty

/-- An instance whose type arguments are known types with proper members. -/
inductive Proper : Ty → Prop where
  | con (name : String) (args : List Ty)
      (shape : ∀ a ∈ args, ofMembers a.members = a ∧ Distinct a.members ∧ a.members ≠ [])
      (members : ∀ a ∈ args, ∀ m ∈ a.members, Proper m) : Proper (con name args)

theorem Proper.isCon {m : Ty} (h : Proper m) : m.IsCon := by
  cases h with
  | con name args _ _ => exact ⟨name, args, rfl⟩

/-- A type that a value can have: proper instances, at least one. -/
structure Known (t : Ty) : Prop where
  isOver : t.Over Proper
  inhabited : t.members ≠ []

theorem Proper.known_arg {name : String} {args : List Ty} (h : Proper (.con name args)) {a : Ty}
    (ha : a ∈ args) : a.Known := by
  cases h with
  | con _ _ shape members =>
    obtain ⟨hshape, hdistinct, hne⟩ := shape a ha
    exact ⟨⟨hshape, hdistinct, members a ha⟩, hne⟩

theorem Proper.of_args {name : String} {args : List Ty} (h : ∀ a ∈ args, a.Known) :
    Proper (.con name args) :=
  .con name args (fun a ha => ⟨(h a ha).isOver.shape, (h a ha).isOver.distinct, (h a ha).inhabited⟩)
    fun a ha => (h a ha).isOver.all

theorem proper_plain (name : String) : Proper (.con name []) :=
  .of_args (List.forall_mem_nil _)

theorem Proper.isOver {m : Ty} (h : Proper m) : m.Over Proper := .of_isCon h.isCon h

theorem Proper.known {m : Ty} (h : Proper m) : m.Known := by
  refine ⟨h.isOver, ?_⟩
  rw [h.isCon.members_eq]
  exact List.cons_ne_nil _ _

theorem Over.known {t : Ty} (h : t.Over Proper) (hne : t.isUnresolved = false) : t.Known := by
  refine ⟨h, fun hnil => ?_⟩
  rw [h.isUnresolved_iff.mpr hnil] at hne
  cases hne

theorem Known.isUnresolved_eq_false {t : Ty} (h : t.Known) : t.isUnresolved = false := by
  rw [← Bool.not_eq_true]
  exact fun hu => h.inhabited (h.isOver.isUnresolved_iff.mp hu)

theorem Known.proper_pointer {t : Ty} (h : t.Known) : Proper (.pointer t) := by
  refine .of_args fun a ha => ?_
  rw [List.mem_singleton.mp ha]
  exact h

/-! ### Settling -/

theorem Over.unresolved_union {C : Ty → Prop} {t : Ty} (h : t.Over C) :
    Ty.unresolved.union t = t := by
  have hnew : addNew [] t.members = t.members := addNew_of_distinct h.distinct
  change ofMembers (addNew [] ([] ++ t.members)) = t
  rw [List.nil_append, hnew, h.shape]

theorem Proper.normal {m : Ty} (h : Proper m) : m.Normal := by
  induction h with
  | con name args shape members ih =>
    refine .con name args fun a ha => Over.normal ⟨(shape a ha).1, (shape a ha).2.1, fun m hm => ?_⟩
    exact ⟨(members a ha m hm).isCon, ih a ha m hm⟩

theorem Over.normal_of_proper {t : Ty} (h : t.Over Proper) : t.Normal :=
  (h.mono fun _ hm => ⟨hm.isCon, hm.normal⟩).normal

theorem Proper.resolved {m : Ty} (h : Proper m) : m.Resolved := by
  induction h with
  | con name args shape members ih =>
    exact .con name args fun a ha => resolved_of_members (shape a ha).2.2 (ih a ha)

/-- Nothing is left to settle in the type of a value. -/
theorem Known.settled_eq {t : Ty} (h : t.Known) : t.settled = t :=
  h.isOver.normal_of_proper.settled_eq
    (resolved_of_members h.inhabited fun m hm => (h.isOver.all m hm).resolved)

theorem Proper.settled_eq {m : Ty} (h : Proper m) : m.settled = m := h.known.settled_eq

/-- A union has a value when one of its types has. -/
theorem Known.union {a b : Ty} (ha : a.Over Proper) (hb : b.Over Proper)
    (h : a.Known ∨ b.Known) : (a.union b).Known := by
  have hC : ∀ m, Proper m → m.IsCon := fun _ hm => hm.isCon
  refine ⟨ha.union hC hb, fun hnil => ?_⟩
  rcases h with h | h
  · have hprefix := prefix_members_union hC ha hb
    rw [hnil] at hprefix
    exact h.inhabited (List.prefix_nil.mp hprefix)
  · obtain ⟨m, hm⟩ := List.exists_mem_of_ne_nil _ h.inhabited
    have hany := any_union_right hC ha hb hm
    rw [hnil] at hany
    cases hany

/-! ### Sameness -/

/-- Types of values that are the same are so in both directions. -/
theorem Over.beq_symm {a b : Ty} (ha : a.Over Proper) (hb : b.Over Proper)
    (hab : (a == b) = true) : (b == a) = true :=
  ha.normal_of_proper.beq_symm hb.normal_of_proper hab

theorem Over.beq_comm {a b : Ty} (ha : a.Over Proper) (hb : b.Over Proper) :
    (a == b) = (b == a) :=
  ha.normal_of_proper.beq_comm hb.normal_of_proper

/-! ### Plain types -/

/-- An instance of a class with no union anywhere in it. -/
inductive Plain : Ty → Prop where
  | con (name : String) (args : List Ty) (h : ∀ a ∈ args, Plain a) : Plain (con name args)

theorem Plain.isCon {m : Ty} (h : Plain m) : m.IsCon := by
  cases h with
  | con name args _ => exact ⟨name, args, rfl⟩

theorem Plain.arg {name : String} {args : List Ty} (h : Plain (.con name args)) :
    ∀ a ∈ args, Plain a := by
  cases h with
  | con _ _ h => exact h

theorem Plain.proper {m : Ty} (h : Plain m) : Proper m := by
  induction h with
  | con name args h ih =>
    exact .of_args fun a ha => (ih a ha).known

theorem Plain.isOver {m : Ty} (h : Plain m) : m.Over Plain := .of_isCon h.isCon h

theorem plain_atom (name : String) : Plain (.con name []) :=
  .con name [] (List.forall_mem_nil _)

end UnionTyping.Ty
