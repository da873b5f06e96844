/-
  UnionTyping/Proofs/Ty/Settling.lean
  ===================================
  **Settling what is still open.**

  A type is resolved when nothing in it is unresolved, at any depth (`Ty.Resolved`).  Settling
  makes a resolved type of every type in normal form, and it leaves those alone that are
  resolved already.

  Types that differ can be settled to the same type, as the pointer to nothing yet and the
  pointer to nil are, and then members of a union fall together.  What a type is settled to has
  the settled members of the type, each once (`Normal.members_settled`).  So it makes no
  difference whether known types are joined first or settled first
  (`Ty.settled_homomorphism`).  The unresolved type is the exception: it has no members, and
  what it is settled to has one.
-/
import UnionTyping.Proofs.Ty.Semilattice

namespace UnionTyping.Ty

/-! ### Resolved types -/

/-- Nothing in the type is unresolved, at any depth. -/
inductive Resolved : Ty → Prop where
  | con (name : String) (args : List Ty) (all : ∀ a ∈ args, Resolved a) : Resolved (con name args)
  | oneOf (ms : List Ty) (all : ∀ m ∈ ms, Resolved m) : Resolved (oneOf ms)

theorem resolved_of_members {t : Ty} (hne : t.members ≠ []) (h : ∀ m ∈ t.members, m.Resolved) :
    t.Resolved := by
  cases t with
  | unresolved => exact absurd rfl hne
  | con name args => exact h _ List.mem_cons_self
  | oneOf ms => exact .oneOf ms h

/-! ### The settled type -/

theorem IsCon.settled {m : Ty} (h : m.IsCon) : m.settled.IsCon := by
  obtain ⟨name, args, rfl⟩ := h
  exact ⟨name, settledEach args, rfl⟩

theorem Normal.settled {t : Ty} (h : t.Normal) : t.settled.Normal := by
  induction h with
  | unresolved => exact .con "Nil" [] (List.forall_mem_nil _)
  | con name args _ ih =>
    rw [Ty.settled, settledEach_eq_map]
    exact .con name _ (List.forall_mem_map.mpr ih)
  | oneOf ms _ _ _ _ ih =>
    rw [Ty.settled, settledEach_eq_map]
    exact .joined (List.forall_mem_map.mpr ih)

/-- A settled type has the settled members, each once. -/
theorem Normal.members_settled {t : Ty} (h : t.Normal) (hknown : t.isUnresolved = false) :
    t.settled.members = addNew [] (t.members.map Ty.settled) := by
  cases t with
  | unresolved => cases hknown
  | con name args => rfl
  | oneOf ms =>
    have hinstances : ∀ m ∈ ms.map Ty.settled, NormalInstance m := by
      refine List.forall_mem_map.mpr fun m hm => ?_
      exact ⟨(h.isCon_member hm).settled, (h.member hm).settled⟩
    rw [Ty.settled, settledEach_eq_map]
    exact members_foldl_union (fun _ hm => hm.isCon) hinstances .unresolved

theorem Normal.has_settled_iff {t m : Ty} (h : t.Normal) (hknown : t.isUnresolved = false) :
    t.settled.Has m ↔ ∃ k ∈ t.members, (k.settled == m) = true := by
  rw [Has, h.members_settled hknown, List.any_eq_true]
  constructor
  · rintro ⟨s, hs, hsame⟩
    rcases mem_addNew hs with hs | hs
    · cases hs
    · obtain ⟨k, hk, rfl⟩ := List.mem_map.mp hs
      exact ⟨k, hk, hsame⟩
  · rintro ⟨k, hk, hsame⟩
    have hadded : (addNew [] (t.members.map Ty.settled)).any (· == k.settled) = true :=
      any_addNew (List.mem_map_of_mem hk)
    obtain ⟨s, hs, hsame'⟩ := List.any_eq_true.mp hadded
    exact ⟨s, hs, beq_trans hsame' hsame⟩

/-- Nothing is left open in a settled type. -/
theorem Normal.resolved_settled {t : Ty} (h : t.Normal) : t.settled.Resolved := by
  induction h with
  | unresolved => exact .con "Nil" [] (List.forall_mem_nil _)
  | con name args _ ih =>
    rw [Ty.settled, settledEach_eq_map]
    exact .con name _ (List.forall_mem_map.mpr ih)
  | oneOf ms several distinct instances all ih =>
    have hnormal : (Ty.oneOf ms).Normal := .oneOf ms several distinct instances all
    refine resolved_of_members ?_ fun m hm => ?_
    · obtain ⟨m, hm⟩ := List.exists_mem_of_length_pos (Nat.lt_of_lt_of_le Nat.two_pos several)
      have hhas := (hnormal.has_settled_iff rfl).mpr ⟨m, hm, BEq.rfl⟩
      obtain ⟨k, hk, -⟩ := List.any_eq_true.mp hhas
      exact List.ne_nil_of_mem hk
    · rw [hnormal.members_settled rfl] at hm
      rcases mem_addNew hm with hm | hm
      · cases hm
      · obtain ⟨k, hk, rfl⟩ := List.mem_map.mp hm
        exact ih k hk

/-- A resolved type is settled. -/
theorem Normal.settled_eq {t : Ty} (h : t.Normal) (hresolved : t.Resolved) : t.settled = t := by
  induction h with
  | unresolved => cases hresolved
  | con name args _ ih =>
    cases hresolved with
    | con _ _ hargs =>
      have hsettled : ∀ a ∈ args, a.settled = a := fun a ha => ih a ha (hargs a ha)
      rw [Ty.settled, settledEach_eq_map, (List.map_congr_left hsettled).trans (List.map_id _)]
  | oneOf ms several distinct instances all ih =>
    cases hresolved with
    | oneOf _ hms =>
      have hnormal : (Ty.oneOf ms).Normal := .oneOf ms several distinct instances all
      have hsettled : ∀ m ∈ ms, m.settled = m := fun m hm => ih m hm (hms m hm)
      rw [Ty.settled, settledEach_eq_map, (List.map_congr_left hsettled).trans (List.map_id _)]
      exact hnormal.isOver.unionAll_members fun _ hm => hm.isCon

/-! ### Types that are the same -/

theorem forall₂_map_settled {as bs : List Ty}
    (h : ∀ a ∈ as, ∀ b ∈ bs, (a == b) = true → (a.settled == b.settled) = true)
    (hall : List.Forall₂ (fun a b => (a == b) = true) as bs) :
    List.Forall₂ (fun a b => (a == b) = true) (as.map Ty.settled) (bs.map Ty.settled) := by
  induction hall with
  | nil => exact .nil
  | @cons a b as bs hab _ ih =>
    refine .cons (h a (by simp) b (by simp) hab) (ih fun x hx y hy => ?_)
    exact h x (by simp [hx]) y (by simp [hy])

/-- Types that are the same are settled to the same type. -/
theorem Normal.settled_beq {a b : Ty} (ha : a.Normal) (hb : b.Normal) (h : (a == b) = true) :
    (a.settled == b.settled) = true := by
  induction ha generalizing b with
  | unresolved =>
    cases b with
    | unresolved => exact BEq.rfl
    | _ => cases h
  | con name args _ ih =>
    cases hb with
    | con name' args' all =>
      obtain ⟨rfl, hargs⟩ := beq_con_iff.mp h
      rw [Ty.settled, Ty.settled, settledEach_eq_map, settledEach_eq_map]
      refine beq_con_iff.mpr ⟨rfl, forall₂_map_settled (fun x hx y hy => ?_) hargs⟩
      exact ih x hx (all y hy)
    | _ => cases h
  | oneOf as several distinct instances all ih =>
    have ha : (Ty.oneOf as).Normal := .oneOf as several distinct instances all
    have hknown : b.isUnresolved = false := (isUnresolved_of_beq h).symm
    have hwithin := ha.within_of_beq hb h
    have hwithin' := hb.within_of_beq ha (ha.beq_symm hb h)
    refine ha.settled.beq_of_has_iff hb.settled fun m _ => ?_
    rw [ha.has_settled_iff rfl, hb.has_settled_iff hknown]
    -- each member has a counterpart that it is the same as, and the two are settled to the same
    constructor
    · rintro ⟨k, hk, hsame⟩
      obtain ⟨k', hk', hcounterpart⟩ := List.any_eq_true.mp (hwithin k hk)
      have hnormal := ha.member hk
      have hnormal' := hb.member hk'
      have hsettled := ih k hk hnormal' (hnormal'.beq_symm hnormal hcounterpart)
      exact ⟨k', hk', beq_trans (hnormal.settled.beq_symm hnormal'.settled hsettled) hsame⟩
    · rintro ⟨k', hk', hsame⟩
      obtain ⟨k, hk, hcounterpart⟩ := List.any_eq_true.mp (hwithin' k' hk')
      exact ⟨k, hk, beq_trans (ih k hk (hb.member hk') hcounterpart) hsame⟩

/-! ### Unions -/

/-- Known types can be joined before they are settled or after. -/
theorem Normal.settled_union {a b : Ty} (ha : a.Normal) (hb : b.Normal)
    (haknown : a.isUnresolved = false) (hbknown : b.isUnresolved = false) :
    ((a.union b).settled == a.settled.union b.settled) = true := by
  have hab := ha.union hb
  obtain ⟨m, hm⟩ := List.exists_mem_of_ne_nil _ (hb.members_ne_nil hbknown)
  have hknown : (a.union b).isUnresolved = false := isUnresolved_union a hm (hb.isCon_member hm)
  refine hab.settled.beq_of_has_iff (ha.settled.union hb.settled) fun m _ => ?_
  rw [hab.has_settled_iff hknown, ha.settled.has_union_iff hb.settled, ha.has_settled_iff haknown,
    hb.has_settled_iff hbknown]
  constructor
  · rintro ⟨k, hk, hsame⟩
    rcases mem_union (fun _ hm => hm.isCon) ha.isOver hb.isOver hk with hk | hk
    · exact .inl ⟨k, hk, hsame⟩
    · exact .inr ⟨k, hk, hsame⟩
  · rintro (⟨k, hk, hsame⟩ | ⟨k, hk, hsame⟩)
    · exact ⟨k, (ha.prefix_members_union hb).mem hk, hsame⟩
    · obtain ⟨k', hk', hcounterpart⟩ := List.any_eq_true.mp (ha.within_union_right hb k hk)
      have hsettled := (hab.member hk').settled_beq (hb.member hk) hcounterpart
      exact ⟨k', hk', beq_trans hsettled hsame⟩

/-- Settling maps the types in normal form onto those among them in which nothing is
    unresolved, which it leaves as they are.  It respects sameness, and it takes the union of
    known types to the union of the settled types, also when some of their members fall
    together. -/
theorem settled_homomorphism {a b : Ty} (ha : a.Normal) (hb : b.Normal) :
    a.settled.Normal ∧ a.settled.Resolved ∧ (a.settled = a ↔ a.Resolved) ∧
      (a.settled.settled == a.settled) = true ∧
      ((a == b) = true → (a.settled == b.settled) = true) ∧
      (a.isUnresolved = false → b.isUnresolved = false →
        ((a.union b).settled == a.settled.union b.settled) = true) := by
  have hresolved := ha.resolved_settled
  refine ⟨ha.settled, hresolved, ⟨fun h => h ▸ hresolved, ha.settled_eq⟩, ?_, ha.settled_beq hb,
    ha.settled_union hb⟩
  rw [ha.settled.settled_eq hresolved]
  exact BEq.rfl

/-- A pointer to a variable without a value, or nil; and a pointer to a variable that holds
    nil, or a number. -/
def openPointer : Ty := oneOf [pointer unresolved, nil]
def nilPointer : Ty := oneOf [pointer nil, int]

/-- The pointers are different members, and one member when they are settled. -/
theorem openPointer_homomorphism :
    openPointer.Normal ∧ nilPointer.Normal ∧
      openPointer.isUnresolved = false ∧ nilPointer.isUnresolved = false ∧
      (openPointer.union nilPointer).members.length = 4 ∧
      ((openPointer.union nilPointer).settled ==
        openPointer.settled.union nilPointer.settled) = true ∧
      (openPointer.union nilPointer).settled.members.length = 3 ∧
      (openPointer.settled == (oneOf [nil, pointer unresolved]).settled) = true ∧
      openPointer.settled.Resolved := by
  have ha : openPointer.Normal := by decide +kernel
  have hb : nilPointer.Normal := by decide +kernel
  have hturned : (oneOf [nil, pointer unresolved]).Normal := by decide +kernel
  obtain ⟨-, hresolved, -, -, -, hunion⟩ := settled_homomorphism ha hb
  obtain ⟨-, -, -, -, hsame, -⟩ := settled_homomorphism ha hturned
  exact ⟨ha, hb, rfl, rfl, by decide +kernel, hunion rfl rfl, by decide +kernel,
    hsame (by decide +kernel), hresolved⟩

end UnionTyping.Ty
