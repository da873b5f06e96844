/-
  UnionTyping/Proofs/Ty/Narrowing.lean
  ====================================
  **The part of a type that passes a test.**

  What is kept of a type is put together again by `Ty.unionAll`, member by member.  Of a type
  in normal form nothing gets lost or falls together on the way: the members of `filter keep t`
  are those of `t` that pass, in their order (`Ty.Normal.members_filter`).  A test therefore
  cuts a type into two parts that have no member in common and whose union is the type
  (`Ty.filter_partitions`).  For the test whether a member may be used as `b`, the part that
  passes is the largest one that may.
-/
import UnionTyping.Proofs.Assignable

namespace UnionTyping.Ty

/-! ### The members that are kept -/

section

variable {t : Ty} (ht : t.Normal) (keep : Ty → Bool)
include ht

theorem Normal.members_filter : (t.filter keep).members = t.members.filter keep := by
  have hkept : ∀ m ∈ t.members.filter keep, NormalInstance m := fun m hm =>
    ht.isOver.all m (List.mem_filter.mp hm).1
  have hdistinct : Distinct (t.members.filter keep) := ht.isOver.distinct.filter keep
  calc (t.filter keep).members
    _ = addNew [] (t.members.filter keep) :=
      members_foldl_union (fun _ hm => hm.isCon) hkept .unresolved
    _ = t.members.filter keep := addNew_of_distinct hdistinct

theorem Normal.mem_filter {m : Ty} :
    m ∈ (t.filter keep).members ↔ m ∈ t.members ∧ keep m = true := by
  rw [ht.members_filter, List.mem_filter]

theorem Normal.filter : (t.filter keep).Normal :=
  .joined fun _ hm => ht.member (List.mem_filter.mp hm).1

/-- Each member is kept by a test or by its negation. -/
theorem Normal.has_filter_or {m : Ty} :
    t.Has m ↔ (t.filter keep).Has m ∨ (t.filter fun m => !keep m).Has m := by
  unfold Has
  rw [ht.members_filter, ht.members_filter]
  simp only [List.any_eq_true, List.mem_filter]
  constructor
  · rintro ⟨k, hk, hsame⟩
    cases hkeep : keep k with
    | true => exact .inl ⟨k, ⟨hk, hkeep⟩, hsame⟩
    | false => exact .inr ⟨k, ⟨hk, by rw [hkeep]; rfl⟩, hsame⟩
  · rintro (⟨k, ⟨hk, -⟩, hsame⟩ | ⟨k, ⟨hk, -⟩, hsame⟩)
    · exact ⟨k, hk, hsame⟩
    · exact ⟨k, hk, hsame⟩

end

/-- Of a type in normal form, members that are the same are one member. -/
theorem Normal.eq_of_beq {t m m' : Ty} (ht : t.Normal) (hm : m ∈ t.members) (hm' : m' ∈ t.members)
    (hsame : (m == m') = true) : m = m' := by
  have hlater : t.members.Pairwise fun a b => (a == b) = true → a = b :=
    ht.isOver.distinct.imp fun hdiffer hsame => by rw [hdiffer] at hsame; cases hsame
  have hearlier : t.members.Pairwise (flip fun a b => (a == b) = true → a = b) := by
    refine ht.isOver.distinct.imp_of_mem fun ha hb hdiffer hsame => ?_
    rw [(ht.member hb).beq_comm (ht.member ha), hdiffer] at hsame
    cases hsame
  exact List.Pairwise.forall_of_forall_of_flip (fun _ _ _ => rfl) hlater hearlier hm hm' hsame

/-- What is kept is assignable when each of its members is. -/
theorem Normal.assignable_filter {t : Ty} (ht : t.Normal) (h : Hierarchy) (target : Ty) :
    h.assignable (t.filter (h.assignable · target)) target = true := by
  rw [h.assignable_iff]
  intro m hm
  exact ((ht.mem_filter _).mp hm).2

/-- Whatever part of a type is assignable lies within the part that is kept. -/
theorem Normal.within_filter {t part : Ty} (ht : t.Normal) (hpart : part.Normal) (h : Hierarchy)
    {target : Ty} (hwithin : part.Within t) (hassignable : h.assignable part target = true) :
    part.Within (t.filter (h.assignable · target)) := by
  intro m hm
  obtain ⟨k, hk, hsame⟩ := List.any_eq_true.mp (hwithin m hm)
  have hkept : h.assignable k target = true := by
    rw [Hierarchy.assignable_con_congr (ht.isOver.all k hk) (hpart.isOver.all m hm) hsame]
    exact h.assignable_iff.mp hassignable m hm
  exact List.any_eq_true.mpr ⟨k, (ht.mem_filter _).mpr ⟨hk, hkept⟩, hsame⟩

/-! ### Two parts -/

/-- A test cuts a type in normal form into what passes and the rest.  Both are in normal form
    and have their members in the order of the type, they share no member, and their union is
    the type.  The test keeps all of what it kept.  What passes the test whether a member may
    be used as `target` may itself be used so, it has every member that may, and each part of
    the type that may lies within it. -/
theorem filter_partitions {t : Ty} (ht : t.Normal) (keep : Ty → Bool) (h : Hierarchy)
    (target : Ty) :
    let kept := t.filter keep
    let rest := t.filter fun m => !keep m
    let usable := t.filter (h.assignable · target)
    kept.Normal ∧ rest.Normal ∧
      kept.members = t.members.filter keep ∧
      rest.members = t.members.filter (fun m => !keep m) ∧
      (∀ m ∈ kept.members, ¬ rest.Has m) ∧
      (kept.union rest == t) = true ∧
      kept.filter keep = kept ∧
      h.assignable usable target = true ∧
      (∀ m ∈ t.members, h.assignable m target = true → m ∈ usable.members) ∧
      ∀ part : Ty, part.Normal → part.Within t → h.assignable part target = true →
        part.Within usable := by
  intro kept rest usable
  have hkept : kept.Normal := ht.filter keep
  have hrest : rest.Normal := ht.filter _
  refine ⟨hkept, hrest, ht.members_filter _, ht.members_filter _, ?_, ?_, ?_,
    ht.assignable_filter h target, fun m hm hassignable => (ht.mem_filter _).mpr ⟨hm, hassignable⟩,
    fun part hpart => ht.within_filter hpart h⟩
  · intro m hm hhas
    obtain ⟨m', hm', hsame⟩ := List.any_eq_true.mp hhas
    obtain ⟨hmem, hpasses⟩ := (ht.mem_filter _).mp hm
    obtain ⟨hmem', hfails⟩ := (ht.mem_filter _).mp hm'
    rw [ht.eq_of_beq hmem' hmem hsame, hpasses] at hfails
    cases hfails
  · refine (hkept.union hrest).beq_of_has_iff ht fun m _ => ?_
    rw [hkept.has_union_iff hrest, ht.has_filter_or keep]
  · have hall : kept.members.filter keep = kept.members :=
      List.filter_eq_self.mpr fun m hm => ((ht.mem_filter _).mp hm).2
    calc kept.filter keep
      _ = unionAll kept.members := congrArg unionAll hall
      _ = kept := hkept.isOver.unionAll_members fun _ hm => hm.isCon

def pointerOrValue : Ty := oneOf [int, pointer (oneOf [int, nil]), nil, con "Pointer" []]

/-- The pointers are the part that may be used as a pointer; one of them is kept whatever the
    order in the union that it points to. -/
theorem pointerOrValue_partitions :
    pointerOrValue.Normal ∧
      (pointerOrValue.filter (Hierarchy.pointerClasses.assignable · (con "Pointer" [])) ==
        oneOf [pointer (oneOf [int, nil]), con "Pointer" []]) = true ∧
      ((pointerOrValue.filter (· == nil)).union (pointerOrValue.filter fun m => !(m == nil)) ==
        pointerOrValue) = true ∧
      (pointer (oneOf [nil, int])).Within
        (pointerOrValue.filter (Hierarchy.pointerClasses.assignable · (con "Pointer" []))) := by
  have ht : pointerOrValue.Normal := by decide +kernel
  have hpart : (pointer (oneOf [nil, int])).Normal := by decide +kernel
  obtain ⟨-, -, -, -, -, hunion, -, -, -, hlargest⟩ :=
    filter_partitions ht (· == nil) Hierarchy.pointerClasses (con "Pointer" [])
  exact ⟨ht, by decide +kernel, hunion,
    hlargest _ hpart (by decide +kernel) (by decide +kernel)⟩

end UnionTyping.Ty
