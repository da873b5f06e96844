/-
  UnionTyping/Proofs/Ty/Semilattice.lean
  ======================================
  **Union is a least upper bound.**

  A type covers another one when it has each of its members, up to the order in unions
  (`Ty.Within`).  Types in normal form that have the same members are the same
  (`Ty.Normal.beq_of_has_iff`), and the union of several types has the members of all of
  them and no others (`Ty.Normal.has_unionAll_iff`).  So the laws of a semilattice hold of
  `Ty.union` because they hold of the sets of members (`Ty.union_semilattice`).
-/
import UnionTyping.Proofs.Ty.Normal

namespace UnionTyping.Ty

/-! ### Having members -/

/-- The type is one of the members, up to the order in unions. -/
def Has (t m : Ty) : Prop := t.members.any (· == m) = true

def Within (t t' : Ty) : Prop := ∀ m ∈ t.members, t'.Has m

instance (t m : Ty) : Decidable (t.Has m) :=
  inferInstanceAs (Decidable (t.members.any (· == m) = true))

instance (t t' : Ty) : Decidable (t.Within t') :=
  inferInstanceAs (Decidable (∀ m ∈ t.members, t'.Has m))

theorem Has.of_mem {t m : Ty} (h : m ∈ t.members) : t.Has m := List.any_eq_true.mpr ⟨m, h, BEq.rfl⟩

theorem Has.mono {t t' m : Ty} (hwithin : t.Within t') (h : t.Has m) : t'.Has m := by
  obtain ⟨m₁, hm₁, hsame⟩ := List.any_eq_true.mp h
  obtain ⟨m₂, hm₂, hsame'⟩ := List.any_eq_true.mp (hwithin m₁ hm₁)
  exact List.any_eq_true.mpr ⟨m₂, hm₂, beq_trans hsame' hsame⟩

theorem Within.refl (t : Ty) : t.Within t := fun _ => .of_mem

theorem Within.trans {t t' t'' : Ty} (h : t.Within t') (h' : t'.Within t'') : t.Within t'' :=
  fun m hm => (h m hm).mono h'

/-! ### Unions -/

section Union

variable {a b : Ty} (ha : a.Normal) (hb : b.Normal)
include ha hb

theorem Normal.union : (a.union b).Normal :=
  (ha.isOver.union (fun _ hm => hm.isCon) hb.isOver).normal

/-- The members of the first type stay where they are. -/
theorem Normal.prefix_members_union : a.members <+: (a.union b).members :=
  Ty.prefix_members_union (fun _ hm => hm.isCon) ha.isOver hb.isOver

theorem Normal.within_union_left : a.Within (a.union b) :=
  fun _ hm => .of_mem ((ha.prefix_members_union hb).mem hm)

theorem Normal.within_union_right : b.Within (a.union b) :=
  fun _ hm => any_union_right (fun _ hm => hm.isCon) ha.isOver hb.isOver hm

theorem Normal.has_union_iff {m : Ty} : (a.union b).Has m ↔ a.Has m ∨ b.Has m := by
  constructor
  · intro h
    obtain ⟨k, hk, hsame⟩ := List.any_eq_true.mp h
    rcases mem_union (fun _ hm => hm.isCon) ha.isOver hb.isOver hk with hk | hk
    · exact .inl (List.any_eq_true.mpr ⟨k, hk, hsame⟩)
    · exact .inr (List.any_eq_true.mpr ⟨k, hk, hsame⟩)
  · rintro (h | h)
    · exact h.mono (ha.within_union_left hb)
    · exact h.mono (ha.within_union_right hb)

end Union

/-- What is added in two steps can be put together first. -/
theorem addNew_addNew (known seen ts : List Ty) :
    addNew known (addNew seen ts) = addNew (addNew known seen) ts := by
  induction ts generalizing seen with
  | nil => rfl
  | cons t ts ih =>
    rw [addNew, addNew, ih]
    by_cases hseen : seen.any (· == t) = true
    · obtain ⟨m, hm, hsame⟩ := List.any_eq_true.mp hseen
      have hadded : (addNew known seen).any (· == m) = true := any_addNew hm
      obtain ⟨m', hm', hsame'⟩ := List.any_eq_true.mp hadded
      have hknown : (addNew known seen).any (· == t) = true :=
        List.any_eq_true.mpr ⟨m', hm', beq_trans hsame' hsame⟩
      rw [if_pos hseen, if_pos hknown]
    · rw [if_neg hseen, addNew_append]
      rfl

/-- Joining three types gives the same members in the same order, whichever two come first. -/
theorem Normal.union_assoc {a b c : Ty} (ha : a.Normal) (hb : b.Normal) (hc : c.Normal) :
    (a.union b).union c = a.union (b.union c) := by
  have hcon : ∀ m, NormalInstance m → m.IsCon := fun _ hm => hm.isCon
  have hab := ha.union hb
  have hbc := hb.union hc
  rw [← (hab.union hc).isOver.shape, ← (ha.union hbc).isOver.shape,
    members_union hcon hab.isOver hc.isOver, members_union hcon ha.isOver hbc.isOver,
    members_union hcon ha.isOver hb.isOver, members_union hcon hb.isOver hc.isOver,
    addNew_addNew]

theorem Normal.union_unresolved {a : Ty} (ha : a.Normal) : a.union Ty.unresolved = a :=
  union_eq_left (fun _ hm => hm.isCon) ha.isOver .unresolved fun _ hm => nomatch hm

theorem Normal.joined {ts : List Ty} (hts : ∀ t ∈ ts, t.Normal) : (unionAll ts).Normal :=
  (Over.joined (fun _ hm => hm.isCon) fun t ht => (hts t ht).isOver).normal

theorem has_foldl_union_iff {ts : List Ty} (hts : ∀ t ∈ ts, t.Normal) {a m : Ty} (ha : a.Normal) :
    (ts.foldl union a).Has m ↔ a.Has m ∨ ∃ t ∈ ts, t.Has m := by
  induction ts generalizing a with
  | nil => simp
  | cons t ts ih =>
    obtain ⟨ht, hts⟩ := List.forall_mem_cons.mp hts
    rw [List.foldl_cons, ih hts (ha.union ht), ha.has_union_iff ht, List.exists_mem_cons_iff,
      or_assoc]

/-- The union of several types has the members of these types. -/
theorem Normal.has_unionAll_iff {ts : List Ty} (hts : ∀ t ∈ ts, t.Normal) {m : Ty} :
    (Ty.unionAll ts).Has m ↔ ∃ t ∈ ts, t.Has m := by
  rw [Ty.unionAll, has_foldl_union_iff hts .unresolved]
  simp [Has, members]

/-! ### Types with the same members -/

/-- Different types that are all found in a list are no more than the list is long. -/
theorem length_le_of_covered {as bs : List Ty} (has : ∀ a ∈ as, a.Normal)
    (hbs : ∀ b ∈ bs, b.Normal) (hdistinct : Distinct as)
    (h : ∀ a ∈ as, bs.any (· == a) = true) : as.length ≤ bs.length := by
  induction as generalizing bs with
  | nil => exact Nat.zero_le _
  | cons a as ih =>
    obtain ⟨ha, has⟩ := List.forall_mem_cons.mp has
    obtain ⟨hapart, hdistinct⟩ := List.pairwise_cons.mp hdistinct
    obtain ⟨hfirst, hothers⟩ := List.forall_mem_cons.mp h
    obtain ⟨b, hb, hsame⟩ := List.any_eq_true.mp hfirst
    have hlt : (bs.filter fun b => !(b == a)).length < bs.length :=
      List.length_filter_lt_length_iff_exists.mpr ⟨b, hb, by rw [hsame]; exact Bool.false_ne_true⟩
    refine Nat.lt_of_le_of_lt (ih has (fun b hb => hbs b (List.mem_filter.mp hb).1) hdistinct
      fun a' ha' => ?_) hlt
    -- what is the same as another type is not the same as `a`
    obtain ⟨b', hb', hsame'⟩ := List.any_eq_true.mp (hothers a' ha')
    refine List.any_eq_true.mpr ⟨b', List.mem_filter.mpr ⟨hb', ?_⟩, hsame'⟩
    rw [Bool.not_eq_true', ← Bool.not_eq_true]
    intro hsame''
    have heq := beq_trans ((hbs b' hb').beq_symm ha hsame'') hsame'
    rw [hapart a' ha'] at heq
    cases heq

theorem Normal.beq_of_within {a b : Ty} (ha : a.Normal) (hb : b.Normal) (h : a.Within b)
    (h' : b.Within a) : (a == b) = true := by
  have hlength : a.members.length = b.members.length :=
    Nat.le_antisymm
      (length_le_of_covered (fun _ => ha.member) (fun _ => hb.member) ha.isOver.distinct h)
      (length_le_of_covered (fun _ => hb.member) (fun _ => ha.member) hb.isOver.distinct h')
  have hshape := ha.isOver.shape
  have hshape' := hb.isOver.shape
  match hma : a.members, hmb : b.members, hlength with
  | [], [], _ =>
    rw [← hshape, ← hshape', hma, hmb]
    exact BEq.rfl
  | [m], [m'], _ =>
    rw [hma] at hshape
    rw [hmb] at hshape'
    obtain ⟨k, hk, hsame⟩ := List.any_eq_true.mp
      (h' m' (by rw [hmb]; exact List.mem_singleton_self _))
    rw [hma, List.mem_singleton] at hk
    rw [← hshape, ← hshape']
    rw [hk] at hsame
    exact hsame
  | m₁ :: m₂ :: ms, m₁' :: m₂' :: ms', _ =>
    rw [hma] at hshape
    rw [hmb] at hshape'
    rw [← hshape, ← hshape']
    refine beq_oneOf_iff.mpr ⟨by rw [hma, hmb] at hlength; exact hlength, fun m hm => ?_⟩
    have hany : b.members.any (· == m) = true := h m (by rw [hma]; exact hm)
    rw [hmb] at hany
    exact List.any_eq_true.mp hany

/-- Types in normal form with the same members are the same. -/
theorem Normal.beq_of_has_iff {a b : Ty} (ha : a.Normal) (hb : b.Normal)
    (h : ∀ m, m.Normal → (a.Has m ↔ b.Has m)) : (a == b) = true :=
  ha.beq_of_within hb (fun m hm => (h m (ha.member hm)).mp (.of_mem hm))
    fun m hm => (h m (hb.member hm)).mpr (.of_mem hm)

/-- Types that are the same have the same members. -/
theorem Normal.within_of_beq {a b : Ty} (ha : a.Normal) (hb : b.Normal) (h : (a == b) = true) :
    a.Within b := by
  cases a with
  | unresolved => exact fun m hm => nomatch hm
  | con name args =>
    intro m hm
    rw [List.mem_singleton.mp hm]
    cases b with
    | con name' args' =>
      exact List.any_eq_true.mpr ⟨_, List.mem_singleton_self _, ha.beq_symm hb h⟩
    | _ => cases h
  | oneOf as =>
    cases b with
    | oneOf bs => exact fun m hm => List.any_eq_true.mpr ((beq_oneOf_iff.mp h).2 m hm)
    | _ => cases h

/-! ### The laws of a semilattice -/

theorem unionAll_beq_of_perm {ts ts' : List Ty} (hts : ∀ t ∈ ts, t.Normal) (hperm : ts.Perm ts') :
    (unionAll ts == unionAll ts') = true := by
  have hts' : ∀ t ∈ ts', t.Normal := fun t ht => hts t (hperm.mem_iff.mpr ht)
  refine (Normal.joined hts).beq_of_has_iff (Normal.joined hts') fun m _ => ?_
  simp only [Normal.has_unionAll_iff hts, Normal.has_unionAll_iff hts', hperm.mem_iff]

/-- Up to the order in unions, `Ty.union` is the join of a semilattice with the unresolved
    type at its bottom: it stays in normal form, is associative, commutative and idempotent,
    and holds the members of both types and no others.  The members of the first type come
    first, in their order, and any number of types can be joined in any order. -/
theorem union_semilattice {a b c : Ty} (ha : a.Normal) (hb : b.Normal) (hc : c.Normal) :
    (a.union b).Normal ∧
      ((a.union b).union c == a.union (b.union c)) = true ∧
      (a.union b == b.union a) = true ∧
      (a.union a == a) = true ∧
      (unresolved.union a == a) = true ∧
      (a.union unresolved == a) = true ∧
      (∀ m, (a.union b).Has m ↔ a.Has m ∨ b.Has m) ∧
      a.members <+: (a.union b).members ∧
      ∀ ts, (∀ t ∈ ts, t.Normal) → (unionAll ts).Normal ∧
        ∀ ts', ts.Perm ts' → (unionAll ts == unionAll ts') = true := by
  have hab := ha.union hb
  have hbc := hb.union hc
  have hbottom : ∀ m, ¬ unresolved.Has m := by simp [Has, members]
  refine ⟨hab, ?_, ?_, ?_, ?_, ?_, fun m => ha.has_union_iff hb, ha.prefix_members_union hb,
    fun ts hts => ⟨.joined hts, fun ts' => unionAll_beq_of_perm hts⟩⟩
  · refine (hab.union hc).beq_of_has_iff (ha.union hbc) fun m _ => ?_
    rw [hab.has_union_iff hc, ha.has_union_iff hb, ha.has_union_iff hbc, hb.has_union_iff hc,
      or_assoc]
  · refine hab.beq_of_has_iff (hb.union ha) fun m _ => ?_
    rw [ha.has_union_iff hb, hb.has_union_iff ha, or_comm]
  · refine (ha.union ha).beq_of_has_iff ha fun m _ => ?_
    rw [ha.has_union_iff ha, or_self]
  · refine (Normal.unresolved.union ha).beq_of_has_iff ha fun m _ => ?_
    rw [Normal.unresolved.has_union_iff ha, or_iff_right (hbottom m)]
  · refine (ha.union .unresolved).beq_of_has_iff ha fun m _ => ?_
    rw [ha.has_union_iff .unresolved, or_iff_left (hbottom m)]

def numberPointer : Ty := pointer (oneOf [int, double])
def turnedPointer : Ty := pointer (oneOf [double, int])

/-- Pointers that differ only in the order of a union inside them are one member. -/
theorem turnedPointer_semilattice :
    numberPointer.Normal ∧ turnedPointer.Normal ∧ (oneOf [pointer unresolved, nil]).Normal ∧
      ((numberPointer.union turnedPointer).union (oneOf [pointer unresolved, nil]) ==
        numberPointer.union (turnedPointer.union (oneOf [pointer unresolved, nil]))) = true ∧
      (numberPointer.union turnedPointer).Has turnedPointer ∧
      (unionAll [numberPointer, nil, turnedPointer] ==
        unionAll [turnedPointer, numberPointer, nil]) = true := by
  have ha : numberPointer.Normal := by decide +kernel
  have hb : turnedPointer.Normal := by decide +kernel
  have hc : (oneOf [pointer unresolved, nil]).Normal := by decide +kernel
  obtain ⟨_, hassoc, _, _, _, _, hhas, _, hall⟩ := union_semilattice ha hb hc
  refine ⟨ha, hb, hc, hassoc, (hhas turnedPointer).mpr (.inr ?_), (hall _ ?_).2 _ ?_⟩
  · decide +kernel
  · simp only [List.mem_cons, List.not_mem_nil, or_false]
    rintro t (rfl | rfl | rfl)
    · exact ha
    · decide +kernel
    · exact hb
  · exact @List.perm_append_comm _ [numberPointer, nil] [turnedPointer]

end UnionTyping.Ty
