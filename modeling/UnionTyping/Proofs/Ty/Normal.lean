/-
  UnionTyping/Proofs/Ty/Normal.lean
  =================================
  **Types in normal form, and when they are the same.**

  A type is in normal form (`Ty.Normal`) when each of its unions, at any depth, has at
  least two members, which are instances of classes and all different.  The unresolved type
  is in normal form, also as a type argument.

  Sameness is reflexive and transitive on all types (`beq_trans`).  That it is symmetric is
  not obvious, since unions are compared in one direction only: their lengths are the same,
  and each member of the first is in the second.  For types in normal form, different members
  of the first are in different places of the second, so none of the second is left over
  (`covers`), and sameness is an equivalence relation (`Normal.beq_comm`).
-/
import Mathlib.Data.List.Forall2
import UnionTyping.Proofs.Ty.Members

namespace UnionTyping.Ty

/-! ### Sameness shape by shape -/

theorem beq_list_iff {as bs : List Ty} :
    (as == bs) = true ↔ List.Forall₂ (fun a b => (a == b) = true) as bs := by
  induction as generalizing bs with
  | nil =>
    cases bs with
    | nil => exact ⟨fun _ => .nil, fun _ => rfl⟩
    | cons b bs => exact ⟨(fun h => nomatch h), fun h => nomatch h⟩
  | cons a as ih =>
    cases bs with
    | nil => exact ⟨(fun h => nomatch h), fun h => nomatch h⟩
    | cons b bs =>
      rw [List.cons_beq_cons, Bool.and_eq_true, ih, List.forall₂_cons]

theorem beq_con_iff {name name' : String} {args args' : List Ty} :
    (con name args == con name' args') = true ↔
      name = name' ∧ List.Forall₂ (fun a b => (a == b) = true) args args' := by
  rw [con_beq_con, Bool.and_eq_true, beq_iff_eq, beq_list_iff]

theorem beq_oneOf_iff {as bs : List Ty} :
    (oneOf as == oneOf bs) = true ↔
      as.length = bs.length ∧ ∀ a ∈ as, ∃ b ∈ bs, (b == a) = true := by
  rw [oneOf_beq_oneOf, Bool.and_eq_true, beq_iff_eq]
  simp only [List.all_eq_true, List.any_eq_true]

/-! ### Transitivity -/

theorem forall₂_trans {r : Ty → Ty → Prop} {as bs cs : List Ty}
    (h : ∀ a ∈ as, ∀ b ∈ bs, ∀ c ∈ cs, r a b → r b c → r a c)
    (hab : List.Forall₂ r as bs) (hbc : List.Forall₂ r bs cs) : List.Forall₂ r as cs := by
  induction hab generalizing cs with
  | nil =>
    cases hbc
    exact .nil
  | @cons a b as bs hab _ ih =>
    cases hbc with
    | @cons _ c _ cs hbc hrest =>
      refine .cons (h a (by simp) b (by simp) c (by simp) hab hbc) (ih ?_ hrest)
      intro x hx y hy z hz
      exact h x (by simp [hx]) y (by simp [hy]) z (by simp [hz])

/-- Types that are the same as a third are the same.  Going down into unions exchanges the
    first and the third. -/
theorem beq_trans {a b c : Ty} (hab : (a == b) = true) (hbc : (b == c) = true) :
    (a == c) = true := by
  induction hn : sizeOf a + sizeOf b + sizeOf c using Nat.strongRecOn generalizing a b c with
  | ind n ih =>
    subst hn
    cases a <;> cases b <;> try cases hab
    case unresolved.unresolved.refl => exact hbc
    case con.con name as name' bs =>
      cases c <;> try cases hbc
      rename_i name'' cs
      obtain ⟨rfl, hargs⟩ := beq_con_iff.mp hab
      obtain ⟨rfl, hargs'⟩ := beq_con_iff.mp hbc
      refine beq_con_iff.mpr ⟨rfl, forall₂_trans (fun x hx y hy z hz hxy hyz => ?_) hargs hargs'⟩
      have hx' := List.sizeOf_lt_of_mem hx
      have hy' := List.sizeOf_lt_of_mem hy
      have hz' := List.sizeOf_lt_of_mem hz
      exact ih _ (by simp only [con.sizeOf_spec]; omega) hxy hyz rfl
    case oneOf.oneOf as bs =>
      cases c <;> try cases hbc
      rename_i cs
      obtain ⟨hlength, hall⟩ := beq_oneOf_iff.mp hab
      obtain ⟨hlength', hall'⟩ := beq_oneOf_iff.mp hbc
      refine beq_oneOf_iff.mpr ⟨hlength.trans hlength', fun x hx => ?_⟩
      obtain ⟨y, hy, hyx⟩ := hall x hx
      obtain ⟨z, hz, hzy⟩ := hall' y hy
      have hx' := List.sizeOf_lt_of_mem hx
      have hy' := List.sizeOf_lt_of_mem hy
      have hz' := List.sizeOf_lt_of_mem hz
      exact ⟨z, hz, ih _ (by simp only [oneOf.sizeOf_spec]; omega) hzy hyx rfl⟩

theorem beq_list_trans {as bs cs : List Ty} (hab : (as == bs) = true) (hbc : (bs == cs) = true) :
    (as == cs) = true := by
  rw [beq_list_iff] at *
  exact forall₂_trans (fun _ _ _ _ _ _ => beq_trans) hab hbc

/-! ### Normal form -/

/-- Every union in the type, at any depth, has at least two members, which are instances of
    classes and all different. -/
inductive Normal : Ty → Prop where
  | unresolved : Normal unresolved
  | con (name : String) (args : List Ty) (all : ∀ a ∈ args, Normal a) : Normal (con name args)
  | oneOf (ms : List Ty) (several : 2 ≤ ms.length) (distinct : Distinct ms)
      (instances : ∀ m ∈ ms, IsCon m) (all : ∀ m ∈ ms, Normal m) : Normal (oneOf ms)

instance (ms : List Ty) : Decidable (Distinct ms) :=
  inferInstanceAs (Decidable (ms.Pairwise fun a b => (a == b) = false))

theorem isSome_className?_iff {t : Ty} : t.className?.isSome = true ↔ t.IsCon := by
  cases t <;> simp [className?, IsCon]

mutual

def isNormal : Ty → Bool
  | unresolved => true
  | con _ args => eachNormal args
  | oneOf ms =>
    decide (2 ≤ ms.length) && decide (Distinct ms) && ms.all (·.className?.isSome) &&
      eachNormal ms
termination_by structural x => x

def eachNormal : List Ty → Bool
  | [] => true
  | t :: ts => isNormal t && eachNormal ts
termination_by structural x => x

end

mutual

theorem isNormal_iff (t : Ty) : t.isNormal = true ↔ t.Normal := by
  match t with
  | unresolved => exact ⟨fun _ => .unresolved, fun _ => rfl⟩
  | con name args =>
    rw [isNormal, eachNormal_iff args]
    constructor
    · exact .con name args
    · rintro ⟨⟩
      assumption
  | oneOf ms =>
    simp only [isNormal, Bool.and_eq_true, decide_eq_true_eq, List.all_eq_true,
      isSome_className?_iff, eachNormal_iff ms]
    constructor
    · rintro ⟨⟨⟨several, distinct⟩, instances⟩, all⟩
      exact .oneOf ms several distinct instances all
    · rintro ⟨⟩
      exact ⟨⟨⟨by assumption, by assumption⟩, by assumption⟩, by assumption⟩
termination_by structural t

theorem eachNormal_iff (ts : List Ty) : eachNormal ts = true ↔ ∀ t ∈ ts, t.Normal := by
  match ts with
  | [] => simp [eachNormal]
  | t :: ts =>
    rw [eachNormal, Bool.and_eq_true, isNormal_iff t, eachNormal_iff ts, List.forall_mem_cons]
termination_by structural ts

end

instance : DecidablePred Normal := fun t => decidable_of_iff (t.isNormal = true) (isNormal_iff t)

structure NormalInstance (m : Ty) : Prop where
  isCon : m.IsCon
  normal : m.Normal

/-- To be in normal form is to be determined by members that are. -/
theorem Normal.isOver {t : Ty} (h : t.Normal) : t.Over NormalInstance := by
  cases h with
  | unresolved => exact .unresolved
  | con name args all => exact .of_isCon ⟨name, args, rfl⟩ ⟨⟨name, args, rfl⟩, .con name args all⟩
  | oneOf ms several distinct instances all =>
    refine ⟨?_, distinct, fun m hm => ⟨instances m hm, all m hm⟩⟩
    match ms, several with
    | _ :: _ :: _, _ => rfl

theorem Over.normal {t : Ty} (h : t.Over NormalInstance) : t.Normal := by
  obtain ⟨hshape, hdistinct, hall⟩ := h
  cases t with
  | unresolved => exact .unresolved
  | con name args => exact (hall _ List.mem_cons_self).normal
  | oneOf ms =>
    refine .oneOf ms ?_ hdistinct (fun m hm => (hall m hm).isCon) fun m hm => (hall m hm).normal
    -- a single member would be the type itself, and none the unresolved type
    match ms, hshape, hall with
    | [m], hshape, hall =>
      obtain ⟨name, args, rfl⟩ := (hall m List.mem_cons_self).isCon
      cases hshape
    | m :: m' :: ms, _, _ => simp

theorem Normal.member {t m : Ty} (h : t.Normal) (hm : m ∈ t.members) : m.Normal :=
  (h.isOver.all m hm).normal

theorem Normal.isCon_member {t m : Ty} (h : t.Normal) (hm : m ∈ t.members) : m.IsCon :=
  (h.isOver.all m hm).isCon

theorem Normal.members_ne_nil {t : Ty} (h : t.Normal) (hknown : t.isUnresolved = false) :
    t.members ≠ [] := by
  intro hnil
  rw [h.isOver.isUnresolved_iff.mpr hnil] at hknown
  cases hknown

/-! ### Symmetry -/

section Partners

variable {as bs : List Ty} {r : Ty → Ty → Prop} (hlen : as.length = bs.length)
  (hapart : as.Pairwise fun a a' => ∀ b ∈ bs, r b a → ¬ r b a')
  (h : ∀ a ∈ as, ∃ b ∈ bs, r b a)
include hlen hapart h

/-- A relation under which the elements of the first list have different partners in the
    second pairs the two lists up. -/
theorem exists_partners :
    ∃ partners, partners.Perm bs ∧ List.Forall₂ (fun a b => r b a) as partners := by
  induction as generalizing bs with
  | nil =>
    rw [List.eq_nil_of_length_eq_zero hlen.symm]
    exact ⟨[], .nil, .nil⟩
  | cons a as ih =>
    obtain ⟨hhead, htail⟩ := List.pairwise_cons.mp hapart
    obtain ⟨b₀, hb₀, hr₀⟩ := h a List.mem_cons_self
    obtain ⟨l₁, l₂, rfl⟩ := List.append_of_mem hb₀
    have hmiddle : (l₁ ++ b₀ :: l₂).Perm (b₀ :: (l₁ ++ l₂)) := List.perm_middle
    have hsub : ∀ x ∈ l₁ ++ l₂, x ∈ l₁ ++ b₀ :: l₂ :=
      fun x hx => hmiddle.mem_iff.mpr (List.mem_cons_of_mem _ hx)
    -- the partner of the first element is no other's
    have hrest : ∀ a' ∈ as, ∃ b ∈ l₁ ++ l₂, r b a' := by
      intro a' ha'
      obtain ⟨b, hb, hr⟩ := h a' (List.mem_cons_of_mem _ ha')
      rcases List.mem_cons.mp (hmiddle.mem_iff.mp hb) with rfl | hb'
      · exact absurd hr (hhead a' ha' b hb hr₀)
      · exact ⟨b, hb', hr⟩
    have hlen' : as.length = (l₁ ++ l₂).length := by
      simp only [List.length_cons, List.length_append] at hlen ⊢
      omega
    obtain ⟨partners, hperm, hpaired⟩ :=
      ih hlen' (htail.imp fun hab b hb => hab b (hsub b hb)) hrest
    exact ⟨b₀ :: partners, (hperm.cons b₀).trans hmiddle.symm, .cons hr₀ hpaired⟩

/-- When the elements of the first list have different partners in the second, which is no
    longer, all of the second are partners. -/
theorem covers : ∀ b ∈ bs, ∃ a ∈ as, r b a := by
  obtain ⟨partners, hperm, hpaired⟩ := exists_partners hlen hapart h
  intro b hb
  obtain ⟨i, hi, rfl⟩ := List.mem_iff_getElem.mp (hperm.mem_iff.mpr hb)
  have hi' : i < as.length := hpaired.length_eq ▸ hi
  exact ⟨as[i], List.getElem_mem hi', hpaired.get hi' hi⟩

end Partners

/-- Different types are apart: nothing on the right is the same as two of them. -/
theorem Distinct.apart {as bs : List Ty} (hcomm : ∀ a ∈ as, ∀ b ∈ bs, (a == b) = (b == a))
    (hdistinct : Distinct as) :
    as.Pairwise fun a a' => ∀ b ∈ bs, (b == a) = true → ¬ (b == a') = true := by
  refine List.Pairwise.imp_of_mem ?_ hdistinct
  intro a a' ha _ hdiffer b hb hba hba'
  rw [← hcomm a ha b hb] at hba
  rw [beq_trans hba hba'] at hdiffer
  cases hdiffer

/-- Unions of different members can be exchanged when their members can. -/
theorem oneOf_beq_turned {as bs : List Ty} (hcomm : ∀ a ∈ as, ∀ b ∈ bs, (a == b) = (b == a))
    (hdistinct : Distinct as) (h : (oneOf as == oneOf bs) = true) :
    (oneOf bs == oneOf as) = true := by
  obtain ⟨hlength, hall⟩ := beq_oneOf_iff.mp h
  refine beq_oneOf_iff.mpr ⟨hlength.symm, fun b hb => ?_⟩
  obtain ⟨a, ha, hba⟩ := covers hlength (hdistinct.apart hcomm) hall b hb
  rw [← hcomm a ha b hb] at hba
  exact ⟨a, ha, hba⟩

theorem beq_list_comm_of_mem {as bs : List Ty} (h : ∀ a ∈ as, ∀ b ∈ bs, (a == b) = (b == a)) :
    (as == bs) = (bs == as) := by
  induction as generalizing bs with
  | nil => cases bs <;> rfl
  | cons a as ih =>
    cases bs with
    | nil => rfl
    | cons b bs =>
      have hrest : ∀ x ∈ as, ∀ y ∈ bs, (x == y) = (y == x) := by
        intro x hx y hy
        exact h x (by simp [hx]) y (by simp [hy])
      rw [List.cons_beq_cons, List.cons_beq_cons, h a (by simp) b (by simp), ih hrest]

/-- For types in normal form it does not matter which of the two stands on the left. -/
theorem Normal.beq_comm {a b : Ty} (ha : a.Normal) (hb : b.Normal) : (a == b) = (b == a) := by
  induction ha generalizing b with
  | unresolved => cases b <;> rfl
  | con name args _ ih =>
    cases hb with
    | unresolved => rfl
    | oneOf => rfl
    | con name' args' all =>
      have hargs := beq_list_comm_of_mem fun x hx y hy => ih x hx (all y hy)
      rw [con_beq_con, con_beq_con, hargs, Bool.beq_comm]
  | oneOf as several distinct instances _ ih =>
    cases hb with
    | unresolved => rfl
    | con => rfl
    | oneOf bs several' distinct' instances' all =>
      have hcomm : ∀ x ∈ as, ∀ y ∈ bs, (x == y) = (y == x) := fun x hx y hy => ih x hx (all y hy)
      rw [Bool.eq_iff_iff]
      constructor
      · exact oneOf_beq_turned hcomm distinct
      · exact oneOf_beq_turned (fun y hy x hx => (hcomm x hx y hy).symm) distinct'

theorem Normal.beq_symm {a b : Ty} (ha : a.Normal) (hb : b.Normal) (h : (a == b) = true) :
    (b == a) = true := by
  rw [hb.beq_comm ha]
  exact h

end UnionTyping.Ty
