/-
  UnionTyping/Proofs/Ty/Members.lean
  ==================================
  **The members of a union.**

  A type that the checker builds is determined by its members: it is
  `Ty.ofMembers` of them, no two of them are the same, and each of them satisfies
  what the program lets a type be.  `Ty.Over C` says so for a predicate `C` on
  instances of classes.  It is kept by `union`, and the members of the first type
  stay where they are, which is why a type that is joined with one it already
  holds does not change at all (`union_eq_left`).
-/
import UnionTyping.Ty.Union

namespace UnionTyping.Ty

def IsCon (t : Ty) : Prop := ∃ name args, t = con name args

theorem IsCon.members_eq {t : Ty} (h : IsCon t) : t.members = [t] := by
  obtain ⟨name, args, rfl⟩ := h
  rfl

theorem isUnresolved_of_mem {t m : Ty} (h : m ∈ t.members) : t.isUnresolved = false := by
  cases t with
  | unresolved => cases h
  | con | oneOf => rfl

/-! ### A type is the same as itself -/

mutual

theorem agree_self (turned : Bool) (t : Ty) : agree turned t t = true := by
  match t with
  | unresolved => rfl
  | con name args => simp only [agree, agreeArgs_self turned args, beq_self_eq_true, Bool.and_self]
  | oneOf ms =>
    have h := members_agree_self ms
    cases turned with
    | false =>
      simp only [agree, allAgree_eq, beq_self_eq_true, Bool.true_and, Bool.false_eq_true, if_false,
        List.all_eq_true, List.any_eq_true]
      exact fun m hm => ⟨m, hm, (h m hm) true⟩
    | true =>
      simp only [agree, anyAgrees_eq, beq_self_eq_true, Bool.true_and, if_true, List.all_eq_true,
        List.any_eq_true]
      exact fun m hm => ⟨m, hm, (h m hm) false⟩
termination_by structural t

theorem agreeArgs_self (turned : Bool) (ts : List Ty) : agreeArgs turned ts ts = true := by
  match ts with
  | [] => rfl
  | t :: ts => rw [agreeArgs, agree_self turned t, agreeArgs_self turned ts, Bool.and_self]
termination_by structural ts

theorem members_agree_self (ts : List Ty) : ∀ m ∈ ts, ∀ turned, agree turned m m = true := by
  match ts with
  | [] => exact fun m hm => nomatch hm
  | t :: ts =>
    have hhead := fun turned => agree_self turned t
    have htail := members_agree_self ts
    exact List.forall_mem_cons.mpr ⟨hhead, htail⟩
termination_by structural ts

end

instance : ReflBEq Ty where
  rfl := agree_self false _

/-- Types that are the same have equally many members. -/
theorem length_members_of_beq {a b : Ty} (h : (a == b) = true) :
    a.members.length = b.members.length := by
  cases a <;> cases b
  case unresolved.unresolved => rfl
  case con.con => rfl
  case oneOf.oneOf as bs =>
    rw [oneOf_beq_oneOf, Bool.and_eq_true, beq_iff_eq] at h
    exact h.1
  all_goals cases h

theorem isUnresolved_of_beq {a b : Ty} (h : (a == b) = true) : a.isUnresolved = b.isUnresolved := by
  cases a <;> cases b <;> first | rfl | cases h

/-! ### Adding members -/

/-- Every type of the list is the same as none before it. -/
def Distinct (ts : List Ty) : Prop := ts.Pairwise fun a b => (a == b) = false

theorem addNew_append (known xs ys : List Ty) :
    addNew known (xs ++ ys) = addNew (addNew known xs) ys := by
  induction xs generalizing known with
  | nil => rfl
  | cons x xs ih => rw [List.cons_append, addNew, addNew, ih]

theorem prefix_addNew (known ts : List Ty) : known <+: addNew known ts := by
  induction ts generalizing known with
  | nil => exact List.prefix_rfl
  | cons t ts ih =>
    rw [addNew]
    refine List.IsPrefix.trans ?_ (ih _)
    split
    · exact List.prefix_rfl
    · exact List.prefix_append _ _

theorem mem_addNew {known ts : List Ty} {m : Ty} (h : m ∈ addNew known ts) :
    m ∈ known ∨ m ∈ ts := by
  induction ts generalizing known with
  | nil => exact Or.inl h
  | cons t ts ih =>
    rw [addNew] at h
    rcases ih h with hm | hm
    · split at hm
      · exact Or.inl hm
      · rcases List.mem_append.mp hm with hm | hm
        · exact Or.inl hm
        · exact Or.inr (by rw [List.mem_singleton.mp hm]; exact List.mem_cons_self)
    · exact Or.inr (List.mem_cons_of_mem _ hm)

/-- Whatever is added is there in the end, if only as a type that is the same. -/
theorem any_addNew {known ts : List Ty} {t : Ty} (h : t ∈ ts) :
    (addNew known ts).any (· == t) = true := by
  induction ts generalizing known with
  | nil => cases h
  | cons x xs ih =>
    rw [addNew]
    rcases List.mem_cons.mp h with rfl | h
    · have hany : (if known.any (· == t) then known else known ++ [t]).any (· == t) = true := by
        split
        · assumption
        · simp
      obtain ⟨m, hm, hsame⟩ := List.any_eq_true.mp hany
      exact List.any_eq_true.mpr ⟨m, (prefix_addNew _ _).mem hm, hsame⟩
    · exact ih h

/-- What is known already is not added. -/
theorem addNew_of_known {known ts : List Ty} (h : ∀ t ∈ ts, known.any (· == t) = true) :
    addNew known ts = known := by
  induction ts with
  | nil => rfl
  | cons t ts ih =>
    rw [addNew, if_pos (h t List.mem_cons_self)]
    exact ih fun x hx => h x (List.mem_cons_of_mem _ hx)

theorem distinct_addNew {known : List Ty} (ts : List Ty) (h : Distinct known) :
    Distinct (addNew known ts) := by
  induction ts generalizing known with
  | nil => exact h
  | cons t ts ih =>
    rw [addNew]
    apply ih
    split
    · exact h
    · rename_i hnew
      refine List.pairwise_append.mpr ⟨h, List.pairwise_singleton _ _, fun a ha b hb => ?_⟩
      rw [List.mem_singleton.mp hb]
      simp only [List.any_eq_true, not_exists, not_and, Bool.not_eq_true] at hnew
      exact hnew a ha

/-- Types no two of which are the same are all kept. -/
theorem addNew_of_distinct {known ts : List Ty} (h : Distinct (known ++ ts)) :
    addNew known ts = known ++ ts := by
  induction ts generalizing known with
  | nil => rw [addNew, List.append_nil]
  | cons t ts ih =>
    have hnew : ¬ known.any (· == t) = true := by
      rw [List.any_eq_true]
      rintro ⟨a, ha, hsame⟩
      have := (List.pairwise_append.mp h).2.2 a ha t List.mem_cons_self
      rw [this] at hsame
      cases hsame
    rw [List.append_cons] at h
    rw [addNew, if_neg hnew, ih h, List.append_assoc, List.singleton_append]

/-- What is joined with a type that has a member is known. -/
theorem isUnresolved_union (a : Ty) {b m : Ty} (hm : m ∈ b.members) (hcon : m.IsCon) :
    (a.union b).isUnresolved = false := by
  have hany : (addNew [] (a.members ++ b.members)).any (· == m) = true :=
    any_addNew (List.mem_append_right a.members hm)
  obtain ⟨name, args, rfl⟩ := hcon
  unfold union
  match hall : addNew [] (a.members ++ b.members) with
  | [] => simp [hall] at hany
  | [t] => exact isUnresolved_of_beq (by simpa [hall] using hany)
  | t :: t' :: ts => rfl

/-! ### Types over a set of instances -/

/-- The type is determined by its members, which are all different and satisfy
    `C`. -/
structure Over (C : Ty → Prop) (t : Ty) : Prop where
  shape : ofMembers t.members = t
  distinct : Distinct t.members
  all : ∀ m ∈ t.members, C m

variable {C : Ty → Prop}

theorem Over.unresolved : Over C unresolved :=
  ⟨rfl, List.Pairwise.nil, fun _ hm => nomatch hm⟩

theorem Over.of_isCon {t : Ty} (hcon : IsCon t) (h : C t) : Over C t := by
  obtain ⟨name, args, rfl⟩ := hcon
  refine ⟨rfl, List.pairwise_singleton _ _, fun m hm => ?_⟩
  rw [List.mem_singleton.mp hm]
  exact h

theorem Over.mono {D : Ty → Prop} {t : Ty} (h : Over C t) (hCD : ∀ m, C m → D m) : Over D t :=
  ⟨h.shape, h.distinct, fun m hm => hCD m (h.all m hm)⟩

/-- The members of what is built from instances are these instances. -/
theorem members_ofMembers {ts : List Ty} (h : ∀ t ∈ ts, IsCon t) : (ofMembers ts).members = ts := by
  match ts, h with
  | [], _ => rfl
  | [t], h => exact (h t List.mem_cons_self).members_eq
  | _ :: _ :: _, _ => rfl

section Union

variable (hC : ∀ m, C m → IsCon m)
include hC

omit hC in
theorem all_addNew {a b : Ty} (ha : Over C a) (hb : Over C b) :
    ∀ m ∈ addNew [] (a.members ++ b.members), C m := by
  intro m hm
  rcases mem_addNew hm with hm | hm
  · cases hm
  · rcases List.mem_append.mp hm with hm | hm
    · exact ha.all m hm
    · exact hb.all m hm

theorem members_union {a b : Ty} (ha : Over C a) (hb : Over C b) :
    (a.union b).members = addNew a.members b.members := by
  have hcon := all_addNew ha hb
  have h : addNew [] (a.members ++ b.members) = addNew a.members b.members := by
    have h₀ : addNew [] a.members = a.members := addNew_of_distinct ha.distinct
    rw [addNew_append, h₀]
  rw [union, members_ofMembers fun m hm => hC m (hcon m hm), h]

theorem Over.union {a b : Ty} (ha : Over C a) (hb : Over C b) : Over C (a.union b) := by
  have hcon := all_addNew ha hb
  have hmem : (a.union b).members = addNew [] (a.members ++ b.members) :=
    members_ofMembers fun m hm => hC m (hcon m hm)
  refine ⟨by rw [hmem, Ty.union], ?_, by rw [hmem]; exact hcon⟩
  rw [hmem]
  exact distinct_addNew _ List.Pairwise.nil

theorem Over.foldl_union {ts : List Ty} (hts : ∀ t ∈ ts, Over C t) {a : Ty} (ha : Over C a) :
    Over C (ts.foldl Ty.union a) := by
  induction ts generalizing a with
  | nil => exact ha
  | cons t ts ih =>
    obtain ⟨ht, hts⟩ := List.forall_mem_cons.mp hts
    exact ih hts (ha.union hC ht)

theorem Over.joined {ts : List Ty} (hts : ∀ t ∈ ts, Over C t) : Over C (unionAll ts) :=
  .foldl_union hC hts .unresolved

theorem members_foldl_union {ms : List Ty} (hms : ∀ m ∈ ms, C m) {a : Ty} (ha : Over C a) :
    (ms.foldl Ty.union a).members = addNew a.members ms := by
  induction ms generalizing a with
  | nil => rfl
  | cons m ms ih =>
    obtain ⟨hm, hms⟩ := List.forall_mem_cons.mp hms
    have hone := Over.of_isCon (hC m hm) hm
    rw [List.foldl_cons, ih hms (ha.union hC hone), members_union hC ha hone, (hC m hm).members_eq]
    exact (addNew_append a.members [m] ms).symm

/-- A type is the union of its members. -/
theorem Over.unionAll_members {t : Ty} (h : Over C t) : unionAll t.members = t := by
  have hone : ∀ m ∈ t.members, Over C m := fun m hm => .of_isCon (hC m (h.all m hm)) (h.all m hm)
  have hmembers : (unionAll t.members).members = addNew [] t.members :=
    members_foldl_union hC h.all .unresolved
  calc unionAll t.members
    _ = ofMembers (unionAll t.members).members := (Over.joined hC hone).shape.symm
    _ = ofMembers (addNew [] t.members) := congrArg ofMembers hmembers
    _ = ofMembers t.members := congrArg ofMembers (addNew_of_distinct h.distinct)
    _ = t := h.shape

theorem prefix_members_union {a b : Ty} (ha : Over C a) (hb : Over C b) :
    a.members <+: (a.union b).members := by
  rw [members_union hC ha hb]
  exact prefix_addNew _ _

theorem mem_union {a b m : Ty} (ha : Over C a) (hb : Over C b) (hm : m ∈ (a.union b).members) :
    m ∈ a.members ∨ m ∈ b.members := by
  rw [members_union hC ha hb] at hm
  exact mem_addNew hm

/-- Joining a type with one that it holds already gives the type itself. -/
theorem union_eq_left {a b : Ty} (ha : Over C a) (hb : Over C b)
    (h : ∀ m ∈ b.members, a.members.any (· == m) = true) : a.union b = a := by
  have hmem := members_union hC ha hb
  rw [addNew_of_known h] at hmem
  rw [← (ha.union hC hb).shape, hmem, ha.shape]

/-- A union that is the same as its first type is that type. -/
theorem union_eq_of_beq {a b : Ty} (ha : Over C a) (hb : Over C b)
    (h : (a.union b == a) = true) : a.union b = a := by
  have hmem := (prefix_members_union hC ha hb).eq_of_length (length_members_of_beq h).symm
  rw [← (ha.union hC hb).shape, ← hmem, ha.shape]

theorem any_union_right {a b m : Ty} (ha : Over C a) (hb : Over C b) (hm : m ∈ b.members) :
    (a.union b).members.any (· == m) = true := by
  rw [members_union hC ha hb]
  exact any_addNew hm

/-- The union holds more than its first type, or it is that type. -/
theorem union_eq_or_longer {a b : Ty} (ha : Over C a) (hb : Over C b) :
    a.union b = a ∨ a.members.length < (a.union b).members.length := by
  rcases Nat.lt_or_ge a.members.length (a.union b).members.length with hlt | hge
  · exact Or.inr hlt
  · left
    have heq := (prefix_members_union hC ha hb).eq_of_length_le hge
    rw [← (ha.union hC hb).shape, ← heq, ha.shape]

end Union

theorem Over.eq_unresolved {t : Ty} (h : Over C t) (hnil : t.members = []) : t = Ty.unresolved := by
  rw [← h.shape, hnil]
  rfl

theorem Over.isUnresolved_iff {t : Ty} (h : Over C t) : t.isUnresolved = true ↔ t.members = [] := by
  constructor
  · intro hu
    cases t with
    | unresolved => rfl
    | con _ _ => cases hu
    | oneOf _ => cases hu
  · intro hnil
    rw [h.eq_unresolved hnil]
    rfl

end UnionTyping.Ty
