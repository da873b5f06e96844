/-
  UnionTyping/Proofs/Assignable.lean
  ==================================
  **Assignability is a preorder, and unions are its least upper bounds.**

  A hierarchy without cycles is walked up to its end: a class is a subclass of another
  exactly when superclasses lead from the one to the other (`Hierarchy.isSubclass_iff`).
  Between instances of classes assignability is therefore transitive, and a union is
  assignable when each of its members is assignable to some member of the target
  (`Hierarchy.assignable_iff_members`).  What holds between instances is carried over to all
  types in normal form by this rule.
-/
import Mathlib.Data.List.Perm.Subperm
import Mathlib.Logic.Relation
import UnionTyping.Assignable
import UnionTyping.Proofs.Ty.Semilattice

namespace UnionTyping.Hierarchy

open Relation (ReflTransGen TransGen)

variable {h : Hierarchy}

/-! ### Chains of superclasses -/

theorem mem_entries_of_parent {child parent : String} (hparent : h.Parent child parent) :
    (child, some parent) ∈ h.entries := by
  obtain ⟨before, after, heq, _⟩ := List.lookup_eq_some_iff.mp (Option.join_eq_some_iff.mp hparent)
  simp [heq]

/-- A hierarchy has no cycle when going up lowers a rank. -/
theorem acyclic_of_rank (rank : String → Nat)
    (hrank : ∀ e ∈ h.entries, ∀ parent ∈ e.2, rank parent < rank e.1) : h.Acyclic := by
  have hlower : ∀ {child ancestor}, TransGen h.Parent child ancestor →
      rank ancestor < rank child := by
    intro child ancestor hbelow
    induction hbelow with
    | single hparent => exact hrank _ (mem_entries_of_parent hparent) _ rfl
    | tail _ hparent ih => exact Nat.lt_trans (hrank _ (mem_entries_of_parent hparent) _ rfl) ih
  exact fun name hcycle => Nat.lt_irrefl _ (hlower hcycle)

theorem reaches_of_mem_climb {steps : Nat} {name ancestor : String}
    (hmem : ancestor ∈ h.climb steps name) : ReflTransGen h.Parent name ancestor := by
  induction steps generalizing name with
  | zero =>
    rw [climb, List.mem_singleton] at hmem
    rw [hmem]
  | succ steps ih =>
    rw [climb] at hmem
    cases hparent : h.parent? name with
    | none =>
      rw [hparent, List.mem_singleton] at hmem
      rw [hmem]
    | some parent =>
      rw [hparent] at hmem
      rcases List.mem_cons.mp hmem with rfl | hmem
      · exact .refl
      · exact .head hparent (ih hmem)

section

variable (hacyclic : h.Acyclic) {name : String} {visited : List String}
  (hbelow : ∀ v ∈ visited, TransGen h.Parent v name) (hnodup : visited.Nodup)
  (hlisted : visited ⊆ h.entries.map Prod.fst)
include hacyclic hbelow hnodup hlisted

/-- A step up leaves a listed class that was not visited on the way. -/
theorem visit_of_parent {parent : String} (hparent : h.Parent name parent) :
    (name :: visited).Nodup ∧ name :: visited ⊆ h.entries.map Prod.fst := by
  have hnew : name ∉ visited := fun hv => hacyclic name (hbelow name hv)
  have hname : name ∈ h.entries.map Prod.fst :=
    List.mem_map.mpr ⟨_, mem_entries_of_parent hparent, rfl⟩
  exact ⟨List.nodup_cons.mpr ⟨hnew, hnodup⟩, List.cons_subset.mpr ⟨hname, hlisted⟩⟩

/-- With a step for each listed class that was not visited yet, the end of the chain is
    reached. -/
theorem mem_climb {steps : Nat} (henough : h.entries.length ≤ steps + visited.length)
    {ancestor : String} (hreach : ReflTransGen h.Parent name ancestor) :
    ancestor ∈ h.climb steps name := by
  induction steps generalizing name visited with
  | zero =>
    rcases hreach.cases_head with rfl | ⟨parent, hparent, _⟩
    · simp [climb]
    · obtain ⟨hnodup, hlisted⟩ := visit_of_parent hacyclic hbelow hnodup hlisted hparent
      have hle := hnodup.length_le_of_subset hlisted
      simp only [List.length_cons, List.length_map] at hle
      omega
  | succ steps ih =>
    rcases hreach.cases_head with rfl | ⟨parent, hparent, hreach⟩
    · simp [climb]
    · obtain ⟨hnodup, hlisted⟩ := visit_of_parent hacyclic hbelow hnodup hlisted hparent
      have hfound : h.parent? name = some parent := hparent
      rw [climb, hfound]
      refine List.mem_cons_of_mem _ (ih ?_ hnodup hlisted ?_ hreach)
      · intro v hv
        rcases List.mem_cons.mp hv with rfl | hv
        · exact .single hparent
        · exact (hbelow v hv).tail hparent
      · rw [List.length_cons]
        omega

end

/-- Without cycles, to be a subclass is to be led to the other class by superclasses. -/
theorem isSubclass_iff (hacyclic : h.Acyclic) {sub sup : String} :
    h.isSubclass sub sup = true ↔ ReflTransGen h.Parent sub sup := by
  rw [isSubclass, chain, List.contains_iff_mem]
  constructor
  · exact reaches_of_mem_climb
  · exact mem_climb hacyclic (List.forall_mem_nil _) List.nodup_nil (List.nil_subset _) (by simp)

theorem isSubclass_refl (h : Hierarchy) (name : String) : h.isSubclass name name = true := by
  rw [isSubclass, chain, List.contains_iff_mem]
  cases h.entries.length <;> simp [climb]

theorem isSubclass_trans (hacyclic : h.Acyclic) {a b c : String} (hab : h.isSubclass a b = true)
    (hbc : h.isSubclass b c = true) : h.isSubclass a c = true := by
  rw [isSubclass_iff hacyclic] at *
  exact hab.trans hbc

/-! ### Members -/

theorem assignable_iff (h : Hierarchy) {source target : Ty} :
    h.assignable source target = true ↔ ∀ m ∈ source.members, h.assignable m target = true := by
  cases source with
  | unresolved => simp [assignable, Ty.members]
  | con name args => simp [Ty.members]
  | oneOf ms => simp [assignable, allAssignable_eq_all, Ty.members]

theorem assignable_con_iff {name : String} {args : List Ty} {target : Ty} :
    h.assignable (.con name args) target = true ↔
      ∃ t ∈ target.members, h.assignable (.con name args) t = true := by
  cases target with
  | unresolved => simp [assignable, accepts, Ty.members]
  | con name' args' => simp [Ty.members]
  | oneOf ts => simp [assignable, accepts, acceptsSome_eq_any, Ty.members]

/-- A type is assignable when each of its members is assignable to one of the target. -/
theorem assignable_iff_members {a b : Ty} (ha : a.Normal) :
    h.assignable a b = true ↔
      ∀ m ∈ a.members, ∃ t ∈ b.members, h.assignable m t = true := by
  rw [h.assignable_iff]
  refine forall₂_congr fun m hm => ?_
  obtain ⟨name, args, rfl⟩ := ha.isCon_member hm
  exact assignable_con_iff

/-! ### Instances of classes -/

theorem assignable_con_con_iff {name name' : String} {args args' : List Ty} :
    h.assignable (.con name args) (.con name' args') = true ↔
      (args' = [] ∨ (args == args') = true) ∧ h.isSubclass name name' = true := by
  simp [assignable, accepts, List.isEmpty_iff]

theorem assignable_con_trans (hacyclic : h.Acyclic) {a b c : Ty} (ha : a.IsCon) (hb : b.IsCon)
    (hc : c.IsCon) (hab : h.assignable a b = true) (hbc : h.assignable b c = true) :
    h.assignable a c = true := by
  obtain ⟨name, args, rfl⟩ := ha
  obtain ⟨name', args', rfl⟩ := hb
  obtain ⟨name'', args'', rfl⟩ := hc
  obtain ⟨hargs, hsub⟩ := assignable_con_con_iff.mp hab
  obtain ⟨hargs', hsub'⟩ := assignable_con_con_iff.mp hbc
  refine assignable_con_con_iff.mpr ⟨?_, isSubclass_trans hacyclic hsub hsub'⟩
  rcases hargs' with hopen | hsame'
  · exact .inl hopen
  · rcases hargs with rfl | hsame
    · -- a class that is open here is open there
      left
      cases args'' with
      | nil => rfl
      | cons => cases hsame'
    · exact .inr (Ty.beq_list_trans hsame hsame')

mutual

/-- Instances whose type arguments are the same can be used in the same places. -/
theorem accepts_congr (h : Hierarchy) (name : String) {args args' : List Ty}
    (hsame : ∀ params, (args == params) = (args' == params)) (target : Ty) :
    h.accepts name args target = h.accepts name args' target := by
  match target with
  | .unresolved => rfl
  | .con expected params => rw [accepts, accepts, hsame]
  | .oneOf targets => rw [accepts, accepts, acceptsSome_congr h name hsame targets]
termination_by structural target

theorem acceptsSome_congr (h : Hierarchy) (name : String) {args args' : List Ty}
    (hsame : ∀ params, (args == params) = (args' == params)) (targets : List Ty) :
    h.acceptsSome name args targets = h.acceptsSome name args' targets := by
  match targets with
  | [] => rfl
  | t :: ts =>
    rw [acceptsSome, acceptsSome, accepts_congr h name hsame t, acceptsSome_congr h name hsame ts]
termination_by structural targets

end

/-- Whatever takes the instance `m` takes every one that is the same. -/
theorem assignable_con_congr {m m' : Ty} (hm : Ty.NormalInstance m) (hm' : Ty.NormalInstance m')
    (hsame : (m == m') = true) (target : Ty) : h.assignable m target = h.assignable m' target := by
  have hturned := hm.normal.beq_symm hm'.normal hsame
  obtain ⟨name, args, rfl⟩ := hm.isCon
  obtain ⟨name', args', rfl⟩ := hm'.isCon
  rw [Ty.con_beq_con, Bool.and_eq_true, beq_iff_eq] at hsame hturned
  obtain ⟨rfl, hargs⟩ := hsame
  refine h.accepts_congr name (fun params => ?_) target
  rw [Bool.eq_iff_iff]
  exact ⟨Ty.beq_list_trans hturned.2, Ty.beq_list_trans hargs⟩

/-- An instance may be used as any that is the same. -/
theorem assignable_con_of_beq {m t : Ty} (hm : Ty.NormalInstance m) (ht : Ty.NormalInstance t)
    (hsame : (t == m) = true) : h.assignable m t = true := by
  rw [← assignable_con_congr ht hm hsame]
  obtain ⟨name, args, rfl⟩ := ht.isCon
  exact assignable_con_con_iff.mpr ⟨.inr BEq.rfl, h.isSubclass_refl name⟩

/-! ### The order on types -/

theorem assignable_of_within {a b : Ty} (ha : a.Normal) (hb : b.Normal) (hwithin : a.Within b) :
    h.assignable a b = true := by
  rw [assignable_iff_members ha]
  intro m hm
  obtain ⟨t, ht, hsame⟩ := List.any_eq_true.mp (hwithin m hm)
  exact ⟨t, ht, assignable_con_of_beq (ha.isOver.all m hm) (hb.isOver.all t ht) hsame⟩

/-- What can be used in a place can be used there when it is narrower. -/
theorem assignable_of_wider {a b target : Ty} (ha : a.Normal) (hb : b.Normal)
    (hwithin : a.Within b) (hassignable : h.assignable b target = true) :
    h.assignable a target = true := by
  rw [h.assignable_iff] at hassignable ⊢
  intro m hm
  obtain ⟨m', hm', hsame⟩ := List.any_eq_true.mp (hwithin m hm)
  rw [← assignable_con_congr (hb.isOver.all m' hm') (ha.isOver.all m hm) hsame]
  exact hassignable m' hm'

theorem assignable_trans (hacyclic : h.Acyclic) {a b c : Ty} (ha : a.Normal) (hb : b.Normal)
    (hc : c.Normal) (hab : h.assignable a b = true) (hbc : h.assignable b c = true) :
    h.assignable a c = true := by
  rw [assignable_iff_members ha] at hab ⊢
  rw [assignable_iff_members hb] at hbc
  intro m hm
  obtain ⟨t, ht, hmt⟩ := hab m hm
  obtain ⟨u, hu, htu⟩ := hbc t ht
  exact ⟨u, hu, assignable_con_trans hacyclic (ha.isCon_member hm) (hb.isCon_member ht)
    (hc.isCon_member hu) hmt htu⟩

/-- A union is assignable when both of its types are. -/
theorem assignable_union_iff (hacyclic : h.Acyclic) {a b c : Ty} (ha : a.Normal) (hb : b.Normal)
    (hc : c.Normal) : h.assignable (a.union b) c = true ↔
      h.assignable a c = true ∧ h.assignable b c = true := by
  have hunion := ha.union hb
  constructor
  · intro hboth
    constructor
    · exact assignable_trans hacyclic ha hunion hc
        (assignable_of_within ha hunion (ha.within_union_left hb)) hboth
    · exact assignable_trans hacyclic hb hunion hc
        (assignable_of_within hb hunion (ha.within_union_right hb)) hboth
  · rintro ⟨hac, hbc⟩
    rw [h.assignable_iff] at hac hbc ⊢
    intro m hm
    rcases Ty.mem_union (fun _ hm => hm.isCon) ha.isOver hb.isOver hm with hm | hm
    · exact hac m hm
    · exact hbc m hm

/-- Types that are the same can be used in the same places. -/
theorem assignable_congr (hacyclic : h.Acyclic) {a b a' b' : Ty} (ha : a.Normal) (hb : b.Normal)
    (ha' : a'.Normal) (hb' : b'.Normal) (haa' : (a == a') = true) (hbb' : (b == b') = true) :
    h.assignable a b = h.assignable a' b' := by
  have hsame : ∀ {t u : Ty}, t.Normal → u.Normal → (t == u) = true → h.assignable t u = true :=
    fun ht hu htu => assignable_of_within ht hu (ht.within_of_beq hu htu)
  rw [Bool.eq_iff_iff]
  constructor
  · intro hab
    have hfirst := hsame ha' ha (ha.beq_symm ha' haa')
    have hlast := hsame hb hb' hbb'
    exact assignable_trans hacyclic ha' hb hb' (assignable_trans hacyclic ha' ha hb hfirst hab)
      hlast
  · intro hab
    have hfirst := hsame ha ha' haa'
    have hlast := hsame hb' hb (hb.beq_symm hb' hbb')
    exact assignable_trans hacyclic ha hb' hb (assignable_trans hacyclic ha ha' hb' hfirst hab)
      hlast

/-- On types in normal form, over a hierarchy without cycles, assignability is a preorder in
    which `Ty.union` is a least upper bound, and it does not tell types apart that are the
    same. -/
theorem assignable_leastUpperBound (hacyclic : h.Acyclic) {a b c : Ty} (ha : a.Normal)
    (hb : b.Normal) (hc : c.Normal) :
    h.assignable a a = true ∧
      (h.assignable a b = true → h.assignable b c = true → h.assignable a c = true) ∧
      h.assignable a (a.union b) = true ∧
      h.assignable b (a.union b) = true ∧
      (h.assignable (a.union b) c = true ↔
        h.assignable a c = true ∧ h.assignable b c = true) ∧
      ∀ a' b' : Ty, a'.Normal → b'.Normal → (a == a') = true → (b == b') = true →
        h.assignable a b = h.assignable a' b' := by
  have hunion := ha.union hb
  refine ⟨?_, ?_, ?_, ?_, ?_, ?_⟩
  · exact assignable_of_within ha ha (.refl a)
  · exact assignable_trans hacyclic ha hb hc
  · exact assignable_of_within ha hunion (ha.within_union_left hb)
  · exact assignable_of_within hb hunion (ha.within_union_right hb)
  · exact assignable_union_iff hacyclic ha hb hc
  · intro a' b' ha' hb'
    exact assignable_congr hacyclic ha hb ha' hb'

def pointerClasses : Hierarchy :=
  ⟨[("Int", some "Value"), ("Pointer", some "Value"), ("Value", some "Object"), ("Object", none)]⟩

theorem acyclic_pointerClasses : pointerClasses.Acyclic :=
  acyclic_of_rank (fun name => (pointerClasses.chain name).length) (by decide +kernel)

/-- A pointer is a value whether or not it says what it points to, and a union of it with a
    number is a value too. -/
theorem pointerClasses_leastUpperBound :
    pointerClasses.Acyclic ∧ (Ty.pointer (.oneOf [.int, .nil])).Normal ∧ Ty.int.Normal ∧
      (Ty.oneOf [.con "Pointer" [], .con "Value" []]).Normal ∧
      pointerClasses.assignable ((Ty.pointer (.oneOf [.int, .nil])).union .int)
        (.oneOf [.con "Pointer" [], .con "Value" []]) = true ∧
      pointerClasses.assignable (.pointer (.oneOf [.nil, .int])) (.pointer (.oneOf [.int, .nil])) =
        pointerClasses.assignable (.pointer (.oneOf [.int, .nil]))
          (.pointer (.oneOf [.int, .nil])) := by
  have ha : (Ty.pointer (.oneOf [.int, .nil])).Normal := by decide +kernel
  have ha' : (Ty.pointer (.oneOf [.nil, .int])).Normal := by decide +kernel
  have hb : Ty.int.Normal := by decide +kernel
  have hc : (Ty.oneOf [.con "Pointer" [], .con "Value" []]).Normal := by decide +kernel
  obtain ⟨_, _, _, _, hunion, _⟩ := assignable_leastUpperBound acyclic_pointerClasses ha hb hc
  obtain ⟨_, _, _, _, _, hsame⟩ := assignable_leastUpperBound acyclic_pointerClasses ha' ha hc
  refine ⟨acyclic_pointerClasses, ha, hb, hc, hunion.mpr ⟨?_, ?_⟩, hsame _ _ ha ha ?_ ?_⟩
  all_goals decide +kernel

end UnionTyping.Hierarchy
