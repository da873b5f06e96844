/-
  UnionTyping/Proofs/Inference/AddressFree.lean
  =============================================
  **Programs that take no address.**

  Pointer types are the only ones with a union inside them, and only taking the address
  of a variable makes them.  In a program that takes no address every type is therefore a
  union of plain instances (`Env.keepsTo_plain`).  Plain instances that are the same are
  equal (`Ty.Plain.eq_of_beq`), so the members of such types form sets, and the instances
  of methods for plain types can be told apart by equality.
-/
import UnionTyping.Proofs.Inference.Termination
import UnionTyping.Proofs.Inference.LegalCalls

namespace UnionTyping

open Ty (Over Plain Proper)

/-! ### Plain types -/

namespace Ty

theorem eq_of_forall₂ {α : Type} {r : α → α → Prop} {as bs : List α}
    (h : ∀ a ∈ as, ∀ b, r a b → a = b) (hall : List.Forall₂ r as bs) : as = bs := by
  induction hall with
  | nil => rfl
  | @cons a b as bs hab _ ih =>
    have hhead : a = b := h a (by simp) b hab
    have htail : as = bs := ih fun x hx => h x (by simp [hx])
    rw [hhead, htail]

/-- A plain instance is the same as no type but itself. -/
theorem Plain.eq_of_beq {a b : Ty} (h : Plain a) (hab : (a == b) = true) : a = b := by
  induction h generalizing b with
  | con name args _ ih =>
    cases b with
    | unresolved => cases hab
    | oneOf ms => cases hab
    | con name' args' =>
      obtain ⟨rfl, hargs⟩ := beq_con_iff.mp hab
      rw [eq_of_forall₂ (fun a ha b => ih a ha) hargs]

theorem Plain.eq_of_beq_right {a b : Ty} (h : Plain b) (hab : (a == b) = true) : a = b := by
  induction h generalizing a with
  | con name args _ ih =>
    cases a with
    | unresolved => cases hab
    | oneOf ms => cases hab
    | con name' args' =>
      obtain ⟨rfl, hargs⟩ := beq_con_iff.mp hab
      rw [eq_of_forall₂ (fun b hb a h => (ih b hb h).symm) hargs.flip]

/-- For a plain instance to be a member up to the order in unions is to be a member. -/
theorem Plain.mem_of_any {t m : Ty} (hm : m.Plain) (h : t.members.any (· == m) = true) :
    m ∈ t.members := by
  obtain ⟨a, ha, hsame⟩ := List.any_eq_true.mp h
  rw [← hm.eq_of_beq_right hsame]
  exact ha

theorem Over.mem_of_any {t m : Ty} (ht : t.Over Plain) (h : t.members.any (· == m) = true) :
    m ∈ t.members := by
  obtain ⟨a, ha, hsame⟩ := List.any_eq_true.mp h
  rw [← (ht.all a ha).eq_of_beq hsame]
  exact ha

theorem mem_union_iff {a b m : Ty} (ha : a.Over Plain) (hb : b.Over Plain) :
    m ∈ (a.union b).members ↔ m ∈ a.members ∨ m ∈ b.members := by
  have hcon : ∀ m, Plain m → m.IsCon := fun _ hm => hm.isCon
  constructor
  · exact mem_union hcon ha hb
  · rintro (hm | hm)
    · exact (prefix_members_union hcon ha hb).mem hm
    · exact (hb.all m hm).mem_of_any (any_union_right hcon ha hb hm)

/-- Types that are made of the same members are the same, in whatever order. -/
theorem ofMembers_beq_of_perm {as bs : List Ty} (h : as.Perm bs) :
    (ofMembers as == ofMembers bs) = true := by
  match as, bs, h with
  | [], bs, h => rw [h.nil_eq]; exact BEq.rfl
  | [a], bs, h => rw [h.singleton_eq]; exact BEq.rfl
  | a :: a' :: as, [], h => cases h.length_eq
  | a :: a' :: as, [b], h => cases h.length_eq
  | a :: a' :: as, b :: b' :: bs, h =>
    refine beq_oneOf_iff.mpr ⟨h.length_eq, fun m hm => ?_⟩
    exact ⟨m, h.mem_iff.mp hm, BEq.rfl⟩

/-- Types with the same members are the same. -/
theorem Over.beq_of_mem_iff {C : Ty → Prop} {a b : Ty} (ha : a.Over C) (hb : b.Over C)
    (h : ∀ m, m ∈ a.members ↔ m ∈ b.members) : (a == b) = true := by
  have hperm : a.members.Perm b.members :=
    (List.perm_ext_iff_of_nodup ha.distinct.nodup hb.distinct.nodup).mpr h
  rw [← ha.shape, ← hb.shape]
  exact ofMembers_beq_of_perm hperm

end Ty

structure Instantiation.Plain (key : Instantiation) : Prop where
  self : ∀ s, key.self = some s → s.Plain
  args : ∀ a ∈ key.args, a.Plain

/-- Instances are equal when they are the same and their types can be told apart. -/
theorem Instantiation.eq_of_beq {k k' : Instantiation}
    (hself : ∀ a b, k.self = some a → k'.self = some b → (a == b) = true → a = b)
    (hargs : List.Forall₂ (fun a b : Ty => (a == b) = true) k.args k'.args → k.args = k'.args)
    (h : (k == k') = true) : k = k' := by
  obtain ⟨method, self, args⟩ := k
  obtain ⟨method', self', args'⟩ := k'
  obtain ⟨hmethod, hsame, hlist⟩ := beq_iff.mp h
  obtain rfl : method = method' := hmethod
  obtain rfl : args = args' := hargs (Ty.beq_list_iff.mp hlist)
  have hself : self = self' := by
    cases self with
    | none => cases self' with
      | none => rfl
      | some _ => cases hsame
    | some s => cases self' with
      | none => cases hsame
      | some s' => rw [hself s s' rfl rfl hsame]
  rw [hself]

/-- An instance for plain instances is the same as no other. -/
theorem Instantiation.Plain.eq_of_beq_left {k k' : Instantiation} (hk : k.Plain)
    (h : (k == k') = true) : k = k' :=
  Instantiation.eq_of_beq (fun a _ ha _ hab => (hk.self a ha).eq_of_beq hab)
    (Ty.eq_of_forall₂ fun a ha _ hab => (hk.args a ha).eq_of_beq hab) h

theorem Instantiation.Plain.eq_of_beq_right {k k' : Instantiation} (hk : k'.Plain)
    (h : (k == k') = true) : k = k' :=
  Instantiation.eq_of_beq (fun _ b _ hb hab => (hk.self b hb).eq_of_beq_right hab)
    (fun hall => (Ty.eq_of_forall₂ (fun b hb _ hab => ((hk.args b hb).eq_of_beq_right hab).symm)
      hall.flip).symm) h

/-! ### Programs without addresses -/

/-- Anything may occur, but no address is taken. -/
def Vocabulary.addressFree : Vocabulary := { Vocabulary.full with pointers := False }

namespace Vocabulary

theorem speaks_addressFree {nodes : List Expr} (h : ∀ n ∈ nodes, n.takesAddress = false) :
    addressFree.speaks nodes := by
  intro n hn
  obtain ⟨hid, hfits⟩ := speaks_full nodes n hn
  refine ⟨hid, ?_⟩
  cases n with
  | call m receiver name args block parens =>
    refine ⟨fun hsome hptr => ?_, hfits.2⟩
    have htakes := h _ hn
    simp [Expr.takesAddress, hsome, hptr] at htakes
  | _ => exact hfits

end Vocabulary

namespace Env

variable {env : Env}

/-- Without addresses plain instances are closed under all that a program does. -/
theorem closed_plain (hlibraries : env.libraries.Plain) : env.Closed .addressFree Plain where
  con := fun _ h => h.isCon
  literal := fun l => l.plain
  classObject := Ty.plain_atom "Class"
  written := fun _ h => env.classes.plain_typeOf _ h
  allocated := by
    intro ref name element args _ hty
    refine .con _ _ fun a ha => ?_
    rw [List.mem_singleton.mp ha]
    exact (env.classes.plain_typeOf _ hty).arg _ List.mem_cons_self
  nativeParam := fun library hl f hf p hp => (hlibraries library hl f hf).1 p hp
  nativeRet := fun library hl f hf => (hlibraries library hl f hf).2
  arg := fun h => (h.arg _ List.mem_cons_self).isOver
  pointer := fun hv => hv.elim

def AddressFree (env : Env) : Prop := ∀ n ∈ env.nodes, n.takesAddress = false

theorem AddressFree.speaksUnit (h : env.AddressFree) (key : Option Instantiation) :
    Vocabulary.addressFree.speaksUnit env key := by
  cases key with
  | none => exact Vocabulary.speaks_addressFree fun n hn => h n (List.mem_append_left _ hn)
  | some key =>
    intro m hm
    refine ⟨fun _ _ => trivial, Vocabulary.speaks_addressFree fun n hn => h n ?_⟩
    exact List.mem_append_right _ (List.mem_flatMap.mpr ⟨m, List.mem_of_getElem? hm, hn⟩)

/-- A program that takes no address keeps to plain instances. -/
theorem keepsTo_plain (hlibraries : env.libraries.Plain) (h : env.AddressFree) :
    env.KeepsTo Plain .addressFree where
  con := fun _ h => h.isCon
  domain := (closed_plain hlibraries).domain
  speaks := h.speaksUnit

end Env

/-! ### States with plain types -/

/-- States with plain types are states with proper types. -/
theorem Engine.Ok.proper {env : Env} {e : Engine} (h : e.Ok env Plain .addressFree) :
    e.Ok env Proper .full :=
  h.mono rfl (fun _ hm => hm.proper) fun _ _ hslot => hslot

end UnionTyping
