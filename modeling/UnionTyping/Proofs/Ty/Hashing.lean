/-
  UnionTyping/Proofs/Ty/Hashing.lean
  ==================================
  **Types that are the same feed the same items to a hash function.**

  A type is a reordering of another (`Ty.Reordered`) when they differ only in the order of
  the members of unions, at any depth.  Types in normal form are the same exactly when they
  are reorderings of each other (`Normal.beq_iff_reordered`): the members of a union have
  different partners in a union that is the same, so none of either is left over.

  A union writes the sum of the digests of its members, and their number.  Neither depends
  on the order of the members, so reorderings write the same items, whatever function makes
  the digests (`Reordered.writes_eq`).
-/
import UnionTyping.Proofs.Ty.Normal
import UnionTyping.Ty.Hashing

namespace UnionTyping.Ty

/-! ### Reorderings -/

/-- The same type with the members of its unions, at any depth, in some other order. -/
inductive Reordered : Ty → Ty → Prop where
  | unresolved : Reordered unresolved unresolved
  | con (name : String) {args args' : List Ty} (length : args.length = args'.length)
      (each : ∀ {a a'}, (a, a') ∈ args.zip args' → Reordered a a') :
      Reordered (con name args) (con name args')
  /-- Each member is reordered, and then the members are put in another order. -/
  | oneOf {ms between ms' : List Ty} (length : ms.length = between.length)
      (each : ∀ {m m'}, (m, m') ∈ ms.zip between → Reordered m m') (perm : between.Perm ms') :
      Reordered (oneOf ms) (oneOf ms')

/-- A reordering of a type is the same type, in both directions. -/
theorem Reordered.beq {a b : Ty} (h : a.Reordered b) : (a == b) = true ∧ (b == a) = true := by
  induction h with
  | unresolved => exact ⟨rfl, rfl⟩
  | con name length _ ih =>
    have hargs := List.forall₂_iff_zip.mpr ⟨length, ih⟩
    exact ⟨beq_con_iff.mpr ⟨rfl, hargs.imp fun _ _ h => h.1⟩,
      beq_con_iff.mpr ⟨rfl, (hargs.imp fun _ _ h => h.2).flip⟩⟩
  | @oneOf ms between ms' length _ perm ih =>
    have hpaired := List.forall₂_iff_zip.mpr ⟨length, ih⟩
    have hlength := length.trans perm.length_eq
    refine ⟨beq_oneOf_iff.mpr ⟨hlength, fun m hm => ?_⟩,
      beq_oneOf_iff.mpr ⟨hlength.symm, fun m' hm' => ?_⟩⟩
    · obtain ⟨i, hi, rfl⟩ := List.mem_iff_getElem.mp hm
      have hi' : i < between.length := length ▸ hi
      exact ⟨between[i], perm.mem_iff.mp (List.getElem_mem hi'), (hpaired.get hi hi').2⟩
    · obtain ⟨i, hi', rfl⟩ := List.mem_iff_getElem.mp (perm.mem_iff.mpr hm')
      have hi : i < ms.length := length ▸ hi'
      exact ⟨ms[i], List.getElem_mem hi, (hpaired.get hi hi').1⟩

/-- Types in normal form that are the same are reorderings of each other. -/
theorem Normal.reordered_of_beq {a b : Ty} (ha : a.Normal) (hb : b.Normal)
    (h : (a == b) = true) : a.Reordered b := by
  induction ha generalizing b with
  | unresolved =>
    cases hb with
    | unresolved => exact .unresolved
    | _ => cases h
  | con name args _ ih =>
    cases hb with
    | con name' args' all =>
      obtain ⟨rfl, hargs⟩ := beq_con_iff.mp h
      refine .con name hargs.length_eq fun hpair => ?_
      obtain ⟨hx, hy⟩ := List.of_mem_zip hpair
      exact ih _ hx (all _ hy) (List.forall₂_zip hargs hpair)
    | _ => cases h
  | oneOf as _ distinct _ hnormal ih =>
    cases hb with
    | oneOf bs _ _ _ all =>
      obtain ⟨hlength, hall⟩ := beq_oneOf_iff.mp h
      have hapart := distinct.apart fun x hx y hy => (hnormal x hx).beq_comm (all y hy)
      obtain ⟨partners, hperm, hpaired⟩ := exists_partners hlength hapart hall
      refine .oneOf hpaired.length_eq (fun hpair => ?_) hperm
      obtain ⟨hx, hy⟩ := List.of_mem_zip hpair
      have hy' := all _ (hperm.mem_iff.mp hy)
      exact ih _ hx hy' (hy'.beq_symm (hnormal _ hx) (List.forall₂_zip hpaired hpair))
    | _ => cases h

/-- Types in normal form are the same when they differ only in the order of unions. -/
theorem Normal.beq_iff_reordered {a b : Ty} (ha : a.Normal) (hb : b.Normal) :
    (a == b) = true ↔ a.Reordered b :=
  ⟨ha.reordered_of_beq hb, fun h => h.beq.1⟩

/-! ### What is written -/

variable {digest : List Write → UInt64}

section Each

variable {ts ts' : List Ty}
  (h : List.Forall₂ (fun t t' => writes digest t = writes digest t') ts ts')
include h

theorem writesEach_congr : writesEach digest ts = writesEach digest ts' := by
  induction h with
  | nil => rfl
  | cons heq _ ih => rw [writesEach, writesEach, heq, ih]

theorem sumDigests_congr : sumDigests digest ts = sumDigests digest ts' := by
  induction h with
  | nil => rfl
  | cons heq _ ih => rw [sumDigests, sumDigests, heq, ih]

end Each

/-- The order of the members does not show in their sum. -/
theorem sumDigests_perm {ts ts' : List Ty} (h : ts.Perm ts') :
    sumDigests digest ts = sumDigests digest ts' := by
  induction h with
  | nil => rfl
  | cons t _ ih => rw [sumDigests, sumDigests, ih]
  | swap t t' ts =>
    simp only [sumDigests]
    rw [← UInt64.add_assoc, ← UInt64.add_assoc, UInt64.add_comm (digest (writes digest t'))]
  | trans _ _ ih ih' => exact ih.trans ih'

/-- A reordering feeds the same items to a hash function. -/
theorem Reordered.writes_eq {a b : Ty} (h : a.Reordered b) : writes digest a = writes digest b := by
  induction h with
  | unresolved => rfl
  | con name length _ ih =>
    rw [writes, writes, length, writesEach_congr (List.forall₂_iff_zip.mpr ⟨length, ih⟩)]
  | oneOf length _ perm ih =>
    rw [writes, writes, sumDigests_congr (List.forall₂_iff_zip.mpr ⟨length, ih⟩),
      sumDigests_perm perm, length, perm.length_eq]

end UnionTyping.Ty
