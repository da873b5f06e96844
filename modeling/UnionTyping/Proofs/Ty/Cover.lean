/-
  UnionTyping/Proofs/Ty/Cover.lean
  ================================
  **Types of values that cover others.**

  What holds of the members of types in normal form, said for types made of proper
  instances: they are the types that come up in a program.
-/
import UnionTyping.Proofs.Ty.Proper
import UnionTyping.Proofs.Ty.Semilattice

namespace UnionTyping.Ty

/-! ### Unions -/

section Union

variable {a b : Ty} (ha : a.Over Proper) (hb : b.Over Proper)
include ha hb

theorem within_union_left : a.Within (a.union b) :=
  ha.normal_of_proper.within_union_left hb.normal_of_proper

theorem within_union_right : b.Within (a.union b) :=
  ha.normal_of_proper.within_union_right hb.normal_of_proper

theorem has_union_iff {m : Ty} : (a.union b).Has m ↔ a.Has m ∨ b.Has m :=
  ha.normal_of_proper.has_union_iff hb.normal_of_proper

end Union

theorem over_unionAll {ts : List Ty} (hts : ∀ t ∈ ts, t.Over Proper) :
    (unionAll ts).Over Proper :=
  .joined (fun _ hm => hm.isCon) hts

/-- The union of several types has the members of these types. -/
theorem has_unionAll_iff {ts : List Ty} (hts : ∀ t ∈ ts, t.Over Proper) {m : Ty} :
    (unionAll ts).Has m ↔ ∃ t ∈ ts, t.Has m :=
  Normal.has_unionAll_iff fun t ht => (hts t ht).normal_of_proper

/-! ### Types with the same members -/

/-- Proper types with the same members are the same. -/
theorem Over.beq_of_has_iff {a b : Ty} (ha : a.Over Proper) (hb : b.Over Proper)
    (h : ∀ m, Proper m → (a.Has m ↔ b.Has m)) : (a == b) = true :=
  ha.normal_of_proper.beq_of_within hb.normal_of_proper
    (fun m hm => (h m (ha.all m hm)).mp (.of_mem hm))
    fun m hm => (h m (hb.all m hm)).mpr (.of_mem hm)

/-- Types that are the same have the same members. -/
theorem Over.within_of_beq {a b : Ty} (ha : a.Over Proper) (hb : b.Over Proper)
    (h : (a == b) = true) : a.Within b :=
  ha.normal_of_proper.within_of_beq hb.normal_of_proper h

/-! ### Settling -/

/-- Types that are the same are settled to the same. -/
theorem Over.settled_beq {a b : Ty} (ha : a.Over Proper) (hb : b.Over Proper)
    (h : (a == b) = true) : (a.settled == b.settled) = true :=
  ha.normal_of_proper.settled_beq hb.normal_of_proper h

end UnionTyping.Ty
