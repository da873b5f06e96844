/-
  UnionTyping/Proofs/Ty/Depth.lean
  ================================
  **How deep types nest, and how many there are up to a depth.**

  A program has finitely many types of its own.  All others are pointers to unions
  of those it has already (`Ty.Made`).  Up to any depth of nesting there are only
  finitely many of them (`finite_made`), so a set of types of a program can be
  infinite only when there are deeper and deeper pointers in it.
-/
import Mathlib.Data.Set.Finite.Lattice
import Mathlib.Data.Set.Finite.List
import UnionTyping.Proofs.Ty.Proper

namespace UnionTyping.Ty

/-! ### Depth -/

mutual

/-- How deep the type arguments of a type nest. -/
def depth : Ty → Nat
  | unresolved => 0
  | con _ args => depthOf args + 1
  | oneOf ms => depthOf ms
termination_by structural x => x

def depthOf : List Ty → Nat
  | [] => 0
  | t :: ts => max (depth t) (depthOf ts)
termination_by structural x => x

end

theorem depthOf_le_iff {ts : List Ty} {d : Nat} : depthOf ts ≤ d ↔ ∀ t ∈ ts, t.depth ≤ d := by
  induction ts with
  | nil => simp [depthOf]
  | cons t ts ih => rw [depthOf, Nat.max_le, ih, List.forall_mem_cons]

theorem depth_eq_members (t : Ty) : t.depth = depthOf t.members := by
  cases t with
  | unresolved => rfl
  | con name args => simp only [members, depthOf, Nat.max_zero]
  | oneOf ms => rfl

theorem depth_le_iff {t : Ty} {d : Nat} : t.depth ≤ d ↔ ∀ m ∈ t.members, m.depth ≤ d := by
  rw [depth_eq_members, depthOf_le_iff]

theorem depth_pointer (t : Ty) : (pointer t).depth = t.depth + 1 := by
  simp only [pointer, depth, depthOf, Nat.max_zero]

theorem exists_depth_le (ts : List Ty) : ∃ d, ∀ t ∈ ts, t.depth ≤ d :=
  ⟨depthOf ts, depthOf_le_iff.mp (Nat.le_refl _)⟩

/-- Types of values that are the same nest equally deep. -/
theorem depth_le_of_beq {a b : Ty} (ha : a.Over Proper) (hb : b.Over Proper)
    (hab : (a == b) = true) : a.depth ≤ b.depth := by
  induction hn : sizeOf a using Nat.strongRecOn generalizing a b with
  | ind n ih =>
    subst hn
    cases a <;> cases b
    case unresolved.unresolved => exact Nat.le_refl _
    case con.con name args name' args' =>
      obtain ⟨_, hall⟩ := beq_con_iff.mp hab
      have ha' : Proper (con name args) := ha.all _ List.mem_cons_self
      have hb' : Proper (con name' args') := hb.all _ List.mem_cons_self
      refine Nat.succ_le_succ (depthOf_le_iff.mpr fun x hx => ?_)
      obtain ⟨y, hy, hxy⟩ : ∃ y ∈ args', (x == y) = true := by
        obtain ⟨i, hi, rfl⟩ := List.mem_iff_getElem.mp hx
        obtain ⟨hlen, hget⟩ := List.forall₂_iff_get.mp hall
        have hi' : i < args'.length := by rw [← hlen]; exact hi
        exact ⟨args'[i], List.getElem_mem hi', hget i hi hi'⟩
      have hlt : sizeOf x < sizeOf (con name args) := by
        have hmem := List.sizeOf_lt_of_mem hx
        rw [con.sizeOf_spec]
        omega
      have hle := ih _ hlt (ha'.known_arg hx).isOver (hb'.known_arg hy).isOver hxy rfl
      exact Nat.le_trans hle (depthOf_le_iff.mp (Nat.le_refl _) y hy)
    case oneOf.oneOf as bs =>
      obtain ⟨_, hall⟩ := beq_oneOf_iff.mp hab
      refine depthOf_le_iff.mpr fun x hx => ?_
      obtain ⟨y, hy, hyx⟩ := hall x hx
      have hlt : sizeOf x < sizeOf (oneOf as) := by
        have hmem := List.sizeOf_lt_of_mem hx
        rw [oneOf.sizeOf_spec]
        omega
      have hxo := (ha.all x hx).isOver
      have hyo := (hb.all y hy).isOver
      exact Nat.le_trans (ih _ hlt hxo hyo (hyo.beq_symm hxo hyx) rfl)
        (depthOf_le_iff.mp (Nat.le_refl _) y hy)
    all_goals cases hab

/-- No type holds its own pointer. -/
theorem union_pointer_ne {t : Ty} (h : t.Known) : (t.union (.pointer t) == t) = false := by
  rw [← Bool.not_eq_true]
  intro hsame
  have hcon : ∀ m, Proper m → IsCon m := fun _ hm => hm.isCon
  have hpointer := h.proper_pointer
  have hmem := any_union_right hcon h.isOver hpointer.isOver List.mem_cons_self
  rw [union_eq_of_beq hcon h.isOver hpointer.isOver hsame] at hmem
  obtain ⟨m, hm, hbeq⟩ := List.any_eq_true.mp hmem
  have hmo := (h.isOver.all m hm).isOver
  have hle := depth_le_of_beq hpointer.isOver hmo (hmo.beq_symm hpointer.isOver hbeq)
  have hbelow := depth_le_iff.mp (Nat.le_refl t.depth) m hm
  rw [depth_pointer] at hle
  omega

/-! ### Finitely many types -/

/-- Lists without repetition over a finite set have a greatest length. -/
theorem exists_length_le {α : Type} {S : Set α} (hS : S.Finite) :
    ∃ n, ∀ l : List α, l.Nodup → (∀ x ∈ l, x ∈ S) → l.length ≤ n := by
  classical
  refine ⟨hS.toFinset.card, fun l hnodup hall => ?_⟩
  rw [← List.toFinset_card_of_nodup hnodup]
  apply Finset.card_le_card
  intro x hx
  exact hS.mem_toFinset.mpr (hall x (List.mem_toFinset.mp hx))

/-- There are finitely many lists up to a length over a finite set. -/
theorem finite_lists {α : Type} {S : Set α} (hS : S.Finite) (n : Nat) :
    {l : List α | l.length ≤ n ∧ ∀ x ∈ l, x ∈ S}.Finite := by
  induction n with
  | zero =>
    refine (Set.finite_singleton []).subset fun l hl => ?_
    exact List.eq_nil_of_length_eq_zero (Nat.le_zero.mp hl.1)
  | succ n ih =>
    refine ((Set.finite_singleton []).union (hS.image2 List.cons ih)).subset fun l hl => ?_
    cases l with
    | nil => exact Or.inl rfl
    | cons x l =>
      obtain ⟨hx, hl'⟩ := List.forall_mem_cons.mp hl.2
      exact Or.inr ⟨x, hx, l, ⟨Nat.le_of_succ_le_succ hl.1, hl'⟩, rfl⟩

theorem Distinct.nodup {ts : List Ty} (h : Distinct ts) : ts.Nodup := by
  refine h.imp fun {a b} hne heq => ?_
  rw [heq, BEq.rfl] at hne
  cases hne

/-- Over finitely many instances there are finitely many types. -/
theorem finite_over {C : Ty → Prop} (hC : {m | C m}.Finite) : {t | Over C t}.Finite := by
  obtain ⟨n, hn⟩ := exists_length_le hC
  refine ((finite_lists hC n).image ofMembers).subset fun t ht => ?_
  exact ⟨t.members, ⟨hn _ ht.distinct.nodup ht.all, ht.all⟩, ht.shape⟩

/-! ### Types made from others -/

/-- The instances of a program whose own ones are the `seeds`, with pointers to all that
    a variable can hold if the program takes `pointers` at all. -/
inductive Made (seeds : List Ty) (pointers : Prop) : Ty → Prop where
  | seed {m : Ty} (h : m ∈ seeds) : Made seeds pointers m
  | pointer (h : pointers) (t : Ty) (shape : ofMembers t.members = t)
    (distinct : Distinct t.members) (members : ∀ m ∈ t.members, Made seeds pointers m) :
    Made seeds pointers (.pointer t)

theorem Made.isCon {seeds : List Ty} {pointers : Prop} (hseeds : ∀ m ∈ seeds, IsCon m) {m : Ty}
    (h : Made seeds pointers m) : IsCon m := by
  cases h with
  | seed h => exact hseeds m h
  | pointer _ t _ _ _ => exact ⟨"Pointer", [t], rfl⟩

/-- Up to a depth there are finitely many instances. -/
theorem finite_made (seeds : List Ty) (pointers : Prop) (d : Nat) :
    {m | Made seeds pointers m ∧ m.depth ≤ d}.Finite := by
  have hseeds : {m | m ∈ seeds}.Finite := seeds.finite_toSet
  induction d with
  | zero =>
    refine hseeds.subset fun m ⟨hm, hdepth⟩ => ?_
    cases hm with
    | seed h => exact h
    | pointer _ t _ _ _ =>
      rw [depth_pointer] at hdepth
      exact absurd hdepth (Nat.not_succ_le_zero _)
  | succ d ih =>
    refine (hseeds.union ((finite_over ih).image Ty.pointer)).subset fun m ⟨hm, hdepth⟩ => ?_
    cases hm with
    | seed h => exact Or.inl h
    | pointer _ t shape distinct members =>
      rw [depth_pointer] at hdepth
      have hbelow := depth_le_iff.mp (Nat.le_of_succ_le_succ hdepth)
      exact Or.inr ⟨t, ⟨shape, distinct, fun m hm => ⟨members m hm, hbelow m hm⟩⟩, rfl⟩

/-! ### The parts of a type -/

mutual

def parts : Ty → List Ty
  | unresolved => []
  | con name args => con name args :: partsOf args
  | oneOf ms => partsOf ms
termination_by structural x => x

def partsOf : List Ty → List Ty
  | [] => []
  | t :: ts => parts t ++ partsOf ts
termination_by structural x => x

end

theorem parts_subset_partsOf {t : Ty} {ts : List Ty} (h : t ∈ ts) : parts t ⊆ partsOf ts := by
  induction ts with
  | nil => cases h
  | cons u us ih =>
    rw [partsOf]
    rcases List.mem_cons.mp h with rfl | h
    · exact List.subset_append_left _ _
    · exact fun _ hm => List.mem_append_right _ (ih h hm)

end UnionTyping.Ty
