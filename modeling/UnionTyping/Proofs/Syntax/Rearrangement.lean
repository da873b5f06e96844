/-
  UnionTyping/Proofs/Syntax/Rearrangement.lean
  ============================================
  **Moving methods among the items of a program.**

  `Rearranged items items'` says that the top-level methods were moved: methods of one name
  keep their order, and so do all other items.  Such a move is a row of exchanges of
  neighbours, one of which is a method that does not share its name with the other
  (`Rearranged.swaps`).

  When all items are placed, an exchange of neighbours remains one after placement.  It
  changes the numbers of nodes only in that the two parts have changed places
  (`Swapped.numberAllFrom`).
-/
import Mathlib.Logic.Relation
import UnionTyping.Proofs.Syntax.Numbering
import UnionTyping.Proofs.Syntax.Renaming

namespace UnionTyping

def Item.methodName? : Item → Option String
  | .method d => some d.name
  | _ => none

/-- Top-level methods were moved.  Those of one name keep their order, and so do all items
    that are no methods. -/
def Rearranged (items items' : List Item) : Prop :=
  ∀ key : Option String, items.filter (·.methodName? = key) = items'.filter (·.methodName? = key)

/-- Two neighbours have changed places: a method, and an item that is no method of its
    name. -/
inductive Swapped : List Item → List Item → Prop
  | intro (front back : List Item) {a b : Item} (h : a.methodName? ≠ b.methodName?) :
    Swapped (front ++ a :: b :: back) (front ++ b :: a :: back)

theorem Swapped.cons {items items' : List Item} (h : Swapped items items') (i : Item) :
    Swapped (i :: items) (i :: items') := by
  cases h with
  | intro front back hname => exact .intro (i :: front) back hname

/-- An exchange of neighbours in a part that keeps the names is one in the whole. -/
theorem Swapped.map {items items' : List Item} (h : Swapped items items') {f : Item → Item}
    (hf : ∀ i, (f i).methodName? = i.methodName?) : Swapped (items.map f) (items'.map f) := by
  cases h with
  | intro front back hname =>
    rw [List.map_append, List.map_append]
    exact .intro _ _ (by rwa [hf, hf])

/-- What methods have no part in is not changed. -/
theorem Swapped.filterMap_eq {β : Type} {items items' : List Item} (h : Swapped items items')
    {f : Item → Option β} (hf : ∀ d, f (.method d) = none) :
    items'.filterMap f = items.filterMap f := by
  cases h with
  | @intro front back a b hname =>
    have hnone : f a = none ∨ f b = none := by
      cases a with
      | method d => exact Or.inl (hf d)
      | _ =>
        cases b with
        | method d => exact Or.inr (hf d)
        | _ => exact absurd rfl hname
    rw [List.filterMap_append, List.filterMap_append]
    refine congrArg (front.filterMap f ++ ·) ?_
    rcases hnone with hnone | hnone
    · simp only [List.filterMap_cons, hnone]
    · simp only [List.filterMap_cons, hnone]

/-! ### From moves to exchanges of neighbours -/

namespace Rearranged

/-- An item moves to the front of items that do not share its name. -/
theorem swaps_to_front (i : Item) (front back : List Item)
    (h : ∀ j ∈ front, j.methodName? ≠ i.methodName?) :
    Relation.ReflTransGen Swapped (i :: (front ++ back)) (front ++ i :: back) := by
  induction front with
  | nil => exact .refl
  | cons j front ih =>
    have hfirst : Swapped (i :: j :: (front ++ back)) (j :: i :: (front ++ back)) :=
      .intro [] (front ++ back) (h j List.mem_cons_self).symm
    have hrest := ih fun k hk => h k (List.mem_cons_of_mem _ hk)
    exact .head hfirst (hrest.lift (j :: ·) fun _ _ hswap => hswap.cons j)

/-- A move of methods is a row of exchanges of neighbours. -/
theorem swaps {items items' : List Item} (h : Rearranged items items') :
    Relation.ReflTransGen Swapped items items' := by
  induction items generalizing items' with
  | nil =>
    cases items' with
    | nil => exact .refl
    | cons i items' =>
      have hnil := h i.methodName?
      rw [List.filter_nil, List.filter_cons, if_pos (decide_eq_true rfl)] at hnil
      cases hnil
  | cons i items ih =>
    have hfirst := h i.methodName?
    rw [List.filter_cons, if_pos (decide_eq_true rfl)] at hfirst
    -- The first item stands behind items of other names only, so it can go to the front.
    obtain ⟨front, back, rfl, hfront, -, hback⟩ := List.filter_eq_cons_iff.mp hfirst.symm
    have hrest : Rearranged items (front ++ back) := by
      intro key
      by_cases hkey : i.methodName? = key
      · subst hkey
        rw [List.filter_append, List.filter_eq_nil_iff.mpr hfront, List.nil_append, hback]
      · have hsame := h key
        rwa [List.filter_append, List.filter_cons_of_neg (by simpa using hkey),
          List.filter_cons_of_neg (by simpa using hkey), ← List.filter_append] at hsame
    have hapart : ∀ j ∈ front, j.methodName? ≠ i.methodName? := fun j hj => by
      simpa using hfront j hj
    exact ((ih hrest).lift (i :: ·) fun _ _ hswap => hswap.cons i).trans
      (swaps_to_front i front back hapart)

end Rearranged

/-! ### Placement -/

namespace Location

theorem within_of_isPlaced {l : Location} (h : l.isPlaced) (file : String)
    (outer outer' : Location) : l.within file outer = l.within file outer' := by
  rw [within, within, if_pos h, if_pos h]

end Location

/-- Where a placed expression stands does not depend on what is around it. -/
theorem Expr.place_of_isPlaced {e : Expr} (h : e.loc.isPlaced) (file : String)
    (outer outer' : Location) : e.place file outer = e.place file outer' := by
  have hloc : e.mark.loc.within file outer = e.mark.loc.within file outer' :=
    Location.within_of_isPlaced h file outer outer'
  cases e with
  | call m receiver name args block parens =>
    rcases block with _ | ⟨params, body⟩ <;> cases receiver <;> simp only [mark] at hloc <;>
      simp only [place, Mark.place, hloc]
  | _ =>
    simp only [mark] at hloc
    simp only [place, Mark.place, hloc]

theorem Item.place_of_isPlaced {i : Item} (h : i.loc.isPlaced) (file : String)
    (outer outer' : Location) : i.place file outer = i.place file outer' := by
  have hloc := Location.within_of_isPlaced h file outer outer'
  cases i with
  | method d =>
    simp only [loc] at hloc
    simp only [place, Def.place, hloc]
  | classDecl c =>
    simp only [loc] at hloc
    simp only [place, ClassDecl.place, hloc]
  | library l =>
    simp only [loc] at hloc
    simp only [place, LibraryDecl.place, hloc]
  | expr e => exact congrArg Item.expr (Expr.place_of_isPlaced h file outer outer')

/-- Placed items are placed in the file one by one. -/
theorem Item.placeAll_eq_map {items : List Item} (h : ∀ i ∈ items, i.loc.isPlaced)
    (file : String) : Item.placeAll file items = items.map (·.place file .unplaced) := by
  refine List.ext_getElem? fun n => ?_
  rw [placeAll, List.getElem?_mapIdx, List.getElem?_map]
  cases hi : items[n]? with
  | none => rfl
  | some i => exact congrArg some (place_of_isPlaced (h i (List.mem_of_getElem? hi)) file _ _)

theorem Item.methodName?_place (i : Item) (file : String) (outer : Location) :
    (i.place file outer).methodName? = i.methodName? := by
  cases i <;> rfl

/-! ### Numbering -/

def Item.rename (f : NodeId → NodeId) : Item → Item
  | .method d => .method (d.rename f)
  | .classDecl c => .classDecl { c with methods := c.methods.map (·.rename f) }
  | .library l => .library l
  | .expr e => .expr (e.rename f)

theorem Item.methodName?_numberFrom (i : Item) (n : NodeId) :
    (i.numberFrom n).methodName? = i.methodName? := by
  cases i <;> rfl

/-- A numbered item is renamed to what it would be with other numbers. -/
theorem Item.rename_numberFrom {f : NodeId → NodeId} {n n' : Nat} (i : Item)
    (h : Shifts f n n' (Expr.sizes i.exprs)) : (i.numberFrom n).rename f = i.numberFrom n' := by
  cases i with
  | method d => exact congrArg Item.method (d.rename_numberFrom h)
  | classDecl c => simp only [numberFrom, rename, Def.rename_numberAllFrom c.methods h]
  | library l => rfl
  | expr e => exact congrArg Item.expr (e.rename_numberFrom h.left)

theorem Item.rename_numberAllFrom {f : NodeId → NodeId} {n n' : Nat} (items : List Item)
    (h : Shifts f n n' (Expr.sizes (items.flatMap Item.exprs))) :
    (numberAllFrom n items).map (·.rename f) = numberAllFrom n' items := by
  induction items generalizing n n' with
  | nil => rfl
  | cons i items ih =>
    rw [List.flatMap_cons, Expr.sizes_append] at h
    rw [numberAllFrom, numberAllFrom, List.map_cons, i.rename_numberFrom h.left, ih h.right]

theorem Item.numberAllFrom_append (n : Nat) (items items' : List Item) :
    numberAllFrom n (items ++ items') =
      numberAllFrom n items ++
        numberAllFrom (n + Expr.sizes (items.flatMap Item.exprs)) items' := by
  induction items generalizing n with
  | nil => rfl
  | cons i items ih =>
    rw [List.cons_append, numberAllFrom, ih, List.flatMap_cons, Expr.sizes_append, Nat.add_assoc]
    rfl

/-- Exchanges the `a` numbers from `n` on with the `b` numbers that follow them. -/
def exchange (n a b i : Nat) : Nat :=
  if i < n then i else if i < n + a then i + b else if i < n + a + b then i - a else i

section

variable (n a b : Nat)

theorem exchange_injective : Function.Injective (exchange n a b) := by
  intro i j h
  unfold exchange at h
  grind

theorem shifts_before {start size : Nat} (h : start + size ≤ n) :
    Shifts (exchange n a b) start start size := fun i hi => if_pos (by omega)

theorem shifts_first : Shifts (exchange n a b) n (n + b) a := by
  intro i hi
  rw [exchange, if_neg (by omega), if_pos (by omega)]
  exact Nat.add_right_comm n i b

theorem shifts_second : Shifts (exchange n a b) (n + a) n b := by
  intro i hi
  rw [exchange, if_neg (by omega), if_neg (by omega), if_pos (by omega), Nat.add_right_comm]
  exact Nat.add_sub_cancel (n + i) a

theorem shifts_after {start : Nat} (h : n + a + b ≤ start) (size : Nat) :
    Shifts (exchange n a b) start start size := by
  intro i hi
  rw [exchange, if_neg (by omega), if_neg (by omega), if_neg (by omega)]

end

/-- When neighbours change places, the numbers of the nodes in the two parts do so too, and
    nothing else happens. -/
theorem Swapped.numberAllFrom {items items' : List Item} (h : Swapped items items') :
    ∃ f, Function.Injective f ∧ ∃ swapped, Swapped (Item.numberAllFrom 0 items) swapped ∧
      Item.numberAllFrom 0 items' = swapped.map (·.rename f) := by
  cases h with
  | @intro front back a b hname =>
    let n := Expr.sizes (front.flatMap Item.exprs)
    let sa := Expr.sizes a.exprs
    let sb := Expr.sizes b.exprs
    refine ⟨exchange n sa sb, exchange_injective n sa sb,
      Item.numberAllFrom 0 front ++ b.numberFrom (n + sa) :: a.numberFrom n ::
        Item.numberAllFrom (n + sa + sb) back, ?_, ?_⟩
    · rw [Item.numberAllFrom_append, Item.numberAllFrom, Item.numberAllFrom, Nat.zero_add]
      exact .intro _ _ (by rwa [Item.methodName?_numberFrom, Item.methodName?_numberFrom])
    · -- What stands in front and behind keeps its numbers.
      have hfront := Item.rename_numberAllFrom front
        (shifts_before n sa sb (show 0 + n ≤ n by omega))
      have hback := Item.rename_numberAllFrom back (shifts_after n sa sb (Nat.le_refl _) _)
      rw [Item.numberAllFrom_append, Item.numberAllFrom, Item.numberAllFrom, Nat.zero_add,
        List.map_append,
        List.map_cons, List.map_cons, hfront, hback, a.rename_numberFrom (shifts_first n sa sb),
        b.rename_numberFrom (shifts_second n sa sb), Nat.add_right_comm n sb sa]

end UnionTyping
