/-
  UnionTyping/Proofs/ClassTree.lean
  =================================
  **Classes form a tree, and both ways of walking up it agree.**

  Whatever is declared, in whatever order and with whatever failures, the table of classes
  stays sound: names are not used twice and superclasses come first (`Globals.sound_of_performAll`).
  Going from a class to its superclass thus lowers its place in the table, and the walk up ends
  (`Ascends`, `Sound.ascends_ancestors`).  The ancestors of a class are what is visited on it.
  The search for another class by name (`Search`) visits the same classes, so it ends as well, and
  it finds exactly the ancestors (`Sound.search_iff`, `Sound.isSubclass_iff_ancestor`).
-/
import UnionTyping.Globals
import UnionTyping.Proofs.Assignable
import UnionTyping.Proofs.Classes

namespace UnionTyping

/-! ### Walking up -/

/-- Going up from `x` as long as there is something above visits these, in order. -/
inductive Ascends {α : Type} (up : α → Option α) : α → List α → Prop where
  | root {x : α} (top : up x = none) : Ascends up x [x]
  | step {x y : α} {walk : List α} (above : up x = some y) (rest : Ascends up y walk) :
    Ascends up x (x :: walk)

/-- Going up from a name until `sup` is met or nothing is above ends with this answer. -/
inductive Search (up : String → Option String) (sup : String) : String → Bool → Prop where
  | found : Search up sup sup true
  | root {name : String} (other : name ≠ sup) (top : up name = none) : Search up sup name false
  | step {name parent : String} {answer : Bool} (other : name ≠ sup)
      (above : up name = some parent) (rest : Search up sup parent answer) :
    Search up sup name answer

namespace Ascends

variable {α β : Type} {up : α → Option α} {x : α} {walk walk' : List α}

theorem unique (h : Ascends up x walk) (h' : Ascends up x walk') : walk = walk' := by
  induction h generalizing walk' with
  | root htop =>
    cases h' with
    | root => rfl
    | step above => cases htop.symm.trans above
  | step habove _ ih =>
    cases h' with
    | root htop => cases htop.symm.trans habove
    | step habove' hrest' =>
      cases habove.symm.trans habove'
      rw [ih hrest']

/-- A walk is mapped to one in a place where going up does the same. -/
theorem map {f : α → β} {up' : β → Option β} (h : Ascends up x walk)
    (hsame : ∀ y ∈ walk, up' (f y) = (up y).map f) : Ascends up' (f x) (walk.map f) := by
  induction h with
  | root htop =>
    refine .root ?_
    rw [hsame _ List.mem_cons_self, htop, Option.map_none]
  | step habove _ ih =>
    refine .step ?_ (ih fun y hy => hsame y (List.mem_cons_of_mem _ hy))
    rw [hsame _ List.mem_cons_self, habove, Option.map_some]

/-- A search comes to an end where the walk does, and finds what is visited on it. -/
theorem search_iff {up : String → Option String} {sub sup : String} {walk : List String}
    {answer : Bool} (h : Ascends up sub walk) :
    Search up sup sub answer ↔ walk.contains sup = answer := by
  have hhere : ∀ rest : List String, (sup :: rest).contains sup = true := by simp
  have hother : ∀ {name : String} (rest : List String), name ≠ sup →
      (name :: rest).contains sup = rest.contains sup := by
    intro name rest hne
    simp [hne.symm]
  constructor
  · intro hsearch
    induction hsearch generalizing walk with
    | found => cases h <;> exact hhere _
    | root hne htop =>
      cases h with
      | root => exact hother [] hne
      | step habove => cases htop.symm.trans habove
    | step hne habove _ ih =>
      cases h with
      | root htop => cases htop.symm.trans habove
      | step habove' hrest =>
        cases habove.symm.trans habove'
        rw [hother _ hne]
        exact ih hrest
  · rintro rfl
    induction h with
    | @root name htop =>
      by_cases hname : name = sup
      · subst hname
        rw [hhere]
        exact .found
      · rw [hother _ hname]
        exact .root hname htop
    | @step name _ _ habove _ ih =>
      by_cases hname : name = sup
      · subst hname
        rw [hhere]
        exact .found
      · rw [hother _ hname]
        exact .step hname habove ih

end Ascends

/-! ### Sound tables -/

namespace ClassTable

variable {t : ClassTable} {id : ClassId}

def superclassOf (t : ClassTable) (name : String) : Option String :=
  (t.lookup name).bind fun id => (t.parent? id).map t.nameOf

namespace Sound

/-- Each name is that of the class that is found under it. -/
theorem lookup_iff (h : t.Sound) {name : String} :
    t.lookup name = some id ↔ ∃ c, t.classes[id]? = some c ∧ c.name = name := by
  constructor
  · exact exists_of_lookup
  · rintro ⟨c, hc, rfl⟩
    exact h.lookup_eq hc

/-- No class is its own ancestor, as going up leads to a class that was declared before. -/
theorem acyclic (h : t.Sound) : t.hierarchy.Acyclic := by
  refine Hierarchy.acyclic_of_rank (fun name => (t.lookup name).getD 0) ?_
  rintro e he parent hparent
  obtain ⟨c, hc, rfl⟩ := List.mem_map.mp he
  obtain ⟨id, hid⟩ := List.getElem?_of_mem (List.mem_reverse.mp hc)
  obtain ⟨parentId, hsuper, rfl⟩ := Option.map_eq_some_iff.mp hparent
  have hlt := h.older id c parentId hid hsuper
  have hlt' := Nat.lt_trans hlt (List.getElem?_eq_some_iff.mp hid).1
  rw [h.lookup_eq hid, h.lookup_nameOf hlt']
  exact hlt

/-! #### Both walks -/

theorem ascends_ancestors (h : t.Sound) (id : ClassId) :
    Ascends t.parent? id (t.ancestors id) := by
  induction id using Nat.strongRecOn with
  | ind id ih =>
    cases hparent : t.parent? id with
    | none =>
      rw [ancestors_of_root hparent]
      exact .root hparent
    | some parent =>
      rw [h.ancestors_of_parent (lt_of_parent? hparent) hparent]
      exact .step hparent (ih parent (h.parent_lt hparent))

theorem superclassOf_nameOf (h : t.Sound) (hid : id < t.classes.length) :
    t.superclassOf (t.nameOf id) = (t.parent? id).map t.nameOf := by
  rw [superclassOf, h.lookup_nameOf hid, Option.bind_some]

/-- The walk from a name visits what is on its chain in the hierarchy. -/
theorem ascends_chain (h : t.Sound) (name : String) :
    Ascends t.superclassOf name (t.hierarchy.chain name) := by
  cases hid : t.lookup name with
  | none =>
    rw [chain_of_lookup_eq_none hid]
    exact .root (by rw [superclassOf, hid, Option.bind_none])
  | some id =>
    have hlt := lookup_lt hid
    rw [← nameOf_lookup hid, h.chain_nameOf hlt]
    exact (h.ascends_ancestors id).map fun ancestor hancestor =>
      h.superclassOf_nameOf (Nat.lt_of_le_of_lt (h.le_of_mem_ancestors hlt hancestor) hlt)

theorem search_iff (h : t.Sound) {sub sup : String} {answer : Bool} :
    Search t.superclassOf sup sub answer ↔ t.hierarchy.isSubclass sub sup = answer :=
  (h.ascends_chain sub).search_iff

/-- Between declared classes the names tell the ancestors. -/
theorem isSubclass_iff_ancestor (h : t.Sound) {sub sup : String} {id ancestor : ClassId}
    (hsub : t.lookup sub = some id) (hsup : t.lookup sup = some ancestor) :
    t.hierarchy.isSubclass sub sup = true ↔ ancestor ∈ t.ancestors id := by
  constructor
  · intro hbelow
    obtain ⟨ancestor', hancestor, hsup'⟩ := h.exists_ancestor_of_isSubclass hsub hbelow
    cases hsup.symm.trans hsup'
    exact hancestor
  · intro hancestor
    rw [Hierarchy.isSubclass, List.contains_iff_mem, ← nameOf_lookup hsub,
      h.chain_nameOf (lookup_lt hsub), ← nameOf_lookup hsup]
    exact List.mem_map_of_mem hancestor

end Sound

end ClassTable

/-! ### Sequences of declarations -/

namespace Globals

variable {g g' : Globals} {declarations : List Declaration} {replies : List Reply}

/-- A declaration keeps the table sound, and so does one that fails. -/
theorem Performs.sound {d : Declaration} {reply : Reply} (hstep : g.Performs d reply g')
    (h : g.classes.Sound) : g'.classes.Sound := by
  cases hstep with
  | declared hallowed hopen => exact (h.openClass (fun hnew => hallowed fun _ => hnew) hopen).1
  | failed hallowed hopen => exact (h.openClass (fun hnew => hallowed fun _ => hnew) hopen).1
  | library => exact h
  | added => exact h

theorem sound_of_performAll (hrun : initial.performAll declarations = some (replies, g)) :
    g.classes.Sound :=
  performAll_keeps (fun _ _ _ _ h hstep => hstep.sound h) hrun ClassTable.sound_builtins

end Globals

end UnionTyping
