/-
  UnionTyping/Proofs/Inference/Merging.lean
  =========================================
  **The report holds what all units have found.**

  A node that several units have checked is reported with the union of the types that they
  noted for it (`Engine.find?_types`), and with the calls of all of them
  (`Engine.find?_calls`).
-/
import UnionTyping.Proofs.Inference.Accepted
import UnionTyping.Proofs.Ty.Cover

namespace UnionTyping

open Ty (Over Proper Known)

namespace Engine

variable {env : Env} {e : Engine}

/-! ### Types -/

def notedTypes (e : Engine) (node : NodeId) : List Ty :=
  e.units.filterMap fun u => u.types.find? node

/-- A node is reported with the union of the types that were noted for it. -/
theorem find?_types (htypes : ∀ u ∈ e.units, u.types.Ascending) (node : NodeId) :
    (e.report env).types.find? node =
      if e.notedTypes node = [] then none else some (Ty.unionAll (e.notedTypes node)).settled := by
  have hgathered := NodeMap.find?_gathered (n := node) UnitRecord.types
    (fun ty (known : Option Ty) => (known.getD .unresolved).union ty) htypes
    NodeMap.ascending_empty
  change (NodeMap.map Ty.settled (e.units.foldl mergeTypes .empty)).find? node = _
  rw [NodeMap.find?_map]
  refine (congrArg (Option.map Ty.settled) hgathered).trans ?_
  change Option.map Ty.settled ((e.notedTypes node).foldl _ none) = _
  have hsome : ∀ (ts : List Ty) (a : Ty),
      ts.foldl (fun known b => some ((Option.getD known .unresolved).union b)) (some a) =
        some (ts.foldl Ty.union a) := by
    intro ts
    induction ts with
    | nil => exact fun _ => rfl
    | cons t ts ih => exact fun a => ih (a.union t)
  cases e.notedTypes node with
  | nil => rfl
  | cons t ts =>
    rw [List.foldl_cons, hsome, if_neg (List.cons_ne_nil t ts)]
    rfl

/-- A type is reported for a node when a unit has noted one. -/
theorem typed_iff (htypes : ∀ u ∈ e.units, u.types.Ascending) (node : NodeId) :
    (∃ t, (e.report env).types.find? node = some t) ↔
      ∃ u ∈ e.units, ∃ t, u.types.find? node = some t := by
  have hgathered := NodeMap.exists_find?_gathered (n := node) UnitRecord.types
    (fun ty (known : Option Ty) => (known.getD .unresolved).union ty) htypes
  change (∃ t, (NodeMap.map Ty.settled (e.units.foldl mergeTypes .empty)).find? node = some t) ↔ _
  simp only [NodeMap.find?_map, Option.map_eq_some_iff]
  constructor
  · rintro ⟨_, t, ht, _⟩
    exact hgathered.mp ⟨t, ht⟩
  · intro hnoted
    obtain ⟨t, ht⟩ := hgathered.mpr hnoted
    exact ⟨t.settled, t, ht, rfl⟩

/-! ### Calls -/

def notedCalls (e : Engine) (node : NodeId) : List Resolution :=
  e.units.flatMap fun u => (u.calls.find? node).getD []

theorem addCalls_append (known xs ys : List Resolution) :
    addCalls known (xs ++ ys) = addCalls (addCalls known xs) ys := by
  induction xs generalizing known with
  | nil => rfl
  | cons x xs ih => rw [List.cons_append, addCalls, addCalls, ih]

theorem subset_addCalls (known found : List Resolution) : known ⊆ addCalls known found := by
  induction found generalizing known with
  | nil => exact List.Subset.refl known
  | cons x found ih =>
    refine List.Subset.trans ?_ (ih _)
    split
    · exact List.Subset.refl known
    · exact List.subset_append_left known [x]

/-- A call that is added is there then, or one that cannot be told from it. -/
theorem exists_of_mem_addCalls {known found : List Resolution} {call : Resolution}
    (h : call ∈ found) : ∃ k ∈ addCalls known found, k = call ∨ (k == call) = true := by
  induction found generalizing known with
  | nil => cases h
  | cons x found ih =>
    rw [addCalls]
    rcases List.mem_cons.mp h with rfl | h
    · split
      · rename_i hany
        obtain ⟨k, hk, hsame⟩ := List.any_eq_true.mp hany
        exact ⟨k, subset_addCalls _ _ hk, Or.inr hsame⟩
      · exact ⟨call, subset_addCalls _ _ (List.mem_append_right _ List.mem_cons_self), Or.inl rfl⟩
    · exact ih h

/-- A node is reported with the calls that were noted for it, each once. -/
theorem find?_calls (hcalls : ∀ u ∈ e.units, u.calls.Ascending) (node : NodeId) :
    ((e.report env).calls.find? node).getD [] =
      addCalls [] ((e.notedCalls node).map e.finalCall) := by
  have hgathered := NodeMap.find?_gathered (n := node) UnitRecord.calls
    (fun found (known : Option (List Resolution)) =>
      addCalls (known.getD []) (found.map e.finalCall)) hcalls NodeMap.ascending_empty
  change ((e.units.foldl e.mergeCalls .empty).find? node).getD [] = _
  refine (congrArg (Option.getD · []) hgathered).trans ?_
  have hfold : ∀ (us : List UnitRecord) (known : Option (List Resolution)),
      ((us.filterMap fun u => u.calls.find? node).foldl
        (fun known found => some (addCalls (known.getD []) (found.map e.finalCall)))
          known).getD [] =
        addCalls (known.getD [])
          ((us.flatMap fun u => (u.calls.find? node).getD []).map e.finalCall) := by
    intro us
    induction us with
    | nil => exact fun _ => rfl
    | cons u us ih =>
      intro known
      rw [List.flatMap_cons, List.map_append, addCalls_append]
      cases hfound : u.calls.find? node with
      | none =>
        rw [List.filterMap_cons_none (f := fun u : UnitRecord => u.calls.find? node) hfound, ih]
        rfl
      | some found =>
        rw [List.filterMap_cons_some (f := fun u : UnitRecord => u.calls.find? node) hfound,
          List.foldl_cons, ih]
        rfl
  exact hfold e.units none

/-- Calls are reported for a node when a unit has noted some. -/
theorem called_iff (hcalls : ∀ u ∈ e.units, u.calls.Ascending) (node : NodeId) :
    (∃ calls, (e.report env).calls.find? node = some calls) ↔
      ∃ u ∈ e.units, ∃ calls, u.calls.find? node = some calls :=
  NodeMap.exists_find?_gathered UnitRecord.calls
    (fun found (known : Option (List Resolution)) =>
      addCalls (known.getD []) (found.map e.finalCall)) hcalls

/-- A call that a unit has noted is reported in its final form. -/
theorem exists_reported (hcalls : ∀ u ∈ e.units, u.calls.Ascending) {u : UnitRecord}
    (hu : u ∈ e.units) {node : NodeId} {call : Resolution}
    (hcall : call ∈ (u.calls.find? node).getD []) :
    ∃ k ∈ ((e.report env).calls.find? node).getD [],
      k = e.finalCall call ∨ (k == e.finalCall call) = true := by
  rw [find?_calls hcalls]
  exact exists_of_mem_addCalls (List.mem_map_of_mem (List.mem_flatMap.mpr ⟨u, hu, hcall⟩))

end Engine

end UnionTyping
