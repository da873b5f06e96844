/-
  UnionTyping/Proofs/NodeMap.lean
  ===============================
  **Tables of nodes are maps.**

  In a table whose entries are in ascending order, changing the entry of a node
  changes what is found for this node and for no other (`find?_alter`), and keeps
  the order.
-/
import UnionTyping.NodeMap

namespace UnionTyping.NodeMap

variable {α : Type} {m : NodeMap α} {node n : NodeId} {f : Option α → α}

/-- The entries are in ascending order of the nodes, with no node twice. -/
def Ascending (m : NodeMap α) : Prop := m.entries.Pairwise fun p q => p.1 < q.1

theorem ascending_empty : (empty : NodeMap α).Ascending := List.Pairwise.nil

/-- An entry of a changed table was there, or is the new one. -/
theorem mem_alterEntries {es : List (NodeId × α)} {p : NodeId × α}
    (h : p ∈ alterEntries node f es) :
    p ∈ es ∨ p = (node, f none) ∨ ∃ a, (node, a) ∈ es ∧ p = (node, f (some a)) := by
  induction es with
  | nil => exact Or.inr (Or.inl (List.mem_singleton.mp h))
  | cons e es ih =>
    obtain ⟨k, a⟩ := e
    rw [alterEntries] at h
    split at h
    · rcases List.mem_cons.mp h with h | h
      · exact Or.inr (Or.inl h)
      · exact Or.inl h
    · split at h
      · rename_i heq
        rw [← heq] at h
        rcases List.mem_cons.mp h with h | h
        · exact Or.inr (Or.inr ⟨a, by rw [heq]; exact List.mem_cons_self, h⟩)
        · exact Or.inl (List.mem_cons_of_mem _ h)
      · rcases List.mem_cons.mp h with h | h
        · exact Or.inl (by rw [h]; exact List.mem_cons_self)
        · rcases ih h with h | h | ⟨b, hb, h⟩
          · exact Or.inl (List.mem_cons_of_mem _ h)
          · exact Or.inr (Or.inl h)
          · exact Or.inr (Or.inr ⟨b, List.mem_cons_of_mem _ hb, h⟩)

theorem fst_of_mem_alterEntries {es : List (NodeId × α)} {p : NodeId × α}
    (h : p ∈ alterEntries node f es) : p.1 = node ∨ p ∈ es := by
  rcases mem_alterEntries h with h | h | ⟨_, _, h⟩
  · exact Or.inr h
  · exact Or.inl (by rw [h])
  · exact Or.inl (by rw [h])

theorem Ascending.alter (h : m.Ascending) (node : NodeId) (f : Option α → α) :
    (m.alter node f).Ascending := by
  obtain ⟨es⟩ := m
  change (alterEntries node f es).Pairwise fun p q => p.1 < q.1
  change es.Pairwise fun p q => p.1 < q.1 at h
  induction es with
  | nil => exact List.pairwise_singleton _ _
  | cons e es ih =>
    obtain ⟨k, a⟩ := e
    obtain ⟨hk, hes⟩ := List.pairwise_cons.mp h
    rw [alterEntries]
    split
    · rename_i hlt
      refine List.pairwise_cons.mpr ⟨fun p hp => ?_, h⟩
      rcases List.mem_cons.mp hp with rfl | hp
      · exact hlt
      · exact Nat.lt_trans hlt (hk p hp)
    · rename_i hge
      split
      · exact List.pairwise_cons.mpr ⟨hk, hes⟩
      · rename_i hne
        refine List.pairwise_cons.mpr ⟨fun p hp => ?_, ih hes⟩
        rcases fst_of_mem_alterEntries hp with hp | hp
        · rw [hp]
          exact Nat.lt_of_le_of_ne (Nat.le_of_not_lt hge) (Ne.symm hne)
        · exact hk p hp

theorem Ascending.insert (h : m.Ascending) (node : NodeId) (a : α) : (m.insert node a).Ascending :=
  h.alter node _

theorem lookup_cons_eq {es : List (NodeId × α)} {k : NodeId} {a : α} :
    ((k, a) :: es).lookup n = if n = k then some a else es.lookup n := by
  rw [List.lookup_cons]
  by_cases h : n = k
  · rw [if_pos h, h, beq_self_eq_true]
  · rw [if_neg h, beq_eq_false_iff_ne.mpr h]

theorem lookup_eq_none_of_lt {es : List (NodeId × α)} (h : ∀ p ∈ es, n < p.1) :
    es.lookup n = none := by
  rw [List.lookup_eq_none_iff]
  intro p hp
  exact bne_iff_ne.mpr (Nat.ne_of_lt (h p hp))

/-- A change is found at its node, and nothing else changes. -/
theorem find?_alter (h : m.Ascending) :
    (m.alter node f).find? n = if n = node then some (f (m.find? node)) else m.find? n := by
  obtain ⟨es⟩ := m
  change (alterEntries node f es).lookup n =
    if n = node then some (f (es.lookup node)) else es.lookup n
  change es.Pairwise fun p q => p.1 < q.1 at h
  induction es with
  | nil => rw [alterEntries, lookup_cons_eq, List.lookup_nil, List.lookup_nil]
  | cons e es ih =>
    obtain ⟨k, a⟩ := e
    obtain ⟨hk, hes⟩ := List.pairwise_cons.mp h
    rw [alterEntries]
    by_cases hlt : node < k
    · have hnone : ((k, a) :: es).lookup node = none := by
        refine lookup_eq_none_of_lt fun p hp => ?_
        rcases List.mem_cons.mp hp with rfl | hp
        · exact hlt
        · exact Nat.lt_trans hlt (hk p hp)
      rw [if_pos hlt, hnone, lookup_cons_eq]
    · rw [if_neg hlt]
      by_cases hkey : node = k
      · rw [if_pos hkey, lookup_cons_eq, lookup_cons_eq, lookup_cons_eq, if_pos hkey, hkey]
        by_cases heq : n = k
        · rw [if_pos heq, if_pos heq]
        · rw [if_neg heq, if_neg heq, if_neg heq]
      · rw [if_neg hkey, lookup_cons_eq, lookup_cons_eq, lookup_cons_eq, ih hes, if_neg hkey]
        by_cases hnk : n = k
        · rw [if_pos hnk, if_pos hnk, if_neg (by rw [hnk]; exact Ne.symm hkey)]
        · rw [if_neg hnk, if_neg hnk]

theorem find?_insert (h : m.Ascending) {a : α} :
    (m.insert node a).find? n = if n = node then some a else m.find? n :=
  find?_alter h

theorem find?_map {β : Type} (g : α → β) : (m.map g).find? n = (m.find? n).map g := by
  obtain ⟨es⟩ := m
  change (es.map fun p => (p.1, g p.2)).lookup n = (es.lookup n).map g
  induction es with
  | nil => rfl
  | cons e es ih =>
    obtain ⟨k, a⟩ := e
    rw [List.map_cons, lookup_cons_eq, lookup_cons_eq, ih]
    by_cases h : n = k
    · rw [if_pos h, if_pos h, Option.map_some]
    · rw [if_neg h, if_neg h]

/-- A table that takes up the entries of another one. -/
theorem find?_foldl_alter {β : Type} {found : NodeMap β} (hfound : found.Ascending)
    (hm : m.Ascending) (g : β → Option α → α) :
    let merged := found.entries.foldl (fun m p => m.alter p.1 (g p.2)) m
    merged.Ascending ∧ merged.find? n =
      match found.find? n with
      | some b => some (g b (m.find? n))
      | none => m.find? n := by
  obtain ⟨es⟩ := found
  change es.Pairwise fun p q => p.1 < q.1 at hfound
  induction es generalizing m with
  | nil => exact ⟨hm, rfl⟩
  | cons e es ih =>
    obtain ⟨k, b⟩ := e
    obtain ⟨hk, hes⟩ := List.pairwise_cons.mp hfound
    obtain ⟨hasc, hfind⟩ := ih (hm.alter k (g b)) hes
    refine ⟨hasc, ?_⟩
    change _ = match ((k, b) :: es).lookup n with
      | some b => some (g b (m.find? n))
      | none => m.find? n
    rw [List.foldl_cons, hfind, find?_alter hm, lookup_cons_eq]
    change (match es.lookup n with | some b' => _ | none => _) = _
    by_cases h : n = k
    · have hnone : es.lookup n = none := lookup_eq_none_of_lt fun p hp => by
        rw [h]
        exact hk p hp
      rw [hnone, if_pos h, if_pos h, h]
    · rw [if_neg h, if_neg h]

/-- A table into which tables are put together holds for a node what all their entries for the
    node add up to. -/
theorem find?_gathered {β γ : Type} (table : γ → NodeMap β)
    (g : β → Option α → α) {us : List γ} (hus : ∀ u ∈ us, (table u).Ascending) (hm : m.Ascending) :
    (us.foldl (fun m u => (table u).entries.foldl (fun m p => m.alter p.1 (g p.2)) m) m).find? n =
      (us.filterMap fun u => (table u).find? n).foldl (fun known b => some (g b known))
        (m.find? n) := by
  induction us generalizing m with
  | nil => rfl
  | cons u us ih =>
    obtain ⟨hu, hus⟩ := List.forall_mem_cons.mp hus
    obtain ⟨hmerged, hfind⟩ := find?_foldl_alter (n := n) hu hm g
    rw [List.foldl_cons, ih hus hmerged, hfind]
    cases hb : (table u).find? n with
    | none => rw [List.filterMap_cons_none (f := fun u => (table u).find? n) hb]
    | some b => rw [List.filterMap_cons_some (f := fun u => (table u).find? n) hb, List.foldl_cons]

theorem foldl_some_eq_none_iff {α β : Type} (g : β → Option α → α) (bs : List β) :
    bs.foldl (fun known b => some (g b known)) none = none ↔ bs = [] := by
  have hsome : ∀ (bs : List β) (a : α),
      bs.foldl (fun known b => some (g b known)) (some a) ≠ none := by
    intro bs
    induction bs with
    | nil => exact fun a => Option.some_ne_none a
    | cons b bs ih => exact fun a => ih (g b (some a))
  cases bs with
  | nil => simp
  | cons b bs => simp [hsome]

/-- The table has an entry for the node when one of those has from which it was put together. -/
theorem exists_find?_gathered {β γ : Type} (table : γ → NodeMap β) (g : β → Option α → α)
    {us : List γ} (hus : ∀ u ∈ us, (table u).Ascending) :
    (∃ a, (us.foldl (fun m u => (table u).entries.foldl (fun m p => m.alter p.1 (g p.2)) m)
      empty).find? n = some a) ↔ ∃ u ∈ us, ∃ b, (table u).find? n = some b := by
  have hempty : (empty : NodeMap α).find? n = none := rfl
  rw [← Option.ne_none_iff_exists', find?_gathered table g hus ascending_empty, hempty, ne_eq,
    foldl_some_eq_none_iff, List.filterMap_eq_nil_iff]
  simp only [Classical.not_forall, exists_prop, ← ne_eq, Option.ne_none_iff_exists']

/-- Of the tables that are put together only the first has an entry for the node. -/
theorem find?_merged {β γ : Type} (table : γ → NodeMap β) (g : β → Option α → α) {u : γ}
    {us : List γ}
    (hu : (table u).Ascending)
    (hus : ∀ u ∈ us, (table u).Ascending ∧ (table u).find? n = none) :
    ((u :: us).foldl (fun m u => (table u).entries.foldl (fun m p => m.alter p.1 (g p.2)) m)
      empty).find? n = ((table u).find? n).map fun b => g b none := by
  have hnone : (us.filterMap fun u => (table u).find? n) = [] :=
    List.filterMap_eq_nil_iff.mpr fun u hu => (hus u hu).2
  rw [find?_gathered table g (List.forall_mem_cons.mpr ⟨hu, fun u hu => (hus u hu).1⟩)
    ascending_empty]
  cases hfound : (table u).find? n with
  | none =>
    rw [List.filterMap_cons_none (f := fun u => (table u).find? n) hfound, hnone]
    rfl
  | some b =>
    rw [List.filterMap_cons_some (f := fun u => (table u).find? n) hfound, hnone]
    rfl

theorem mem_of_find?_eq_some {a : α} (h : m.find? n = some a) : (n, a) ∈ m.entries := by
  obtain ⟨l₁, l₂, heq, _⟩ := List.lookup_eq_some_iff.mp h
  rw [heq]
  exact List.mem_append_right _ List.mem_cons_self

end UnionTyping.NodeMap
