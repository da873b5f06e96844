/-
  UnionTyping/Proofs/Syntax/Loops.lean
  ====================================
  **Inside of loops and blocks.**

  Of the children of an expression some are `repeated`, the body of a loop and that of a
  block, and the others are not (`looseChildren`); the condition of a loop is not.  A node is
  loose in an expression when no step on the way down to it leads into something repeated
  (`Loose`), and enclosed when one does (`Enclosed`).  Every node below is one or the other,
  and where all nodes have different numbers it is not both (`Loose.not_enclosed`).
-/
import UnionTyping.Proofs.Syntax.Numbering

namespace UnionTyping

namespace Expr

/-! ### Two kinds of children -/

/-- The children that are not in the body of a loop or of a block. -/
def looseChildren : Expr → List Expr
  | call _ receiver _ args _ _ => receiver.toList ++ args
  | loop _ cond _ => [cond]
  | e => e.children

/-- The children that `break` and `next` may speak of. -/
def repeated : Expr → List Expr
  | call _ _ _ _ block _ => Block.bodyOf block
  | loop _ _ body => body
  | _ => []

theorem children_eq (e : Expr) : e.children = e.looseChildren ++ e.repeated := by
  cases e <;> simp [children, looseChildren, repeated]

theorem mem_children_of_loose {e child : Expr} (h : child ∈ e.looseChildren) :
    child ∈ e.children := by
  rw [children_eq]
  exact List.mem_append_left _ h

/-! ### Loose and enclosed nodes -/

/-- The node is in the expression, and in no body of a loop or of a block in it. -/
inductive Loose (n : Expr) : Expr → Prop where
  | self : Loose n n
  | part {e child : Expr} (mem : child ∈ e.looseChildren) (below : Loose n child) : Loose n e

def Enclosed (n e : Expr) : Prop := ∃ l ∈ e.nodes, n ∈ nodesOf l.repeated

variable {n e : Expr}

theorem Loose.mem_nodes (h : Loose n e) : n ∈ e.nodes := by
  induction h with
  | self => simp [nodes_eq]
  | part hmem _ ih =>
    rw [nodes_eq]
    exact List.mem_cons_of_mem _ (mem_nodesOf_iff.mpr ⟨_, mem_children_of_loose hmem, ih⟩)

/-- What is below a child is below the node. -/
theorem mem_nodes_of_mem_children {child : Expr} (hchild : child ∈ e.children)
    (hn : n ∈ child.nodes) : n ∈ e.nodes := by
  rw [nodes_eq]
  exact List.mem_cons_of_mem _ (mem_nodesOf_iff.mpr ⟨child, hchild, hn⟩)

/-- What is in something repeated is below its node. -/
theorem mem_nodesOf_children {l : Expr} (hl : l ∈ e.nodes) (hn : n ∈ nodesOf l.repeated) :
    n ∈ nodesOf e.children := by
  have hbelow : n ∈ nodesOf l.children := by
    rw [children_eq, nodesOf_append]
    exact List.mem_append_right _ hn
  rw [nodes_eq] at hl
  rcases List.mem_cons.mp hl with rfl | hl
  · exact hbelow
  · apply mem_nodesOf_trans hl
    rw [nodes_eq]
    exact List.mem_cons_of_mem _ hbelow

theorem Enclosed.mem_nodes (h : Enclosed n e) : n ∈ e.nodes := by
  obtain ⟨l, hl, hn⟩ := h
  rw [nodes_eq]
  exact List.mem_cons_of_mem _ (mem_nodesOf_children hl hn)

/-- A node of the expression is loose in it or enclosed in it. -/
theorem loose_or_enclosed {n e : Expr} (hn : n ∈ e.nodes) : Loose n e ∨ Enclosed n e := by
  rw [nodes_eq] at hn
  rcases List.mem_cons.mp hn with rfl | hn
  · exact .inl .self
  · rw [children_eq, nodesOf_append, List.mem_append] at hn
    rcases hn with hn | hn
    · obtain ⟨child, hchild, hn⟩ := mem_nodesOf_iff.mp hn
      have hmem := mem_children_of_loose hchild
      have hlt := size_lt_of_mem_children hmem
      rcases loose_or_enclosed hn with hloose | ⟨l, hl, hbelow⟩
      · exact .inl (.part hchild hloose)
      · exact .inr ⟨l, mem_nodes_of_mem_children hmem hl, hbelow⟩
    · exact .inr ⟨e, by simp [nodes_eq], hn⟩
termination_by e.size

/-- Where all nodes have different numbers, different expressions share none. -/
theorem eq_of_shared {es : List Expr} (h : (ids es).Nodup) {e' k : Expr} (he : e ∈ es)
    (he' : e' ∈ es) (hn : n ∈ e.nodes) (hk : k ∈ e'.nodes) (hid : n.id = k.id) : e = e' := by
  have hsingle : (ids (es.flatMap fun e => [e])).Nodup := by rwa [List.flatMap_singleton']
  by_contra hne
  exact ne_of_nodup_ids hsingle he he' hne
    (mem_nodesOf_iff.mpr ⟨e, List.mem_singleton_self e, hn⟩)
    (mem_nodesOf_iff.mpr ⟨e', List.mem_singleton_self e', hk⟩) hid

/-- A loose node has another number than all that is enclosed. -/
theorem Loose.id_ne {k : Expr} (h : Loose n e) (hids : (e.nodes.map id).Nodup)
    (hk : Enclosed k e) : n.id ≠ k.id := by
  obtain ⟨l, hl, hk⟩ := hk
  induction h with
  | self => exact (id_ne_of_mem_below hids (mem_nodesOf_children hl hk)).symm
  | @part e child hmem hloose ih =>
    rw [nodes_eq] at hl
    have hparts : (ids e.children).Nodup := by
      rw [map_id_nodes] at hids
      exact (List.nodup_cons.mp hids).2
    rcases List.mem_cons.mp hl with rfl | hl
    · -- The repeated children of the node itself stand beside the loose ones.
      rw [children_eq, ids_append] at hparts
      have hn : n.id ∈ ids l.looseChildren :=
        mem_ids_of_mem (mem_nodesOf_iff.mpr ⟨child, hmem, hloose.mem_nodes⟩)
      intro heq
      exact (List.nodup_append.mp hparts).2.2 _ hn _ (mem_ids_of_mem hk) heq
    · obtain ⟨child', hchild', hl⟩ := mem_nodesOf_iff.mp hl
      intro hid
      have hk' : k ∈ child'.nodes := by
        rw [nodes_eq]
        exact List.mem_cons_of_mem _ (mem_nodesOf_children hl hk)
      have hsame : child = child' :=
        eq_of_shared hparts (mem_children_of_loose hmem) hchild' hloose.mem_nodes hk' hid
      subst hsame
      have hchild : child ∈ nodesOf e.children :=
        mem_nodesOf_iff.mpr ⟨child, hchild', by simp [nodes_eq]⟩
      exact ih (nodup_nodes hparts hchild) hl hid

theorem Loose.not_enclosed (h : Loose n e) (hids : (e.nodes.map id).Nodup) : ¬ Enclosed n e :=
  fun henclosed => h.id_ne hids henclosed rfl

/-! ### Where `break` and `next` stand -/

/-- Each `break` and `next` of the expression is in the body of a loop or of a block in it. -/
def Contained (e : Expr) : Prop := ∀ m keyword, ¬ Loose (.control m keyword) e

namespace Contained

theorem enclosed (h : e.Contained) {m : Mark} {keyword : LoopControl}
    (hn : .control m keyword ∈ e.nodes) : Enclosed (.control m keyword) e :=
  (loose_or_enclosed hn).resolve_left (h m keyword)

theorem of_enclosed (hids : (e.nodes.map id).Nodup)
    (h : ∀ m keyword, .control m keyword ∈ e.nodes → Enclosed (.control m keyword) e) :
    e.Contained :=
  fun m keyword hloose => hloose.not_enclosed hids (h m keyword hloose.mem_nodes)

/-- An expression that is none itself, and in whose children all are. -/
theorem node (hself : ∀ m keyword, .control m keyword ≠ e)
    (hparts : ∀ child ∈ e.looseChildren, child.Contained) : e.Contained := by
  intro m keyword hloose
  cases hloose with
  | self => exact hself m keyword rfl
  | part hmem hbelow => exact hparts _ hmem m keyword hbelow

/-- An expression that has no child outside of blocks. -/
theorem leaf (hself : ∀ m keyword, .control m keyword ≠ e) (hchildren : e.looseChildren = []) :
    e.Contained := by
  apply node hself
  rw [hchildren]
  exact List.forall_mem_nil _

end Contained

end Expr

namespace Program

variable {p : Program}

/-- The node is in the body of a loop or of a block, within one expression outside of
    declarations, of the body of a method, or for a default value. -/
def Encloses (p : Program) (n : Expr) : Prop := ∃ i ∈ p.items, ∃ e ∈ i.exprs, Expr.Enclosed n e

theorem encloses_iff {n : Expr} :
    p.Encloses n ↔ ∃ e ∈ p.items.flatMap Item.exprs, Expr.Enclosed n e := by
  constructor
  · rintro ⟨i, hi, e, he, henclosed⟩
    exact ⟨e, List.mem_flatMap.mpr ⟨i, hi, he⟩, henclosed⟩
  · rintro ⟨e, he, henclosed⟩
    obtain ⟨i, hi, he⟩ := List.mem_flatMap.mp he
    exact ⟨i, hi, e, he, henclosed⟩

/-- Where each `break` and `next` is enclosed somewhere, each is so in the expression that it
    stands in. -/
theorem contained_of_encloses (hids : (p.nodes.map Expr.id).Nodup)
    (h : ∀ m keyword, .control m keyword ∈ p.nodes → p.Encloses (.control m keyword)) {e : Expr}
    (he : e ∈ p.items.flatMap Item.exprs) : e.Contained := by
  have hnodes : ∀ n ∈ e.nodes, n ∈ p.nodes := fun n hn => Expr.mem_nodesOf_iff.mpr ⟨e, he, hn⟩
  have hself : e ∈ e.nodes := by simp [Expr.nodes_eq]
  refine .of_enclosed (Expr.nodup_nodes hids (hnodes e hself)) fun m keyword hn => ?_
  obtain ⟨e', he', henclosed⟩ := encloses_iff.mp (h m keyword (hnodes _ hn))
  have hn' : .control m keyword ∈ e'.nodes := henclosed.mem_nodes
  rw [Expr.eq_of_shared hids he he' hn hn' rfl]
  exact henclosed

end Program

end UnionTyping
