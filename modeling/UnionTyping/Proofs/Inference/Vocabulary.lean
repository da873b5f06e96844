/-
  UnionTyping/Proofs/Inference/Vocabulary.lean
  ============================================
  **What may occur in an expression.**

  Many facts about the check of an expression hold for expressions that keep to
  certain names, written types and node numbers, or that take no addresses of
  variables.  A `Vocabulary` collects these conditions; an expression speaks it
  when each of its nodes does.
-/
import UnionTyping.Inference.Fixpoint
import UnionTyping.Syntax.Nodes

namespace UnionTyping

/-- Whether a node takes the address of something, `receiver.ptr`. -/
def Expr.takesAddress : Expr → Bool
  | call _ receiver name _ _ _ => receiver.isSome && name == "ptr"
  | _ => false

/-- The numbers of nodes, names of variables, calls with a block and written types
    that may occur, and whether addresses of variables may be taken. -/
structure Vocabulary where
  ids : NodeId → Prop
  names : String → Prop
  blocks : NodeId → Prop
  refs : TypeRef → Prop
  pointers : Prop

namespace Vocabulary

def full : Vocabulary := ⟨fun _ => True, fun _ => True, fun _ => True, fun _ => True, True⟩

def only (ids : NodeId → Prop) : Vocabulary := { full with ids }

def fits (v : Vocabulary) : Expr → Prop
  | .ivar _ name => v.names name
  | .assign _ target _ | .opAssign _ target _ _ | .out _ target => v.names target.name
  | .path _ ref => v.refs ref
  | .call m receiver name _ block _ =>
    (receiver.isSome → name = "ptr" → v.pointers) ∧
      ∀ params body, block = some (.mk params body) → v.blocks m.id ∧ ∀ p ∈ params, v.names p
  | .literal _ _ | .ident _ _ | .connect _ _ _ _ | .ite _ _ _ _ | .loop _ _ _ | .control _ _ => True

def admits (v : Vocabulary) (n : Expr) : Prop := v.ids n.id ∧ v.fits n

def speaks (v : Vocabulary) (nodes : List Expr) : Prop := ∀ n ∈ nodes, v.admits n

variable {v : Vocabulary}

theorem speaks_full (nodes : List Expr) : full.speaks nodes := by
  intro n _
  refine ⟨trivial, ?_⟩
  cases n with
  | call => exact ⟨fun _ _ => trivial, fun _ _ _ => ⟨trivial, fun _ _ => trivial⟩⟩
  | _ => exact trivial

theorem speaks_only {ids : NodeId → Prop} {nodes : List Expr} (h : ∀ n ∈ nodes, ids n.id) :
    (only ids).speaks nodes :=
  fun n hn => ⟨h n hn, (speaks_full nodes n hn).2⟩

theorem speaks_append {as bs : List Expr} : v.speaks (as ++ bs) ↔ v.speaks as ∧ v.speaks bs := by
  simp only [speaks, List.mem_append, or_imp, forall_and]

theorem speaks_cons {n : Expr} {ns : List Expr} :
    v.speaks (n :: ns) ↔ v.admits n ∧ v.speaks ns := by
  simp only [speaks, List.mem_cons, forall_eq_or_imp]

theorem speaks_nodes {e : Expr} :
    v.speaks e.nodes ↔ v.admits e ∧ v.speaks (Expr.nodesOf e.children) := by
  rw [Expr.nodes_eq, speaks_cons]

theorem speaks_nodesOf_cons {e : Expr} {es : List Expr} :
    v.speaks (Expr.nodesOf (e :: es)) ↔ v.speaks e.nodes ∧ v.speaks (Expr.nodesOf es) := by
  rw [Expr.nodesOf, speaks_append]

/-- The parts of a call without receiver. -/
theorem speaks_callSelf {m : Mark} {name : String} {args : List Expr} {block : Option Block}
    {parens : Bool} :
    v.speaks (Expr.nodesOf (Expr.call m none name args block parens).children) ↔
      v.speaks (Expr.nodesOf args) ∧ v.speaks (Expr.nodesOf (Block.bodyOf block)) := by
  simp only [Expr.children, Option.toList_none, List.nil_append, Expr.nodesOf_append, speaks_append]

/-- The parts of a call on a receiver. -/
theorem speaks_call {m : Mark} {receiver : Expr} {name : String} {args : List Expr}
    {block : Option Block} {parens : Bool} :
    v.speaks (Expr.nodesOf (Expr.call m (some receiver) name args block parens).children) ↔
      v.speaks receiver.nodes ∧ v.speaks (Expr.nodesOf args) ∧
        v.speaks (Expr.nodesOf (Block.bodyOf block)) := by
  simp only [Expr.children, Option.toList_some, List.cons_append, List.nil_append,
    speaks_nodesOf_cons, Expr.nodesOf_append, speaks_append]

theorem admits_of_speaks {e : Expr} (h : v.speaks e.nodes) : v.admits e :=
  (speaks_nodes.mp h).1

theorem ids_of_speaks {e : Expr} (h : v.speaks e.nodes) : v.ids e.id :=
  (admits_of_speaks h).1

end Vocabulary

def Vocabulary.speaksDef (v : Vocabulary) (d : Def) : Prop :=
  (∀ p ∈ d.params, v.names p.name) ∧ v.speaks (Expr.nodesOf d.exprs)

theorem Vocabulary.speaksDef_full (d : Def) : full.speaksDef d :=
  ⟨fun _ _ => trivial, speaks_full _⟩

theorem Expr.mem_nodes_self (e : Expr) : e ∈ e.nodes := by
  rw [Expr.nodes_eq]
  exact List.mem_cons_self

theorem Expr.mem_nodesOf {e : Expr} {es : List Expr} (h : e ∈ es) : e ∈ Expr.nodesOf es := by
  induction es with
  | nil => cases h
  | cons e' es ih =>
    rw [Expr.nodesOf, List.mem_append]
    rcases List.mem_cons.mp h with rfl | h
    · exact Or.inl e.mem_nodes_self
    · exact Or.inr (ih h)

theorem Expr.outTarget?_eq_some {e : Expr} {target : Target} (h : e.outTarget? = some target) :
    ∃ m, e = .out m target := by
  cases e with
  | out m t =>
    cases h
    exact ⟨m, rfl⟩
  | _ => simp [Expr.outTarget?] at h

def Vocabulary.speaksUnit (v : Vocabulary) (env : Env) : Option Instantiation → Prop
  | none => v.speaks (Expr.nodesOf env.topLevel)
  | some key => ∀ m, env.methods.get? key.method = some m → v.speaksDef m.definition

theorem Vocabulary.speaksUnit_full (env : Env) (key : Option Instantiation) :
    full.speaksUnit env key := by
  cases key with
  | none => exact speaks_full _
  | some key => exact fun m _ => speaksDef_full m.definition

/-- All nodes are among those that are not restricted. -/
theorem Vocabulary.speaksUnit_any (env : Env) (key : Option Instantiation) :
    (only fun _ => True).speaksUnit env key := by
  cases key with
  | none => exact speaks_only fun _ _ => trivial
  | some key => exact fun m _ => ⟨fun _ _ => trivial, speaks_only fun _ _ => trivial⟩

/-! ### What a program declares -/

/-- Two environments with the same declarations, whatever their settings. -/
structure Env.SameDeclarations (env env' : Env) : Prop where
  classes : env'.classes = env.classes
  hierarchy : env'.hierarchy = env.hierarchy
  libraries : env'.libraries = env.libraries
  methods : env'.methods = env.methods
  topLevel : env'.topLevel = env.topLevel

namespace Env.SameDeclarations

variable {env env' : Env}

theorem refl (env : Env) : env.SameDeclarations env := ⟨rfl, rfl, rfl, rfl, rfl⟩

theorem candidates (h : env.SameDeclarations env') (t : Ty) (name : String) :
    env'.candidates t name = env.candidates t name := by
  unfold Env.candidates
  rw [h.classes, h.methods]

theorem receiverKind (h : env.SameDeclarations env') (e : Expr) :
    env'.receiverKind e = env.receiverKind e := by
  unfold Env.receiverKind
  rw [h.classes, h.libraries]

end Env.SameDeclarations

namespace Methods

theorem mem_addUnhidden {found es : List MethodEntry} {entry : MethodEntry}
    (h : entry ∈ addUnhidden found es) : entry ∈ found ∨ entry ∈ es := by
  induction es generalizing found with
  | nil => exact Or.inl h
  | cons e es ih =>
    rw [addUnhidden] at h
    rcases ih h with hf | he
    · split at hf
      · exact Or.inl hf
      · rcases List.mem_append.mp hf with hf | hf
        · exact Or.inl hf
        · exact Or.inr (by rw [List.mem_singleton.mp hf]; exact List.mem_cons_self)
    · exact Or.inr (List.mem_cons_of_mem _ he)

/-- What can be found after a declaration is the new method or could be found before. -/
theorem mem_of_mem_supersede {entry e : MethodEntry} {es : List MethodEntry}
    (h : e ∈ supersede entry es) : e = entry ∨ e ∈ es := by
  induction es with
  | nil => exact Or.inl (List.mem_singleton.mp h)
  | cons e' es ih =>
    rw [supersede] at h
    split at h
    · exact (List.mem_cons.mp h).imp_right (List.mem_cons_of_mem _)
    · rcases List.mem_cons.mp h with rfl | h
      · exact Or.inr List.mem_cons_self
      · exact (ih h).imp_right (List.mem_cons_of_mem _)

theorem live_of_mem_ownedBy {ms : Methods} {owner : Owner} {name : String} {entry : MethodEntry}
    (h : entry ∈ ms.ownedBy owner name) : entry ∈ ms.live :=
  (List.mem_filter.mp h).1

theorem live_of_mem_topLevel {ms : Methods} {name : String} {entry : MethodEntry}
    (h : entry ∈ ms.topLevel name) : entry ∈ ms.live :=
  live_of_mem_ownedBy h

/-- A lookup finds methods that an ancestor declares under the name that was looked up. -/
theorem exists_ancestor_of_mem_lookup {ms : Methods} {classes : ClassTable} {id : ClassId}
    {name : String} {entry : MethodEntry} (h : entry ∈ ms.lookup classes id name) :
    ∃ ancestor ∈ classes.ancestors id, entry ∈ ms.ownedBy (.ofClass ancestor) name := by
  have hfold : ∀ (ancestors : List ClassId) (found : List MethodEntry),
      entry ∈ ancestors.foldl
        (fun found ancestor => addUnhidden found (ms.ownedBy (.ofClass ancestor) name)) found →
      entry ∈ found ∨ ∃ ancestor ∈ ancestors, entry ∈ ms.ownedBy (.ofClass ancestor) name := by
    intro ancestors
    induction ancestors with
    | nil => exact fun _ hfound => Or.inl hfound
    | cons a ancestors ih =>
      intro found h
      rcases ih _ h with h | ⟨ancestor, hancestor, h⟩
      · exact (mem_addUnhidden h).imp_right fun h => ⟨a, List.mem_cons_self, h⟩
      · exact Or.inr ⟨ancestor, List.mem_cons_of_mem _ hancestor, h⟩
  exact (hfold _ [] h).resolve_left List.not_mem_nil

theorem live_of_mem_lookup {ms : Methods} {classes : ClassTable} {id : ClassId} {name : String}
    {entry : MethodEntry} (h : entry ∈ ms.lookup classes id name) : entry ∈ ms.live := by
  obtain ⟨ancestor, _, howned⟩ := exists_ancestor_of_mem_lookup h
  exact live_of_mem_ownedBy howned

end Methods

theorem Env.receiverKind_ofClass {env : Env} {e : Expr} {ref : TypeRef}
    (h : env.receiverKind e = .ofClass ref) : ∃ m, e = .path m ref := by
  cases e with
  | path m ref' =>
    simp only [Env.receiverKind] at h
    split at h
    · cases h
      exact ⟨m, rfl⟩
    · split at h <;> cases h
  | _ => simp [Env.receiverKind] at h

theorem Env.exists_path_of_ofLibrary {env : Env} {e : Expr} {library : Library}
    (h : env.receiverKind e = .ofLibrary library) : ∃ m ref, e = .path m ref := by
  cases e with
  | path m ref => exact ⟨m, ref, rfl⟩
  | _ => cases h

theorem Env.receiverKind_ofLibrary {env : Env} {e : Expr} {library : Library}
    (h : env.receiverKind e = .ofLibrary library) : library ∈ env.libraries.libraries := by
  cases e with
  | path m ref =>
    simp only [Env.receiverKind] at h
    split at h
    · cases h
    · split at h
      · rename_i found
        cases h
        obtain ⟨id, _, hid⟩ := Option.bind_eq_some_iff.mp found
        exact List.mem_of_getElem? hid
      · cases h
  | _ => simp [Env.receiverKind] at h

end UnionTyping
