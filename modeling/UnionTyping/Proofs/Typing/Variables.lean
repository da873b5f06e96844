/-
  UnionTyping/Proofs/Typing/Variables.lean
  ========================================
  **A variable that is read holds everything that is assigned to it.**

  Outside of blocks all uses of a local name at the top level mean the same place.  Where
  the name is read as a variable, the node has the type that the place gives, and where it
  is assigned, the place takes the type of the value (`Typing.Faithful`, `Puts`).  So the
  variable of an accepted program holds the types that are put into it
  (`Accepted.exists_variable`), and each member of the type of an assigned value is a member
  of the type of every node that reads the variable, no matter which of the two comes first
  (`Program.check_reads_assigned`).
-/
import UnionTyping.Proofs.Typing.FinalTyping
import UnionTyping.Proofs.Typing.Known

namespace UnionTyping

open Ty (Over Proper Known)

/-! ### Nodes outside of blocks -/

namespace Expr

/-- The direct sub-expressions that are not in the block of a call. -/
def openChildren : Expr → List Expr
  | call _ receiver _ args _ _ => receiver.toList ++ args
  | e => e.children

mutual

def openNodes (e : Expr) : List Expr :=
  e :: match e with
    | assign _ _ value | opAssign _ _ _ value => openNodes value
    | call _ receiver _ args _ _ =>
      (match receiver with | none => [] | some r => openNodes r) ++ openNodesOf args
    | connect _ _ lhs rhs => openNodes lhs ++ openNodes rhs
    | ite _ cond thenBody elseBody =>
      openNodes cond ++ openNodesOf thenBody ++ openNodesOf elseBody
    | loop _ cond body => openNodes cond ++ openNodesOf body
    | literal _ _ | ident _ _ | ivar _ _ | path _ _ | out _ _ | control _ _ => []
termination_by structural e

def openNodesOf : List Expr → List Expr
  | [] => []
  | e :: es => openNodes e ++ openNodesOf es
termination_by structural es => es

end

theorem openNodesOf_append (as bs : List Expr) :
    openNodesOf (as ++ bs) = openNodesOf as ++ openNodesOf bs := by
  induction as with
  | nil => rfl
  | cons a as ih => simp [openNodesOf, ih]

theorem openNodes_eq (e : Expr) : e.openNodes = e :: openNodesOf e.openChildren := by
  cases e with
  | call m receiver name args block parens =>
    cases receiver <;> simp [openNodes, openChildren, openNodesOf]
  | ite m cond thenBody elseBody =>
    simp [openNodes, openChildren, children, openNodesOf, openNodesOf_append]
  | _ => simp [openNodes, openChildren, children, openNodesOf]

theorem mem_openNodesOf_iff {n : Expr} {es : List Expr} :
    n ∈ openNodesOf es ↔ ∃ e ∈ es, n ∈ e.openNodes := by
  induction es with
  | nil => simp [openNodesOf]
  | cons e es ih => simp [openNodesOf, ih]

theorem forall_openNodes {e : Expr} {P : Expr → Prop} :
    (∀ n ∈ e.openNodes, P n) ↔ P e ∧ ∀ n ∈ openNodesOf e.openChildren, P n := by
  rw [openNodes_eq, List.forall_mem_cons]

theorem forall_openNodesOf_cons {e : Expr} {es : List Expr} {P : Expr → Prop} :
    (∀ n ∈ openNodesOf (e :: es), P n) ↔
      (∀ n ∈ e.openNodes, P n) ∧ ∀ n ∈ openNodesOf es, P n := by
  rw [openNodesOf, List.forall_mem_append]

theorem mem_children_of_mem_openChildren {e child : Expr} (h : child ∈ e.openChildren) :
    child ∈ e.children := by
  cases e with
  | call => exact List.mem_append_left _ h
  | _ => exact h

theorem mem_nodes_of_mem_openNodes {e n : Expr} (h : n ∈ e.openNodes) : n ∈ e.nodes := by
  rw [openNodes_eq] at h
  rw [nodes_eq]
  rcases List.mem_cons.mp h with rfl | hbelow
  · exact List.mem_cons_self
  · obtain ⟨child, hchild, hn⟩ := mem_openNodesOf_iff.mp hbelow
    have hmem := mem_children_of_mem_openChildren hchild
    have hlt := size_lt_of_mem_children hmem
    exact List.mem_cons_of_mem _ (mem_nodesOf_iff.mpr ⟨child, hmem, mem_nodes_of_mem_openNodes hn⟩)
termination_by e.size

theorem mem_nodesOf_of_mem_openNodesOf {es : List Expr} {n : Expr} (h : n ∈ openNodesOf es) :
    n ∈ nodesOf es := by
  obtain ⟨e, he, hn⟩ := mem_openNodesOf_iff.mp h
  exact mem_nodesOf_iff.mpr ⟨e, he, mem_nodes_of_mem_openNodes hn⟩

end Expr

/-- The node has a type that is assigned to the local: it is the value of an assignment, a
    compound assignment, or an `out` that a native function assigns. -/
inductive Assigns (env : Env) (name : String) : Expr → NodeId → Prop where
  | assign {m : Mark} {value : Expr} : Assigns env name (.assign m (.local name) value) value.id
  | opAssign {m : Mark} {op : String} {value : Expr} :
      Assigns env name (.opAssign m (.local name) op value) m.id
  | out {m m' : Mark} {receiver : Expr} {function : String} {args : List Expr}
      {block : Option Block} {parens : Bool} {library : Library} {f : NativeFunction}
      {param : NativeParam} (kind : env.receiverKind receiver = .ofLibrary library)
      (declared : library.find? function = some f)
      (passed : (.out m' (.local name), param) ∈ args.zip f.params) (mode : param.mode = .out) :
      Assigns env name (.call m (some receiver) function args block parens) m'.id

/-- With these types of nodes the expression assigns the type to the local: that of the value,
    that of a compound assignment, or the declared one where a native function assigns. -/
inductive Puts (env : Env) (types : NodeId → Option Ty) (name : String) : Expr → Ty → Prop where
  | assign {m : Mark} {value : Expr} {t : Ty} (noted : types value.id = some t) :
      Puts env types name (.assign m (.local name) value) t
  | opAssign {m : Mark} {op : String} {value : Expr} {t : Ty} (noted : types m.id = some t) :
      Puts env types name (.opAssign m (.local name) op value) t
  | out {m m' : Mark} {receiver : Expr} {function : String} {args : List Expr}
      {block : Option Block} {parens : Bool} {library : Library} {f : NativeFunction}
      {param : NativeParam} (kind : env.receiverKind receiver = .ofLibrary library)
      (declared : library.find? function = some f)
      (passed : (.out m' (.local name), param) ∈ args.zip f.params) (mode : param.mode = .out) :
      Puts env types name (.call m (some receiver) function args block parens) param.ty

section

variable {env : Env} {types : NodeId → Option Ty} {name : String} {n : Expr} {t : Ty}

theorem Puts.exists_assigns (h : Puts env types name n t) : ∃ node, Assigns env name n node := by
  cases h with
  | assign => exact ⟨_, .assign⟩
  | opAssign => exact ⟨_, .opAssign⟩
  | out kind declared passed mode => exact ⟨_, .out kind declared passed mode⟩

/-- Only the types of the nodes that assign the local matter. -/
theorem Puts.mono (h : Puts env types name n t) {types' : NodeId → Option Ty}
    (hsub : ∀ node, Assigns env name n node → types node = some t → types' node = some t) :
    Puts env types' name n t := by
  cases h with
  | assign noted => exact .assign (hsub _ .assign noted)
  | opAssign noted => exact .opAssign (hsub _ .opAssign noted)
  | out kind declared passed mode => exact .out kind declared passed mode

end

/-! ### Variables in a typing -/

namespace Outline

theorem declare_inner {sc : Outline} (h : sc.inner = []) (name : String) :
    (sc.declare name).inner = [] := by
  rw [declare, h]

/-- Where no block is open, none is open later. -/
theorem Grows.inner_eq_nil {sc sc' : Outline} (h : sc.Grows sc') (hsc : sc.inner = []) :
    sc'.inner = [] := by
  obtain ⟨names, rfl⟩ := h
  induction names generalizing sc with
  | nil => exact hsc
  | cons name names ih => exact ih (declare_inner hsc name)

/-- Outside of blocks a name is declared in the body. -/
theorem lookup_eq_body {sc : Outline} (h : sc.inner = []) {name : String} {scope : Scope}
    (hscope : sc.lookup name = some scope) : scope = .body := by
  rw [lookup, h] at hscope
  change ownerOf name (.body, sc.body) = some scope at hscope
  rw [ownerOf] at hscope
  split at hscope
  · exact (Option.some.inj hscope).symm
  · cases hscope

end Outline

namespace Typing

variable {T : Typing} {sc sc' : Outline}

theorem place?_local (h : sc.inner = []) {name : String} {p : Place}
    (hp : T.place? sc (.local name) = some p) : p = .local T.key .body name := by
  obtain ⟨scope, hscope, rfl⟩ := Option.map_eq_some_iff.mp hp
  rw [sc.lookup_eq_body h hscope]

theorem assigned?_local (h : sc.inner = []) {name : String} {p : Place}
    (hp : T.assigned? sc (.local name) = some (p, sc')) : p = .local T.key .body name := by
  rw [assigned?] at hp
  split at hp
  · rename_i scope hscope
    cases hp
    rw [sc.lookup_eq_body h hscope]
  · cases hp
    rw [Outline.owner, h]

/-- A read of a local gives what its place gives, and the place takes what is assigned. -/
structure Faithful (T : Typing) (n : Expr) : Prop where
  reads : ∀ m name, n = .ident m name → (∀ call, ¬ T.called m.id call) →
    ∃ t, T.noted m.id = some t ∧ T.context.reads (.local T.key .body name) t
  noted : ∀ name node, Assigns T.env name n node →
    ∃ t, T.noted node = some t ∧ Puts T.env T.noted name n t
  takes : ∀ name t, Puts T.env T.noted name n t →
    t.Known ∧ T.context.Takes (.local T.key .body name) t

/-- What is assigned by a native function. -/
theorem Fills.takes {pairs : List (Expr × NativeParam)} (h : T.Fills sc pairs sc')
    (hsc : sc.inner = []) {m : Mark} {name : String} {param : NativeParam}
    (hmem : (.out m (.local name), param) ∈ pairs) (hmode : param.mode = .out) :
    T.noted m.id = some param.ty ∧ T.context.Takes (.local T.key .body name) param.ty := by
  induction h with
  | done => cases hmem
  | fill mode place takes noted _ ih =>
    rcases List.mem_cons.mp hmem with heq | hmem
    · cases heq
      rw [assigned?_local hsc place] at takes
      exact ⟨noted, takes⟩
    · exact ih ((grows_assigned place).inner_eq_nil hsc) hmem
  | skip kept _ ih =>
    rcases List.mem_cons.mp hmem with heq | hmem
    · cases heq
      rcases kept with htarget | hvalue
      · cases htarget
      · rw [hmode] at hvalue
        cases hvalue
    · exact ih hsc hmem

/-- An expression that assigns no local. -/
theorem Faithful.of_reads {n : Expr} (hassigns : ∀ name node, ¬ Assigns T.env name n node)
    (hreads : ∀ m name, n = .ident m name → (∀ call, ¬ T.called m.id call) →
      ∃ t, T.noted m.id = some t ∧ T.context.reads (.local T.key .body name) t) : T.Faithful n where
  reads := hreads
  noted := fun name node h => absurd h (hassigns name node)
  takes := fun name _ h => absurd h.exists_assigns fun ⟨node, h⟩ => hassigns name node h

/-- An expression that neither reads a local nor assigns one. -/
theorem Faithful.of_neither {n : Expr} (hreads : ∀ m name, n ≠ .ident m name)
    (hassigns : ∀ name node, ¬ Assigns T.env name n node) : T.Faithful n :=
  .of_reads hassigns fun m name heq => absurd heq (hreads m name)

/-- A leaf that neither reads a local nor assigns one. -/
theorem Faithful.leaf {e : Expr} (hchildren : e.openChildren = [])
    (hreads : ∀ m name, e ≠ .ident m name) (hassigns : ∀ name node, ¬ Assigns T.env name e node) :
    ∀ n ∈ e.openNodes, T.Faithful n := by
  rw [Expr.openNodes_eq, hchildren]
  exact List.forall_mem_singleton.mpr (.of_neither hreads hassigns)

/-- A name is a read unless it is a call. -/
theorem Faithful.ident {m : Mark} {name : String}
    (h : (∀ call, ¬ T.called m.id call) →
      ∃ t, T.noted m.id = some t ∧ T.context.reads (.local T.key .body name) t) :
    ∀ n ∈ (Expr.ident m name).openNodes, T.Faithful n := by
  rw [Expr.openNodes_eq]
  refine List.forall_mem_singleton.mpr (.of_reads nofun fun m' name' heq hcalled => ?_)
  cases heq
  exact h hcalled

theorem Faithful.assign {m : Mark} {target : Target} {value : Expr} {p : Place} {t : Ty}
    (hsc : sc.inner = []) (hnoted : T.noted value.id = some t) (hknown : t.Known)
    (hplace : T.assigned? sc target = some (p, sc')) (htakes : T.context.Takes p t) :
    T.Faithful (.assign m target value) where
  reads := nofun
  noted := by
    intro name node h
    cases h with
    | assign => exact ⟨t, hnoted, .assign hnoted⟩
  takes := by
    intro name t' h
    cases h with
    | assign hnoted' =>
      cases hnoted.symm.trans hnoted'
      rw [assigned?_local hsc hplace] at htakes
      exact ⟨hknown, htakes⟩

theorem Faithful.opAssign {m : Mark} {target : Target} {op : String} {value : Expr} {p : Place}
    {t : Ty} (hsc : sc.inner = []) (hnoted : T.noted m.id = some t) (hknown : t.Known)
    (hplace : T.place? sc target = some p) (htakes : T.context.Takes p t) :
    T.Faithful (.opAssign m target op value) where
  reads := nofun
  noted := by
    intro name node h
    cases h with
    | opAssign => exact ⟨t, hnoted, .opAssign hnoted⟩
  takes := by
    intro name t' h
    cases h with
    | opAssign hnoted' =>
      cases hnoted.symm.trans hnoted'
      rw [place?_local hsc hplace] at htakes
      exact ⟨hknown, htakes⟩

section

variable {m : Mark} {receiver : Expr} {name : String} {args : List Expr} {block : Option Block}
  {parens : Bool}

/-- A call assigns no local, except when it is one of a native function. -/
theorem Faithful.call (h : ∀ library, T.env.receiverKind receiver ≠ .ofLibrary library) :
    T.Faithful (.call m (some receiver) name args block parens) := by
  refine .of_neither nofun fun name node hassigns => ?_
  cases hassigns with
  | out kind => exact h _ kind

/-- A native function assigns its declared types. -/
theorem Faithful.native (hT : T.Grounded) {library : Library} {f : NativeFunction}
    (hsc : sc.inner = []) (hkind : T.env.receiverKind receiver = .ofLibrary library)
    (hfunction : library.find? name = some f) (hfills : T.Fills sc (args.zip f.params) sc') :
    T.Faithful (.call m (some receiver) name args block parens) where
  reads := nofun
  noted := by
    intro x node h
    cases h with
    | out hkind' hdeclared hpassed hmode =>
      cases hkind.symm.trans hkind'
      cases hfunction.symm.trans hdeclared
      exact ⟨_, (hfills.takes hsc hpassed hmode).1, .out hkind hfunction hpassed hmode⟩
  takes := by
    intro x t h
    cases h with
    | out hkind' hdeclared hpassed hmode =>
      cases hkind.symm.trans hkind'
      cases hfunction.symm.trans hdeclared
      have hplain := (hT.libraries _ (Env.receiverKind_ofLibrary hkind) f
        (List.mem_of_find?_eq_some hfunction)).1 _ (List.of_mem_zip hpassed).2
      exact ⟨hplain.proper.known, (hfills.takes hsc hpassed hmode).2⟩

end

mutual

theorem Types.faithful {inLoop : Bool} {sc sc' : Outline} {e : Expr} {t : Ty}
    (hT : T.Grounded) : T.Types inLoop sc e t sc' → sc.inner = [] → T.noted e.id = some t →
      ∀ n ∈ e.openNodes, T.Faithful n
  | .literal | .ivar _ _ | .out _ _ | .path _ | .control => fun _ _ => .leaf rfl nofun nofun
  | @Types.localVar _ _ _ m name p t place reads => fun hsc hnoted => by
    rw [place?_local hsc place] at reads
    exact .ident fun _ => ⟨t, hnoted, reads⟩
  | .name _ ⟨call, called⟩ _ => fun _ _ => .ident fun hcalled => absurd called (hcalled call)
  | .assign typed noted place takes => fun hsc _ => by
    have hvalue := hT.known noted (typed.inhabited hT)
    refine Expr.forall_openNodes.mpr
      ⟨.assign (typed.grows.inner_eq_nil hsc) noted hvalue place takes, ?_⟩
    exact Expr.forall_openNodesOf_cons.mpr ⟨typed.faithful hT hsc noted, List.forall_mem_nil _⟩
  | .opAssign place reads typed noted call takes => fun hsc hnoted => by
    have hvalue := AnswersOn.inhabited hT (List.forall_mem_singleton.mpr (typed.inhabited hT))
      (hT.reads _ _ reads) call
    refine Expr.forall_openNodes.mpr
      ⟨.opAssign hsc hnoted (hT.known hnoted hvalue) place takes, ?_⟩
    exact Expr.forall_openNodesOf_cons.mpr ⟨typed.faithful hT hsc noted, List.forall_mem_nil _⟩
  | .connect typedLeft notedLeft typedRight notedRight => fun hsc _ => by
    refine Expr.forall_openNodes.mpr ⟨.of_neither nofun nofun, ?_⟩
    exact Expr.forall_openNodesOf_cons.mpr ⟨typedLeft.faithful hT hsc notedLeft,
      Expr.forall_openNodesOf_cons.mpr
        ⟨typedRight.faithful hT (typedLeft.grows.inner_eq_nil hsc) notedRight,
          List.forall_mem_nil _⟩⟩
  | .ite typed noted typedThen typedElse => fun hsc _ => by
    have hsc₁ := typed.grows.inner_eq_nil hsc
    refine Expr.forall_openNodes.mpr ⟨.of_neither nofun nofun, ?_⟩
    refine Expr.forall_openNodesOf_cons.mpr ⟨typed.faithful hT hsc noted, ?_⟩
    rw [List.append_eq, Expr.openNodesOf_append]
    exact List.forall_mem_append.mpr ⟨typedThen.faithful hT hsc₁,
      typedElse.faithful hT (typedThen.grows.inner_eq_nil hsc₁)⟩
  | .loop typed noted typedBody => fun hsc _ => by
    refine Expr.forall_openNodes.mpr ⟨.of_neither nofun nofun, ?_⟩
    exact Expr.forall_openNodesOf_cons.mpr ⟨typed.faithful hT hsc noted,
      typedBody.faithful hT (typed.grows.inner_eq_nil hsc)⟩
  | .callSelf typedArgs _ _ => fun hsc _ =>
    Expr.forall_openNodes.mpr ⟨.of_neither nofun nofun, typedArgs.faithful hT hsc⟩
  | @Types.pointer _ _ _ m receiver target parens p t isVariable place reads noted =>
    fun hsc _ => by
    cases receiver with
    | ident m' name =>
      cases isVariable
      rw [place?_local hsc place] at reads
      refine Expr.forall_openNodes.mpr ⟨.call nofun, ?_⟩
      exact Expr.forall_openNodesOf_cons.mpr
        ⟨.ident fun _ => ⟨t, noted, reads⟩, List.forall_mem_nil _⟩
    | ivar m' name =>
      refine Expr.forall_openNodes.mpr ⟨.call nofun, ?_⟩
      exact Expr.forall_openNodesOf_cons.mpr ⟨.leaf rfl nofun nofun, List.forall_mem_nil _⟩
    | _ => cases isVariable
  | .callClass _ kind _ _ typedArgs _ _ => fun hsc _ => by
    obtain ⟨m', rfl⟩ := Env.receiverKind_ofClass kind
    refine Expr.forall_openNodes.mpr ⟨.call fun _ hkind => (nomatch kind.symm.trans hkind), ?_⟩
    exact Expr.forall_openNodesOf_cons.mpr ⟨.leaf rfl nofun nofun, typedArgs.faithful hT hsc⟩
  | .callNative _ kind _ function typedArgs _ _ fills => fun hsc _ => by
    have hsc₁ := typedArgs.grows.inner_eq_nil hsc
    refine Expr.forall_openNodes.mpr ⟨.native hT hsc₁ kind function fills, ?_⟩
    obtain ⟨m', ref, rfl⟩ := Env.exists_path_of_ofLibrary kind
    exact Expr.forall_openNodesOf_cons.mpr ⟨.leaf rfl nofun nofun, typedArgs.faithful hT hsc⟩
  | .callValue _ kind typed noted typedArgs _ _ => fun hsc _ => by
    refine Expr.forall_openNodes.mpr ⟨.call fun _ hkind => (nomatch kind.symm.trans hkind), ?_⟩
    exact Expr.forall_openNodesOf_cons.mpr
      ⟨typed.faithful hT hsc noted, typedArgs.faithful hT (typed.grows.inner_eq_nil hsc)⟩

theorem TypesAll.faithful {inLoop : Bool} {sc sc' : Outline} {es : List Expr} {ts : List Ty}
    (hT : T.Grounded) : T.TypesAll inLoop sc es ts sc' → sc.inner = [] →
      ∀ n ∈ Expr.openNodesOf es, T.Faithful n
  | .nil => fun _ => List.forall_mem_nil _
  | .cons head noted tail => fun hsc => Expr.forall_openNodesOf_cons.mpr
    ⟨head.faithful hT hsc noted, tail.faithful hT (head.grows.inner_eq_nil hsc)⟩

theorem TypesNative.faithful {inLoop : Bool} {sc sc' : Outline} {params : List NativeParam}
    {es : List Expr} {given : List NativeArg} (hT : T.Grounded) :
    T.TypesNative inLoop sc params es given sc' → sc.inner = [] →
      ∀ n ∈ Expr.openNodesOf es, T.Faithful n
  | .nil => fun _ => List.forall_mem_nil _
  | .out _ _ _ tail => fun hsc =>
    Expr.forall_openNodesOf_cons.mpr ⟨.leaf rfl nofun nofun, tail.faithful hT hsc⟩
  | .value _ head noted tail => fun hsc => Expr.forall_openNodesOf_cons.mpr
    ⟨head.faithful hT hsc noted, tail.faithful hT (head.grows.inner_eq_nil hsc)⟩

end

end Typing

/-! ### Accepted programs -/

theorem Assigns.exists_node {env : Env} {name : String} {n : Expr} {node : NodeId}
    (h : Assigns env name n node) : ∃ k ∈ n.nodes, k.id = node := by
  cases h with
  | @assign m value =>
    refine ⟨value, ?_, rfl⟩
    rw [Expr.nodes_eq]
    exact List.mem_cons_of_mem _ (Expr.mem_nodesOf List.mem_cons_self)
  | opAssign => exact ⟨_, Expr.mem_nodes_self _, rfl⟩
  | @out m m' receiver function args block parens library f param _ _ passed _ =>
    refine ⟨.out m' (.local name), ?_, rfl⟩
    rw [Expr.nodes_eq]
    refine List.mem_cons_of_mem _ (Expr.mem_nodesOf ?_)
    exact List.mem_append_left _ (List.mem_append_right _ (List.of_mem_zip passed).1)

namespace Accepted

variable {p : Program} {settings : Settings} {env : Env} {e : Engine}

/-- In the end reading gives values. -/
theorem grounded (h : Accepted p settings env e) {unit : UnitId} {u : UnitRecord}
    (hu : e.units[unit]? = some u) : (u.typing env e.context).Grounded where
  reads := by
    rintro place t ⟨hover, b, hbinding, hreaders, rfl⟩
    obtain ⟨i, _, hget⟩ := Option.bind_eq_some_iff.mp hbinding
    have hfed := (h.rest hu).fed b (List.mem_of_getElem? hget)
    refine hover.known (Bool.eq_false_iff.mpr fun hu => ?_)
    rw [Binding.isStarved, hu, Bool.true_and, Bool.not_eq_false', List.isEmpty_iff] at hfed
    exact hreaders hfed
  noted := fun _ _ ht => h.over_noted hu ht
  self := (h.rest hu).self
  libraries := h.libraries

/-- The binding of a name that is read as a variable outside of declarations and blocks.  It
    holds what is assigned to the name there. -/
theorem exists_variable (h : Accepted p settings env e) (hids : (p.nodes.map Expr.id).Nodup)
    {name : String} {m : Mark} (hread : .ident m name ∈ Expr.openNodesOf p.topLevel)
    (hvariable : (e.report env).calls.find? m.id = none) :
    ∃ b, e.bindingAt (.local none .body name) = some b ∧
      (e.report env).types.find? m.id = some b.current ∧
      ∀ n ∈ Expr.openNodesOf p.topLevel,
        (∀ node, Assigns env name n node → ∃ t, (e.report env).types.find? node = some t ∧
          Puts env (e.report env).types.find? name n t) ∧
        ∀ t, Puts env (e.report env).types.find? name n t → t.Within b.current := by
  obtain ⟨u, ts, sc, hu, hkey, hall, hreport⟩ := h.exists_top hids
  have hT := h.grounded hu
  have hfaithful := hall.faithful hT rfl
  have htop := Expr.mem_nodesOf_of_mem_openNodesOf hread
  have hnone : u.calls.find? m.id = none := (hreport _ htop).1 hvariable
  obtain ⟨t', hnoted', hreads⟩ := (hfaithful _ hread).reads m name rfl fun call hcalled => by
    change call ∈ (u.calls.find? m.id).getD [] at hcalled
    rw [hnone] at hcalled
    cases hcalled
  have hfound := (hreport _ htop).2 t' hnoted' (hT.reads _ _ hreads)
  obtain ⟨_, b, hbinding, _, rfl⟩ := hreads
  have hsame : (u.typing env e.context).key = none := hkey
  rw [hsame] at hbinding
  refine ⟨b, hbinding, hfound, fun n hn => ?_⟩
  -- what is noted for a node that assigns the name is what is reported
  have hnoted : ∀ node, Assigns env name n node → ∃ t, u.types.find? node = some t ∧
      (e.report env).types.find? node = some t ∧ Puts env u.types.find? name n t := by
    intro node hassigns
    obtain ⟨t, ht, hputs⟩ := (hfaithful n hn).noted name node hassigns
    obtain ⟨k, hk, rfl⟩ := hassigns.exists_node
    have hktop := Expr.mem_nodesOf_trans (Expr.mem_nodesOf_of_mem_openNodesOf hn) hk
    exact ⟨t, ht, (hreport k hktop).2 t ht ((hfaithful n hn).takes name t hputs).1, hputs⟩
  constructor
  · intro node hassigns
    obtain ⟨t, _, hfound, hputs⟩ := hnoted node hassigns
    refine ⟨t, hfound, hputs.mono fun node' hassigns' ht => ?_⟩
    obtain ⟨t', ht', hfound', _⟩ := hnoted node' hassigns'
    cases ht.symm.trans ht'
    exact hfound'
  · intro t hputs a ha
    have hputs' : Puts env u.types.find? name n t := hputs.mono fun node hassigns ht => by
      obtain ⟨t', ht', hfound', _⟩ := hnoted node hassigns
      cases ht.symm.trans hfound'
      exact ht'
    have htakes := ((hfaithful n hn).takes name t hputs').2
    rw [hsame] at htakes
    obtain ⟨_, b', hbinding', hhas⟩ := htakes a ha
    cases hbinding.symm.trans hbinding'
    exact hhas

end Accepted

/-- In an accepted program a name that is read as a variable outside of declarations and blocks
    has a type with all members of each type that is assigned to the name there: of the
    value of an assignment, of a compound assignment, and of an `out` that a native
    function assigns.  It does not matter which of the two comes first. -/
theorem Program.check_reads_assigned {file : String} {items : List Item} {settings : Settings}
    {report : Report} {env : Env} (h : (Program.ofItems file items).check settings = .ok report)
    (henv : Env.ofProgram settings (Program.ofItems file items) = .ok env) {name : String}
    {m : Mark} (hread : .ident m name ∈ Expr.openNodesOf (Program.ofItems file items).topLevel)
    (hvariable : report.calls.find? m.id = none) {n : Expr} {node : NodeId}
    (hn : n ∈ Expr.openNodesOf (Program.ofItems file items).topLevel)
    (hassigns : Assigns env name n node) :
    ∃ t t', report.types.find? node = some t ∧ report.types.find? m.id = some t' ∧ t.Within t' := by
  obtain ⟨env', e, haccepted, rfl⟩ := exists_accepted h
  obtain rfl : env' = env := by
    have heq := haccepted.declared.symm.trans henv
    cases heq
    rfl
  obtain ⟨b, _, hfound, hputs⟩ :=
    haccepted.exists_variable (Program.nodup_ids file items) hread hvariable
  obtain ⟨t, ht, hput⟩ := (hputs n hn).1 node hassigns
  exact ⟨t, b.current, ht, hfound, (hputs n hn).2 t hput⟩

theorem loopingProgram_reads_assigned :
    ∃ report env m n node, loopingProgram.check {} = .ok report ∧
      Env.ofProgram {} loopingProgram = .ok env ∧
      .ident m "x" ∈ Expr.openNodesOf loopingProgram.topLevel ∧ report.calls.find? m.id = none ∧
      n ∈ Expr.openNodesOf loopingProgram.topLevel ∧ Assigns env "x" n node ∧
      ∃ t t', report.types.find? node = some t ∧ report.types.find? m.id = some t' ∧
        t.Within t' := by
  let loc : Location := ⟨"looping.qz", 2, 1⟩
  have hread : .ident ⟨5, loc⟩ "x" ∈ Expr.openNodesOf loopingProgram.topLevel :=
    List.mem_of_getElem? (i := 5) rfl
  have hn : .assign ⟨7, loc⟩ (.local "x") (.literal ⟨8, loc⟩ .double) ∈
      Expr.openNodesOf loopingProgram.topLevel := List.mem_of_getElem? (i := 7) rfl
  have hok : ((loopingProgram.check {}).toOption.map fun report =>
      (report.calls.find? 5).isNone) = some true := by decide +kernel
  cases h : loopingProgram.check {} with
  | error err =>
    rw [h] at hok
    cases hok
  | ok report =>
    rw [h] at hok
    have hvariable : report.calls.find? 5 = none :=
      Option.isNone_iff_eq_none.mp (Option.some.inj hok)
    obtain ⟨env, e, haccepted, _⟩ := exists_accepted h
    have henv := haccepted.declared
    have hassigns : Assigns env "x" (.assign ⟨7, loc⟩ (.local "x") (.literal ⟨8, loc⟩ .double)) 8 :=
      .assign
    exact ⟨report, env, ⟨5, loc⟩, _, 8, rfl, henv, hread, hvariable, hn, hassigns,
      Program.check_reads_assigned h henv hread hvariable hn hassigns⟩

end UnionTyping
