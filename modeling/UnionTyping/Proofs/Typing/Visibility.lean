/-
  UnionTyping/Proofs/Typing/Visibility.lean
  =========================================
  **Where a name is visible.**

  Whether a name is visible at an expression can be told from the text of a program and the
  signatures of its native functions: the rule says which names are visible to each part of
  an expression (`Expr.scopedChildren`) and which ones after it (`Expr.namesAfter`), given
  those that are visible before it.  A local is visible once its first assignment has
  evaluated the value, or once it was passed as an `out` to a native function that fills it,
  and no longer than the block in which that happens.  A compound assignment makes nothing
  visible.

  The typing rules thread an `Outline` through an expression.  What the outline shows is
  what this rule says (`Types.shows`).
-/
import UnionTyping.Proofs.Typing.Derivation

namespace UnionTyping

/-! ### The rule -/

def Target.names : Target → List String
  | .local name => [name]
  | .ivar _ => []

def Env.nativeParams (env : Env) (receiver : Option Expr) (name : String) : List NativeParam :=
  match receiver.map env.receiverKind with
  | some (.ofLibrary library) => ((library.find? name).map NativeFunction.params).getD []
  | _ => []

def filledNames : List (Expr × NativeParam) → List String
  | [] => []
  | (.out _ target, ⟨_, _, .out⟩) :: pairs => target.names ++ filledNames pairs
  | _ :: pairs => filledNames pairs

namespace Expr

mutual

/-- The names that are visible after an expression when those of `V` are before it. -/
def namesAfter (env : Env) : Expr → List String → List String
  | assign _ target value, V => target.names ++ value.namesAfter env V
  | opAssign _ _ _ value, V => value.namesAfter env V
  | call _ receiver name args _ _, V =>
    filledNames (args.zip (env.nativeParams receiver name)) ++
      namesAfterAll env args (match receiver with | none => V | some r => r.namesAfter env V)
  | connect _ _ lhs rhs, V => rhs.namesAfter env (lhs.namesAfter env V)
  | ite _ cond thenBody elseBody, V =>
    namesAfterAll env elseBody (namesAfterAll env thenBody (cond.namesAfter env V))
  | loop _ cond body, V => namesAfterAll env body (cond.namesAfter env V)
  | literal _ _, V | ident _ _, V | ivar _ _, V | path _ _, V | out _ _, V | control _ _, V => V
termination_by structural e => e

def namesAfterAll (env : Env) : List Expr → List String → List String
  | [], V => V
  | e :: es, V => namesAfterAll env es (e.namesAfter env V)
termination_by structural es => es

end

/-- Expressions that are evaluated one after the other, each with the names that are visible
    when its turn comes. -/
def inTurn (env : Env) : List Expr → List String → List (Expr × List String)
  | [], _ => []
  | e :: es, V => (e, V) :: inTurn env es (e.namesAfter env V)

def inBlock (env : Env) : Option Block → List String → List (Expr × List String)
  | none, _ => []
  | some (.mk params body), V => inTurn env body (params ++ V)

def scopedChildren (env : Env) : Expr → List String → List (Expr × List String)
  | assign _ _ value, V | opAssign _ _ _ value, V => [(value, V)]
  | call _ receiver _ args block _, V =>
    inTurn env (receiver.toList ++ args) V ++
      inBlock env block (namesAfterAll env (receiver.toList ++ args) V)
  | connect _ _ lhs rhs, V => inTurn env [lhs, rhs] V
  | ite _ cond thenBody elseBody, V => inTurn env (cond :: thenBody ++ elseBody) V
  | loop _ cond body, V => inTurn env (cond :: body) V
  | literal _ _, _ | ident _ _, _ | ivar _ _, _ | path _ _, _ | out _ _, _ | control _ _, _ => []

/-- When the evaluation of an expression begins with the names of `V` visible, that of the
    node `n` in it begins with those of `W`. -/
inductive Sees (env : Env) (n : Expr) (W : List String) : Expr → List String → Prop where
  | self : Sees env n W n W
  | child {e child : Expr} {V V' : List String} (mem : (child, V') ∈ e.scopedChildren env V)
      (below : Sees env n W child V') : Sees env n W e V

/-- When several expressions are evaluated one after the other, beginning with the names of `V`
    visible, the evaluation of the node `n` begins with those of `W`. -/
def SeesAmong (env : Env) (n : Expr) (W : List String) (es : List Expr) (V : List String) : Prop :=
  ∃ p ∈ inTurn env es V, Sees env n W p.1 p.2

/-! ### Every node has its place -/

variable {env : Env}

/-- After a call that is not one of a native function. -/
theorem namesAfter_call {m : Mark} {receiver : Option Expr} {name : String} {args : List Expr}
    {block : Option Block} {parens : Bool} (h : env.nativeParams receiver name = [])
    (V : List String) : (call m receiver name args block parens).namesAfter env V =
      namesAfterAll env (receiver.toList ++ args) V := by
  cases receiver <;> rw [namesAfter, h, List.zip_nil_right] <;> rfl

theorem inTurn_append (as bs : List Expr) (V : List String) :
    inTurn env (as ++ bs) V = inTurn env as V ++ inTurn env bs (namesAfterAll env as V) := by
  induction as generalizing V with
  | nil => simp [inTurn, namesAfterAll]
  | cons a as ih => simp [inTurn, namesAfterAll, ih]

@[simp]
theorem map_fst_inTurn (env : Env) (es : List Expr) (V : List String) :
    (inTurn env es V).map Prod.fst = es := by
  induction es generalizing V with
  | nil => rfl
  | cons e es ih => simp [inTurn, ih]

theorem map_fst_inBlock (env : Env) (block : Option Block) (V : List String) :
    (inBlock env block V).map Prod.fst = Block.bodyOf block := by
  rcases block with _ | ⟨params, body⟩ <;> simp [inBlock, Block.bodyOf]

theorem map_fst_scopedChildren (env : Env) (e : Expr) (V : List String) :
    (e.scopedChildren env V).map Prod.fst = e.children := by
  cases e <;> simp [scopedChildren, children, map_fst_inBlock]

/-- For every node it is said which names it sees. -/
theorem exists_sees (env : Env) {n e : Expr} (hn : n ∈ e.nodes) (V : List String) :
    ∃ W, Sees env n W e V := by
  rw [nodes_eq] at hn
  rcases List.mem_cons.mp hn with rfl | hbelow
  · exact ⟨V, .self⟩
  · obtain ⟨child, hchild, hn⟩ := mem_nodesOf_iff.mp hbelow
    have hlt := size_lt_of_mem_children hchild
    rw [← map_fst_scopedChildren env e V] at hchild
    obtain ⟨⟨_, V'⟩, hmem, rfl⟩ := List.mem_map.mp hchild
    obtain ⟨W, hW⟩ := exists_sees env hn V'
    exact ⟨W, .child hmem hW⟩
termination_by e.size

theorem mem_children_of_scoped {e child : Expr} {V V' : List String}
    (h : (child, V') ∈ e.scopedChildren env V) : child ∈ e.children := by
  rw [← map_fst_scopedChildren env e V]
  exact List.mem_map.mpr ⟨_, h, rfl⟩

/-- What sees names in an expression is one of its nodes. -/
theorem Sees.mem_nodes {n e : Expr} {V W : List String} (h : Sees env n W e V) : n ∈ e.nodes := by
  induction h with
  | self => exact mem_nodes_self _
  | child mem _ ih =>
    rw [nodes_eq]
    exact List.mem_cons_of_mem _ (mem_nodesOf_iff.mpr ⟨_, mem_children_of_scoped mem, ih⟩)

theorem SeesAmong.mem_nodesOf {n : Expr} {es : List Expr} {V W : List String}
    (h : SeesAmong env n W es V) : n ∈ nodesOf es := by
  obtain ⟨p, hp, hsees⟩ := h
  refine mem_nodesOf_iff.mpr ⟨p.1, ?_, hsees.mem_nodes⟩
  rw [← map_fst_inTurn env es V]
  exact List.mem_map_of_mem hp

theorem exists_seesAmong (env : Env) {n : Expr} {es : List Expr} (hn : n ∈ nodesOf es)
    (V : List String) : ∃ W, SeesAmong env n W es V := by
  obtain ⟨e, he, hn⟩ := mem_nodesOf_iff.mp hn
  rw [← map_fst_inTurn env es V] at he
  obtain ⟨p, hp, rfl⟩ := List.mem_map.mp he
  obtain ⟨W, hW⟩ := exists_sees env hn p.2
  exact ⟨W, p, hp, hW⟩

end Expr

/-! ### Outlines -/

namespace Outline

/-- The names of `V` are visible and no others. -/
def Shows (sc : Outline) (V : List String) : Prop := ∀ name, sc.lookup name = none ↔ name ∉ V

theorem ownerOf_eq_none {name : String} {frame : Scope × List String} :
    ownerOf name frame = none ↔ name ∉ frame.2 := by
  simp [ownerOf]

theorem lookup_declare_eq_none (sc : Outline) (name other : String) :
    (sc.declare name).lookup other = none ↔ other ≠ name ∧ sc.lookup other = none := by
  obtain ⟨inner, body⟩ := sc
  cases inner with
  | nil => simp [declare, lookup, lookupIn, ownerOf_eq_none]
  | cons frame outer => simp [declare, lookup, lookupIn, ownerOf_eq_none, and_assoc]

namespace Shows

variable {sc : Outline} {V V' : List String}

theorem empty : Outline.empty.Shows [] := by
  intro name
  simp [Outline.empty, lookup, lookupIn, ownerOf_eq_none]

/-- In which order the names are listed makes no difference. -/
theorem congr (h : sc.Shows V) (hmem : ∀ name, name ∈ V ↔ name ∈ V') : sc.Shows V' := by
  intro name
  rw [h name, hmem name]

theorem declare (h : sc.Shows V) (name : String) : (sc.declare name).Shows (name :: V) := by
  intro other
  rw [lookup_declare_eq_none, h other, List.mem_cons, not_or]

/-- Opening a block hides nothing. -/
theorem enter (h : sc.Shows V) (owner : Scope) : (sc.enter owner).Shows V := h

theorem declareAll (h : sc.Shows V) (names : List String) :
    (sc.declareAll names).Shows (names ++ V) := by
  induction names generalizing sc V with
  | nil => exact h
  | cons name names ih =>
    apply (ih (h.declare name)).congr
    intro other
    simp [or_left_comm]

end Shows

end Outline

/-! ### Typing derivations -/

theorem filledNames_cons_of_out {m : Mark} {target : Target} {param : NativeParam}
    (h : param.mode = .out) (pairs : List (Expr × NativeParam)) :
    filledNames ((.out m target, param) :: pairs) = target.names ++ filledNames pairs := by
  obtain ⟨name, ty, mode⟩ := param
  cases h
  rfl

/-- An argument that is not filled makes nothing visible. -/
theorem filledNames_cons_of_kept {arg : Expr} {param : NativeParam}
    (h : arg.outTarget? = none ∨ param.mode = .byValue) (pairs : List (Expr × NativeParam)) :
    filledNames ((arg, param) :: pairs) = filledNames pairs := by
  obtain ⟨name, ty, mode⟩ := param
  cases arg with
  | out m target => cases mode <;> simp_all [filledNames, Expr.outTarget?]
  | _ => rfl

theorem Env.nativeParams_eq_nil {env : Env} {receiver : Expr}
    (hkind : ∀ library, env.receiverKind receiver ≠ .ofLibrary library) (name : String) :
    env.nativeParams (some receiver) name = [] := by
  simp only [nativeParams, Option.map_some]
  split
  · rename_i library heq
    exact absurd (Option.some.inj heq) (hkind library)
  · rfl

theorem Env.receiverKind_of_variable? (env : Env) {receiver : Expr} {target : Target}
    (h : receiver.variable? = some target) : env.receiverKind receiver = .value := by
  cases receiver with
  | ident | ivar => rfl
  | _ => cases h

theorem Expr.namesAfter_of_variable? {env : Env} {receiver : Expr} {target : Target}
    (h : receiver.variable? = some target) (V : List String) : receiver.namesAfter env V = V := by
  cases receiver with
  | ident | ivar => rfl
  | _ => cases h

theorem Env.nativeParams_of_library {env : Env} {receiver : Expr} {library : Library}
    (hkind : env.receiverKind receiver = .ofLibrary library) {name : String} {f : NativeFunction}
    (hf : library.find? name = some f) : env.nativeParams (some receiver) name = f.params := by
  simp [nativeParams, hkind, hf]

namespace Typing

variable {T : Typing}

/-- After an assignment its name is visible, whether it was before or not. -/
theorem shows_assigned {sc sc' : Outline} {target : Target} {p : Place} {V : List String}
    (h : T.assigned? sc target = some (p, sc')) (hV : sc.Shows V) :
    sc'.Shows (target.names ++ V) := by
  cases target with
  | «local» name =>
    rw [assigned?] at h
    cases hscope : sc.lookup name with
    | none =>
      rw [hscope] at h
      cases h
      exact hV.declare name
    | some scope =>
      rw [hscope] at h
      cases h
      have hmem : name ∈ V := by
        apply Classical.byContradiction
        intro hnot
        rw [(hV name).mpr hnot] at hscope
        cases hscope
      apply hV.congr
      intro other
      simp only [Target.names, List.singleton_append, List.mem_cons]
      exact ⟨Or.inr, fun h => h.elim (fun heq => heq ▸ hmem) id⟩
  | ivar name =>
    obtain ⟨p', _, hp⟩ := Option.map_eq_some_iff.mp h
    cases hp
    exact hV

theorem Fills.shows {sc sc' : Outline} {pairs : List (Expr × NativeParam)} {V : List String}
    (h : T.Fills sc pairs sc') (hV : sc.Shows V) : sc'.Shows (filledNames pairs ++ V) := by
  induction h generalizing V with
  | done => exact hV
  | fill mode place takes noted rest ih =>
    rw [filledNames_cons_of_out mode]
    apply (ih (shows_assigned place hV)).congr
    intro other
    simp only [List.mem_append]
    exact or_left_comm.trans or_assoc.symm
  | skip kept rest ih =>
    rw [filledNames_cons_of_kept kept]
    exact ih hV

mutual

/-- After an expression the names are visible of which the rule says so. -/
theorem Types.shows {inLoop : Bool} {sc sc' : Outline} {e : Expr} {t : Ty} {V : List String} :
    T.Types inLoop sc e t sc' → sc.Shows V → sc'.Shows (e.namesAfter T.env V)
  | .literal, hV | .localVar _ _, hV | .name _ _ _, hV | .ivar _ _, hV | .out _ _, hV
  | .path _, hV | .control, hV => hV
  | .assign typed _ place _, hV => shows_assigned place (typed.shows hV)
  | .opAssign _ _ typed _ _ _, hV => typed.shows hV
  | .connect left _ right _, hV => right.shows (left.shows hV)
  | .ite typed _ typedThen typedElse, hV => typedElse.shows (typedThen.shows (typed.shows hV))
  | .loop typed _ typedBody, hV => typedBody.shows (typed.shows hV)
  | .callSelf typedArgs _ _, hV => by
    rw [Expr.namesAfter_call rfl]
    exact typedArgs.shows hV
  | .pointer isVariable _ _ _, hV => by
    have hkind := T.env.receiverKind_of_variable? isVariable
    rw [Expr.namesAfter_call (Env.nativeParams_eq_nil (by simp [hkind]) _)]
    simpa [Expr.namesAfterAll, Expr.namesAfter_of_variable? isVariable] using hV
  | .callClass _ kind _ _ typedArgs _ _, hV => by
    obtain ⟨m, rfl⟩ := Env.receiverKind_ofClass kind
    rw [Expr.namesAfter_call (Env.nativeParams_eq_nil (by simp [kind]) _)]
    exact typedArgs.shows hV
  | .callNative _ kind _ function typedArgs _ _ fills, hV => by
    obtain ⟨m, ref, rfl⟩ := Env.exists_path_of_ofLibrary kind
    rw [Expr.namesAfter, Env.nativeParams_of_library kind function]
    exact fills.shows (typedArgs.shows hV)
  | .callValue _ kind typed _ typedArgs _ _, hV => by
    rw [Expr.namesAfter_call (Env.nativeParams_eq_nil (by simp [kind]) _)]
    exact typedArgs.shows (typed.shows hV)

theorem TypesAll.shows {inLoop : Bool} {sc sc' : Outline} {es : List Expr} {ts : List Ty}
    {V : List String} :
    T.TypesAll inLoop sc es ts sc' → sc.Shows V → sc'.Shows (Expr.namesAfterAll T.env es V)
  | .nil, hV => hV
  | .cons head _ tail, hV => tail.shows (head.shows hV)

theorem TypesNative.shows {inLoop : Bool} {sc sc' : Outline} {params : List NativeParam}
    {es : List Expr} {given : List NativeArg} {V : List String} :
    T.TypesNative inLoop sc params es given sc' → sc.Shows V →
      sc'.Shows (Expr.namesAfterAll T.env es V)
  | .nil, hV => hV
  | .out _ _ _ tail, hV => tail.shows hV
  | .value _ head _ tail, hV => tail.shows (head.shows hV)

end

/-- Where no parameter has a default value, which could assign locals, the parameters become
    visible and nothing else. -/
theorem Params.shows {sc sc' : Outline} {args : List Ty} {ps : List Param} {V : List String}
    (h : T.Params sc args ps sc') (hdefaults : ∀ p ∈ ps, p.default = none) (hV : sc.Shows V) :
    sc'.Shows (ps.map Param.name ++ V) := by
  have hnext : ∀ {p : Param} {ps : List Param} {sc' : Outline} {V : List String},
      sc'.Shows (ps.map Param.name ++ p.name :: V) →
        sc'.Shows ((p :: ps).map Param.name ++ V) := by
    intro p ps sc' V h
    apply h.congr
    intro name
    simp [or_left_comm]
  induction h generalizing V with
  | nil => exact hV
  | given takes rest ih =>
    obtain ⟨_, hps⟩ := List.forall_mem_cons.mp hdefaults
    exact hnext (ih hps (hV.declare _))
  | default hdefault typed noted takes rest ih =>
    obtain ⟨hnone, _⟩ := List.forall_mem_cons.mp hdefaults
    cases hdefault.symm.trans hnone
  | missing hdefault rest ih =>
    obtain ⟨_, hps⟩ := List.forall_mem_cons.mp hdefaults
    exact hnext (ih hps (hV.declare _))

end Typing

end UnionTyping
