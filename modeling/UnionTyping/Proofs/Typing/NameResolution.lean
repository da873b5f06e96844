/-
  UnionTyping/Proofs/Typing/NameResolution.lean
  =============================================
  **A name is a variable where it is visible and a call elsewhere.**

  In an accepted program a name that stands outside of declarations, or in the body of a
  method that has an instance and no default values, is reported as a call exactly where
  the name is not visible (`Program.check_calls_invisible`).  Which names are visible is
  said by the rule of `Expr.scopedChildren` and `Expr.namesAfter`, which knows nothing of
  the scopes that a check opens and leaves.

  The check of an expression goes through its children in their order, and the scopes show
  the names of the rule each time when the check of a child begins (`Follows`).  By induction
  on the way down to a name they show those of the rule there (`resolves`), and nothing but
  the check of the name notes a call for it (`Follows.called_iff`).  Instances of one method
  share its body, and the rule says the same for all of them (`Env.Body.of_shared`).
-/
import UnionTyping.Proofs.Inference.LegalCalls
import UnionTyping.Proofs.Inference.Merging
import UnionTyping.Proofs.Typing.FinalTyping
import UnionTyping.Proofs.Typing.Visibility

namespace UnionTyping

open Ty (Over Proper)

variable {c : Checking} {s : Engine} {w w₁ w' : Walk} {V : List String}

/-! ### Scopes -/

/-- The names of `V` and no others are visible in the scopes, and each means a local of the
    unit. -/
structure Scopes.Shows (sc : Scopes) (st : Store) (unit : UnitId) (V : List String) : Prop where
  named : sc.Named st unit
  outline : sc.outline.Shows V

namespace Scopes.Shows

variable {sc : Scopes} {st : Store} {unit : UnitId}

theorem empty : Scopes.empty.Shows st unit [] := ⟨.empty, .empty⟩

theorem lookup (h : sc.Shows st unit V) (name : String) : sc.lookup name = none ↔ name ∉ V := by
  rw [← h.outline name]
  constructor
  · exact h.named.lookup_eq_none
  · intro hnone
    by_contra hne
    obtain ⟨i, hi⟩ := Option.ne_none_iff_exists'.mp hne
    obtain ⟨scope, hscope, _⟩ := h.named.exists_scope hi
    rw [hnone] at hscope
    cases hscope

end Scopes.Shows

/-- The check is that of the unit of an instance, or of the top level. -/
structure Checking.IsOf (c : Checking) (s : Engine) (key : Option Instantiation) : Prop where
  self : key.bind Instantiation.self = c.self
  unit : s.unitAt key = some c.unit

def Walk.typing (w : Walk) (c : Checking) (s : Engine) (key : Option Instantiation) : Typing :=
  ⟨c.env, s.context, w.types.find?, fun node call => call ∈ w.callsAt node, key⟩

theorem Checking.IsOf.describes {key : Option Instantiation} (h : c.IsOf s key) (w : Walk) :
    (w.typing c s key).Describes c s where
  env := rfl
  holds_eq := rfl
  reads_eq := rfl
  entered := fun _ _ _ unit _ _ hunit => ⟨unit, hunit⟩
  self := h.self
  unit := h.unit

/-! ### The names that are visible afterwards -/

namespace Frozen

section

variable {key : Option Instantiation} (hc : c.IsOf s key) (hstill : Still c s)
include hc hstill

/-- The check of an expression makes those names visible that the rule says. -/
theorem shows_typed {e : Expr} {t : Ty} (hw : w.scopes.Shows s.store c.unit V)
    (hnodup : (e.nodes.map Expr.id).Nodup)
    (h : Frozen s (Checking.typed e.id (c.infer e)) w t w') :
    w'.scopes.Shows s.store c.unit (e.namesAfter c.env V) := by
  obtain ⟨htyped, _, hnamed⟩ := (derivable (hc.describes w') hstill e).typed hstill hw.named hnodup
    (fun _ _ => ⟨rfl, fun _ => id⟩) h
  exact ⟨hnamed, htyped.shows hw.outline⟩

end

end Frozen

/-! ### Going through expressions -/

/-- The check goes through the expressions one after the other, each time in scopes that show
    the names which are listed with the expression.  Otherwise it notes no call but at the
    nodes `own`.  It may pass over an expression without children, and over a name if it is
    visible. -/
inductive Follows (c : Checking) (s : Engine) (own : NodeId → Prop) :
    Walk → List (Expr × List String) → Walk → Prop where
  | done (w : Walk) : Follows c s own w [] w
  | step {w w₁ w' : Walk} {ps : List (Expr × List String)}
      (quiet : ∀ node, ¬ own node → w₁.calls.find? node = w.calls.find? node)
      (rest : Follows c s own w₁ ps w') : Follows c s own w ps w'
  | leaf {w w' : Walk} {e : Expr} {V : List String} {ps : List (Expr × List String)}
      (children : e.children = []) (visible : ∀ m name, e = .ident m name → name ∈ V)
      (rest : Follows c s own w ps w') : Follows c s own w ((e, V) :: ps) w'
  | child {w w₁ w' : Walk} {t : Ty} {e : Expr} {V : List String}
      {ps : List (Expr × List String)} (shown : w.scopes.Shows s.store c.unit V)
      (frozen : Frozen s (Checking.typed e.id (c.infer e)) w t w₁)
      (rest : Follows c s own w₁ ps w') : Follows c s own w ((e, V) :: ps) w'

namespace Follows

variable {own : NodeId → Prop} {ps qs : List (Expr × List String)}

theorem append (h : Follows c s own w ps w₁) (h' : Follows c s own w₁ qs w') :
    Follows c s own w (ps ++ qs) w' := by
  induction h with
  | done => exact h'
  | step quiet _ ih => exact .step quiet (ih h')
  | leaf children visible _ ih => exact .leaf children visible (ih h')
  | child shown frozen _ ih => exact .child shown frozen (ih h')

/-- Noting calls at the own nodes in the end. -/
theorem then_step (h : Follows c s own w ps w₁)
    (quiet : ∀ node, ¬ own node → w'.calls.find? node = w₁.calls.find? node) :
    Follows c s own w ps w' := by
  have happend := h.append (.step quiet (.done w'))
  rw [List.append_nil] at happend
  exact happend

/-- The count of loops is none of the findings. -/
theorem counted {depth : Nat} (h : Follows c s own { w with loopDepth := depth } ps w') :
    Follows c s own w ps w' := by
  refine .step (fun node _ => ?_) h
  rfl

/-- The name of a class or a library is passed over; its type is noted. -/
theorem path {m : Mark} {ref : TypeRef} {t : Ty}
    (h : Follows c s own { w with types := w.types.insert m.id t } ps w') :
    Follows c s own w ((.path m ref, V) :: ps) w' := by
  refine .leaf rfl (fun _ _ heq => ?_) (.step (fun _ _ => ?_) h)
  · cases heq
  · rfl

end Follows

namespace Frozen

variable {own : NodeId → Prop}

section

variable {key : Option Instantiation} (hc : c.IsOf s key) (hstill : Still c s)
  {es : List Expr} (hw : w.scopes.Shows s.store c.unit V) (hnodup : (Expr.ids es).Nodup)
include hc hstill hw hnodup

theorem follows_inferBody {last t : Ty} (h : Frozen s (c.inferBody last es) w t w') :
    Follows c s own w (Expr.inTurn c.env es V) w' ∧
      w'.scopes.Shows s.store c.unit (Expr.namesAfterAll c.env es V) := by
  induction es generalizing w V last with
  | nil =>
    rw [Checking.inferBody] at h
    obtain ⟨_, rfl⟩ := h.of_pure
    exact ⟨.done w', hw⟩
  | cons e es ih =>
    obtain ⟨u, w₁, _, hfirst, hothers⟩ := h.parts_inferBody hstill
    rw [Expr.ids_cons] at hnodup
    have hw₁ := hfirst.shows_typed hc hstill hw (List.nodup_append.mp hnodup).1
    obtain ⟨hfollows, hw'⟩ := ih hw₁ (List.nodup_append.mp hnodup).2.1 hothers
    exact ⟨.child hw hfirst hfollows, hw'⟩

theorem follows_bodyInLoop {t : Ty}
    (h : Frozen s (Checking.inLoop (c.inferBody .nil es)) w t w') :
    Follows c s own w (Expr.inTurn c.env es V) w' := by
  obtain ⟨w₁, hbody, rfl⟩ := h.of_inLoop
  have hfollows : Follows c s own w (Expr.inTurn c.env es V) w₁ :=
    (follows_inferBody (w := { w with loopDepth := w.loopDepth + 1 }) hc hstill hw hnodup
      hbody).1.counted
  exact hfollows.then_step fun _ _ => rfl

theorem follows_inferArgs {ts : List Ty} (h : Frozen s (c.inferArgs es) w ts w') :
    Follows c s own w (Expr.inTurn c.env es V) w' ∧
      w'.scopes.Shows s.store c.unit (Expr.namesAfterAll c.env es V) := by
  induction es generalizing w V ts with
  | nil =>
    rw [Checking.inferArgs] at h
    obtain ⟨_, rfl⟩ := h.of_pure
    exact ⟨.done w', hw⟩
  | cons e es ih =>
    obtain ⟨u, us, w₁, _, _, hfirst, hothers⟩ := h.parts_inferArgs hstill
    rw [Expr.ids_cons] at hnodup
    have hw₁ := hfirst.shows_typed hc hstill hw (List.nodup_append.mp hnodup).1
    obtain ⟨hfollows, hw'⟩ := ih hw₁ (List.nodup_append.mp hnodup).2.1 hothers
    exact ⟨.child hw hfirst hfollows, hw'⟩

/-- An `out` argument of a native call makes nothing visible yet. -/
theorem follows_inferNativeArgs {given : List NativeArg}
    (h : Frozen s (c.inferNativeArgs es) w given w') :
    Follows c s own w (Expr.inTurn c.env es V) w' ∧
      w'.scopes.Shows s.store c.unit (Expr.namesAfterAll c.env es V) := by
  induction es generalizing w V given with
  | nil =>
    rw [Checking.inferNativeArgs] at h
    obtain ⟨_, rfl⟩ := h.of_pure
    exact ⟨.done w', hw⟩
  | cons e es ih =>
    obtain ⟨u, rest, w₁, _, _, hfirst, hothers⟩ := h.parts_inferNativeArgs hstill
    rw [Expr.ids_cons] at hnodup
    have htail := (List.nodup_append.mp hnodup).2.1
    unfold Checking.inferNativeArg at hfirst
    cases htarget : e.outTarget? with
    | none =>
      rw [htarget] at hfirst
      have hw₁ := hfirst.shows_typed hc hstill hw (List.nodup_append.mp hnodup).1
      obtain ⟨hfollows, hw'⟩ := ih hw₁ htail hothers
      exact ⟨.child hw hfirst hfollows, hw'⟩
    | some target =>
      obtain ⟨m, rfl⟩ := Expr.outTarget?_eq_some htarget
      obtain ⟨w₀, hread, rfl⟩ := hfirst.of_typed
      have hscopes : w₀.scopes = w.scopes :=
        hread.keeps (p := Walk.scopes) (.nativeOutType (fun _ _ => rfl) _ _)
      have hcalls : w₀.calls = w.calls :=
        hread.keeps (p := Walk.calls) (.nativeOutType (fun _ _ => rfl) _ _)
      obtain ⟨hfollows, hw'⟩ := ih (hscopes ▸ hw) htail hothers
      refine ⟨.leaf rfl (fun _ _ heq => nomatch heq) (.step (fun node _ => ?_) hfollows), hw'⟩
      rw [← hcalls]

omit hnodup in
/-- The parameters of a block are visible in it. -/
theorem follows_inferBlock {call : NodeId} {block : Option Block} {u : Unit}
    (hnodup : (Expr.ids (Block.bodyOf block)).Nodup)
    (h : Frozen s (c.inferBlock call block) w u w') :
    Follows c s own w (Expr.inBlock c.env block V) w' := by
  match block with
  | none =>
    rw [Checking.inferBlock] at h
    obtain ⟨_, rfl⟩ := h.of_pure
    exact .done w'
  | some (.mk params body) =>
    obtain ⟨t, w₁, w₂, hlocals, hrun, rfl⟩ := h.parts_inferBlock hstill
    obtain ⟨houtline, hnamed⟩ := hlocals.of_bindLocals hstill (hw.named.enter _)
    have hw₁ : w₁.scopes.Shows s.store c.unit (params ++ V) :=
      ⟨hnamed, houtline ▸ (hw.outline.enter _).declareAll params⟩
    have hquiet : ∀ node, w₁.found node = w.found node := fun node =>
      hlocals.untouched hstill ((hstill.lockstep (.only fun _ => False)).bindLocals
        fun _ _ => trivial) id
    have hbody : Follows c s own w₁ (Expr.inBlock c.env (some (.mk params body)) V) w₂ :=
      hrun.follows_bodyInLoop hc hstill hw₁ hnodup
    have hfollows : Follows c s own w (Expr.inBlock c.env (some (.mk params body)) V) w₂ :=
      .step (fun node _ => congrArg Prod.snd (hquiet node)) hbody
    exact hfollows.then_step fun _ _ => rfl

end

/-! ### Expressions -/

/-- An expression without children notes no call but at its own node. -/
theorem quiet_of_leaf (hstill : Still c s) {e : Expr} {t : Ty}
    (he : e.children = []) (h : Frozen s (c.infer e) w t w') {node : NodeId}
    (hnode : node ≠ e.id) : w'.calls.find? node = w.calls.find? node := by
  have hspeaks : (Vocabulary.only (· = e.id)).speaks e.nodes := by
    apply Vocabulary.speaks_only
    intro n hn
    rw [Expr.nodes_eq, he] at hn
    rw [List.mem_singleton.mp hn]
  exact congrArg Prod.snd
    (h.untouched hstill ((hstill.lockstep (.only (· = e.id))).infer e hspeaks _) hnode)

section

variable {key : Option Instantiation} (hc : c.IsOf s key) (hstill : Still c s)
  {m : Mark} {t : Ty} (hw : w.scopes.Shows s.store c.unit V)
include hc hstill hw

omit hc in
theorem follows_opAssign {target : Target} {op : String} {value : Expr}
    (h : Frozen s (c.infer (.opAssign m target op value)) w t w') :
    Follows c s (· = m.id) w [(value, V)] w' := by
  obtain ⟨i, current, operand, w₁, w₂, w₃, w₄, hi, hcurrent, hoperand, _, hbinding, hread, hvisit,
    hon, hassign⟩ := h.parts_opAssign hstill
  have hscopes : w₂.scopes = w.scopes := (hread.keeps (p := Walk.scopes) (.read i)).trans
    (hbinding.keeps (p := Walk.scopes) (.bindingToUpdate (fun _ _ => rfl) _ _ _))
  have hbefore : w₂.calls = w.calls := (hread.keeps (p := Walk.calls) (.read i)).trans
    (hbinding.keeps (p := Walk.calls) (.bindingToUpdate (fun _ _ => rfl) _ _ _))
  have hafter : w'.calls = w₄.calls := hassign.keeps (p := Walk.calls) (.assign _ _ _)
  have hcalled : ∀ node, node ≠ m.id → w₄.found node = w₃.found node := fun node hnode =>
    hon.untouched hstill ((hstill.lockstep (.only (· = m.id))).callOn rfl (.self hcurrent)
      (.cons (.self hoperand) .nil)) hnode
  apply Follows.step (fun node _ => by rw [hbefore])
  apply Follows.child (hscopes ▸ hw) hvisit
  apply Follows.step _ (.done w')
  intro node hnode
  rw [hafter]
  exact congrArg Prod.snd (hcalled node hnode)

/-! ### Calls -/

variable {args : List Expr} {block : Option Block} {own : NodeId → Prop}

theorem follows_arguments {given : List Ty} {call : NodeId}
    (hnodup : (Expr.ids (args ++ Block.bodyOf block)).Nodup)
    (hgiven : Frozen s (c.inferArgs args) w given w₁)
    (hblock : Frozen s (c.inferBlock call block) w₁ () w') :
    Follows c s own w
      (Expr.inTurn c.env args V ++ Expr.inBlock c.env block (Expr.namesAfterAll c.env args V))
        w' := by
  rw [Expr.ids_append] at hnodup
  obtain ⟨hargs, hw₁⟩ := hgiven.follows_inferArgs hc hstill hw (List.nodup_append.mp hnodup).1
  exact hargs.append (hblock.follows_inferBlock hc hstill hw₁ (List.nodup_append.mp hnodup).2.1)

theorem follows_callSelf {name : String} {parens : Bool}
    (hnodup : (Expr.ids (args ++ Block.bodyOf block)).Nodup)
    (h : Frozen s (c.infer (.call m none name args block parens)) w t w') :
    Follows c s (· = m.id) w
      ((Expr.call m none name args block parens).scopedChildren c.env V) w' := by
  obtain ⟨given, w₁, w₂, hover, hgiven, hblock, hcall⟩ := h.parts_callSelf hstill
  apply (hgiven.follows_arguments hc hstill hw hnodup hblock).then_step
  intro node hnode
  exact congrArg Prod.snd (hcall.untouched hstill ((hstill.lockstep (.only (· = m.id))).callOnSelf
    rfl (SameType.forall₂_iff.mpr ⟨rfl, hover⟩)) hnode)

theorem follows_callValue {receiver : Expr} {name : String} {parens : Bool} (hname : name ≠ "ptr")
    (hkind : c.env.receiverKind receiver = .value)
    (hnodup : (Expr.ids (receiver :: (args ++ Block.bodyOf block))).Nodup)
    (h : Frozen s (c.infer (.call m (some receiver) name args block parens)) w t w') :
    Follows c s (· = m.id) w
      ((Expr.call m (some receiver) name args block parens).scopedChildren c.env V) w' := by
  obtain ⟨self, given, w₁, w₂, w₃, hself, hover, hvisit, hgiven, hblock, hcall⟩ :=
    h.parts_call hstill hname hkind
  rw [Expr.ids_cons] at hnodup
  have hw₁ := hvisit.shows_typed hc hstill hw (List.nodup_append.mp hnodup).1
  apply (Follows.child hw hvisit (hgiven.follows_arguments hc hstill hw₁
    (List.nodup_append.mp hnodup).2.1 hblock)).then_step
  intro node hnode
  exact congrArg Prod.snd (hcall.untouched hstill ((hstill.lockstep (.only (· = m.id))).callOn rfl
    (.self hself) (SameType.forall₂_iff.mpr ⟨rfl, hover⟩)) hnode)

theorem follows_callClass {receiver : Expr} {name : String} {parens : Bool} {ref : TypeRef}
    (hname : name ≠ "ptr") (hkind : c.env.receiverKind receiver = .ofClass ref)
    (hnodup : (Expr.ids (args ++ Block.bodyOf block)).Nodup)
    (h : Frozen s (c.infer (.call m (some receiver) name args block parens)) w t w') :
    Follows c s (· = m.id) w
      ((Expr.call m (some receiver) name args block parens).scopedChildren c.env V) w' := by
  obtain ⟨ty, given, w₁, w₂, hty, hover, hgiven, hblock, hcall⟩ :=
    h.parts_callClass hstill hname hkind
  obtain ⟨m', rfl⟩ := Env.receiverKind_ofClass hkind
  have hnoted : Scopes.Shows { w with types := w.types.insert m'.id .classObject }.scopes s.store
      c.unit V := hw
  have hparts : Follows c s (· = m.id) w
      ((Expr.call m (some (.path m' ref)) name args block parens).scopedChildren c.env V) w₂ :=
    .path (hgiven.follows_arguments hc hstill hnoted hnodup hblock)
  apply hparts.then_step
  intro node hnode
  exact congrArg Prod.snd (hcall.untouched hstill ((hstill.lockstep (.only (· = m.id))).callOnClass
    rfl trivial hty (SameType.forall₂_iff.mpr ⟨rfl, hover⟩)) hnode)

theorem follows_callNative {receiver : Expr} {name : String} {parens : Bool} {library : Library}
    (hname : name ≠ "ptr") (hkind : c.env.receiverKind receiver = .ofLibrary library)
    (hnodup : (Expr.ids (args ++ Block.bodyOf block)).Nodup)
    (h : Frozen s (c.infer (.call m (some receiver) name args block parens)) w t w') :
    Follows c s (· = m.id) w
      ((Expr.call m (some receiver) name args block parens).scopedChildren c.env V) w' := by
  obtain ⟨f, given, w₁, w₂, hf, _, hgiven, hblock, hcall⟩ := h.parts_callNative hstill hname hkind
  obtain ⟨verdict, w₃, _, rfl, houts, rfl⟩ := hcall.of_callNative
  obtain ⟨m', ref, rfl⟩ := Env.exists_path_of_ofLibrary hkind
  have hnoted : Scopes.Shows { w with types := w.types.insert m'.id .classObject }.scopes s.store
      c.unit V := hw
  rw [Expr.ids_append] at hnodup
  obtain ⟨hargs, hw₁⟩ := hgiven.follows_inferNativeArgs hc hstill hnoted
    (List.nodup_append.mp hnodup).1
  have hparts : Follows c s (· = m.id) w
      ((Expr.call m (some (.path m' ref)) name args block parens).scopedChildren c.env V) w₂ :=
    .path (hargs.append (hblock.follows_inferBlock hc hstill hw₁ (List.nodup_append.mp hnodup).2.1))
  have hfilled : w₃.calls = w₂.calls := houts.keeps (p := Walk.calls) (NotesNoCall.assignOuts _)
  apply hparts.then_step
  intro node hnode
  rw [← hfilled]
  exact congrArg Prod.snd (Walk.found_noted (hfilled ▸ houts.start.callsAscending) hnode)

end

/-- The address is taken of a variable, so its name is visible. -/
theorem follows_pointer (hrest : Rest c s) {key : Option Instantiation} (hc : c.IsOf s key)
    {m : Mark} {t : Ty} (hw : w.scopes.Shows s.store c.unit V) {receiver : Expr}
    {args : List Expr} {block : Option Block} {parens : Bool}
    (h : Frozen s (c.infer (.call m (some receiver) "ptr" args block parens)) w t w') :
    Follows c s (· = m.id) w
      ((Expr.call m (some receiver) "ptr" args block parens).scopedChildren c.env V) w' := by
  rw [Checking.infer, if_pos rfl] at h
  obtain ⟨hgiven, hnone, _, target, p, _, hvariable, hplace, _⟩ :=
    (hc.describes w').of_takePointer hrest hw.named h
  cases List.eq_nil_of_length_eq_zero hgiven
  cases Option.isNone_iff_eq_none.mp (Option.isSome_eq_false_iff.mp hnone)
  obtain ⟨_, _, _, element, typed, _, _, hcalls, hok, rfl⟩ := h.of_takePointer hrest
  have hvisible : ∀ m name, receiver = .ident m name → name ∈ V := by
    rintro m name rfl
    cases hvariable
    by_contra hnot
    rw [Typing.place?, (hw.outline name).mpr hnot] at hplace
    cases hplace
  apply Follows.leaf (Expr.children_eq_nil_of_variable? hvariable) hvisible
  apply Follows.step _ (.done _)
  intro node hnode
  rw [← hcalls]
  exact congrArg Prod.snd (Walk.found_noted hok.callsAscending hnode)

/-- The check of an expression goes through its children, each time in scopes that show the
    names of the rule. -/
theorem follows (hrest : Rest c s) {key : Option Instantiation} (hc : c.IsOf s key) {e : Expr}
    {t : Ty} (hw : w.scopes.Shows s.store c.unit V)
    (hnodup : (Expr.ids e.children).Nodup) (h : Frozen s (c.infer e) w t w') :
    Follows c s (· = e.id) w (e.scopedChildren c.env V) w' := by
  have hstill : Still c s := hrest
  cases e with
  | literal | ident | ivar | path | out | control =>
    exact .step (fun node hnode => h.quiet_of_leaf hstill rfl hnode) (.done w')
  | assign m target value =>
    obtain ⟨i, w₁, w₂, _, _, hvisit, hbinding, hassign⟩ := h.parts_assign hstill
    have hcalls : w'.calls = w₁.calls := (hassign.keeps (p := Walk.calls) (.assign _ _ _)).trans
      (hbinding.keeps (p := Walk.calls) (.bindingToAssign (fun _ _ => rfl) (fun _ _ => rfl) _ _))
    exact .child hw hvisit (.step (fun node _ => by rw [hcalls]) (.done w'))
  | opAssign m target op value => exact h.follows_opAssign hstill hw
  | connect m op lhs rhs =>
    obtain ⟨left, right, w₁, _, _, hvisit, hvisit'⟩ := h.parts_connect hstill
    rw [Expr.children, Expr.ids_cons] at hnodup
    have hw₁ := hvisit.shows_typed hc hstill hw (List.nodup_append.mp hnodup).1
    exact .child hw hvisit (.child hw₁ hvisit' (.done w'))
  | ite m cond thenBody elseBody =>
    obtain ⟨_, _, _, w₁, w₂, _, hvisit, hfirst, hlast⟩ := h.parts_ite hstill
    rw [Expr.children, List.cons_append, Expr.ids_cons, Expr.ids_append] at hnodup
    obtain ⟨hcond, hbodies, _⟩ := List.nodup_append.mp hnodup
    have hw₁ := hvisit.shows_typed hc hstill hw hcond
    obtain ⟨hthen, hw₂⟩ := hfirst.follows_inferBody hc hstill hw₁ (List.nodup_append.mp hbodies).1
    obtain ⟨helse, _⟩ := hlast.follows_inferBody hc hstill hw₂ (List.nodup_append.mp hbodies).2.1
    rw [Expr.scopedChildren, List.cons_append, Expr.inTurn, Expr.inTurn_append]
    exact .child hw hvisit (hthen.append helse)
  | loop m cond body =>
    obtain ⟨_, _, w₁, _, hvisit, hlast⟩ := h.parts_loop hstill
    rw [Expr.children, Expr.ids_cons] at hnodup
    obtain ⟨hcond, hbody, _⟩ := List.nodup_append.mp hnodup
    have hw₁ := hvisit.shows_typed hc hstill hw hcond
    exact .child hw hvisit (hlast.follows_bodyInLoop hc hstill hw₁ hbody)
  | call m receiver name args block parens =>
    cases receiver with
    | none => exact h.follows_callSelf hc hstill hw hnodup
    | some receiver =>
      have hparts : (Expr.ids (args ++ Block.bodyOf block)).Nodup := by
        rw [Expr.ids_call] at hnodup
        exact (List.nodup_append.mp hnodup).2.1
      by_cases hname : name = "ptr"
      · rw [hname] at h ⊢
        exact h.follows_pointer hrest hc hw
      · cases hkind : c.env.receiverKind receiver with
        | value => exact h.follows_callValue hc hstill hw hname hkind hnodup
        | ofClass ref => exact h.follows_callClass hc hstill hw hname hkind hparts
        | ofLibrary library => exact h.follows_callNative hc hstill hw hname hkind hparts

end Frozen

/-! ### On the way down to a name -/

theorem Follows.calls_eq (hstill : Still c s) {own : NodeId → Prop} {ps : List (Expr × List String)}
    (h : Follows c s own w ps w') {node : NodeId} (hown : ¬ own node)
    (hnode : node ∉ Expr.ids (ps.map Prod.fst)) : w'.calls.find? node = w.calls.find? node := by
  induction h with
  | done => rfl
  | step quiet _ ih => rw [ih hnode, quiet node hown]
  | leaf _ _ _ ih =>
    rw [List.map_cons, Expr.ids_cons, List.mem_append, not_or] at hnode
    exact ih hnode.2
  | child _ frozen _ ih =>
    rw [List.map_cons, Expr.ids_cons, List.mem_append, not_or] at hnode
    rw [ih hnode.2]
    exact congrArg Prod.snd (frozen.found_typed hstill hnode.1)

/-- Whenever the check of the expression begins with the names of `V` visible, the name at `m`
    becomes a call or not according to whether it is among `W`. -/
def Resolves (c : Checking) (s : Engine) (m : Mark) (name : String) (W : List String) (e : Expr)
    (V : List String) : Prop :=
  ∀ (w w' : Walk) (t : Ty), w.scopes.Shows s.store c.unit V →
    (e.nodes.map Expr.id).Nodup → Frozen s (Checking.typed e.id (c.infer e)) w t w' →
    w.calls.find? m.id = none → ((∃ calls, w'.calls.find? m.id = some calls) ↔ name ∉ W)

/-- What comes before and after the expression does not concern a name in it. -/
theorem Follows.called_iff (hstill : Still c s) {own : NodeId → Prop}
    {ps : List (Expr × List String)} (h : Follows c s own w ps w')
    (hnodup : (Expr.ids (ps.map Prod.fst)).Nodup) {e : Expr} (hmem : (e, V) ∈ ps) {m : Mark}
    {name : String} {W : List String} (hown : ¬ own m.id)
    (hsees : Expr.Sees c.env (.ident m name) W e V) (he : Resolves c s m name W e V)
    (hnew : w.calls.find? m.id = none) :
    (∃ calls, w'.calls.find? m.id = some calls) ↔ name ∉ W := by
  have hbelow : m.id ∈ e.nodes.map Expr.id := List.mem_map.mpr ⟨_, hsees.mem_nodes, rfl⟩
  induction h with
  | done => cases hmem
  | step quiet _ ih => exact ih hnodup hmem ((quiet m.id hown).trans hnew)
  | leaf children visible rest ih =>
    rw [List.map_cons, Expr.ids_cons] at hnodup
    rcases List.mem_cons.mp hmem with heq | hmem
    · cases heq
      have hnone :=
        (rest.calls_eq hstill hown (List.disjoint_of_nodup_append hnodup hbelow)).trans hnew
      cases hsees with
      | self => simp [hnone, visible m name rfl]
      | child mem _ =>
        have hchild := Expr.mem_children_of_scoped mem
        rw [children] at hchild
        cases hchild
    · exact ih (List.nodup_append.mp hnodup).2.1 hmem hnew
  | child shown frozen rest ih =>
    rw [List.map_cons, Expr.ids_cons] at hnodup
    rcases List.mem_cons.mp hmem with heq | hmem
    · cases heq
      -- nothing that comes later has the number of the name
      rw [rest.calls_eq hstill hown (List.disjoint_of_nodup_append hnodup hbelow)]
      exact he _ _ _ shown (List.nodup_append.mp hnodup).1 frozen hnew
    · apply ih (List.nodup_append.mp hnodup).2.1 hmem
      have hlater : m.id ∈ Expr.ids (List.map Prod.fst _) := Expr.mem_ids_of_mem
        (Expr.mem_nodesOf_iff.mpr ⟨e, List.mem_map.mpr ⟨_, hmem, rfl⟩, hsees.mem_nodes⟩)
      have hsame := frozen.found_typed hstill fun hhead =>
        List.disjoint_of_nodup_append hnodup hhead hlater
      exact (congrArg Prod.snd hsame).trans hnew

/-- The name is a call where the scopes do not show it. -/
theorem resolves_ident (hstill : Still c s) (m : Mark) (name : String) (V : List String) :
    Resolves c s m name V (.ident m name) V := by
  intro w w' t hw _ h hnew
  obtain ⟨w₀, hinfer, rfl⟩ := h.of_typed
  rcases hinfer.parts_ident with ⟨i, hi, hread⟩ | ⟨hi, hcall⟩
  · have hcalls : w₀.calls = w.calls := hread.keeps (p := Walk.calls) (.read i)
    have hvisible : name ∈ V := by
      by_contra hnot
      rw [(hw.lookup name).mpr hnot] at hi
      cases hi
    simp [hcalls, hnew, hvisible]
  · have hcalled : (w₀.calls.find? m.id).getD [] ≠ [] := hcall.noted_of_callOnSelf hstill
    have hnotVisible : name ∉ V := (hw.lookup name).mp hi
    cases hcalls : w₀.calls.find? m.id with
    | none => simp [hcalls] at hcalled
    | some calls => simp [hnotVisible]

theorem resolves (hrest : Rest c s) {key : Option Instantiation} (hc : c.IsOf s key) {m : Mark}
    {name : String} {W : List String} {e : Expr} (h : Expr.Sees c.env (.ident m name) W e V) :
    Resolves c s m name W e V := by
  induction h with
  | self => exact resolves_ident hrest m name W
  | child hmem below ih =>
    intro w w' t hw hnodup h hnew
    obtain ⟨w₀, hinfer, rfl⟩ := h.of_typed
    have hnode := Expr.mem_nodesOf_iff.mpr ⟨_, Expr.mem_children_of_scoped hmem, below.mem_nodes⟩
    have hown : m.id ≠ _ := Expr.id_ne_of_mem_below hnodup hnode
    rw [Expr.map_id_nodes] at hnodup
    have hchildren := (List.nodup_cons.mp hnodup).2
    have hfollows := hinfer.follows hrest hc hw hchildren
    rw [← Expr.map_fst_scopedChildren c.env _ _] at hchildren
    exact hfollows.called_iff hrest hchildren hmem hown below ih hnew

/-! ### Units -/

/-- The expressions that every check of the unit evaluates last, and the names that are visible
    when it begins with them: those outside of declarations, or the body of a method without
    default values. -/
inductive Env.Body (env : Env) : Option Instantiation → List Expr → List String → Prop where
  | topLevel : Body env none env.topLevel []
  | method {key : Instantiation} {m : Method} (found : env.methods.get? key.method = some m)
      (defaults : ∀ p ∈ m.definition.params, p.default = none) :
      Body env (some key) m.definition.body (m.definition.params.map Param.name)

theorem Env.Body.sublist {env : Env} {key : Option Instantiation} {es : List Expr}
    (h : env.Body key es V) : es.Sublist (env.exprsOf key) := by
  cases h with
  | topLevel => exact .refl _
  | method found defaults =>
    rw [Env.exprsOf, found]
    exact List.sublist_append_right _ _

/-- Two units that share a node share the expressions and the names. -/
theorem Env.Body.of_shared {p : Program} {settings : Settings} {env : Env}
    (henv : Env.ofProgram settings p = .ok env) (hids : (p.nodes.map Expr.id).Nodup)
    {key key' : Option Instantiation} {es : List Expr} (h : env.Body key es V) {n n' : Expr}
    (hn : n ∈ Expr.nodesOf es) (hn' : n' ∈ Expr.nodesOf (env.exprsOf key')) (hid : n.id = n'.id) :
    env.Body key' es V := by
  have htop := Env.topLevel_of_ofProgram henv
  have hunit : n ∈ Expr.nodesOf (env.exprsOf key) := (Expr.nodesOf_sublist h.sublist).subset hn
  cases key' with
  | none =>
    rw [Env.exprsOf, htop] at hn'
    cases h with
    | topLevel => exact .topLevel
    | method found defaults =>
      -- no node of a declaration stands outside of declarations
      rw [Env.exprsOf, found] at hunit
      obtain ⟨i, hi, hd⟩ := Env.exists_item_of_get? henv found
      exact absurd hid (Program.ne_of_mem_defs hids hi hd hunit hn')
  | some k =>
    rw [Env.exprsOf] at hn'
    cases hm : env.methods.get? k.method with
    | none => simp [hm, Expr.nodesOf] at hn'
    | some m' =>
      rw [hm] at hn'
      obtain ⟨i', hi', hd'⟩ := Env.exists_item_of_get? henv hm
      cases h with
      | topLevel =>
        rw [htop] at hn
        exact absurd hid.symm (Program.ne_of_mem_defs hids hi' hd' hn' hn)
      | @method key m found defaults =>
        rw [Env.exprsOf, found] at hunit
        obtain ⟨i, hi, hd⟩ := Env.exists_item_of_get? henv found
        -- both are instances of the one method that has the node
        have hsame := Program.eq_of_mem_defs hids hi hi' hd hd' hunit hn' hid
        rw [hsame] at defaults ⊢
        exact .method hm defaults

/-- The check of a unit goes through its body in scopes that show the names of the rule. -/
theorem Frozen.follows_unitBody {key : Option Instantiation} (hc : c.IsOf s key)
    (hstill : Still c s) (hargs : ∀ k, key = some k → ∀ a ∈ k.args, a.Over Proper) {es : List Expr}
    (hnodup : (Expr.ids es).Nodup) (hbody : c.env.Body key es V) {t : Ty}
    (h : Frozen s (c.unitBody key) .start t w') :
    Follows c s (fun _ => False) .start (Expr.inTurn c.env es V) w' := by
  cases hbody with
  | topLevel => exact (h.follows_inferBody hc hstill .empty hnodup).1
  | @method key m found defaults =>
    unfold Checking.unitBody at h
    simp only [found] at h
    obtain ⟨i, w₁, w₂, _, _, hparams, hrun, hassign⟩ := h.parts_methodBody hstill (hargs key rfl)
    have hnone : Expr.ids (m.definition.params.flatMap Param.exprs) = [] := by
      have hexprs : ∀ p ∈ m.definition.params, p.exprs = [] := fun p hp => by
        rw [Param.exprs, defaults p hp]
        rfl
      rw [List.flatMap_eq_nil_iff.mpr hexprs]
      rfl
    obtain ⟨hgiven, hnamed⟩ := types_bindParams (hc.describes w₁) hstill (hargs key rfl) .empty rfl
      (by simp [hnone]) (by simp [hnone]) hparams
    have hw₁ : w₁.scopes.Shows s.store c.unit (m.definition.params.map Param.name) := by
      refine ⟨hnamed, ?_⟩
      have hshown := hgiven.shows defaults .empty
      rw [List.append_nil] at hshown
      exact hshown
    have hquiet : ∀ node, w₁.found node = Walk.start.found node := fun node =>
      hparams.found_bindParams hstill (hargs key rfl) (by simp [hnone])
    have hrun : Follows c s (fun _ => False) .start (Expr.inTurn c.env m.definition.body
        (m.definition.params.map Param.name)) w₂ :=
      .step (fun node _ => congrArg Prod.snd (hquiet node))
        (hrun.follows_inferBody hc hstill hw₁ hnodup).1
    apply hrun.then_step
    intro node _
    rw [hassign.keeps (p := Walk.calls) (.assign _ _ _)]

/-! ### Accepted programs -/

namespace Accepted

variable {p : Program} {settings : Settings} {env : Env} {e : Engine}
  (h : Accepted p settings env e) (hids : (p.nodes.map Expr.id).Nodup) {unit : UnitId}
  {u : UnitRecord} {es : List Expr}
include h hids

/-- A unit has noted a call for a name where the name is not visible. -/
theorem noted_iff_invisible (hu : e.units[unit]? = some u) (hbody : env.Body u.key es V) {m : Mark}
    {name : String} {W : List String} (hsees : Expr.SeesAmong env (.ident m name) W es V) :
    (∃ calls, u.calls.find? m.id = some calls) ↔ name ∉ W := by
  obtain ⟨scopes, depth, hfrozen⟩ := h.frozen hu
  have hrest := h.rest hu
  have hc : (repeatedCheck env unit u).IsOf e u.key := ⟨rfl, h.unitAt hu⟩
  have hargs : ∀ k, u.key = some k → ∀ a ∈ k.args, a.Over Proper := fun k hk =>
    (h.keyOk hu hk).args
  have hnodup : (Expr.ids es).Nodup :=
    List.Nodup.sublist ((Expr.nodesOf_sublist hbody.sublist).map Expr.id)
      (Env.nodup_exprsOf h.declared hids u.key)
  have hfollows := hfrozen.follows_unitBody hc hrest hargs hnodup hbody
  obtain ⟨⟨top, V'⟩, hmem, hsees⟩ := hsees
  apply hfollows.called_iff hrest _ hmem id hsees (resolves hrest hc hsees) rfl
  rw [Expr.map_fst_inTurn]
  exact hnodup

/-- All units that have the name agree on it, so it is reported as a call where it is not
    visible. -/
theorem reported_iff_invisible (hu : e.units[unit]? = some u) (hbody : env.Body u.key es V)
    {m : Mark} {name : String} {W : List String}
    (hsees : Expr.SeesAmong env (.ident m name) W es V) :
    (∃ calls, (e.report env).calls.find? m.id = some calls) ↔ name ∉ W := by
  rw [Engine.called_iff h.callsAscending]
  constructor
  · rintro ⟨u', hmem, calls, hcalls⟩
    obtain ⟨unit', hu'⟩ := List.getElem?_of_mem hmem
    have hnode : m.id ∈ Expr.ids (env.checkedOf u'.key) := by
      by_contra hnot
      rw [(h.untouched hu' hnot).2] at hcalls
      cases hcalls
    obtain ⟨n, hn, hid⟩ := List.mem_map.mp hnode
    have hshared := hbody.of_shared h.declared hids hsees.mem_nodesOf
      ((Expr.nodesOf_sublist (env.checkedOf_sublist u'.key)).subset hn) hid.symm
    exact (h.noted_iff_invisible hids hu' hshared hsees).mp ⟨calls, hcalls⟩
  · intro hinvisible
    exact ⟨u, List.mem_of_getElem? hu, (h.noted_iff_invisible hids hu hbody hsees).mpr hinvisible⟩

end Accepted

/-- The expressions are evaluated one after the other, beginning with the names of `V` visible.
    Each of their nodes that is a name is reported as a call exactly when the name is not
    visible there. -/
def Report.CallsInvisible (report : Report) (env : Env) (es : List Expr) (V : List String) : Prop :=
  ∀ m name, .ident m name ∈ Expr.nodesOf es →
    (∃ W, Expr.SeesAmong env (.ident m name) W es V) ∧
      ∀ W, Expr.SeesAmong env (.ident m name) W es V →
        ((∃ calls, report.calls.find? m.id = some calls) ↔ name ∉ W)

theorem Accepted.callsInvisible {p : Program} {settings : Settings} {env : Env} {e : Engine}
    (h : Accepted p settings env e) (hids : (p.nodes.map Expr.id).Nodup) {unit : UnitId}
    {u : UnitRecord} (hu : e.units[unit]? = some u) {es : List Expr} (hbody : env.Body u.key es V) :
    (e.report env).CallsInvisible env es V := by
  intro m name hname
  constructor
  · exact Expr.exists_seesAmong env hname V
  · intro W hsees
    exact h.reported_iff_invisible hids hu hbody hsees

/-- In an accepted program a name that stands outside of declarations, or in the body of a
    method that has an instance and no default values, is a call exactly where the name is not
    visible: nothing is visible when the program begins, and the parameters are when the body of
    a method does. -/
theorem Program.check_calls_invisible {file : String} {items : List Item} {settings : Settings}
    {report : Report} (h : (Program.ofItems file items).check settings = .ok report) :
    ∃ env, Env.ofProgram settings (Program.ofItems file items) = .ok env ∧
      report.CallsInvisible env (Program.ofItems file items).topLevel [] ∧
      ∀ i ∈ report.instances, ∃ m, env.methods.get? i.method = some m ∧
        ((∀ p ∈ m.definition.params, p.default = none) →
          report.CallsInvisible env m.definition.body (m.definition.params.map Param.name)) := by
  obtain ⟨env, e, haccepted, rfl⟩ := exists_accepted h
  have hids := Program.nodup_ids file items
  refine ⟨env, haccepted.declared, ?_, fun i hi => ?_⟩
  · obtain ⟨u, us, hunits, hkey, _⟩ := haccepted.finished.units_eq
    have hu : e.units[topUnit]? = some u := by
      rw [hunits]
      rfl
    have hbody : env.Body u.key env.topLevel [] := hkey ▸ .topLevel
    rw [← Env.topLevel_of_ofProgram haccepted.declared]
    exact haccepted.callsInvisible hids hu hbody
  · obtain ⟨u, hu, hkey⟩ := Engine.exists_unit_of_mem_instances hi
    obtain ⟨m, hm, _⟩ := haccepted.exists_method hu hkey
    refine ⟨m, hm, fun hdefaults => ?_⟩
    have hbody : env.Body u.key m.definition.body (m.definition.params.map Param.name) :=
      hkey ▸ .method hm hdefaults
    exact haccepted.callsInvisible hids hu hbody

/-- Names that are methods and become locals, one of them by an assignment of its own value, one
    in a block and one as an `out`:

    ```text
    lib Sensor; fun read(at : Int, out level : Double); end
    def count() 1 end; def last() 'c' end; def level() nil end; def scaled(n) count end
    count = count; scaled(count) { |k| last = k; last }; last
    level; Sensor.read(count, out level); level
    ``` -/
def shadowingProgram : Program :=
  let m : Mark := ⟨0, .unplaced⟩
  let ref (name : String) : TypeRef := .mk name [] .unplaced
  .ofItems "sensor.qz" [
    .library ⟨"Sensor", [⟨"read", [⟨"at", ref "Int", false⟩, ⟨"level", ref "Double", true⟩], none,
      .unplaced⟩], .unplaced⟩,
    .method ⟨"count", [], [.literal m .int], .unplaced⟩,
    .method ⟨"last", [], [.literal m .char], .unplaced⟩,
    .method ⟨"level", [], [.literal m .nil], .unplaced⟩,
    .method ⟨"scaled", [⟨"n", none, none⟩], [.ident m "count"], .unplaced⟩,
    .expr (.assign m (.local "count") (.ident m "count")),
    .expr (.call m none "scaled" [.ident m "count"]
      (some (.mk ["k"] [.assign m (.local "last") (.ident m "k"), .ident m "last"])) true),
    .expr (.ident m "last"),
    .expr (.ident m "level"),
    .expr (.call m (some (.path m (ref "Sensor"))) "read"
      [.ident m "count", .out m (.local "level")] none true),
    .expr (.ident m "level")]

theorem shadowingProgram_calls_invisible :
    ∃ report, shadowingProgram.check {} = .ok report ∧
    ∃ env, Env.ofProgram {} shadowingProgram = .ok env ∧
      report.CallsInvisible env shadowingProgram.topLevel [] ∧
      ∀ i ∈ report.instances, ∃ m, env.methods.get? i.method = some m ∧
        ((∀ p ∈ m.definition.params, p.default = none) →
          report.CallsInvisible env m.definition.body (m.definition.params.map Param.name)) := by
  have haccepted : (shadowingProgram.check {}).toBool = true := by decide +kernel
  obtain ⟨report, h⟩ := exists_of_toBool haccepted
  exact ⟨report, h, Program.check_calls_invisible h⟩

end UnionTyping
