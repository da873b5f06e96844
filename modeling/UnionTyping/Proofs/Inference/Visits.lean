/-
  UnionTyping/Proofs/Inference/Visits.lean
  ========================================
  **The last check of a unit goes through every expression and gives it a value.**

  The check of an expression that is frozen goes through its children one after the
  other, except for a few that it passes over (`Expr.passesOver`).  Besides what their own
  checks note it touches only the node of the expression and those of the children that it
  passes over, and the calls that it notes are ways of carrying out the expression
  (`Passes`).
  Its result is a type that a value can have, since the results of its children
  are (`Frozen.of_infer`).
-/
import UnionTyping.Proofs.Inference.Carried
import UnionTyping.Proofs.Inference.Parts

namespace UnionTyping

open Ty (Over Proper Known)

/-- The check of an expression may pass over a child that is the name of a class or a library,
    an `out`, or the variable whose address is taken. -/
def Expr.passesOver (e child : Expr) : Prop :=
  (∃ m ref, child = .path m ref) ∨ (∃ m target, child = .out m target) ∨
    e.takesAddress = true ∧ child.isVariable = true

theorem Expr.passesOver.children_eq_nil {e child : Expr} (h : e.passesOver child) :
    child.children = [] := by
  rcases h with ⟨m, ref, rfl⟩ | ⟨m, target, rfl⟩ | ⟨_, hvariable⟩
  · rfl
  · rfl
  · cases child with
    | ident | ivar => rfl
    | _ => cases hvariable

/-- The nodes for which the check of an expression itself notes something. -/
def Expr.touches (e : Expr) (node : NodeId) : Prop :=
  node = e.id ∨ ∃ child ∈ e.children, e.passesOver child ∧ node = child.id

def Expr.callArgs : Expr → List Expr
  | .call _ _ _ args _ _ => args
  | _ => []

/-- Whether an expression is carried out as a call: an operator and a name can be, too. -/
def Expr.mayCall : Expr → Bool
  | .ident _ _ | .opAssign _ _ _ _ | .call _ _ _ _ _ _ => true
  | _ => false

def Expr.Carries (c : Checking) (s : Engine) (e : Expr) (node : NodeId)
    (call : Resolution) : Prop :=
  e.mayCall = true ∧ CarriedAt c.env s e.id e.callArgs node call

section

variable {m : Mark} {receiver : Expr} {name : String} {args : List Expr} {block : Option Block}
  {parens : Bool} {e : Expr} (he : e = .call m (some receiver) name args block parens)
include he

theorem Expr.touches_call : e.touches m.id := by
  rw [he]
  exact Or.inl rfl

theorem Expr.touches_passed {child : Expr} (hchild : child ∈ receiver :: args)
    (hpasses : e.passesOver child) : e.touches child.id := by
  refine Or.inr ⟨child, ?_, hpasses, rfl⟩
  rw [he]
  exact List.mem_append_left _ hchild

theorem Expr.carries_call {c : Checking} {s : Engine} (node : NodeId) (call : Resolution)
    (h : CarriedAt c.env s m.id args node call) : e.Carries c s node call := by
  rw [he]
  exact ⟨rfl, h⟩

end

/-- The check goes through the expressions one after the other, and their own checks
    are frozen.  Otherwise nothing is found out but about the nodes `own`, and the calls
    that are noted satisfy `L`.  Expressions whose nodes are among `own` may be passed over. -/
inductive Passes (c : Checking) (s : Engine) (own : NodeId → Prop)
    (L : NodeId → Resolution → Prop) : Walk → List Expr → Walk → Prop where
  | done (w : Walk) : Passes c s own L w [] w
  | own {w w₁ w' : Walk} {es : List Expr}
      (touched : ∀ node, ¬ own node → w₁.found node = w.found node) (noted : Adds L w w₁)
      (rest : Passes c s own L w₁ es w') : Passes c s own L w es w'
  | leaf {w w' : Walk} {e : Expr} {es : List Expr} (children : e.children = [])
      (isOwn : own e.id) (rest : Passes c s own L w es w') : Passes c s own L w (e :: es) w'
  | child {w w₁ w' : Walk} {t : Ty} {e : Expr} {es : List Expr}
      (frozen : Frozen s (Checking.typed e.id (c.infer e)) w t w₁)
      (rest : Passes c s own L w₁ es w') : Passes c s own L w (e :: es) w'

/-- The result of the check of an expression is the type of a value. -/
def Valued (c : Checking) (s : Engine) (e : Expr) : Prop :=
  ∀ (w w' : Walk) (t : Ty), Frozen s (c.infer e) w t w' → t.Known

variable {c : Checking} {s : Engine} {w w₁ w' : Walk} {own : NodeId → Prop}
  {L : NodeId → Resolution → Prop}

namespace Passes

theorem append {es fs : List Expr} (h : Passes c s own L w es w₁)
    (h' : Passes c s own L w₁ fs w') : Passes c s own L w (es ++ fs) w' := by
  induction h with
  | done => exact h'
  | own touched noted _ ih => exact .own touched noted (ih h')
  | leaf children isOwn _ ih => exact .leaf children isOwn (ih h')
  | child frozen _ ih => exact .child frozen (ih h')

/-- A step first that finds out nothing. -/
theorem skip {es : List Expr} (hsame : ∀ node, w₁.found node = w.found node)
    (h : Passes c s own L w₁ es w') : Passes c s own L w es w' :=
  .own (fun node _ => hsame node) (.of_found hsame) h

/-- The count of loops is none of the findings. -/
theorem counted {es : List Expr} {depth : Nat}
    (h : Passes c s own L { w with loopDepth := depth } es w') : Passes c s own L w es w' := by
  refine skip (fun node => ?_) h
  rfl

/-- Noting the type of an own node first. -/
theorem noteType {es : List Expr} {node : NodeId} {t : Ty} (hw : w.types.Ascending)
    (hnode : own node)
    (h : Passes c s own L { w with types := w.types.insert node t } es w') :
    Passes c s own L w es w' := by
  have hnoted : Adds L w { w with types := w.types.insert node t } := .of_calls rfl
  refine .own (fun other hother => ?_) hnoted h
  have hne : other ≠ node := fun heq => hother (heq ▸ hnode)
  rw [Walk.found, NodeMap.find?_insert hw, if_neg hne]
  rfl

/-- Touching the own nodes at the end. -/
theorem then_own {es : List Expr} (h : Passes c s own L w es w₁)
    (touched : ∀ node, ¬ own node → w'.found node = w₁.found node) (noted : Adds L w₁ w') :
    Passes c s own L w es w' := by
  have happend := h.append (.own touched noted (.done w'))
  rw [List.append_nil] at happend
  exact happend

end Passes

namespace Frozen

/-! ### Several expressions -/

theorem valued_typed {e : Expr} {t : Ty} (he : Valued c s e)
    (h : Frozen s (Checking.typed e.id (c.infer e)) w t w') : t.Known := by
  obtain ⟨w₁, hinfer, _⟩ := h.of_typed
  exact he w w₁ t hinfer

theorem of_inferBody (hrest : Rest c s) {last t : Ty} {es : List Expr}
    (hes : ∀ e ∈ es, Valued c s e) (hlast : last.Known)
    (h : Frozen s (c.inferBody last es) w t w') : Passes c s own L w es w' ∧ t.Known := by
  induction es generalizing w last with
  | nil =>
    rw [Checking.inferBody] at h
    obtain ⟨rfl, rfl⟩ := h.of_pure
    exact ⟨.done w', hlast⟩
  | cons e es ih =>
    obtain ⟨ty, w₁, _, hfirst, hrun⟩ := h.parts_inferBody hrest
    obtain ⟨he, hes⟩ := List.forall_mem_cons.mp hes
    obtain ⟨hpasses, ht⟩ := ih hes (hfirst.valued_typed he) hrun
    exact ⟨.child hfirst hpasses, ht⟩

theorem of_bodyInLoop (hrest : Rest c s) {t : Ty} {es : List Expr}
    (hes : ∀ e ∈ es, Valued c s e)
    (h : Frozen s (Checking.inLoop (c.inferBody .nil es)) w t w') :
    Passes c s own L w es w' := by
  obtain ⟨w₁, hbody, rfl⟩ := h.of_inLoop
  have hpasses : Passes c s own L w es w₁ :=
    (hbody.of_inferBody hrest hes (Ty.proper_plain "Nil").known).1.counted
  exact hpasses.then_own (fun _ _ => rfl) (.of_calls rfl)

theorem of_inferArgs (hrest : Rest c s) {ts : List Ty} {es : List Expr}
    (hes : ∀ e ∈ es, Valued c s e) (h : Frozen s (c.inferArgs es) w ts w') :
    Passes c s own L w es w' ∧ ∀ t ∈ ts, t.Known := by
  induction es generalizing w ts with
  | nil =>
    rw [Checking.inferArgs] at h
    obtain ⟨rfl, rfl⟩ := h.of_pure
    exact ⟨.done w', List.forall_mem_nil _⟩
  | cons e es ih =>
    obtain ⟨ty, ts', w₁, rfl, _, hfirst, hothers⟩ := h.parts_inferArgs hrest
    obtain ⟨he, hes⟩ := List.forall_mem_cons.mp hes
    obtain ⟨hpasses, hts⟩ := ih hes hothers
    exact ⟨.child hfirst hpasses, List.forall_mem_cons.mpr ⟨hfirst.valued_typed he, hts⟩⟩

theorem of_inferBlock (hrest : Rest c s) {call : NodeId} {block : Option Block} {u : Unit}
    (hblock : ∀ e ∈ Block.bodyOf block, Valued c s e)
    (h : Frozen s (c.inferBlock call block) w u w') :
    Passes c s own L w (Block.bodyOf block) w' := by
  match block with
  | none =>
    rw [Checking.inferBlock] at h
    obtain ⟨_, rfl⟩ := h.of_pure
    exact .done w'
  | some (.mk params body) =>
    obtain ⟨t, w₁, w₂, hlocals, hrun, rfl⟩ := h.parts_inferBlock hrest
    -- opening and leaving the scope and declaring the parameters notes nothing
    have hdeclared : ∀ node, w₁.found node = w.found node := fun node =>
      hlocals.untouched hrest ((hrest.lockstep (.only fun _ => False)).bindLocals
        fun _ _ => trivial) id
    have hpasses : Passes c s own L w₁ body w₂ := hrun.of_bodyInLoop hrest hblock
    exact .skip hdeclared (hpasses.then_own (fun _ _ => rfl) (.of_calls rfl))

/-- What stands behind an `out` has a type unless it is a local. -/
theorem known_nativeOutType (hrest : Rest c s) {target : Target} {loc : Location} {t : Ty}
    (h : Frozen s (c.nativeOutType target loc) w t w') : t.Known ∨ ∃ x, target = .local x := by
  cases target with
  | «local» name => exact Or.inr ⟨name, rfl⟩
  | ivar name => exact Or.inl (h.known_readIvar hrest)

theorem of_inferNativeArgs (hrest : Rest c s) {given : List NativeArg}
    {es : List Expr} (hown : ∀ m target, .out m target ∈ es → own m.id)
    (hes : ∀ e ∈ es, Valued c s e) (h : Frozen s (c.inferNativeArgs es) w given w') :
    Passes c s own L w es w' ∧ GivenFor es given := by
  induction es generalizing w given with
  | nil =>
    rw [Checking.inferNativeArgs] at h
    obtain ⟨rfl, rfl⟩ := h.of_pure
    exact ⟨.done w', .nil⟩
  | cons e es ih =>
    obtain ⟨t, rest, w₁, rfl, ht, hfirst, hothers⟩ := h.parts_inferNativeArgs hrest
    have htail : ∀ m target, .out m target ∈ es → own m.id := fun m target hmem =>
      hown m target (List.mem_cons_of_mem _ hmem)
    obtain ⟨he, hothersValued⟩ := List.forall_mem_cons.mp hes
    obtain ⟨hpasses, hgiven⟩ := ih htail hothersValued hothers
    unfold Checking.inferNativeArg at hfirst
    cases htarget : e.outTarget? with
    | some target =>
      obtain ⟨m, rfl⟩ := Expr.outTarget?_eq_some htarget
      have hhead := hown m target List.mem_cons_self
      have S₀ := hrest.lockstep (.only own)
      have hnoted : Adds L w w₁ :=
        hfirst.adds_nothing (.typed (.nativeOutType (fun _ _ => rfl) _ _))
      refine ⟨.own (fun node hnode => ?_) hnoted (.leaf rfl hhead hpasses),
        .cons ⟨ht, fun hu => ?_⟩ hgiven⟩
      · exact hfirst.untouched hrest (S₀.typed hhead (S₀.nativeOutType trivial)) hnode
      · obtain ⟨_, hread, _⟩ := hfirst.of_typed
        rcases hread.known_nativeOutType hrest with hknown | ⟨x, rfl⟩
        · rw [hknown.isUnresolved_eq_false] at hu
          cases hu
        · exact ⟨m, x, rfl⟩
    | none =>
      rw [htarget] at hfirst
      refine ⟨.child hfirst hpasses, .cons ⟨ht, fun hu => ?_⟩ hgiven⟩
      rw [(hfirst.valued_typed he).isUnresolved_eq_false] at hu
      cases hu

/-! ### Expressions -/

/-- An expression without children touches its own node. -/
theorem passes_of_leaf (hrest : Rest c s) {e : Expr} {t : Ty}
    (he : e.children = []) (h : Frozen s (c.infer e) w t w') (noted : Adds L w w') :
    Passes c s e.touches L w e.children w' := by
  have S₀ := hrest.lockstep (.only e.touches)
  have hspeaks : (Vocabulary.only e.touches).speaks e.nodes := by
    refine Vocabulary.speaks_only fun n hn => ?_
    rw [Expr.nodes_eq, he] at hn
    rw [List.mem_singleton.mp hn]
    exact Or.inl rfl
  rw [he]
  exact .own (fun node hnode => h.untouched hrest (S₀.infer e hspeaks _) hnode) noted
    (.done w')

theorem of_infer_opAssign (hrest : Rest c s) {m : Mark} {target : Target} {op : String}
    {value : Expr} {t : Ty} (hvalue : Valued c s value)
    (h : Frozen s (c.infer (.opAssign m target op value)) w t w') :
    Passes c s (Expr.opAssign m target op value).touches
      ((Expr.opAssign m target op value).Carries c s) w [value] w' ∧ t.Known := by
  obtain ⟨i, current, operand, w₁, w₂, w₃, w₄, hi, hcurrent, _, hty, hbinding, hread, hvisit, hon,
    hassign⟩ := h.parts_opAssign hrest
  have hii : Replay.SameBinding s.store.bindings.length i i := ⟨rfl, hi⟩
  have hoperand := hvisit.valued_typed hvalue
  have hargs : List.Forall₂ (SameType (Over Proper)) [operand] [operand] :=
    .cons (.self hoperand.isOver) .nil
  have hknown := hon.known_callOn hrest (List.forall_mem_singleton.mpr hoperand)
    (hread.known_read hrest hi)
  have S₀ := hrest.lockstep (.only (Expr.opAssign m target op value).touches)
  have hbefore : Adds ((Expr.opAssign m target op value).Carries c s) w w₂ :=
    (hbinding.adds_nothing (.bindingToUpdate (fun _ _ => rfl) _ _ _)).trans
      (hread.adds_nothing (.read i))
  have hcalled : Adds (CarriedAt c.env s m.id []) w₃ w₄ :=
    hon.adds_callOn hrest (List.forall_mem_singleton.mpr hoperand) (hread.known_read hrest hi)
  have hafter : Adds ((Expr.opAssign m target op value).Carries c s) w₃ w' :=
    (hcalled.mono fun _ _ h => ⟨rfl, h⟩).trans (hassign.adds_nothing (.assign _ _ _))
  refine ⟨.own (fun node hnode => ?_) hbefore
    (.child hvisit (.own (fun node hnode => ?_) hafter (.done w'))), hknown⟩
  · rw [hread.untouched hrest (S₀.read hii) hnode,
      hbinding.untouched hrest (S₀.bindingToUpdate trivial) hnode]
  · rw [hassign.untouched hrest (S₀.assign hii (.self hty)) hnode,
      hon.untouched hrest (S₀.callOn (Or.inl rfl) (.self hcurrent) hargs) hnode]

section

variable (hrest : Rest c s) {m : Mark} {receiver : Expr} {name : String} {args : List Expr}
  {block : Option Block} {parens : Bool} {t : Ty} {e : Expr}
  (he : e = .call m (some receiver) name args block parens)
  (hargs : ∀ child ∈ args, Valued c s child)
  (hblock : ∀ child ∈ Block.bodyOf block, Valued c s child)
  (h : Frozen s (c.infer e) w t w')
include hrest he h

/-- The address of a variable: there is nothing else below the call. -/
theorem of_infer_pointer (hptr : name = "ptr") :
    Passes c s e.touches (e.Carries c s) w (receiver :: args ++ Block.bodyOf block) w' ∧
      t.Known := by
  have S₀ := hrest.lockstep (.only e.touches)
  rw [he, Checking.infer, if_pos hptr] at h
  obtain ⟨hvariable, hgiven, hnone, element, _, hknown, ht, _⟩ := h.of_takePointer hrest
  have hover : e.passesOver receiver := .inr (.inr ⟨by rw [he, hptr]; rfl, hvariable⟩)
  have hpassed := Expr.touches_passed he List.mem_cons_self hover
  have hnil := hover.children_eq_nil
  have hspeaks : (Vocabulary.only e.touches).speaks receiver.nodes := by
    refine Vocabulary.speaks_only fun n hn => ?_
    rw [Expr.nodes_eq, hnil] at hn
    rw [List.mem_singleton.mp hn]
    exact hpassed
  rw [List.eq_nil_of_length_eq_zero hgiven,
    Option.isNone_iff_eq_none.mp (Option.isSome_eq_false_iff.mp hnone)]
  constructor
  · refine .leaf hnil hpassed (.own (fun node hnode => ?_)
      ((h.adds_takePointer hrest).mono (Expr.carries_call he)) (.done w'))
    exact h.untouched hrest (S₀.takePointer trivial (Expr.touches_call he) hspeaks) hnode
  · rw [ht]
    exact hknown.proper_pointer.known

include hargs hblock

theorem of_infer_callValue (hreceiver : Valued c s receiver) (hname : name ≠ "ptr")
    (hkind : c.env.receiverKind receiver = .value) :
    Passes c s e.touches (e.Carries c s) w (receiver :: args ++ Block.bodyOf block) w' ∧
      t.Known := by
  have S₀ := hrest.lockstep (.only e.touches)
  rw [he] at h
  obtain ⟨self, given, w₁, w₂, w₃, _, _, hself, hgiven, hbody, hcall⟩ :=
    h.parts_call hrest hname hkind
  obtain ⟨hpasses, hknown⟩ := hgiven.of_inferArgs hrest hargs
  have hselfKnown := hself.valued_typed hreceiver
  have hover := SameType.forall₂_iff.mpr ⟨rfl, fun t ht => (hknown t ht).isOver⟩
  refine ⟨.child hself ?_, hcall.known_callOn hrest hknown hselfKnown⟩
  refine (hpasses.append (hbody.of_inferBlock hrest hblock)).then_own (fun node hnode => ?_) ?_
  · exact hcall.untouched hrest
      (S₀.callOn (Expr.touches_call he) (.self hselfKnown.isOver) hover) hnode
  · exact (hcall.adds_callOn hrest hknown hselfKnown).mono (Expr.carries_call he)

theorem of_infer_callClass {ref : TypeRef} (hname : name ≠ "ptr")
    (hkind : c.env.receiverKind receiver = .ofClass ref) :
    Passes c s e.touches (e.Carries c s) w (receiver :: args ++ Block.bodyOf block) w' ∧
      t.Known := by
  have S₀ := hrest.lockstep (.only e.touches)
  rw [he] at h
  obtain ⟨m', rfl⟩ := Env.receiverKind_ofClass hkind
  have hpath := Expr.touches_passed he List.mem_cons_self (.inl ⟨_, _, rfl⟩)
  obtain ⟨ty, given, w₁, w₂, hty, _, hgiven, hbody, hclass⟩ := h.parts_callClass hrest hname hkind
  obtain ⟨hpasses, hknown⟩ := hgiven.of_inferArgs hrest hargs
  have hover := SameType.forall₂_iff.mpr ⟨rfl, fun t ht => (hknown t ht).isOver⟩
  refine ⟨.leaf rfl hpath (.noteType (t := .classObject) h.start.typesAscending hpath ?_),
    hclass.known_callOnClass hrest hknown hty⟩
  refine (hpasses.append (hbody.of_inferBlock hrest hblock)).then_own (fun node hnode => ?_) ?_
  · exact hclass.untouched hrest
      (S₀.callOnClass (Expr.touches_call he) trivial hty hover) hnode
  · exact (hclass.adds_callOnClass hrest hknown hty).mono (Expr.carries_call he)

theorem of_infer_callNative {library : Library} (hname : name ≠ "ptr")
    (hkind : c.env.receiverKind receiver = .ofLibrary library) :
    Passes c s e.touches (e.Carries c s) w (receiver :: args ++ Block.bodyOf block) w' ∧
      t.Known := by
  have S₀ := hrest.lockstep (.only e.touches)
  rw [he] at h
  have hl := Env.receiverKind_ofLibrary hkind
  obtain ⟨m', ref, rfl⟩ := Env.exists_path_of_ofLibrary hkind
  have hpath := Expr.touches_passed he List.mem_cons_self (.inl ⟨_, _, rfl⟩)
  have hout : ∀ m target, .out m target ∈ args → e.touches m.id := fun m target hmem =>
    Expr.touches_passed he (List.mem_cons_of_mem _ hmem) (.inr (.inl ⟨_, _, rfl⟩))
  obtain ⟨f, given, w₁, w₂, hf, htypes, hgiven, hbody, hnative⟩ :=
    h.parts_callNative hrest hname hkind
  have hmem := List.mem_of_find?_eq_some hf
  obtain ⟨hpasses, hfor⟩ := hgiven.of_inferNativeArgs hrest hout hargs
  refine ⟨.leaf rfl hpath (.noteType (t := .classObject) h.start.typesAscending hpath ?_),
    hnative.known_callNative hrest hl hmem⟩
  refine (hpasses.append (hbody.of_inferBlock hrest hblock)).then_own (fun node hnode => ?_) ?_
  · exact hnative.untouched hrest (S₀.callNative (Expr.touches_call he) hl hmem
      (fun _ _ hmem => ⟨hout _ _ hmem, trivial⟩) htypes) hnode
  · exact (hnative.adds_callNative (Env.native?_of_receiverKind hkind hf).2 hfor).mono
      (Expr.carries_call he)

end

/-- The check of an expression goes through its children and gives the type of a
    value. -/
theorem of_infer (hrest : Rest c s) {e : Expr} {t : Ty}
    (hchildren : ∀ child ∈ e.children, Valued c s child) (h : Frozen s (c.infer e) w t w') :
    Passes c s e.touches (e.Carries c s) w e.children w' ∧ t.Known := by
  have S₀ := hrest.lockstep (.only e.touches)
  cases e with
  | literal m value =>
    have hrun := h
    rw [Checking.infer] at hrun
    refine ⟨h.passes_of_leaf hrest rfl (hrun.adds_nothing (.pure _)), ?_⟩
    rw [hrun.of_pure.1]
    exact value.plain.proper.known
  | ident m name =>
    rcases h.parts_ident with ⟨i, hi, hread⟩ | ⟨_, hcall⟩
    · exact ⟨h.passes_of_leaf hrest rfl (hread.adds_nothing (.read i)),
        hread.known_read hrest (h.lookup_lt hi)⟩
    · have hnone : ∀ a ∈ ([] : List Ty), a.Known := List.forall_mem_nil _
      have hcalled : Adds (CarriedAt c.env s m.id []) w w' := hcall.adds_callOnSelf hrest hnone
      exact ⟨h.passes_of_leaf hrest rfl (hcalled.mono fun _ _ h => ⟨rfl, h⟩),
        hcall.known_callOnSelf hrest hnone⟩
  | ivar m name =>
    have hrun := h
    rw [Checking.infer] at hrun
    exact ⟨h.passes_of_leaf hrest rfl (hrun.adds_nothing (.readIvar (fun _ _ => rfl) _ _)),
      hrun.known_readIvar hrest⟩
  | out m target =>
    have hrun := h
    rw [Checking.infer] at hrun
    exact ⟨h.passes_of_leaf hrest rfl (hrun.adds_nothing (.outType (fun _ _ => rfl) _ _)),
      hrun.known_outType hrest⟩
  | path m ref =>
    have hrun := h
    rw [Checking.infer] at hrun
    split at hrun
    · refine ⟨h.passes_of_leaf hrest rfl (hrun.adds_nothing (.pure _)), ?_⟩
      rw [hrun.of_pure.1]
      exact (Ty.proper_plain "Class").known
    · exact absurd hrun not_fail
  | control m keyword =>
    have hrun := h
    rw [Checking.infer] at hrun
    obtain ⟨_, rfl, hsame⟩ := hrun.of_loopControl
    exact ⟨h.passes_of_leaf hrest rfl (.of_calls (congrArg Walk.calls hsame)),
      (Ty.proper_plain "Nil").known⟩
  | assign m target value =>
    obtain ⟨i, w₁, w₂, hty, hi, hvisit, hbinding, hassign⟩ := h.parts_assign hrest
    exact ⟨.child hvisit (.skip (hbinding.found_assigned hassign) (.done w')),
      hvisit.valued_typed (hchildren value List.mem_cons_self)⟩
  | opAssign m target op value =>
    exact h.of_infer_opAssign hrest (hchildren value List.mem_cons_self)
  | connect m op lhs rhs =>
    obtain ⟨left, right, w₁, hleft, rfl, hvisit, hvisit'⟩ := h.parts_connect hrest
    have hknown := hvisit'.valued_typed (hchildren rhs (List.mem_cons_of_mem _ List.mem_cons_self))
    exact ⟨.child hvisit (.child hvisit' (.done w')),
      Known.union hleft hknown.isOver (Or.inr hknown)⟩
  | ite m cond thenBody elseBody =>
    obtain ⟨hcond, hrest'⟩ := List.forall_mem_cons.mp hchildren
    obtain ⟨hthen, helse⟩ := List.forall_mem_append.mp hrest'
    obtain ⟨_, thenTy, elseTy, w₁, w₂, rfl, hvisit, hfirst, hlast⟩ := h.parts_ite hrest
    obtain ⟨hpasses, hknown⟩ := hfirst.of_inferBody hrest hthen (Ty.proper_plain "Nil").known
    obtain ⟨hpasses', hknown'⟩ := hlast.of_inferBody hrest helse (Ty.proper_plain "Nil").known
    exact ⟨.child hvisit (hpasses.append hpasses'),
      Known.union hknown.isOver hknown'.isOver (Or.inl hknown)⟩
  | loop m cond body =>
    obtain ⟨hcond, hbody⟩ := List.forall_mem_cons.mp hchildren
    obtain ⟨_, _, w₁, rfl, hvisit, hlast⟩ := h.parts_loop hrest
    exact ⟨.child hvisit (hlast.of_bodyInLoop hrest hbody), (Ty.proper_plain "Nil").known⟩
  | call m receiver name args block parens =>
    cases receiver with
    | none =>
      obtain ⟨hargs, hblock⟩ := List.forall_mem_append.mp hchildren
      obtain ⟨given, w₁, w₂, _, hgiven, hbody, hcall⟩ := h.parts_callSelf hrest
      obtain ⟨hpasses, hknown⟩ := hgiven.of_inferArgs hrest hargs
      have hover := SameType.forall₂_iff.mpr ⟨rfl, fun t ht => (hknown t ht).isOver⟩
      refine ⟨?_, hcall.known_callOnSelf hrest hknown⟩
      refine (hpasses.append (hbody.of_inferBlock hrest hblock)).then_own (fun node hnode => ?_) ?_
      · exact hcall.untouched hrest (S₀.callOnSelf (Or.inl rfl) hover) hnode
      · exact (hcall.adds_callOnSelf hrest hknown).mono fun _ _ h => ⟨rfl, h⟩
    | some receiver =>
      obtain ⟨hreceiver, hothers⟩ := List.forall_mem_cons.mp hchildren
      obtain ⟨hargs, hblock⟩ := List.forall_mem_append.mp hothers
      by_cases hptr : name = "ptr"
      · exact h.of_infer_pointer hrest rfl hptr
      · cases hkind : c.env.receiverKind receiver with
        | value => exact h.of_infer_callValue hrest rfl hargs hblock hreceiver hptr hkind
        | ofClass ref => exact h.of_infer_callClass hrest rfl hargs hblock hptr hkind
        | ofLibrary library => exact h.of_infer_callNative hrest rfl hargs hblock hptr hkind

end Frozen

end UnionTyping
