/-
  UnionTyping/Proofs/Inference/Parts.lean
  =======================================
  **The parts of the check of an expression.**

  The check of an expression is made of checks of its parts and of a few steps of its own.
  When the whole is frozen each part is, since nothing in between can have changed the
  state.  There is one lemma here for each form of expression that has parts.
-/
import UnionTyping.Proofs.Inference.Frozen

namespace UnionTyping

open Ty (Over Proper Known)

variable {c : Checking} {s : Engine} {w w' : Walk}

/-- How an argument of a native call gets its type: the variable of an `out` need not be
    there. -/
def Checking.inferNativeArg (c : Checking) (e : Expr) : WalkM Ty :=
  match e.outTarget? with
  | some target => c.nativeOutType target e.loc
  | none => c.infer e

namespace Frozen

/-- The first of several expressions whose types are put together. -/
theorem bind_typed (hstill : Still c s) {e : Expr} {β : Type} {f : Ty → WalkM β}
    {b : β} {S : Nat → β → β → Prop}
    (h : Frozen s (Checking.typed e.id (c.infer e) >>= f) w b w')
    (hf : ∀ n t, s.store.bindings.length ≤ n → t.Over Proper → c.Keeps .full n S (f t) (f t)) :
    ∃ t w₁, t.Over Proper ∧ Frozen s (Checking.typed e.id (c.infer e)) w t w₁ ∧
      Frozen s (f t) w₁ b w' := by
  have S := hstill.lockstep .full
  obtain ⟨t, w₁, ht, hfirst, hrun⟩ := h.bind hstill
    (S.typed trivial (S.infer e (Vocabulary.speaks_full _) _)) fun n t t' hle ht => by
      obtain ⟨rfl, ht⟩ := ht
      exact hf n t hle ht
  exact ⟨t, w₁, ht.2, hfirst, hrun⟩

/-! ### Several expressions -/

section

variable (hstill : Still c s) {e : Expr} {es : List Expr}
include hstill

/-- The first of several expressions whose last type counts. -/
theorem parts_inferBody {last t : Ty} (h : Frozen s (c.inferBody last (e :: es)) w t w') :
    ∃ u w₁, u.Over Proper ∧ Frozen s (Checking.typed e.id (c.infer e)) w u w₁ ∧
      Frozen s (c.inferBody u es) w₁ t w' := by
  rw [Checking.inferBody] at h
  exact h.bind_typed hstill fun n u _ hu =>
    (hstill.lockstep .full).inferBody es (Vocabulary.speaks_full _) n (.self hu)

/-- The first of several expressions whose types are given on. -/
theorem parts_inferArgs {ts : List Ty} (h : Frozen s (c.inferArgs (e :: es)) w ts w') :
    ∃ u us w₁, ts = u :: us ∧ u.Over Proper ∧
      Frozen s (Checking.typed e.id (c.infer e)) w u w₁ ∧
      Frozen s (c.inferArgs es) w₁ us w' := by
  have L := hstill.lockstep .full
  rw [Checking.inferArgs] at h
  obtain ⟨u, w₁, hu, hfirst, hrun⟩ := h.bind_typed hstill fun n u _ hu =>
    L.seq (L.inferArgs es (Vocabulary.speaks_full _) n) fun _ _ _ _ hts =>
      L.ret (List.Forall₂.cons (.self hu) hts)
  obtain ⟨us, hts, hothers⟩ := hrun.of_map
  exact ⟨u, us, w₁, hts, hu, hfirst, hothers⟩

/-- The first of the arguments of a native call. -/
theorem parts_inferNativeArgs {given : List NativeArg}
    (h : Frozen s (c.inferNativeArgs (e :: es)) w given w') :
    ∃ u rest w₁, given = ⟨u, e.outTarget?.isSome⟩ :: rest ∧ u.Over Proper ∧
      Frozen s (Checking.typed e.id (c.inferNativeArg e)) w u w₁ ∧
      Frozen s (c.inferNativeArgs es) w₁ rest w' := by
  have L := hstill.lockstep .full
  have hothers : ∀ n (arg : NativeArg), arg.ty.Over Proper → c.Keeps .full n
      (fun _ => List.Forall₂ fun a b : NativeArg =>
        SameType (Over Proper) a.ty b.ty ∧ a.isOut = b.isOut)
      (do return arg :: (← c.inferNativeArgs es))
      (do return arg :: (← c.inferNativeArgs es)) := fun n arg harg =>
    L.seq (L.inferNativeArgs es (Vocabulary.speaks_full _) n) fun _ _ _ _ hts =>
      L.ret (.cons ⟨.self harg, rfl⟩ hts)
  have hfirst : ∀ n, c.Keeps .full n (fun _ => SameType (Over Proper)) (c.inferNativeArg e)
      (c.inferNativeArg e) := by
    intro n
    unfold Checking.inferNativeArg
    split
    · exact L.nativeOutType trivial
    · exact L.infer e (Vocabulary.speaks_full _) n
  have hgiven : Frozen s (do
      let u ← Checking.typed e.id (c.inferNativeArg e)
      return (⟨u, e.outTarget?.isSome⟩ : NativeArg) :: (← c.inferNativeArgs es))
      w given w' := by
    rw [Checking.inferNativeArgs] at h
    unfold Checking.inferNativeArg
    cases htarget : e.outTarget? with
    | some target =>
      rw [htarget] at h
      exact ⟨h.start, h.run, h.silent⟩
    | none =>
      rw [htarget] at h
      exact ⟨h.start, h.run, h.silent⟩
  obtain ⟨u, w₁, hu, hrun, hlater⟩ := hgiven.bind hstill (L.typed trivial (hfirst _))
    fun n u u' _ hu => by
      obtain ⟨rfl, hu⟩ := hu
      exact hothers n ⟨u, _⟩ hu
  have hmap : Frozen s (do return (⟨u, e.outTarget?.isSome⟩ : NativeArg) ::
      (← c.inferNativeArgs es)) w₁ given w' := hlater
  obtain ⟨rest, hrest, hrun'⟩ := hmap.of_map
  exact ⟨u, rest, w₁, hrest, hu.2, hrun, hrun'⟩

omit e es in
/-- The parameters and the body of a block, in a scope that is left afterwards. -/
theorem parts_inferBlock {call : NodeId} {params : List String} {body : List Expr} {u : Unit}
    (h : Frozen s (c.inferBlock call (some (.mk params body))) w u w') :
    ∃ t w₁ w₂, Frozen s (c.bindLocals params)
        { w with scopes := w.scopes.enter (.block call) } () w₁ ∧
      Frozen s (Checking.inLoop (c.inferBody .nil body)) w₁ t w₂ ∧
      w' = { w₂ with scopes := w₂.scopes.leave } := by
  have L := hstill.lockstep .full
  rw [Checking.inferBlock, Checking.inBlock] at h
  have hbody : ∀ n, c.Keeps .full n (fun _ => SameType (Over Proper))
      (Checking.inLoop (c.inferBody .nil body)) (Checking.inLoop (c.inferBody .nil body)) :=
    fun n => L.inLoop fun n => L.inferBody body (Vocabulary.speaks_full _) n (L.types.literal .nil)
  obtain ⟨_, w₁, _, henter, h⟩ := h.bind hstill (L.enter trivial) fun _ _ _ _ _ =>
    L.seq (L.bindLocals fun _ _ => trivial) fun _ _ _ _ _ =>
      L.seq (hbody _) fun _ _ _ _ _ => L.leave
  obtain ⟨_, w₂, _, hlocals, h⟩ := h.bind hstill (L.bindLocals fun _ _ => trivial) fun _ _ _ _ _ =>
    L.seq (hbody _) fun _ _ _ _ _ => L.leave
  obtain ⟨t, w₃, _, hrun, hleave⟩ := h.bind hstill (hbody _) fun _ _ _ _ _ => L.leave
  have hentered : w₁ = { w with scopes := w.scopes.enter (.block call) } := by
    have hrun := henter.run
    rw [runWalk_change] at hrun
    cases hrun
    rfl
  have hleft : w' = { w₃ with scopes := w₃.scopes.leave } := by
    have hrun := hleave.run
    rw [runWalk_change] at hrun
    cases hrun
    rfl
  rw [hentered] at hlocals
  exact ⟨t, w₂, w₃, hlocals, hrun, hleft⟩

end

/-! ### Assignments -/

theorem exists_of_bindingToAssign (hstill : Still c s) {target : Target} {loc : Location}
    {o : Option BindingId} (h : Frozen s (c.bindingToAssign target loc) w o w') :
    ∃ i, o = some i := by
  cases target with
  | «local» name =>
    have hfound := h.of_lookup
    cases hi : w.scopes.lookup name with
    | none =>
      rw [hi] at hfound
      obtain ⟨i, rfl, _⟩ := hfound.of_map
      exact ⟨i, rfl⟩
    | some i =>
      rw [hi] at hfound
      exact ⟨i, hfound.of_pure.1⟩
  | ivar name =>
    obtain ⟨i, hi, _⟩ := h.exists_of_ivarOf hstill
    exact ⟨i, hi⟩

theorem exists_of_bindingToUpdate (hstill : Still c s) {mark : Mark} {target : Target}
    {op : String} {o : Option BindingId}
    (h : Frozen s (c.bindingToUpdate mark target op) w o w') :
    ∃ i, o = some i ∧ i < s.store.bindings.length := by
  cases target with
  | «local» name =>
    obtain ⟨i, hi, hfound⟩ := h.exists_of_lookup not_fail_map
    exact ⟨i, hfound.of_pure.1, h.lookup_lt hi⟩
  | ivar name => exact h.exists_of_ivarOf hstill

section

variable (hstill : Still c s) {m : Mark} {t : Ty}
include hstill

/-- What is left of an assignment when its binding was asked for. -/
theorem keeps_assigned {n : Nat} {ty : Ty} (hty : ty.Over Proper) {o o' : Option BindingId} :
    Option.Rel (Replay.SameBinding n) o o' → c.Keeps .full n (fun _ => SameType (Over Proper))
      (match o with
        | some i => do c.assign i m.loc ty; return ty
        | none => return .unresolved)
      (match o' with
        | some i => do c.assign i m.loc ty; return ty
        | none => return .unresolved) := by
  intro ho
  have L := hstill.lockstep .full
  cases ho with
  | none => exact L.ret L.types.unresolved
  | some hij => exact L.assigned hij (.self hty)

omit hstill in
/-- A name is read where it has a binding, and is a call where it has none. -/
theorem parts_ident {name : String} (h : Frozen s (c.infer (.ident m name)) w t w') :
    (∃ i, w.scopes.lookup name = some i ∧ Frozen s (c.read i) w t w') ∨
      (w.scopes.lookup name = none ∧ Frozen s (c.callOnSelf m name [] true) w t w') := by
  rw [Checking.infer] at h
  have hfound := h.of_lookup
  cases hi : w.scopes.lookup name with
  | none =>
    rw [hi] at hfound
    exact Or.inr ⟨rfl, hfound⟩
  | some i =>
    rw [hi] at hfound
    exact Or.inl ⟨i, rfl, hfound⟩

/-- The value of an assignment, its binding and the assignment. -/
theorem parts_assign {target : Target} {value : Expr}
    (h : Frozen s (c.infer (.assign m target value)) w t w') :
    ∃ i w₁ w₂, t.Over Proper ∧ i < s.store.bindings.length ∧
      Frozen s (Checking.typed value.id (c.infer value)) w t w₁ ∧
      Frozen s (c.bindingToAssign target m.loc) w₁ (some i) w₂ ∧
      Frozen s (c.assign i m.loc t) w₂ () w' := by
  have L := hstill.lockstep .full
  rw [Checking.infer] at h
  obtain ⟨ty, w₁, hty, hvisit, h⟩ := h.bind_typed hstill fun n ty _ hty =>
    L.seq (L.bindingToAssign trivial) fun _ _ _ _ ho => keeps_assigned hstill hty ho
  obtain ⟨o, w₂, ho, hbinding, h⟩ := h.bind hstill (L.bindingToAssign trivial) fun _ _ _ _ ho =>
    keeps_assigned hstill hty ho
  obtain ⟨i, rfl⟩ := hbinding.exists_of_bindingToAssign hstill
  obtain ⟨_, rfl, hassign⟩ := h.of_map
  cases ho with
  | some hij => exact ⟨i, w₁, w₂, hty, hij.2, hvisit, hbinding, hassign⟩

omit hstill in
/-- Finding the binding and assigning it notes nothing. -/
theorem found_assigned {target : Target} {loc site : Location} {i : BindingId} {u : Unit}
    {w₁ w₂ : Walk} (hbinding : Frozen s (c.bindingToAssign target loc) w₁ (some i) w₂)
    (hassign : Frozen s (c.assign i site t) w₂ u w') (node : NodeId) :
    w'.found node = w₁.found node :=
  (hassign.keeps (p := (Walk.found · node)) (.assign _ _ _)).trans
    (hbinding.keeps (p := (Walk.found · node))
      (.bindingToAssign (fun _ _ => rfl) (fun _ _ => rfl) _ _))

/-- The variable of a compound assignment, its operand, the call and the assignment. -/
theorem parts_opAssign {target : Target} {op : String} {value : Expr}
    (h : Frozen s (c.infer (.opAssign m target op value)) w t w') :
    ∃ i current operand w₁ w₂ w₃ w₄, i < s.store.bindings.length ∧ current.Over Proper ∧
      operand.Over Proper ∧ t.Over Proper ∧
      Frozen s (c.bindingToUpdate m target op) w (some i) w₁ ∧
      Frozen s (c.read i) w₁ current w₂ ∧
      Frozen s (Checking.typed value.id (c.infer value)) w₂ operand w₃ ∧
      Frozen s (c.callOn m current op [operand]) w₃ t w₄ ∧
      Frozen s (c.assign i m.loc t) w₄ () w' := by
  have L := hstill.lockstep .full
  have hinfer : ∀ n, c.Keeps .full n (fun _ => SameType (Over Proper)) (c.infer value)
      (c.infer value) := fun n => L.infer value (Vocabulary.speaks_full _) n
  rw [Checking.infer] at h
  obtain ⟨o, w₁, _, hbinding, h⟩ := h.bind hstill (L.bindingToUpdate trivial) fun n o o' _ ho => by
    cases ho with
    | none => exact L.ret L.types.unresolved
    | some hij =>
      refine L.seq (L.read hij) fun n' current current' hle hcurrent => ?_
      exact L.operate trivial trivial hinfer (L.later hle hij) hcurrent
  obtain ⟨i, rfl, hi⟩ := hbinding.exists_of_bindingToUpdate hstill
  have hii : Replay.SameBinding s.store.bindings.length i i := ⟨rfl, hi⟩
  obtain ⟨current, w₂, hcurrent, hread, h⟩ := h.bind hstill (L.read hii)
    fun n current current' hle hcurrent =>
      L.operate trivial trivial hinfer (L.later hle hii) hcurrent
  obtain ⟨operand, w₃, hoperand, hvisit, h⟩ := h.bind_typed hstill fun n operand hle ho =>
    L.operated trivial (L.later hle hii) hcurrent (.self ho)
  have hargs : List.Forall₂ (SameType (Over Proper)) [operand] [operand] :=
    .cons (.self hoperand) .nil
  obtain ⟨ty, w₄, hty, hon, h⟩ := h.bind hstill (L.callOn trivial hcurrent hargs)
    fun n ty ty' hle hty => L.assigned (L.later hle hii) hty
  obtain ⟨_, rfl, hassign⟩ := h.of_map
  exact ⟨i, current, operand, w₁, w₂, w₃, w₄, hi, hcurrent.2, hoperand, hty.2, hbinding, hread,
    hvisit, hon, hassign⟩

/-! ### Choices and loops -/

/-- The sides of a connective. -/
theorem parts_connect {op : Connective} {lhs rhs : Expr}
    (h : Frozen s (c.infer (.connect m op lhs rhs)) w t w') :
    ∃ left right w₁, left.Over Proper ∧ t = left.union right ∧
      Frozen s (Checking.typed lhs.id (c.infer lhs)) w left w₁ ∧
      Frozen s (Checking.typed rhs.id (c.infer rhs)) w₁ right w' := by
  have L := hstill.lockstep .full
  rw [Checking.infer] at h
  have hrhs : ∀ n, c.Keeps .full n (fun _ => SameType (Over Proper))
      (Checking.typed rhs.id (c.infer rhs)) (Checking.typed rhs.id (c.infer rhs)) :=
    fun n => L.typed trivial (L.infer rhs (Vocabulary.speaks_full _) n)
  obtain ⟨left, w₁, hleft, hvisit, h⟩ := h.bind_typed hstill fun n left _ hleft =>
    L.seq (hrhs n) fun _ _ _ _ hright => L.ret (L.types.union (.self hleft) hright)
  obtain ⟨right, rfl, hvisit'⟩ := h.of_map
  exact ⟨left, right, w₁, hleft, rfl, hvisit, hvisit'⟩

/-- The condition and the branches of a conditional. -/
theorem parts_ite {cond : Expr} {thenBody elseBody : List Expr}
    (h : Frozen s (c.infer (.ite m cond thenBody elseBody)) w t w') :
    ∃ condTy thenTy elseTy w₁ w₂, t = thenTy.union elseTy ∧
      Frozen s (Checking.typed cond.id (c.infer cond)) w condTy w₁ ∧
      Frozen s (c.inferBody .nil thenBody) w₁ thenTy w₂ ∧
      Frozen s (c.inferBody .nil elseBody) w₂ elseTy w' := by
  have L := hstill.lockstep .full
  rw [Checking.infer] at h
  have hbody : ∀ (es : List Expr) n, c.Keeps .full n (fun _ => SameType (Over Proper))
      (c.inferBody .nil es) (c.inferBody .nil es) := fun es n =>
    L.inferBody es (Vocabulary.speaks_full _) n (L.types.literal .nil)
  have hsecond : ∀ n (t : Ty), t.Over Proper → c.Keeps .full n (fun _ => SameType (Over Proper))
      (do return t.union (← c.inferBody .nil elseBody))
      (do return t.union (← c.inferBody .nil elseBody)) := fun n t ht =>
    L.seq (hbody elseBody n) fun _ _ _ _ hu => L.ret (L.types.union (.self ht) hu)
  obtain ⟨condTy, w₁, _, hvisit, h⟩ := h.bind_typed hstill fun n _ _ _ =>
    L.seq (hbody thenBody n) fun n' t t' _ ht => by
      obtain ⟨rfl, ht⟩ := ht
      exact hsecond n' t ht
  obtain ⟨thenTy, w₂, _, hfirst, h⟩ := h.bind hstill (hbody thenBody _)
    fun n t t' _ ht => by
      obtain ⟨rfl, ht⟩ := ht
      exact hsecond n t ht
  obtain ⟨elseTy, rfl, hlast⟩ := h.of_map
  exact ⟨condTy, thenTy, elseTy, w₁, w₂, rfl, hvisit, hfirst, hlast⟩

/-- The condition and the body of a loop. -/
theorem parts_loop {cond : Expr} {body : List Expr}
    (h : Frozen s (c.infer (.loop m cond body)) w t w') :
    ∃ condTy last w₁, t = .nil ∧
      Frozen s (Checking.typed cond.id (c.infer cond)) w condTy w₁ ∧
      Frozen s (Checking.inLoop (c.inferBody .nil body)) w₁ last w' := by
  have L := hstill.lockstep .full
  rw [Checking.infer] at h
  obtain ⟨condTy, w₁, _, hvisit, h⟩ := h.bind_typed hstill fun n _ _ _ =>
    L.seq (L.inLoop fun n =>
      L.inferBody body (Vocabulary.speaks_full _) n (L.types.literal .nil))
      fun _ _ _ _ _ => L.ret (L.types.literal .nil)
  obtain ⟨last, rfl, hbody⟩ := h.of_map
  exact ⟨condTy, last, w₁, rfl, hvisit, hbody⟩

end

/-! ### Calls -/

/-- The arguments and the block of a call, and what is done with them. -/
theorem of_arguments (hstill : Still c s) {α : Type} {x : WalkM α} {Q : Nat → α → α → Prop}
    {call : NodeId} {block : Option Block} {k : α → WalkM Ty} {t : Ty}
    (hx : c.Keeps .full s.store.bindings.length Q x x) (hQ : ∀ n a a', Q n a a' → a' = a)
    (hk : ∀ n m a, Q n a a → c.Keeps .full m (fun _ => SameType (Over Proper)) (k a) (k a))
    (h : Frozen s (do
      let given ← x
      c.inferBlock call block
      k given) w t w') :
    ∃ given w₁ w₂, Q s.store.bindings.length given given ∧ Frozen s x w given w₁ ∧
      Frozen s (c.inferBlock call block) w₁ () w₂ ∧ Frozen s (k given) w₂ t w' := by
  have S := hstill.lockstep .full
  have hblock : ∀ n, c.Keeps .full n (fun _ _ _ => True) (c.inferBlock call block)
      (c.inferBlock call block) := fun n =>
    S.inferBlock block (Vocabulary.speaks_full _) n fun _ _ _ => ⟨trivial, fun _ _ => trivial⟩
  obtain ⟨given, w₁, hgiven, hargs, h⟩ := h.bind hstill hx fun n a a' _ ha => by
    cases hQ n a a' ha
    exact S.seq (hblock n) fun n' _ _ _ _ => hk n n' a ha
  obtain ⟨_, w₂, _, hbody, hrun⟩ := h.bind hstill (hblock _) fun n _ _ _ _ => hk _ n given hgiven
  exact ⟨given, w₁, w₂, hgiven, hargs, hbody, hrun⟩

theorem of_typeArguments (hstill : Still c s) {call : NodeId} {args : List Expr}
    {block : Option Block} {k : List Ty → WalkM Ty} {t : Ty}
    (hk : ∀ n ts, List.Forall₂ (SameType (Over Proper)) ts ts →
      c.Keeps .full n (fun _ => SameType (Over Proper)) (k ts) (k ts))
    (h : Frozen s (do
      let given ← c.inferArgs args
      c.inferBlock call block
      k given) w t w') :
    ∃ ts w₁ w₂, (∀ t ∈ ts, t.Over Proper) ∧ Frozen s (c.inferArgs args) w ts w₁ ∧
      Frozen s (c.inferBlock call block) w₁ () w₂ ∧ Frozen s (k ts) w₂ t w' := by
  have S := hstill.lockstep .full
  obtain ⟨ts, w₁, w₂, hts, hrun⟩ := h.of_arguments hstill
    (S.inferArgs args (Vocabulary.speaks_full _) _)
    (fun _ _ _ hts => (SameType.forall₂_iff.mp hts).1.symm) fun _ m ts hts => hk m ts hts
  exact ⟨ts, w₁, w₂, (SameType.forall₂_iff.mp hts).2, hrun⟩

/-- The parts of a call on a value. -/
theorem parts_call (hstill : Still c s) {m : Mark} {receiver : Expr} {name : String}
    {args : List Expr} {block : Option Block} {parens : Bool} {t : Ty}
    (hname : name ≠ "ptr") (hkind : c.env.receiverKind receiver = .value)
    (h : Frozen s (c.infer (.call m (some receiver) name args block parens)) w t w') :
    ∃ self given w₁ w₂ w₃, self.Over Proper ∧ (∀ t ∈ given, t.Over Proper) ∧
      Frozen s (Checking.typed receiver.id (c.infer receiver)) w self w₁ ∧
      Frozen s (c.inferArgs args) w₁ given w₂ ∧
      Frozen s (c.inferBlock m.id block) w₂ () w₃ ∧
        Frozen s (c.callOn m self name given) w₃ t w' := by
  have S := hstill.lockstep .full
  rw [Checking.infer, if_neg hname, hkind] at h
  have hcall : ∀ self : Ty, self.Over Proper → ∀ n ts, List.Forall₂ (SameType (Over Proper)) ts ts →
      c.Keeps .full n (fun _ => SameType (Over Proper)) (c.callOn m self name ts)
        (c.callOn m self name ts) := fun self hself n ts hts =>
    S.callOn trivial (.self hself) hts
  have hblock : ∀ n, c.Keeps .full n (fun _ _ _ => True) (c.inferBlock m.id block)
      (c.inferBlock m.id block) := fun n =>
    S.inferBlock block (Vocabulary.speaks_full _) n fun _ _ _ => ⟨trivial, fun _ _ => trivial⟩
  obtain ⟨self, w₁, hover, hself, h⟩ := h.bind_typed hstill fun n self _ hself =>
    S.seq (S.inferArgs args (Vocabulary.speaks_full _) n) fun n' ts ts' _ hts => by
      obtain ⟨rfl, _⟩ := SameType.forall₂_iff.mp hts
      exact S.seq (hblock n') fun n'' _ _ _ _ => hcall self hself n'' ts hts
  obtain ⟨given, w₂, w₃, hgiven, hparts⟩ := h.of_typeArguments hstill (hcall self hover)
  exact ⟨self, given, w₁, w₂, w₃, hover, hgiven, hself, hparts⟩

section

variable (hstill : Still c s) {m : Mark} {name : String} {args : List Expr}
  {block : Option Block} {parens : Bool} {t : Ty}
include hstill

/-- The parts of a call without receiver. -/
theorem parts_callSelf (h : Frozen s (c.infer (.call m none name args block parens)) w t w') :
    ∃ given w₁ w₂, (∀ t ∈ given, t.Over Proper) ∧ Frozen s (c.inferArgs args) w given w₁ ∧
      Frozen s (c.inferBlock m.id block) w₁ () w₂ ∧
      Frozen s (c.callOnSelf m name given (!parens && args.isEmpty)) w₂ t w' := by
  rw [Checking.infer] at h
  exact h.of_typeArguments hstill fun n ts hts => (hstill.lockstep .full).callOnSelf trivial hts

/-- The parts of a call on a class. -/
theorem parts_callClass {receiver : Expr} {ref : TypeRef} (hname : name ≠ "ptr")
    (hkind : c.env.receiverKind receiver = .ofClass ref)
    (h : Frozen s (c.infer (.call m (some receiver) name args block parens)) w t w') :
    ∃ ty given w₁ w₂, c.env.classes.typeOf ref = .ok ty ∧ (∀ t ∈ given, t.Over Proper) ∧
      Frozen s (c.inferArgs args)
        { w with types := w.types.insert receiver.id .classObject } given w₁ ∧
      Frozen s (c.inferBlock m.id block) w₁ () w₂ ∧
      Frozen s (c.callOnClass m ref.name ty name given) w₂ t w' := by
  rw [Checking.infer, if_neg hname, hkind] at h
  simp only at h
  cases hty : c.env.classes.typeOf ref with
  | error d =>
    rw [hty] at h
    exact absurd h not_fail
  | ok ty =>
    rw [hty] at h
    have hnoted := h.of_noteType (Ty.proper_plain "Class").isOver
    obtain ⟨given, w₁, w₂, hparts⟩ := hnoted.of_typeArguments hstill
      fun n ts hts => (hstill.lockstep .full).callOnClass trivial trivial hty hts
    exact ⟨ty, given, w₁, w₂, rfl, hparts⟩

/-- The parts of a native call. -/
theorem parts_callNative {receiver : Expr} {library : Library} (hname : name ≠ "ptr")
    (hkind : c.env.receiverKind receiver = .ofLibrary library)
    (h : Frozen s (c.infer (.call m (some receiver) name args block parens)) w t w') :
    ∃ f given w₁ w₂, library.find? name = some f ∧
      List.Forall₂ (fun a b : NativeArg => SameType (Over Proper) a.ty b.ty ∧ a.isOut = b.isOut)
        given given ∧
      Frozen s (c.inferNativeArgs args)
        { w with types := w.types.insert receiver.id .classObject } given w₁ ∧
      Frozen s (c.inferBlock m.id block) w₁ () w₂ ∧
      Frozen s (c.callNative m library.name f args given) w₂ t w' := by
  have L := hstill.lockstep .full
  rw [Checking.infer, if_neg hname, hkind] at h
  simp only at h
  have hnoted := h.of_noteType (Ty.proper_plain "Class").isOver
  cases hf : library.find? name with
  | none =>
    rw [hf] at hnoted
    exact absurd hnoted not_fail
  | some f =>
    rw [hf] at hnoted
    obtain ⟨given, w₁, w₂, htypes, hparts⟩ := hnoted.of_arguments hstill
      (L.inferNativeArgs args (Vocabulary.speaks_full _) _)
      (fun _ _ _ hts => SameType.nativeArgs_eq hts) fun _ n given hts =>
        L.callNative trivial (Env.receiverKind_ofLibrary hkind) (List.mem_of_find?_eq_some hf)
          (fun _ _ _ => ⟨trivial, trivial⟩) hts
    exact ⟨f, given, w₁, w₂, rfl, htypes, hparts⟩

end

/-! ### Methods -/

/-- The type that a parameter gets: that of the argument, or else of the default value. -/
inductive Given (c : Checking) (s : Engine) (p : Param) : List Ty → Walk → Ty → Walk → Prop where
  | argument {arg : Ty} {args : List Ty} {w : Walk} : Given c s p (arg :: args) w arg w
  | default {value : Expr} {t : Ty} {w w' : Walk} (default : p.default = some value)
      (frozen : Frozen s (Checking.typed value.id (c.infer value)) w t w') :
      Given c s p [] w t w'
  | missing {w : Walk} (default : p.default = none) : Given c s p [] w .unresolved w

section

variable (hstill : Still c s) {args : List Ty} (hargs : ∀ a ∈ args, a.Over Proper)
include hstill hargs

/-- The first of several parameters. -/
theorem parts_bindParams {site : Location} {p : Param} {ps : List Param}
    (h : Frozen s (c.bindParams site args (p :: ps)) w () w') :
    ∃ t i w₁ w₂ w₃, t.Over Proper ∧ i < s.store.bindings.length ∧ Given c s p args w t w₁ ∧
      Frozen s (c.bindLocal p.name) w₁ i w₂ ∧ Frozen s (c.assign i site t) w₂ () w₃ ∧
      Frozen s (c.bindParams site args.tail ps) w₃ () w' := by
  have L := hstill.lockstep .full
  have htail : ∀ a ∈ args.tail, a.Over Proper := fun a ha => hargs a (List.mem_of_mem_tail ha)
  have hothers : ∀ n, c.Keeps .full n (fun _ _ _ => True) (c.bindParams site args.tail ps)
      (c.bindParams site args.tail ps) := fun n =>
    L.bindParams (fun _ _ => trivial) (Vocabulary.speaks_full _)
      (SameType.forall₂_iff.mpr ⟨rfl, htail⟩)
  have hassigned : ∀ n i (t : Ty), i < n → t.Over Proper → c.Keeps .full n (fun _ _ _ => True)
      (do
        c.assign i site t
        c.bindParams site args.tail ps)
      (do
        c.assign i site t
        c.bindParams site args.tail ps) := fun n i t hi ht =>
    L.seq (L.assign ⟨rfl, hi⟩ (.self ht)) fun n' _ _ _ _ => hothers n'
  -- once the parameter has its type, it is declared and assigned
  have hnext : ∀ {w₁ : Walk} {t : Ty}, t.Over Proper → Given c s p args w t w₁ → Frozen s (do
      let binding ← c.bindLocal p.name
      c.assign binding site t
      c.bindParams site args.tail ps) w₁ () w' →
      ∃ t i w₁ w₂ w₃, t.Over Proper ∧ i < s.store.bindings.length ∧ Given c s p args w t w₁ ∧
        Frozen s (c.bindLocal p.name) w₁ i w₂ ∧ Frozen s (c.assign i site t) w₂ () w₃ ∧
        Frozen s (c.bindParams site args.tail ps) w₃ () w' := by
    intro w₁ t ht hgiven h
    obtain ⟨i, w₂, hi, hbind, hlater⟩ := h.bind hstill (L.bindLocal trivial) fun n i j _ hij => by
      obtain ⟨rfl, hi⟩ := hij
      exact hassigned n i t hi ht
    obtain ⟨_, w₃, _, hassign, hrest⟩ := hlater.bind hstill (L.assign hi (.self ht))
      fun n _ _ _ _ => hothers n
    exact ⟨t, i, w₁, w₂, w₃, ht, hi.2, hgiven, hbind, hassign, hrest⟩
  unfold Checking.bindParams at h
  cases args with
  | cons arg args =>
    exact hnext (hargs arg List.mem_cons_self) .argument ⟨h.start, h.run, h.silent⟩
  | nil =>
    cases hdefault : p.default with
    | none =>
      rw [hdefault] at h
      exact hnext Over.unresolved (.missing hdefault) ⟨h.start, h.run, h.silent⟩
    | some value =>
      rw [hdefault] at h
      obtain ⟨t, w₁, ht, hvalue, hlater⟩ := h.bind_typed hstill fun n t _ ht =>
        L.seq (L.bindLocal trivial) fun n' i j _ hij => by
          obtain ⟨rfl, hi⟩ := hij
          exact hassigned n' i t hi ht
      exact hnext ht (.default hdefault hvalue) hlater

/-- The parameters and the body of a method, and the value that it returns. -/
theorem parts_methodBody {d : Def} {t : Ty} (h : Frozen s (c.methodBody d args) w t w') :
    ∃ i w₁ w₂, t.Over Proper ∧ s.store.find (.returned c.unit) = some i ∧
      Frozen s (c.bindParams d.loc args d.params) w () w₁ ∧
      Frozen s (c.inferBody .nil d.body) w₁ t w₂ ∧ Frozen s (c.assign i d.loc t) w₂ () w' := by
  have L := hstill.lockstep .full
  unfold Checking.methodBody at h
  have hbody : ∀ n, c.Keeps .full n (fun _ => SameType (Over Proper))
      (c.inferBody .nil d.body) (c.inferBody .nil d.body) := fun n =>
    L.inferBody _ (Vocabulary.speaks_full _) n (L.types.literal .nil)
  have hassigned : ∀ n i (t : Ty), t.Over Proper → Replay.SameBinding n i i →
      c.Keeps .full n (fun _ => SameType (Over Proper))
        (do c.assign i d.loc t; return t) (do c.assign i d.loc t; return t) := fun n i t ht hi =>
    L.seq (L.assign hi (.self ht)) fun _ _ _ _ _ => L.ret (.self ht)
  have hreturn : ∀ n (t : Ty), t.Over Proper → c.Keeps .full n (fun _ => SameType (Over Proper))
      (do
        let returned ← Checking.bindingOf (.returned c.unit)
        c.assign returned d.loc t
        return t)
      (do
        let returned ← Checking.bindingOf (.returned c.unit)
        c.assign returned d.loc t
        return t) := fun n t ht =>
    L.seq L.returnedBinding fun n' i j _ hij => by
      obtain ⟨rfl, hi⟩ := hij
      exact hassigned n' i t ht ⟨rfl, hi⟩
  obtain ⟨_, w₁, _, hparams, hrun⟩ := h.bind hstill
    (L.bindParams (fun _ _ => trivial) (Vocabulary.speaks_full _)
      (SameType.forall₂_iff.mpr ⟨rfl, hargs⟩)) fun n _ _ _ _ =>
      L.seq (hbody n) fun n' t t' _ ht => by
        obtain ⟨rfl, ht⟩ := ht
        exact hreturn n' t ht
  obtain ⟨u, w₂, hu, hvalue, hlast⟩ := hrun.bind hstill (hbody _) fun n t t' _ ht => by
    obtain ⟨rfl, ht⟩ := ht
    exact hreturn n t ht
  obtain ⟨i, w₃, hi, hbinding, hstore⟩ := hlast.bind hstill L.returnedBinding fun n i j _ hij => by
    obtain ⟨rfl, hi⟩ := hij
    exact hassigned n i u hu.2 ⟨rfl, hi⟩
  obtain ⟨hfind, rfl⟩ := hbinding.of_bindingOf
  obtain ⟨_, rfl, hassign⟩ := hstore.of_map
  exact ⟨i, w₁, w₃, hu.2, hfind, hparams, hvalue, hassign⟩

end

end Frozen

end UnionTyping
