/-
  UnionTyping/Proofs/Typing/Origins.lean
  ======================================
  **Where the members of a variable come from, as long as no address is taken.**

  A binding keeps what earlier checks assigned, but without addresses a later check
  assigns the same and more.  A context may let a local of the top level hold less, as long
  as it still takes what is assigned to it (`Types.narrow`).  So the context in which it
  holds only what the last check of the top level assigns to it, and the nil of sealing,
  gives a model (`Quiet.closed_narrow`).  The whole run stays below it: in the end the report
  justifies every member of the local that sealing did not put there
  (`Program.check_reads_justified`).

  Sealing is for variables that nothing assigns, but it tells them by their type, which a
  variable also lacks while the values assigned to it wait for another binding.  Such a
  variable holds nil from then on; and with addresses a variable keeps the former address of
  another one that was widened (`unjustified_members`).
-/
import UnionTyping.Proofs.Typing.Quiet
import UnionTyping.Proofs.Typing.Variables

namespace UnionTyping

open Ty (Over Proper Plain)

/-! ### Contexts in which a local holds less -/

section

variable (name : String) (J : Ty → Prop)

/-- The context in which a local of the top level holds only what has the property. -/
def Context.narrow (Γ : Context) : Context where
  entered := Γ.entered
  holds p m := Γ.holds p m ∧ (p = .local none .body name → J m)
  reads := Γ.reads

def Typing.narrow (T : Typing) : Typing := { T with context := T.context.narrow name J }

/-- In the unit of the top level the expression assigns only what has the property. -/
def Typing.PutsOnly (T : Typing) (n : Expr) : Prop :=
  T.key = none → ∀ t, Puts T.env T.noted name n t → ∀ m ∈ t.members, J m

end

variable {name : String} {J : Ty → Prop}

theorem Context.Takes.narrow {Γ : Context} {p : Place} {t : Ty} (h : Γ.Takes p t)
    (hJ : p = .local none .body name → ∀ m ∈ t.members, J m) : (Γ.narrow name J).Takes p t :=
  fun m hm => ⟨h m hm, fun heq => hJ heq m hm⟩

namespace Typing

variable {T : Typing} {sc sc' : Outline}

@[simp] theorem narrow_env : (T.narrow name J).env = T.env := rfl

@[simp] theorem narrow_key : (T.narrow name J).key = T.key := rfl

@[simp] theorem narrow_self : (T.narrow name J).self = T.self := rfl

/-! ### Places of the top level -/

theorem ivarPlace?_ne_local {ivar : String} {key : Option Instantiation} {scope : Scope} :
    T.ivarPlace? ivar ≠ some (.local key scope name) := by
  intro h
  unfold ivarPlace? at h
  split at h
  · cases h
  · split at h
    · cases h
    · cases h

theorem of_place?_eq_top {target : Target}
    (h : T.place? sc target = some (.local none .body name)) :
    T.key = none ∧ target = .local name := by
  cases target with
  | «local» written =>
    obtain ⟨scope, _, heq⟩ := Option.map_eq_some_iff.mp h
    injection heq with hkey _ hname
    exact ⟨hkey, hname ▸ rfl⟩
  | ivar written => exact absurd h ivarPlace?_ne_local

theorem of_assigned?_eq_top {target : Target}
    (h : T.assigned? sc target = some (.local none .body name, sc')) :
    T.key = none ∧ target = .local name := by
  cases target with
  | «local» written =>
    rw [assigned?] at h
    split at h
    · injection h with h
      injection h with hplace _
      injection hplace with hkey _ hname
      exact ⟨hkey, hname ▸ rfl⟩
    · injection h with h
      injection h with hplace _
      injection hplace with hkey _ hname
      exact ⟨hkey, hname ▸ rfl⟩
  | ivar written =>
    obtain ⟨p, hp, heq⟩ := Option.map_eq_some_iff.mp h
    injection heq with hplace _
    rw [hplace] at hp
    exact absurd hp ivarPlace?_ne_local

/-! ### Calls do not depend on what is held -/

section

variable {args : List Ty} {t : Ty} {function : String}

theorem Answers.narrow {on : Option Ty} {candidates : List Candidate}
    (h : T.Answers on candidates args t) : (T.narrow name J).Answers on candidates args t :=
  ⟨h.arity, h.chosen⟩

theorem AnswersOn.narrow {receiver : Ty} (h : T.AnswersOn receiver function args t) :
    (T.narrow name J).AnswersOn receiver function args t :=
  fun r hr => ⟨(h r hr).1, (h r hr).2.narrow⟩

theorem AnswersTop.narrow (h : T.AnswersTop function args t) :
    (T.narrow name J).AnswersTop function args t :=
  ⟨h.1, h.2.narrow⟩

theorem AnswersSelf.narrow (h : T.AnswersSelf function args t) :
    (T.narrow name J).AnswersSelf function args t := by
  unfold AnswersSelf at h ⊢
  rw [narrow_self, narrow_env]
  cases hself : T.self with
  | none =>
    rw [hself] at h
    exact AnswersTop.narrow h
  | some self =>
    rw [hself] at h
    by_cases hnone : T.env.candidates self function = []
    · simp only [hnone, if_true] at h ⊢
      exact h.narrow
    · simp only [hnone, if_false] at h ⊢
      exact h.narrow

theorem AnswersNew.narrow {ty : Ty} (h : T.AnswersNew ty args t) :
    (T.narrow name J).AnswersNew ty args t := by
  obtain ⟨ht, id, hclass, h⟩ := h
  refine ⟨ht, id, hclass, ?_⟩
  rw [narrow_env]
  by_cases hnone : T.env.methods.lookup T.env.classes id "initialize" = []
  · simp only [hnone, if_true] at h ⊢
    exact h
  · simp only [hnone, if_false] at h ⊢
    obtain ⟨u, h⟩ := h
    exact ⟨u, h.narrow⟩

theorem AnswersClass.narrow {className : String} {ty : Ty}
    (h : T.AnswersClass className ty function args t) :
    (T.narrow name J).AnswersClass className ty function args t := by
  unfold AnswersClass at h ⊢
  by_cases hnew : function = "new"
  · rw [if_pos hnew] at h ⊢
    exact h.narrow
  · rw [if_neg hnew] at h ⊢
    obtain ⟨hmalloc, hpointer, head, params, p, hty, hp, h⟩ := h
    exact ⟨hmalloc, hpointer, head, params, p, hty, hp, h.narrow⟩

end

/-! ### Expressions that assign only what has the property -/

theorem Fills.narrow {pairs : List (Expr × NativeParam)} (h : T.Fills sc pairs sc')
    (hJ : T.key = none → ∀ m param, (.out m (.local name), param) ∈ pairs → param.mode = .out →
      ∀ a ∈ param.ty.members, J a) : (T.narrow name J).Fills sc pairs sc' := by
  induction h with
  | done sc => exact .done sc
  | fill mode place takes noted _ ih =>
    refine .fill mode place (takes.narrow fun heq => ?_) noted
      (ih fun hkey m param hmem => hJ hkey m param (List.mem_cons_of_mem _ hmem))
    obtain ⟨hkey, rfl⟩ := of_assigned?_eq_top (heq ▸ place)
    exact hJ hkey _ _ List.mem_cons_self mode
  | skip kept _ ih =>
    exact .skip kept (ih fun hkey m param hmem => hJ hkey m param (List.mem_cons_of_mem _ hmem))

mutual

/-- Where a local of the top level holds less, an expression still has its type when it
    assigns only what the local holds. -/
theorem Types.narrow {inLoop : Bool} {sc sc' : Outline} {e : Expr} {t : Ty} :
    T.Types inLoop sc e t sc' → T.noted e.id = some t → (∀ n ∈ e.nodes, T.PutsOnly name J n) →
      (T.narrow name J).Types inLoop sc e t sc'
  | .literal, _, _ => .literal
  | .localVar place reads, _, _ => .localVar place reads
  | .name unknown called call, _, _ => .name unknown called call.narrow
  | .ivar place reads, _, _ => .ivar place reads
  | .out place reads, _, _ => .out place reads
  | .path written, _, _ => .path written
  | .control, _, _ => .control
  | .assign typed noted place takes, _, hJ => by
    obtain ⟨hself, hbelow⟩ := Expr.forall_nodes.mp hJ
    refine .assign (typed.narrow noted (Expr.forall_nodesOf_cons.mp hbelow).1) noted place
      (takes.narrow fun heq => ?_)
    obtain ⟨hkey, rfl⟩ := of_assigned?_eq_top (heq ▸ place)
    exact hself hkey _ (.assign noted)
  | .opAssign place reads typed noted call takes, hnoted, hJ => by
    obtain ⟨hself, hbelow⟩ := Expr.forall_nodes.mp hJ
    refine .opAssign place reads (typed.narrow noted (Expr.forall_nodesOf_cons.mp hbelow).1) noted
      call.narrow (takes.narrow fun heq => ?_)
    obtain ⟨hkey, rfl⟩ := of_place?_eq_top (heq ▸ place)
    exact hself hkey _ (.opAssign hnoted)
  | .connect typedLeft notedLeft typedRight notedRight, _, hJ => by
    obtain ⟨hleft, hbelow⟩ := Expr.forall_nodesOf_cons.mp (Expr.forall_nodes.mp hJ).2
    exact .connect (typedLeft.narrow notedLeft hleft) notedLeft
      (typedRight.narrow notedRight (Expr.forall_nodesOf_cons.mp hbelow).1) notedRight
  | .ite typed noted typedThen typedElse, _, hJ => by
    obtain ⟨hcond, hbelow⟩ := Expr.forall_nodesOf_cons.mp (Expr.forall_nodes.mp hJ).2
    obtain ⟨hthen, helse⟩ := Expr.forall_nodesOf_append.mp hbelow
    exact .ite (typed.narrow noted hcond) noted (typedThen.narrow hthen) (typedElse.narrow helse)
  | .loop typed noted typedBody, _, hJ => by
    obtain ⟨hcond, hbody⟩ := Expr.forall_nodesOf_cons.mp (Expr.forall_nodes.mp hJ).2
    exact .loop (typed.narrow noted hcond) noted (typedBody.narrow hbody)
  | .callSelf typedArgs typedBlock call, _, hJ => by
    obtain ⟨hargs, hblock⟩ := Expr.forall_nodesOf_append.mp (Expr.forall_nodes.mp hJ).2
    exact .callSelf (typedArgs.narrow hargs) (typedBlock.narrow hblock) call.narrow
  | .pointer isVariable place reads noted, _, _ => .pointer isVariable place reads noted
  | .callClass notPtr kind written noted typedArgs typedBlock call, _, hJ => by
    obtain ⟨hargs, hblock⟩ := Expr.forall_nodesOf_append.mp
      (Expr.forall_nodesOf_cons.mp (Expr.forall_nodes.mp hJ).2).2
    exact .callClass notPtr kind written noted (typedArgs.narrow hargs) (typedBlock.narrow hblock)
      call.narrow
  | .callNative notPtr kind noted function typedArgs typedBlock fits fills, _, hJ => by
    obtain ⟨hself, hbelow⟩ := Expr.forall_nodes.mp hJ
    obtain ⟨hargs, hblock⟩ := Expr.forall_nodesOf_append.mp (Expr.forall_nodesOf_cons.mp hbelow).2
    refine .callNative notPtr kind noted function (typedArgs.narrow hargs)
      (typedBlock.narrow hblock)
      fits (fills.narrow fun hkey m param hmem hmode => ?_)
    exact hself hkey _ (.out kind function hmem hmode)
  | .callValue notPtr kind typed noted typedArgs typedBlock call, _, hJ => by
    obtain ⟨hreceiver, hbelow⟩ := Expr.forall_nodesOf_cons.mp (Expr.forall_nodes.mp hJ).2
    obtain ⟨hargs, hblock⟩ := Expr.forall_nodesOf_append.mp hbelow
    exact .callValue notPtr kind (typed.narrow noted hreceiver) noted (typedArgs.narrow hargs)
      (typedBlock.narrow hblock) call.narrow

theorem TypesAll.narrow {inLoop : Bool} {sc sc' : Outline} {es : List Expr} {ts : List Ty} :
    T.TypesAll inLoop sc es ts sc' → (∀ n ∈ Expr.nodesOf es, T.PutsOnly name J n) →
      (T.narrow name J).TypesAll inLoop sc es ts sc'
  | .nil, _ => .nil
  | .cons head noted tail, hJ => by
    obtain ⟨hhead, htail⟩ := Expr.forall_nodesOf_cons.mp hJ
    exact .cons (head.narrow noted hhead) noted (tail.narrow htail)

theorem TypesNative.narrow {inLoop : Bool} {sc sc' : Outline} {params : List NativeParam}
    {es : List Expr} {given : List NativeArg} : T.TypesNative inLoop sc params es given sc' →
      (∀ n ∈ Expr.nodesOf es, T.PutsOnly name J n) →
        (T.narrow name J).TypesNative inLoop sc params es given sc'
  | .nil, _ => .nil
  | .out reads unknown noted tail, hJ =>
    .out reads unknown noted (tail.narrow (Expr.forall_nodesOf_cons.mp hJ).2)
  | .value notOut head noted tail, hJ => by
    obtain ⟨hhead, htail⟩ := Expr.forall_nodesOf_cons.mp hJ
    exact .value notOut (head.narrow noted hhead) noted (tail.narrow htail)

theorem TypesBlock.narrow {call : NodeId} {sc : Outline} {block : Option Block} :
    T.TypesBlock call sc block → (∀ n ∈ Expr.nodesOf (Block.bodyOf block), T.PutsOnly name J n) →
      (T.narrow name J).TypesBlock call sc block
  | .none, _ => .none
  | .some typed, hJ => .some (typed.narrow hJ)

end

/-- Parameters are not locals of the top level. -/
theorem Params.narrow {args : List Ty} {ps : List Param} (hkey : T.key ≠ none)
    (h : T.Params sc args ps sc') : (T.narrow name J).Params sc args ps sc' := by
  have hplace : ∀ {scope x}, Place.local T.key scope x = .local none .body name → False :=
    fun heq => hkey (Place.local.inj heq).1
  induction h with
  | nil => exact .nil
  | given takes _ ih => exact .given (takes.narrow fun heq => (hplace heq).elim) ih
  | default written typed noted takes _ ih =>
    exact .default written (typed.narrow noted fun _ _ hnone => absurd hnone hkey) noted
      (takes.narrow fun heq => (hplace heq).elim) ih
  | missing written _ ih => exact .missing written ih

theorem TypesUnit.narrow {t : Ty} (h : T.TypesUnit t)
    (hJ : ∀ n ∈ Expr.nodesOf T.env.topLevel, T.PutsOnly name J n) :
    (T.narrow name J).TypesUnit t := by
  unfold TypesUnit at h ⊢
  rw [narrow_key, narrow_env]
  cases hkey : T.key with
  | none =>
    rw [hkey] at h
    obtain ⟨ts, sc, hall, ht⟩ := h
    exact ⟨ts, sc, hall.narrow hJ, ht⟩
  | some key =>
    have hsome : T.key ≠ none := hkey ▸ Option.some_ne_none key
    rw [hkey] at h
    cases hmethod : T.env.methods.get? key.method with
    | none => simp only [hmethod]
    | some method =>
      simp only [hmethod] at h ⊢
      obtain ⟨sc, ts, sc', hparams, hall, ht, htakes⟩ := h
      exact ⟨sc, ts, sc', hparams.narrow hsome, hall.narrow fun _ _ hnone => absurd hnone hsome, ht,
        htakes.narrow fun heq => (nomatch heq)⟩

end Typing

/-! ### The final state -/

/-- The type is a member of one that the top level assigns to the local, by what is noted for
    its nodes. -/
def Env.Justifies (env : Env) (types : NodeId → Option Ty) (name : String) (m : Ty) : Prop :=
  ∃ n ∈ Expr.nodesOf env.topLevel, ∃ t, Puts env types name n t ∧ m ∈ t.members

/-- The local of the top level is sealed: when there was nothing left to check it had been read
    and had no type.  Where the top level assigns it, its values were still waiting. -/
def Env.Starves (env : Env) (name : String) : Prop :=
  ∃ q b, Engine.Pauses env q ∧ q.bindingAt (.local none .body name) = some b ∧ b.isStarved = true

def Env.Admits (env : Env) (types : NodeId → Option Ty) (name : String) (m : Ty) : Prop :=
  env.Justifies types name m ∨ (m = .nil ∧ env.Starves name)

section

variable {env : Env} {e : Engine} {unit : UnitId} {u : UnitRecord}

/-- The context in which a local of the top level holds only what can come to it gives a
    model. -/
theorem Quiet.closed_narrow (h : Quiet env e) (henv : env.Simple) (hu : e.units[unit]? = some u)
    (hkey : u.key = none) (name : String) :
    (e.modelIn env (e.context.narrow name (env.Admits u.types.find? name))).Closed := by
  refine h.toIdle.closedIn henv (fun _ hk => hk) (fun _ _ hm => hm.1) rfl
    fun unit' u' hu' _ => ⟨h.silent u' (List.mem_of_getElem? hu'), u'.result, ?_⟩
  refine (h.typesUnit henv hu').narrow fun n hn hnone t hputs m hm => ?_
  -- only one unit is the top level
  have hsame : unit' = unit := by
    have htop : u'.key = u.key := hnone.trans hkey.symm
    exact Option.some.inj ((h.toIdle.unitAt hu').symm.trans (htop ▸ h.toIdle.unitAt hu))
  subst hsame
  cases hu.symm.trans hu'
  exact .inl ⟨n, hn, t, hputs, hm⟩

theorem Quiet.admits (h : Quiet env e) (henv : env.Simple)
    (hfinal : Engine.final env = (.ok (), e)) (hu : e.units[unit]? = some u) (hkey : u.key = none)
    {name : String} {b : Binding} (hb : e.bindingAt (.local none .body name) = some b) :
    ∀ m ∈ b.current.members, env.Admits u.types.find? name m := by
  have hbelow :
      e.Below (e.modelIn env (e.context.narrow name (env.Admits u.types.find? name))) := by
    refine Engine.below_final (h.closed_narrow henv hu hkey name) (.refl env) henv.keepsTo hfinal
      fun q hpauses hext p b hb hslot hstarved => ?_
    have hok := (hpauses.between henv.keepsTo).1.ok
    have hat := hok.bindingAt_of_mem hb hslot
    exact ⟨hok.holds_nil hat hstarved hext,
      fun heq => .inr ⟨rfl, q, b, hpauses, heq ▸ hat, hstarved⟩⟩
  obtain ⟨i, hid, hget⟩ := Engine.bindingAt_eq_some.mp hb
  intro m hm
  exact ((hbelow.admits hid hget).2.holds m hm).2 rfl

end

/-- In an accepted program in which no address is taken, a name that is read as a variable
    outside of declarations and blocks has exactly the members that are assigned to it at the
    top level, by the types that are reported for its nodes, and nil where it was sealed while
    all that is assigned to it was waiting. -/
theorem Program.check_reads_justified {file : String} {items : List Item} {settings : Settings}
    (hfree : ∀ n ∈ (Program.ofItems file items).nodes, n.takesAddress = false)
    {report : Report} {env : Env} (h : (Program.ofItems file items).check settings = .ok report)
    (henv : Env.ofProgram settings (Program.ofItems file items) = .ok env) {name : String}
    {m : Mark} (hread : .ident m name ∈ Expr.openNodesOf (Program.ofItems file items).topLevel)
    (hvariable : report.calls.find? m.id = none) :
    ∃ t', report.types.find? m.id = some t' ∧
      (∀ a ∈ t'.members, env.Justifies report.types.find? name a ∨
        (a = .nil ∧ env.Starves name)) ∧
      ∀ n ∈ Expr.openNodesOf (Program.ofItems file items).topLevel, ∀ t,
        Puts env report.types.find? name n t → t.Within t' := by
  have hids := Program.nodup_ids file items
  obtain ⟨env', e, henv', hfinal, hsilent, rfl⟩ := Program.check_eq_ok.mp h
  cases henv.symm.trans henv'
  have hsimple := Env.simple_of_ofProgram henv hfree
  have hfinished := final_finished hsimple.keepsTo hfinal
  have hquiet : Quiet env e := ⟨⟨hfinished.toBetween, hfinished.idle⟩, hsilent⟩
  have haccepted : Accepted _ settings env e :=
    ⟨henv, final_finished (Env.keepsTo_proper hsimple.libraries) hfinal, hsilent⟩
  obtain ⟨u, _, _, hu, hkey, _, hreport⟩ := haccepted.exists_top hids
  obtain ⟨b, hbinding, hfound, hputs⟩ := haccepted.exists_variable hids hread hvariable
  refine ⟨b.current, hfound, fun a ha => ?_, fun n hn => (hputs n hn).2⟩
  rcases hquiet.admits hsimple hfinal hu hkey hbinding a ha with ⟨n, hn, t, hput, hmem⟩ | hnil
  · refine .inl ⟨n, hn, t, hput.mono fun node hassigns ht => ?_, hmem⟩
    obtain ⟨k, hk, rfl⟩ := hassigns.exists_node
    rw [Env.topLevel_of_ofProgram henv] at hn
    exact (hreport k (Expr.mem_nodesOf_trans hn hk)).2 t ht
      ⟨haccepted.over_noted hu ht, List.ne_nil_of_mem hmem⟩
  · exact .inr hnil

theorem loopingProgram_reads_justified :
    (∀ n ∈ loopingProgram.nodes, n.takesAddress = false) ∧
    ∃ report env m, loopingProgram.check {} = .ok report ∧
      Env.ofProgram {} loopingProgram = .ok env ∧
      .ident m "x" ∈ Expr.openNodesOf loopingProgram.topLevel ∧ report.calls.find? m.id = none ∧
      ∃ t', report.types.find? m.id = some t' ∧
        (∀ a ∈ t'.members, env.Justifies report.types.find? "x" a ∨
          (a = .nil ∧ env.Starves "x")) ∧
        ∀ n ∈ Expr.openNodesOf loopingProgram.topLevel, ∀ t,
          Puts env report.types.find? "x" n t → t.Within t' := by
  have hfree : ∀ n ∈ loopingProgram.nodes, n.takesAddress = false := by decide +kernel
  have hread : .ident ⟨5, ⟨"looping.qz", 2, 1⟩⟩ "x" ∈ Expr.openNodesOf loopingProgram.topLevel :=
    List.mem_of_getElem? (i := 5) rfl
  have hok : ((loopingProgram.check {}).toOption.map fun report =>
      (report.calls.find? 5).isNone) = some true := by decide +kernel
  refine ⟨hfree, ?_⟩
  cases h : loopingProgram.check {} with
  | error err =>
    rw [h] at hok
    cases hok
  | ok report =>
    rw [h] at hok
    have hvariable : report.calls.find? 5 = none :=
      Option.isNone_iff_eq_none.mp (Option.some.inj hok)
    obtain ⟨env, e, haccepted, _⟩ := exists_accepted h
    have henv := haccepted.declared
    exact ⟨report, env, _, rfl, henv, hread, hvariable,
      Program.check_reads_justified hfree h henv hread hvariable⟩

/-- The address of a variable that is widened: `p = 1; q = p.ptr; p = 'c'; q`. -/
def widenedProgram : Program :=
  let m : Mark := ⟨0, .unplaced⟩
  .ofItems "widened.qz" [
    .expr (.assign m (.local "p") (.literal m .int)),
    .expr (.assign m (.local "q") (.call m (some (.ident m "p")) "ptr" [] none false)),
    .expr (.assign m (.local "p") (.literal m .char)),
    .expr (.ident m "q")]

/-- A variable that is sealed together with what its value waits for, an instance variable
    that nothing assigns, and not with the value that comes of it:
    `class Foo; def v; @v; end; end; class Nil; def foo; 1; end; end; x = Foo.new.v.foo; x`. -/
def sealedProgram : Program :=
  let m : Mark := ⟨0, .unplaced⟩
  let v := Expr.call m
    (some (.call m (some (.path m (.mk "Foo" [] .unplaced))) "new" [] none false))
    "v" [] none false
  .ofItems "sealed.qz" [
    .classDecl ⟨"Foo", none, false, [⟨"v", [], [.ivar m "v"], .unplaced⟩], .unplaced⟩,
    .classDecl ⟨"Nil", none, false, [⟨"foo", [], [.literal m .int], .unplaced⟩], .unplaced⟩,
    .expr (.assign m (.local "x") (.call m (some v) "foo" [] none false)),
    .expr (.ident m "x")]

/-- The program is accepted, and a name that is read as a variable outside of declarations and
    blocks has a member that nothing at the top level assigns to it. -/
def Program.HasStray (p : Program) (name : String) : Prop :=
  ∃ report env m t', p.check {} = .ok report ∧ Env.ofProgram {} p = .ok env ∧
    .ident m name ∈ Expr.openNodesOf p.topLevel ∧ report.calls.find? m.id = none ∧
    report.types.find? m.id = some t' ∧ ∃ a ∈ t'.members, ∀ n ∈ Expr.nodesOf p.topLevel, ∀ t,
      Puts env report.types.find? name n t → ¬ t.Has a

def Expr.mayAssign (name : String) : Expr → Bool
  | .assign _ target _ | .opAssign _ target _ _ => decide (target = .local name)
  | .call _ _ _ args _ _ => args.any fun arg => decide (arg.outTarget? = some (.local name))
  | _ => false

theorem Puts.mayAssign {env : Env} {types : NodeId → Option Ty} {name : String} {n : Expr} {t : Ty}
    (h : Puts env types name n t) : n.mayAssign name = true := by
  cases h with
  | assign => exact decide_eq_true rfl
  | opAssign => exact decide_eq_true rfl
  | out _ _ passed _ =>
    exact List.any_eq_true.mpr ⟨_, (List.of_mem_zip passed).1, decide_eq_true rfl⟩

def Report.exceeds (report : Report) (read value : NodeId) : Bool :=
  (report.calls.find? read).isNone &&
    match report.types.find? read, report.types.find? value with
    | some t', some t => t'.members.any fun a => !t.members.any (· == a)
    | _, _ => false

theorem Program.hasStray_of_exceeds {p : Program} {name : String} {m m' : Mark} {value : Expr}
    (hread : .ident m name ∈ Expr.openNodesOf p.topLevel)
    (honly : (Expr.nodesOf p.topLevel).filter (Expr.mayAssign name) =
      [.assign m' (.local name) value])
    (hfacts : (match p.check {} with
      | .ok report => report.exceeds m.id value.id
      | .error _ => false) = true) : p.HasStray name := by
  split at hfacts
  · rename_i report h
    obtain ⟨env, e, haccepted, _⟩ := exists_accepted h
    obtain ⟨hcalls, hmembers⟩ := Bool.and_eq_true_iff.mp hfacts
    split at hmembers
    · rename_i t' t hread' hvalue
      obtain ⟨a, ha, hnone⟩ := List.any_eq_true.mp hmembers
      refine ⟨report, env, m, t', h, haccepted.declared, hread, Option.isNone_iff_eq_none.mp hcalls,
        hread', a, ha, fun n hn t₁ hput hhas => ?_⟩
      have hassign := List.mem_filter.mpr ⟨hn, hput.mayAssign⟩
      rw [honly, List.mem_singleton] at hassign
      subst hassign
      cases hput with
      | assign noted =>
        cases hvalue.symm.trans noted
        rw [hhas] at hnone
        cases hnone
    · cases hmembers
  · cases hfacts

/-- A variable may keep an address that is another one in the end, and one that was sealed
    before its value was known holds nil besides. -/
theorem unjustified_members : widenedProgram.HasStray "q" ∧ sealedProgram.HasStray "x" := by
  constructor
  · exact @Program.hasStray_of_exceeds _ _ ⟨7, ⟨"widened.qz", 4, 1⟩⟩ _ _
      (List.mem_of_getElem? (i := 7) rfl) rfl (by decide +kernel)
  · exact @Program.hasStray_of_exceeds _ _ ⟨7, ⟨"sealed.qz", 4, 1⟩⟩ _ _
      (List.mem_of_getElem? (i := 5) rfl) rfl (by decide +kernel)

end UnionTyping
