/-
  UnionTyping/Proofs/Typing/StaysCalls.lean
  =========================================
  **Calls that stay below a model.**

  A call for types that are part of those in the model has no more ways of being carried
  out, and each of them is entered in the model.  So it is resolved when the call in the
  model is, it reports no problem, and what it gives is part of what the model's call gives.
  A new instance is seen to below the model, since the model enters it.
-/
import UnionTyping.Proofs.Assignable
import UnionTyping.Proofs.NativeCalls
import UnionTyping.Proofs.Typing.Stays

namespace UnionTyping

open Ty (Over Plain)

/-! ### Fewer members -/

namespace Overload

/-- A choice of members of parts of types is one of members of the types. -/
theorem forall₂_mem_of_partOf {as args args' : List Ty} (hparts : List.Forall₂ Ty.PartOf args' args)
    (has : List.Forall₂ (fun a t => a ∈ t.members) as args') :
    List.Forall₂ (fun a t => a ∈ t.members) as args := by
  induction hparts generalizing as with
  | nil => exact has
  | cons hpart _ ih =>
    cases has with
    | cons hmem hrest => exact .cons (hpart.mem _ hmem) (ih hrest)

end Overload

theorem Ty.PartOf.any_isUnresolved {args args' : List Ty} (h : List.Forall₂ Ty.PartOf args' args)
    (hknown : args'.any Ty.isUnresolved = false) : args.any Ty.isUnresolved = false := by
  induction h with
  | nil => rfl
  | @cons a t _ _ hpart _ ih =>
    rw [List.any_cons, Bool.or_eq_false_iff] at hknown ⊢
    refine ⟨?_, ih hknown.2⟩
    rw [← Bool.not_eq_true]
    intro hu
    rw [hpart.isUnresolved hu] at hknown
    cases hknown.1

theorem Ty.PartOf.over_all {args args' : List Ty} (h : List.Forall₂ Ty.PartOf args' args) :
    ∀ a ∈ args', a.Over Plain := by
  induction h with
  | nil => exact List.forall_mem_nil _
  | cons hpart _ ih => exact List.forall_mem_cons.mpr ⟨hpart.isOver, ih⟩

namespace Hierarchy

theorem assignable_of_partOf {h : Hierarchy} {a t target : Ty} (hpart : a.PartOf t)
    (hassignable : h.assignable t target = true) : h.assignable a target = true :=
  h.assignable_iff.mpr fun m hm => h.assignable_iff.mp hassignable m (hpart.mem m hm)

end Hierarchy

/-- The argument has part of the type, and it is passed in the same way. -/
structure NativeArg.PartOf (a b : NativeArg) : Prop where
  ty : a.ty.PartOf b.ty
  isOut : a.isOut = b.isOut

namespace NativeFunction

variable {h : Hierarchy} {lib : String}

/-- What is right for some types is right for parts of them; the verdict may be that a type
    is still to come. -/
theorem exists_of_check {f : NativeFunction} {given given' : List NativeArg}
    (hparts : List.Forall₂ NativeArg.PartOf given' given) {verdict : NativeVerdict}
    (hok : f.check h lib given = .ok verdict) :
    ∃ verdict', f.check h lib given' = .ok verdict' := by
  have hworse : List.Forall₂ (fun arg wide => ∀ param, Misfits h param arg → Misfits h param wide)
      given' given := by
    refine hparts.imp fun {a b} hpart param => Misfits.mono hpart.isOut.symm ?_ ?_
    · intro hknown
      rw [← Bool.not_eq_true] at hknown ⊢
      exact mt hpart.ty.isUnresolved hknown
    · exact Hierarchy.assignable_of_partOf hpart.ty
  rcases hcheck : f.check h lib given' with problem | verdict'
  · obtain ⟨problem', herror⟩ := exists_error_of_misfits hworse hcheck
    rw [hok] at herror
    cases herror
  · exact ⟨verdict', rfl⟩

end NativeFunction

/-! ### Carrying out a call -/

variable {M : Model} {key : Option Instantiation} {c : Checking} {depth : Nat} {e₀ : Engine}
  {pending pending' : List NodeId} {sc sc' : Outline}

theorem Model.Runs.domain (hM : M.Runs key c) : TypeDomain c.env .addressFree (Over Plain) :=
  (Env.closed_plain (hM.env.libraries ▸ hM.closed.libraries)).domain

section

variable (hM : M.Runs key c)
include hM

theorem Stays.readReturn {k : Instantiation} {unit : UnitId} {t : Ty}
    (hunit : e₀.unitOf k = some unit) (hreads : M.context.reads (.returned k) t) :
    Stays M key c depth e₀ pending pending sc sc (fun _ a => a.2.PartOf t) (c.readReturn unit) := by
  have hslot : e₀.slotAt (.returned k) = some (.returned unit) := by
    rw [Engine.slotAt, hunit]
    rfl
  refine (Stays.bindingOf hslot (Engine.unitOf_lt hunit)).bind fun e₁ i _ hid => ?_
  exact (Stays.read hM.closed hid hreads).map fun _ _ ha => ha

/-- An instance that the model enters returns part of what it returns there. -/
theorem Stays.instanceOf {site : Location} {k : Instantiation} {t : Ty}
    (hk : k.Ok c.env (Over Plain)) (hplain : k.Plain) (hentered : M.context.entered k)
    (hreads : M.context.reads (.returned k) t) :
    Stays M key c depth e₀ pending pending sc sc (fun _ a => a.2.PartOf t)
      (c.instanceOf site k.method k.self k.args) := by
  intro w e _ hs a w' e' hr
  rcases instanceOf_cases hr with
    ⟨unit, hknown, hread⟩ | ⟨hknown, ⟨_, hstop, _⟩ | ⟨e₁, hbegun, hread⟩⟩
  · exact Stays.readReturn hM hknown hreads w e (.refl e) hs a w' e' hread
  · cases hstop
  · obtain ⟨hok, hgrows, hkeys, _⟩ := hM.begins _ _ _ _ _ hs.engine hknown hk hbegun
    have hbelow := hM.handles _ _ _ _ hs.engine hs.below hknown hk hplain hentered hbegun
    have hunit := Engine.unitOf_of_prefix hkeys (Engine.unitOf_add hknown)
    obtain ⟨hs', hext, ha⟩ := Stays.readReturn hM hunit hreads w e₁ (.refl e₁)
      (hs.later hgrows.extends hok hbelow) a w' e' hread
    exact ⟨hs', hgrows.extends.trans hext, ha⟩

variable {mark : Mark} {self : Option Ty} {name : String} {candidates : List Candidate}
  (hself : ∀ s, self = some s → s.Plain)
  (hcandidates : ∀ k ∈ candidates, k.Offered c.env (SameType (Over Plain)))
include hself

theorem Stays.enterCandidate {site : Location} {args : List Ty} {k : Candidate} {t : Ty}
    (hk : k.Offered c.env (SameType (Over Plain))) (htakes : k.signature.takes args.length = true)
    (hargs : ∀ a ∈ args, a.Plain) (hgives : M.context.Gives self args t k) :
    Stays M key c depth e₀ pending pending sc sc (fun _ a => a.1.PartOf t)
      (c.enter site self name args k) := by
  cases k with
  | method entry =>
    obtain ⟨hentered, u, hreads, hwithin⟩ := hgives
    have hok : Instantiation.Ok c.env (Over Plain) ⟨entry.id, self, args⟩ :=
      ⟨⟨entry, hk, rfl, htakes⟩, fun s hs => (hself s hs).isOver, fun a ha => (hargs a ha).isOver⟩
    exact (Stays.instanceOf hM hok ⟨hself, hargs⟩ hentered hreads).map
      fun _ _ ha => ha.of_within hwithin
  | primitive p => exact Stays.pure fun _ _ => (Ty.PartOf.refl hk.2).of_within hgives

include hcandidates

/-- Entering all matches gives part of what the model gives for each. -/
theorem Stays.enterAll {result t : Ty} {found : List Overload.Match}
    (hfound : ∀ m ∈ found, ∃ k, candidates[m.candidate]? = some k ∧
      k.signature.takes m.args.length = true ∧ (∀ a ∈ m.args, a.Plain) ∧
      M.context.Gives self m.args t k) (hresult : result.PartOf t) :
    Stays M key c depth e₀ pending pending sc sc (fun _ a => a.PartOf t)
      (c.enterAll mark self name candidates result found) := by
  induction found generalizing e₀ result with
  | nil => exact Stays.pure fun _ _ => hresult
  | cons m rest ih =>
    obtain ⟨⟨k, hget, htakes, hargs, hgives⟩, hrest⟩ := List.forall_mem_cons.mp hfound
    unfold Checking.enterAll
    simp only [hget]
    have hk := hcandidates k (List.mem_of_getElem? hget)
    refine (Stays.enterCandidate hM hself hk htakes hargs hgives).bind fun e₁ a _ ha => ?_
    have hcall : Resolution.Ok (Over Plain) ⟨self, a.2, m.args, a.1⟩ :=
      ⟨fun s hs => (hself s hs).isOver, fun x hx => (hargs x hx).isOver, ha.isOver⟩
    exact (Stays.noteCall hcall).bind fun e₂ _ _ _ => ih hrest (hresult.union ha)

/-- A call among candidates succeeds and gives part of what the model answers. -/
theorem Stays.callAmong {args args' : List Ty} {t : Ty} (hargs : List.Forall₂ Ty.PartOf args' args)
    (hanswers : (M.typing key).Answers self candidates args t) :
    Stays M key c depth e₀ pending pending sc sc (fun _ o => ∃ a, o = some a ∧ a.PartOf t)
      (c.callAmong mark self name candidates args') := by
  have harity := hanswers.arity
  rw [← hargs.length_eq] at harity
  unfold Checking.callAmong
  simp only [harity]
  split
  · exact Stays.pure fun _ _ => ⟨_, rfl, .unresolved t⟩
  · rename_i hknown
    have hchosen := hanswers.chosen
      (Ty.PartOf.any_isUnresolved hargs (Bool.eq_false_iff.mpr hknown))
    rw [← hargs.length_eq] at hchosen
    have hhierarchy : (M.typing key).env.hierarchy = c.env.hierarchy := hM.env.hierarchy.symm
    rw [hhierarchy] at hchosen
    have hchoice : ∀ as ∈ Overload.choices args',
        List.Forall₂ (fun a t => a ∈ t.members) as args := fun as has =>
      Overload.forall₂_mem_of_partOf hargs (Overload.mem_choices.mp has)
    obtain ⟨found, hfound⟩ := Overload.exists_of_resolve harity fun as has => by
      obtain ⟨i, _, hi, _⟩ := hchosen as (hchoice as has)
      exact ⟨i, hi⟩
    simp only [hfound]
    refine (Stays.enterAll hM hself hcandidates (fun m hm => ?_) (.unresolved t)).map
      fun _ a ha => ⟨a, rfl, ha⟩
    obtain ⟨hmem, s, hs, htakes, _⟩ := Overload.exists_signature_of_resolve hfound hm
    have hmatched := Overload.mem_of_matchAll (Overload.resolve_eq_ok hfound) m hm
    obtain ⟨_, hselected⟩ := hmatched.resolve_left
      List.not_mem_nil
    obtain ⟨i, k, hi, hget, hgives⟩ := hchosen m.args (hchoice m.args hmem)
    rw [hselected] at hi
    cases hi
    rw [List.getElem?_map, hget] at hs
    cases hs
    refine ⟨k, hget, by rw [Overload.length_of_mem_choices hmem]; exact htakes,
      fun a ha => ?_, hgives⟩
    obtain ⟨a', ha', hmember⟩ := Overload.exists_members_of_mem_choices hmem ha
    exact (Ty.PartOf.over_all hargs a' ha').all a hmember

/-- The same for the type of the call. -/
theorem Stays.callAmong_getD {args args' : List Ty} {t : Ty}
    (hargs : List.Forall₂ Ty.PartOf args' args)
    (hanswers : (M.typing key).Answers self candidates args t) :
    Stays M key c depth e₀ pending pending sc sc (fun _ a => a.PartOf t)
      (do return (← c.callAmong mark self name candidates args').getD .unresolved) := by
  refine (Stays.callAmong hM hself hcandidates hargs hanswers).map fun _ o ho => ?_
  obtain ⟨a, rfl, ha⟩ := ho
  exact ha

end

theorem Model.Runs.plain_self (hM : M.Runs key c) : ∀ s, c.self = some s → s.Plain := by
  intro s hs
  rw [hM.self] at hs
  obtain ⟨k, hk, hks⟩ := Option.bind_eq_some_iff.mp hs
  exact (hM.plain k hk).self s hks

section

variable (hM : M.Runs key c) {mark : Mark} {name : String} {args args' : List Ty} {t : Ty}
  (hargs : List.Forall₂ Ty.PartOf args' args)
include hM hargs

/-- A call on each of several receivers. -/
theorem Stays.callOnEach {result : Ty} {receivers : List Ty} (hplain : ∀ r ∈ receivers, r.Plain)
    (hanswers : ∀ r ∈ receivers, M.env.candidates r name ≠ [] ∧
      (M.typing key).Answers (some r) (M.env.candidates r name) args t)
    (hresult : result.PartOf t) :
    Stays M key c depth e₀ pending pending sc sc (fun _ a => a.PartOf t)
      (c.callOnEach mark name args' result receivers) := by
  induction receivers generalizing e₀ result with
  | nil => exact Stays.pure fun _ _ => hresult
  | cons r rest ih =>
    obtain ⟨⟨hne, hanswers⟩, hrest⟩ := List.forall_mem_cons.mp hanswers
    obtain ⟨hr, hplain⟩ := List.forall_mem_cons.mp hplain
    unfold Checking.callOnEach
    simp only [hM.env.candidates, List.isEmpty_iff, hne, if_false]
    have hself : ∀ s, some r = some s → s.Plain := fun s hs => Option.some.inj hs ▸ hr
    have hcandidates : ∀ k ∈ M.env.candidates r name, k.Offered c.env (SameType (Over Plain)) :=
      hM.env.candidates r name ▸ hM.domain.offered hr.isOver
    refine (Stays.callAmong hM hself hcandidates hargs hanswers).bind fun e₁ o _ ho => ?_
    obtain ⟨a, rfl, ha⟩ := ho
    exact ih hplain hrest (hresult.union ha)

theorem Stays.callOn {receiver receiver' : Ty} (hreceiver : receiver'.PartOf receiver)
    (hanswers : (M.typing key).AnswersOn receiver name args t) :
    Stays M key c depth e₀ pending pending sc sc (fun _ a => a.PartOf t)
      (c.callOn mark receiver' name args') :=
  Stays.callOnEach hM hargs hreceiver.isOver.all
    (fun r hr => hanswers r (hreceiver.mem r hr)) (.unresolved t)

theorem Stays.callTopLevel {bare : Bool} (hanswers : (M.typing key).AnswersTop name args t) :
    Stays M key c depth e₀ pending pending sc sc (fun _ a => a.PartOf t)
      (c.callTopLevel mark name args' bare) := by
  obtain ⟨hne, hanswers⟩ := hanswers
  unfold Checking.callTopLevel
  have hmethods : (M.typing key).env.methods = c.env.methods := hM.env.methods.symm
  rw [hmethods] at hne hanswers
  simp only [List.isEmpty_iff, List.map_eq_nil_iff, hne, if_false]
  have hself : ∀ s, (none : Option Ty) = some s → s.Plain := fun _ hs => nomatch hs
  exact Stays.callAmong_getD hM hself (fun _ => Candidate.offered_of_mem_topLevel) hargs hanswers

theorem Stays.callOnSelf {bare : Bool} (hanswers : (M.typing key).AnswersSelf name args t) :
    Stays M key c depth e₀ pending pending sc sc (fun _ a => a.PartOf t)
      (c.callOnSelf mark name args' bare) := by
  have hself : (M.typing key).self = c.self := hM.self.symm
  unfold Typing.AnswersSelf at hanswers
  unfold Checking.callOnSelf
  rw [hself] at hanswers
  cases hs : c.self with
  | none =>
    rw [hs] at hanswers
    exact Stays.callTopLevel hM hargs hanswers
  | some self =>
    have hplain := hM.plain_self self hs
    have hsame : (M.typing key).env.candidates self name = c.env.candidates self name :=
      (hM.env.candidates self name).symm
    rw [hs] at hanswers
    simp only [hsame] at hanswers
    simp only [List.isEmpty_iff]
    split at hanswers
    · rename_i hempty
      rw [if_pos hempty]
      exact Stays.callTopLevel hM hargs hanswers
    · rename_i hne
      rw [if_neg hne]
      exact Stays.callAmong_getD hM (fun s hs => Option.some.inj hs ▸ hplain)
        (hM.domain.offered hplain.isOver) hargs hanswers

theorem Stays.callNew {ty : Ty} (hty : ty.Plain) (hanswers : (M.typing key).AnswersNew ty args t) :
    Stays M key c depth e₀ pending pending sc sc (fun _ a => a.PartOf t)
      (c.callNew mark ty args') := by
  obtain ⟨rfl, id, hid, hinitializers⟩ := hanswers
  have hclasses : (M.typing key).env.classes = c.env.classes := hM.env.classes.symm
  have hmethods : (M.typing key).env.methods = c.env.methods := hM.env.methods.symm
  simp only [hclasses, hmethods] at hid hinitializers
  have hself : ∀ s, some t = some s → s.Plain := fun s hs => Option.some.inj hs ▸ hty
  have hallocate : ∀ e₁, Stays M key c depth e₁ pending pending sc sc (fun _ a => a.PartOf t) (do
      Checking.noteCall mark.id ⟨none, .allocate (c.env.classes.nameOf id), args', t⟩
      return t) := fun e₁ => by
    have hcall : Resolution.Ok (Over Plain)
        ⟨none, .allocate (c.env.classes.nameOf id), args', t⟩ :=
      ⟨(fun _ hs => nomatch hs), Ty.PartOf.over_all hargs, hty.isOver⟩
    exact (Stays.noteCall hcall).bind fun _ _ _ _ => Stays.pure fun _ _ => .of_plain hty
  unfold Checking.callNew
  simp only [hid, List.isEmpty_iff, List.map_eq_nil_iff]
  split at hinitializers
  · rename_i hnone
    rw [hinitializers] at hargs
    cases hargs
    simp only [hnone, List.map_nil, List.isEmpty_nil, Bool.not_true, Bool.and_false,
      Bool.false_eq_true, if_false, if_true]
    exact (Stays.pure (Q := fun _ o => o = some Ty.unresolved) fun _ _ => rfl).bind
      fun e₁ o _ ho => ho ▸ hallocate e₁
  · rename_i hsome
    obtain ⟨u, hanswers⟩ := hinitializers
    have hne : ((c.env.methods.lookup c.env.classes id "initialize").map
        Candidate.method).isEmpty = false := by
      simp only [List.isEmpty_eq_false_iff, ne_eq, List.map_eq_nil_iff]
      exact hsome
    simp only [hne, hsome, Bool.false_and, Bool.false_eq_true, if_false]
    refine (Stays.callAmong hM hself (fun _ => Candidate.offered_of_mem_lookup) hargs
      hanswers).bind fun e₁ o _ ho => ?_
    obtain ⟨a, rfl, _⟩ := ho
    exact hallocate e₁

theorem Stays.callOnClass {className : String} {ref : TypeRef} {ty : Ty}
    (hty : c.env.classes.typeOf ref = .ok ty)
    (hanswers : (M.typing key).AnswersClass className ty name args t) :
    Stays M key c depth e₀ pending pending sc sc (fun _ a => a.PartOf t)
      (c.callOnClass mark className ty name args') := by
  have hplain := c.env.classes.plain_typeOf ref hty
  unfold Typing.AnswersClass at hanswers
  unfold Checking.callOnClass
  split at hanswers
  · rename_i hnew
    rw [if_pos hnew]
    exact Stays.callNew hM hargs hplain hanswers
  · rename_i hnew
    obtain ⟨hname, hclass, head, params, p, rfl, hp, hanswers⟩ := hanswers
    rw [if_neg hnew, if_pos ⟨hname, hclass⟩]
    unfold Checking.callMalloc
    simp only [hp]
    refine Stays.callAmong_getD hM (fun s hs => Option.some.inj hs ▸ hplain) (fun k hk => ?_)
      hargs hanswers
    rw [List.mem_singleton.mp hk]
    exact hM.domain.allocated trivial hty hp

end

/-! ### Native calls -/

def assignedOuts (pairs : List (Expr × NativeParam)) : List NodeId :=
  pairs.filterMap fun (arg, param) =>
    match param.mode with
    | .out => arg.outTarget?.map fun _ => arg.id
    | .byValue => none

theorem assignedOuts_out {m : Mark} {target : Target} {param : NativeParam}
    {pairs : List (Expr × NativeParam)} (hmode : param.mode = .out) :
    assignedOuts ((.out m target, param) :: pairs) = m.id :: assignedOuts pairs := by
  simp [assignedOuts, hmode, Expr.outTarget?]
  rfl

theorem assignedOuts_skip {arg : Expr} {param : NativeParam} {pairs : List (Expr × NativeParam)}
    (hkept : arg.outTarget? = none ∨ param.mode = .byValue) :
    assignedOuts ((arg, param) :: pairs) = assignedOuts pairs := by
  rcases hkept with htarget | hmode
  · cases hmode : param.mode <;> simp [assignedOuts, hmode, htarget]
  · simp [assignedOuts, hmode]

/-- The variables that are passed for `out` parameters take the types of these. -/
theorem Stays.assignOuts (hM : M.Runs key c) {pairs : List (Expr × NativeParam)}
    (hplain : ∀ pair ∈ pairs, pair.2.ty.Plain) (h : (M.typing key).Fills sc pairs sc') :
    Stays M key c depth e₀ (assignedOuts pairs ++ pending) pending sc sc' (fun _ _ => True)
      (c.assignOuts pairs) := by
  induction h generalizing e₀ with
  | done => exact Stays.pure fun _ _ => trivial
  | fill mode place takes noted _ ih =>
    obtain ⟨hty, hrest⟩ := List.forall_mem_cons.mp hplain
    rw [assignedOuts_out mode]
    unfold Checking.assignOuts
    simp only [mode, List.cons_append]
    refine (Stays.bindingToAssign hM place).bind fun e₁ o _ ho => ?_
    obtain ⟨i, rfl, hid⟩ := ho
    refine (Stays.assign hid (.of_plain hty) takes).bind fun e₂ _ _ _ => ?_
    exact (Stays.noteType (.of_plain hty) noted).bind fun e₃ _ _ _ => ih hrest
  | skip kept _ ih =>
    have hrest := (List.forall_mem_cons.mp hplain).2
    rw [assignedOuts_skip kept, Checking.assignOuts]
    · exact ih hrest
    · rintro m target rfl hout
      rcases kept with htarget | hvalue
      · cases htarget
      · rw [hout] at hvalue
        cases hvalue

/-- A call of a native function. -/
theorem Stays.callNative (hM : M.Runs key c) {mark : Mark} {lib : String} {f : NativeFunction}
    {args : List Expr} {given given' : List NativeArg} {verdict : NativeVerdict}
    (hparams : ∀ p ∈ f.params, p.ty.Plain) (hret : f.ret.Plain)
    (hgiven : List.Forall₂ NativeArg.PartOf given' given)
    (hfits : f.check M.env.hierarchy lib given = .ok verdict)
    (hfills : (M.typing key).Fills sc (args.zip f.params) sc') :
    Stays M key c depth e₀ (assignedOuts (args.zip f.params) ++ pending) pending sc sc'
      (fun _ a => a.PartOf f.ret) (c.callNative mark lib f args given') := by
  obtain ⟨verdict', hcheck⟩ := NativeFunction.exists_of_check hgiven hfits
  unfold Checking.callNative
  rw [hM.env.hierarchy, hcheck]
  refine (Stays.assignOuts hM (fun pair hpair => ?_) hfills).bind fun e₁ _ _ _ => ?_
  · exact hparams pair.2 (List.of_mem_zip hpair).2
  · have htypes : List.Forall₂ Ty.PartOf (given'.map NativeArg.ty) (given.map NativeArg.ty) := by
      rw [List.forall₂_map_left_iff, List.forall₂_map_right_iff]
      exact hgiven.imp fun _ _ h => h.ty
    have hcall : Resolution.Ok (Over Plain)
        ⟨none, .native lib f.name, given'.map NativeArg.ty, f.ret⟩ :=
      ⟨(fun _ hs => nomatch hs), Ty.PartOf.over_all htypes, hret.isOver⟩
    exact (Stays.noteCall hcall).bind fun _ _ _ _ => Stays.pure fun _ _ => .of_plain hret

end UnionTyping
