/-
  UnionTyping/Proofs/Inference/Returns.lean
  =========================================
  **A call has the type of what is returned to it.**

  Each way of carrying out a call is noted with the type that it returns, and the union of
  these types is that of the call: a step that carries out calls adds the same members to
  its result and to what the calls of the node return (`Tallied`).  A new instance of a
  class is an exception: its type is that of the class, whatever `initialize` returns, and
  among the calls at the node it is the one that makes the instance which counts
  (`Summed`).  So when expressions are gone through, every node below them that is carried
  out as a call gets the type of what is returned to it (`Passes.summed`).

  What a method returns is read from its binding, so in a frozen state it is what the
  method returns in the end (`Resolution.Confirmed`).
-/
import UnionTyping.Inference.Outcome
import UnionTyping.Proofs.Inference.Reached
import UnionTyping.Proofs.Ty.Cover

namespace UnionTyping

open Ty (Over Proper Known)

/-! ### What calls return -/

def Resolution.allocates (call : Resolution) : Bool :=
  match call.callee with
  | .allocate _ => true
  | _ => false

/-- What the call returns in the end is what was noted. -/
def Resolution.Confirmed (s : Engine) (call : Resolution) : Prop :=
  (s.finalCall call).ret = call.ret

/-- One of the calls returns the member. -/
def Returned (calls : List Resolution) (m : Ty) : Prop := ∃ call ∈ calls, call.ret.Has m

theorem Resolution.confirmed_of_known {s : Engine} {call : Resolution} (hret : call.ret.Known)
    (hcallee : ∀ method unit, call.callee = .method method unit → s.returnedType unit = call.ret) :
    call.Confirmed s := by
  unfold Confirmed Engine.finalCall
  simp only
  split
  · rename_i method unit heq
    rw [hcallee method unit heq]
    exact hret.settled_eq
  · exact hret.settled_eq

theorem Candidate.EnteredAs.plain {s : Engine} {self : Option Ty} {args : List Ty} {k : Candidate}
    {call : Resolution} (h : k.EnteredAs s self args call.callee call.ret) (hret : call.ret.Known) :
    call.allocates = false ∧ call.Confirmed s := by
  unfold Resolution.allocates
  cases k with
  | method entry =>
    obtain ⟨unit, key, hcallee, _, _, hreturned⟩ := h
    refine ⟨by rw [hcallee], Resolution.confirmed_of_known hret fun method unit' heq => ?_⟩
    cases hcallee.symm.trans heq
    exact hreturned
  | primitive p =>
    obtain ⟨⟨name, hcallee⟩, _⟩ := h
    refine ⟨by rw [hcallee], Resolution.confirmed_of_known hret fun method unit' heq => ?_⟩
    cases hcallee.symm.trans heq

namespace Walk

variable {w : Walk} {node : NodeId} {call : Resolution} {n : Nat} {v : Vocabulary}

theorem Ok.ret_of_mem (h : w.Ok (Over Proper) v n) (hcall : call ∈ w.callsAt node) :
    call.ret.Over Proper := by
  unfold callsAt at hcall
  cases hfound : w.calls.find? node with
  | none =>
    rw [hfound] at hcall
    cases hcall
  | some calls =>
    rw [hfound] at hcall
    exact (h.calls _ (NodeMap.mem_of_find?_eq_some hfound) call hcall).ret

/-- Noting a call adds what it returns. -/
theorem returned_noted (hw : w.calls.Ascending) (hrets : ∀ k ∈ w.callsAt node, k.ret.Over Proper)
    (hret : call.ret.Over Proper) {m : Ty} :
    Returned ((w.noted node call).callsAt node) m ↔
      Returned (w.callsAt node) m ∨ call.ret.Has m := by
  constructor
  · rintro ⟨k, hk, hhas⟩
    rcases mem_callsAt_noted hw hk with hold | ⟨_, rfl⟩
    · exact .inl ⟨k, hold, hhas⟩
    · exact .inr hhas
  · rintro (⟨k, hk, hhas⟩ | hhas)
    · exact ⟨k, mem_callsAt_of_mem hw hk, hhas⟩
    · obtain ⟨k, hk, hsame⟩ := exists_callsAt_noted hw node call
      refine ⟨k, hk, ?_⟩
      rcases hsame with rfl | hsame
      · exact hhas
      · have hk' : k.ret.Over Proper := by
          rcases mem_callsAt_noted hw hk with hold | ⟨_, rfl⟩
          · exact hrets k hold
          · exact hret
        have hbeq := hk'.beq_symm hret (Resolution.beq_iff.mp hsame).2.2.2
        exact hhas.mono (hret.within_of_beq hk' hbeq)

end Walk

/-! ### Steps that carry out calls -/

/-- The step notes calls at the node that make no instance, and it adds the same members to
    `before`, which gives `t`, and to what the calls at the node return. -/
structure Tallied (s : Engine) (node : NodeId) (w : Walk) (before t : Ty) (w' : Walk) : Prop where
  plain : Adds (fun _ call => call.allocates = false ∧ call.Confirmed s) w w'
  sum : ∃ added : Ty → Prop, ∀ m, Proper m →
    (Returned (w'.callsAt node) m ↔ Returned (w.callsAt node) m ∨ added m) ∧
      (t.Has m ↔ before.Has m ∨ added m)

namespace Tallied

variable {s : Engine} {node : NodeId} {w w₁ w' : Walk} {before t u : Ty}

theorem refl (s : Engine) (node : NodeId) (w : Walk) (t : Ty) : Tallied s node w t t w where
  plain := .of_calls rfl
  sum := ⟨fun _ => False, fun _ _ => by simp only [or_false, and_self]⟩

theorem trans (h : Tallied s node w before t w₁) (h' : Tallied s node w₁ t u w') :
    Tallied s node w before u w' := by
  obtain ⟨added, hsum⟩ := h.sum
  obtain ⟨added', hsum'⟩ := h'.sum
  refine ⟨h.plain.trans h'.plain, fun m => added m ∨ added' m, fun m hm => ⟨?_, ?_⟩⟩
  · rw [(hsum' m hm).1, (hsum m hm).1, or_assoc]
  · rw [(hsum' m hm).2, (hsum m hm).2, or_assoc]

/-- What is noted for no node does not count. -/
theorem of_calls (hcalls : w₁.calls = w.calls) (h : Tallied s node w₁ before t w') :
    Tallied s node w before t w' :=
  ⟨(Adds.of_calls hcalls).trans h.plain, Walk.callsAt_eq hcalls node ▸ h.sum⟩

theorem of_found (hfound : ∀ node, w₁.found node = w.found node)
    (h : Tallied s node w₁ before t w') : Tallied s node w before t w' :=
  ⟨(Adds.of_found hfound).trans h.plain,
    Walk.callsAt_congr (congrArg Prod.snd (hfound node)) ▸ h.sum⟩

/-- Adding a whole result to one from before. -/
theorem union (hbefore : before.Over Proper) (ht : t.Over Proper)
    (h : Tallied s node w .unresolved t w') : Tallied s node w before (before.union t) w' := by
  obtain ⟨added, hsum⟩ := h.sum
  refine ⟨h.plain, added, fun m hm => ⟨(hsum m hm).1, ?_⟩⟩
  rw [Ty.has_union_iff hbefore ht, (hsum m hm).2]
  exact or_congr_right (or_iff_right Bool.false_ne_true)

/-- Noting one call. -/
theorem noted {call : Resolution} (hw : w.calls.Ascending)
    (hrets : ∀ k ∈ w.callsAt node, k.ret.Over Proper) (hret : call.ret.Known)
    (hplain : call.allocates = false ∧ call.Confirmed s) :
    Tallied s node w .unresolved call.ret (w.noted node call) where
  plain := .noted hw hplain
  sum := ⟨call.ret.Has, fun _ _ => ⟨Walk.returned_noted hw hrets hret.isOver,
    (or_iff_right Bool.false_ne_true).symm⟩⟩

/-- Where no call was noted before, the result has the members that the calls return. -/
theorem has_iff (h : Tallied s node w .unresolved t w') (hfresh : w.callsAt node = []) {m : Ty}
    (hm : Proper m) : t.Has m ↔ Returned (w'.callsAt node) m := by
  obtain ⟨added, hsum⟩ := h.sum
  rw [(hsum m hm).1, (hsum m hm).2, hfresh]
  refine or_congr_left ⟨fun hnone => absurd hnone Bool.false_ne_true, fun ⟨_, hcall, _⟩ => ?_⟩
  cases hcall

end Tallied

namespace Frozen

variable {c : Checking} {s : Engine} {w w' : Walk}

section

variable (hrest : Rest c s) {mark : Mark} {self : Option Ty} {name : String}
  {candidates : List Candidate} (hself : ∀ t, self = some t → t.Over Proper)
  (hcandidates : ∀ k ∈ candidates, k.Offered c.env (SameType Known))
include hrest hself hcandidates

theorem tallied_enterAll {result t : Ty} {found : List Overload.Match}
    (hfound : Fitting candidates found) (hresult : result.Over Proper)
    (h : Frozen s (c.enterAll mark self name candidates result found) w t w') :
    Tallied s mark.id w result t w' := by
  induction found generalizing w result with
  | nil =>
    obtain ⟨rfl, rfl⟩ := h.of_pure
    exact .refl s mark.id w' t
  | cons m rest ih =>
    obtain ⟨call, w₁, _, hret, ⟨k, _, hentered⟩, hsame, hok, hrun⟩ :=
      h.of_enterAll_cons hrest hself hcandidates hfound hresult
    have hknown := Known.union hresult hret.isOver (Or.inr hret)
    have hnoted : Tallied s mark.id w₁ .unresolved call.ret (w₁.noted mark.id call) :=
      .noted hok.callsAscending (fun _ => hok.ret_of_mem) hret (hentered.plain hret)
    exact .of_found hsame ((hnoted.union hresult hret.isOver).trans
      (ih (List.forall_mem_cons.mp hfound).2 hknown.isOver hrun))

theorem tallied_callAmong {args : List Ty} {o : Option Ty} (hargs : ∀ a ∈ args, a.Known)
    (h : Frozen s (c.callAmong mark self name candidates args) w o w') :
    ∃ t, o = some t ∧ Tallied s mark.id w .unresolved t w' := by
  obtain ⟨t, found, rfl, hr, h⟩ := h.of_callAmong hargs
  exact ⟨t, rfl, h.tallied_enterAll hrest hself hcandidates
    (fitting_of_resolve hr fun a ha => (hargs a ha).isOver) Over.unresolved⟩

theorem tallied_getD {args : List Ty} {t : Ty} (hargs : ∀ a ∈ args, a.Known)
    (h : Frozen s (do return (← c.callAmong mark self name candidates args).getD .unresolved)
      w t w') :
    Tallied s mark.id w .unresolved t w' := by
  obtain ⟨o, rfl, hcall⟩ := h.of_map
  obtain ⟨t, rfl, htallied⟩ := hcall.tallied_callAmong hrest hself hcandidates hargs
  exact htallied

end

section

variable (hrest : Rest c s) {mark : Mark} {name : String} {args : List Ty}
  (hargs : ∀ a ∈ args, a.Known)
include hrest hargs

theorem tallied_callOnEach {result t : Ty} {receivers : List Ty} (hr : ∀ m ∈ receivers, Proper m)
    (hresult : result.Over Proper)
    (h : Frozen s (c.callOnEach mark name args result receivers) w t w') :
    Tallied s mark.id w result t w' := by
  induction receivers generalizing w result with
  | nil =>
    obtain ⟨rfl, rfl⟩ := h.of_pure
    exact .refl s mark.id w' t
  | cons r rest ih =>
    obtain ⟨ty, w₁, hty, hone, hrun⟩ := h.of_callOnEach_cons hrest hargs hr hresult
    obtain ⟨hhead, htail⟩ := List.forall_mem_cons.mp hr
    obtain ⟨ty', heq, hfirst⟩ := hone.tallied_callAmong hrest
      (fun t ht => Option.some.inj ht ▸ hhead.isOver) (hhead.isOver.offered name) hargs
    cases heq
    have hknown := Known.union hresult hty.isOver (Or.inr hty)
    exact (hfirst.union hresult hty.isOver).trans (ih htail hknown.isOver hrun)

theorem tallied_callOn {receiver t : Ty} (hreceiver : receiver.Known)
    (h : Frozen s (c.callOn mark receiver name args) w t w') :
    Tallied s mark.id w .unresolved t w' :=
  h.tallied_callOnEach hrest hargs hreceiver.isOver.all Over.unresolved

theorem tallied_callTopLevel {bare : Bool} {t : Ty}
    (h : Frozen s (c.callTopLevel mark name args bare) w t w') :
    Tallied s mark.id w .unresolved t w' := by
  obtain ⟨_, hcall⟩ := h.of_callTopLevel
  have hself : ∀ t, (none : Option Ty) = some t → t.Over Proper := fun _ ht => nomatch ht
  exact hcall.tallied_getD hrest hself (fun _ => Candidate.offered_of_mem_topLevel) hargs

theorem tallied_callOnSelf {bare : Bool} {t : Ty}
    (h : Frozen s (c.callOnSelf mark name args bare) w t w') :
    Tallied s mark.id w .unresolved t w' := by
  rcases h.of_callOnSelf with ⟨self, hself, _, hcall⟩ | ⟨_, hcall⟩
  · have hover := hrest.self self hself
    exact hcall.tallied_getD hrest (fun t ht => Option.some.inj ht ▸ hover) (hover.offered name)
      hargs
  · exact hcall.tallied_callTopLevel hrest hargs

theorem tallied_callMalloc {ref : TypeRef} {ty t : Ty} (hty : c.env.classes.typeOf ref = .ok ty)
    (h : Frozen s (c.callMalloc mark ty args) w t w') :
    Tallied s mark.id w .unresolved t w' := by
  have hproper : Proper ty := (c.env.classes.plain_typeOf ref hty).proper
  obtain ⟨className, params, p, rfl, hp, hcall⟩ := h.of_callMalloc hproper.isCon
  exact hcall.tallied_getD hrest (fun t ht => Option.some.inj ht ▸ hproper.isOver)
    (Candidate.offered_of_malloc hproper hp) hargs

end

/-- The address of a variable is a call that returns it. -/
theorem tallied_takePointer (hrest : Rest c s) {mark : Mark} {receiver : Expr} {given : Nat}
    {hasBlock : Bool} {t : Ty}
    (h : Frozen s (c.takePointer mark receiver given hasBlock) w t w') :
    Tallied s mark.id w .unresolved t w' := by
  obtain ⟨_, _, _, element, typed, hknown, rfl, hcalls, hok, rfl⟩ := h.of_takePointer hrest
  let call : Resolution := ⟨some element, .pointer, [], .pointer element⟩
  have hret : call.ret.Known := hknown.proper_pointer.known
  have hnoted : Tallied s mark.id typed .unresolved call.ret (typed.noted mark.id call) :=
    .noted hok.callsAscending (fun _ => hok.ret_of_mem) hret
      ⟨rfl, Resolution.confirmed_of_known hret fun _ _ heq => nomatch heq⟩
  exact .of_calls hcalls hnoted

theorem tallied_callNative (hrest : Rest c s) {mark : Mark} {library : Library} {f : NativeFunction}
    {args : List Expr} {given : List NativeArg} {t : Ty}
    (hl : library ∈ c.env.libraries.libraries) (hf : f ∈ library.functions)
    (h : Frozen s (c.callNative mark library.name f args given) w t w') :
    Tallied s mark.id w .unresolved t w' := by
  obtain ⟨_, w₁, _, rfl, houts, rfl⟩ := h.of_callNative
  have hcalls : w₁.calls = w.calls := houts.keeps (p := Walk.calls) (NotesNoCall.assignOuts _)
  let call : Resolution := ⟨none, .native library.name f.name, given.map NativeArg.ty, f.ret⟩
  have hret : call.ret.Known := (hrest.libraries library hl f hf).2.proper.known
  have hasc : w₁.calls.Ascending := by
    rw [hcalls]
    exact h.start.callsAscending
  have hrets : ∀ k ∈ w₁.callsAt mark.id, k.ret.Over Proper := by
    rw [Walk.callsAt_eq hcalls]
    exact fun _ => h.start.ret_of_mem
  have hnoted : Tallied s mark.id w₁ .unresolved call.ret (w₁.noted mark.id call) :=
    .noted hasc hrets hret ⟨rfl, Resolution.confirmed_of_known hret fun _ _ heq => nomatch heq⟩
  exact .of_calls hcalls hnoted

end Frozen

/-! ### Expressions that are carried out as calls -/

/-- Whether an expression makes a new instance of a class, `Class.new(...)`. -/
def Expr.allocates (env : Env) : Expr → Bool
  | .call _ (some receiver) name _ _ _ =>
    match env.receiverKind receiver with
    | .ofClass _ => name == "new"
    | _ => false
  | _ => false

/-- The type `t` has the members that the calls return, or those of them that make an
    instance if that is what the expression does, and this is what they return in the end. -/
structure Summed (s : Engine) (allocates : Bool) (calls : List Resolution) (t : Ty) : Prop where
  known : t.Known
  returns : ∀ call ∈ calls, call.ret.Over Proper
  plain : allocates = false → ∀ call ∈ calls, call.allocates = false
  confirmed : ∀ call ∈ calls, call.Confirmed s
  has_iff : ∀ m, Proper m → (t.Has m ↔ ∃ call ∈ calls, call.allocates = allocates ∧ call.ret.Has m)

theorem Tallied.summed {s : Engine} {node : NodeId} {w w' : Walk} {t : Ty}
    (h : Tallied s node w .unresolved t w') (hfresh : w.callsAt node = []) (ht : t.Known)
    (hrets : ∀ call ∈ w'.callsAt node, call.ret.Over Proper) :
    Summed s false (w'.callsAt node) t := by
  have hplain : ∀ call ∈ w'.callsAt node, call.allocates = false ∧ call.Confirmed s := by
    intro call hcall
    refine (h.plain node call hcall).resolve_left fun hbefore => ?_
    rw [hfresh] at hbefore
    cases hbefore
  refine ⟨ht, hrets, fun _ call hcall => (hplain call hcall).1,
    fun call hcall => (hplain call hcall).2, fun m hm => ?_⟩
  rw [h.has_iff hfresh hm]
  exact exists_congr fun call => and_congr_right fun hcall =>
    (and_iff_right (hplain call hcall).1).symm

namespace Frozen

variable {c : Checking} {s : Engine} {w w' : Walk}

/-- A new instance is a call that makes it; what `initialize` returns does not count. -/
theorem summed_callNew (hrest : Rest c s) {mark : Mark} {args : List Ty}
    (hargs : ∀ a ∈ args, a.Known) {ref : TypeRef} {ty t : Ty}
    (hty : c.env.classes.typeOf ref = .ok ty) (h : Frozen s (c.callNew mark ty args) w t w')
    (hfresh : w.callsAt mark.id = []) (hrets : ∀ call ∈ w'.callsAt mark.id, call.ret.Over Proper) :
    Summed s true (w'.callsAt mark.id) t := by
  have hknown : ty.Known := (c.env.classes.plain_typeOf ref hty).proper.known
  have hover := hknown.isOver
  obtain ⟨rfl, id, w₁, _, hok, rfl, hinitialized⟩ :=
    h.of_callNew hrest (fun a ha => (hargs a ha).isOver) hty
  have hprior : ∀ call ∈ w₁.callsAt mark.id, call.allocates = false ∧ call.Confirmed s := by
    intro call hcall
    rcases hinitialized with ⟨_, _, rfl⟩ | ⟨_, u, hrun⟩
    · rw [hfresh] at hcall
      cases hcall
    · obtain ⟨_, _, htallied⟩ := hrun.tallied_callAmong hrest
        (fun t ht => Option.some.inj ht ▸ hover) (fun _ => Candidate.offered_of_mem_lookup) hargs
      refine (htallied.plain mark.id call hcall).resolve_left fun hbefore => ?_
      rw [hfresh] at hbefore
      cases hbefore
  refine ⟨hknown, hrets, (nomatch ·), fun call hcall => ?_, fun m hm => ⟨fun hhas => ?_, ?_⟩⟩
  · rcases Walk.mem_callsAt_noted hok.callsAscending hcall with hbefore | ⟨_, rfl⟩
    · exact (hprior call hbefore).2
    · exact Resolution.confirmed_of_known hknown fun _ _ heq => nomatch heq
  · obtain ⟨k, hk, hsame⟩ := Walk.exists_callsAt_noted hok.callsAscending mark.id
      ⟨none, .allocate (c.env.classes.nameOf id), args, t⟩
    refine ⟨k, hk, ?_⟩
    rcases hsame with rfl | hsame
    · exact ⟨rfl, hhas⟩
    · obtain ⟨_, hcallee, _, hret⟩ := Resolution.beq_iff.mp hsame
      have hbeq := (hrets k hk).beq_symm hover hret
      refine ⟨by rw [Resolution.allocates, hcallee], hhas.mono ?_⟩
      exact hover.within_of_beq (hrets k hk) hbeq
  · rintro ⟨call, hcall, hallocates, hhas⟩
    rcases Walk.mem_callsAt_noted hok.callsAscending hcall with hbefore | ⟨_, rfl⟩
    · rw [(hprior call hbefore).1] at hallocates
      cases hallocates
    · exact hhas

section

variable (hrest : Rest c s) {m : Mark} {t : Ty}
include hrest

/-- A name that is not read as a variable. -/
theorem summed_ident {name : String} (h : Frozen s (c.infer (.ident m name)) w t w')
    (hfresh : w.callsAt m.id = []) (hcalled : w'.callsAt m.id ≠ []) :
    Summed s false (w'.callsAt m.id) t := by
  have hrets : ∀ call ∈ w'.callsAt m.id, call.ret.Over Proper := fun _ =>
    (h.findings hrest).ret_of_mem
  have ht := hrest.valued _ _ _ _ h
  rcases h.parts_ident with ⟨i, _, hread⟩ | ⟨_, hcall⟩
  · have hcalls : w'.calls = w.calls := hread.keeps (p := Walk.calls) (.read i)
    rw [Walk.callsAt_eq hcalls, hfresh] at hcalled
    exact absurd rfl hcalled
  · exact (hcall.tallied_callOnSelf hrest (List.forall_mem_nil _)).summed hfresh ht hrets

theorem summed_opAssign {target : Target} {op : String} {value : Expr}
    (h : Frozen s (c.infer (.opAssign m target op value)) w t w')
    (hnode : m.id ∉ Expr.ids [value]) (hfresh : w.callsAt m.id = []) :
    Summed s false (w'.callsAt m.id) t := by
  have hrets : ∀ call ∈ w'.callsAt m.id, call.ret.Over Proper := fun _ =>
    (h.findings hrest).ret_of_mem
  have ht := hrest.valued _ _ _ _ h
  obtain ⟨i, current, operand, w₁, w₂, w₃, w₄, hi, _, _, _, hbinding, hread, hvisit,
    hon, hassign⟩ :=
    h.parts_opAssign hrest
  have hoperand := hvisit.valued_typed (hrest.valued value)
  have hbefore : w₂.calls = w.calls := (hread.keeps (p := Walk.calls) (.read i)).trans
    (hbinding.keeps (p := Walk.calls) (.bindingToUpdate (fun _ _ => rfl) _ _ _))
  have hpasses : Passes c s (fun _ => False) (fun _ _ => False) w₂ [value] w₃ :=
    .child hvisit (.done w₃)
  have hcalls : w'.calls = w₄.calls := hassign.keeps (p := Walk.calls) (.assign _ _ _)
  rw [Walk.callsAt_eq hcalls] at hrets ⊢
  refine Tallied.summed ?_ (hpasses.fresh hrest hnode ?_) ht hrets
  · exact hon.tallied_callOn hrest (List.forall_mem_singleton.mpr hoperand)
      (hread.known_read hrest hi)
  · rw [Walk.callsAt_eq hbefore, hfresh]

theorem summed_callSelf {name : String} {args : List Expr} {block : Option Block} {parens : Bool}
    (h : Frozen s (c.infer (.call m none name args block parens)) w t w')
    (hnode : m.id ∉ Expr.ids (args ++ Block.bodyOf block)) (hfresh : w.callsAt m.id = []) :
    Summed s false (w'.callsAt m.id) t := by
  have hrets : ∀ call ∈ w'.callsAt m.id, call.ret.Over Proper := fun _ =>
    (h.findings hrest).ret_of_mem
  have ht := hrest.valued _ _ _ _ h
  obtain ⟨given, w₁, w₂, _, hgiven, hbody, hcall⟩ := h.parts_callSelf hrest
  obtain ⟨hargs, hknown⟩ :
      Passes c s (fun _ => False) (fun _ _ => False) w args w₁ ∧ ∀ t ∈ given, t.Known :=
    hgiven.of_inferArgs hrest fun e _ => hrest.valued e
  have hpasses := hargs.append (hbody.of_inferBlock hrest fun e _ => hrest.valued e)
  exact (hcall.tallied_callOnSelf hrest hknown).summed (hpasses.fresh hrest hnode hfresh) ht hrets

theorem summed_receiver {receiver : Expr} {name : String} {args : List Expr} {block : Option Block}
    {parens : Bool} {e : Expr} (he : e = .call m (some receiver) name args block parens)
    (h : Frozen s (c.infer e) w t w')
    (hnode : m.id ∉ Expr.ids (receiver :: args ++ Block.bodyOf block))
    (hfresh : w.callsAt m.id = []) : Summed s (e.allocates c.env) (w'.callsAt m.id) t := by
  have hrets : ∀ call ∈ w'.callsAt m.id, call.ret.Over Proper := fun _ =>
    (h.findings hrest).ret_of_mem
  have ht := hrest.valued _ _ _ _ h
  have hvalued : ∀ es : List Expr, ∀ e ∈ es, Valued c s e := fun _ e _ => hrest.valued e
  by_cases hptr : name = "ptr"
  · have hplain : e.allocates c.env = false := by
      rw [he, hptr, Expr.allocates]
      split
      · decide
      · rfl
    rw [he, Checking.infer, if_pos hptr] at h
    rw [hplain]
    exact (h.tallied_takePointer hrest).summed hfresh ht hrets
  · have hkindOf : e.allocates c.env = match c.env.receiverKind receiver with
        | .ofClass _ => name == "new"
        | _ => false := by
      rw [he]
      rfl
    rw [he] at h
    rw [hkindOf]
    cases hkind : c.env.receiverKind receiver with
    | value =>
      obtain ⟨self, given, w₁, w₂, w₃, _, _, hself, hgiven, hbody, hcall⟩ :=
        h.parts_call hrest hptr hkind
      have hselfKnown := hself.valued_typed (hrest.valued receiver)
      obtain ⟨hargs, hknown⟩ :
          Passes c s (fun _ => False) (fun _ _ => False) w₁ args w₂ ∧ ∀ t ∈ given, t.Known :=
        hgiven.of_inferArgs hrest (hvalued args)
      have hpasses := Passes.child hself (hargs.append (hbody.of_inferBlock hrest (hvalued _)))
      exact (hcall.tallied_callOn hrest hknown hselfKnown).summed
        (hpasses.fresh hrest hnode hfresh) ht hrets
    | ofClass ref =>
      obtain ⟨m', rfl⟩ := Env.receiverKind_ofClass hkind
      obtain ⟨ty, given, w₁, w₂, hty, _, hgiven, hbody, hclass⟩ :=
        h.parts_callClass hrest hptr hkind
      obtain ⟨hargs, hknown⟩ : Passes c s (fun _ => True) (fun _ _ => False) _ args w₁ ∧
          ∀ t ∈ given, t.Known := hgiven.of_inferArgs hrest (hvalued args)
      have hpasses := hargs.append (hbody.of_inferBlock hrest (hvalued _))
      have hfresh₂ : w₂.callsAt m.id = [] := hpasses.fresh hrest (fun hmem => hnode ?_) hfresh
      · rcases hclass.of_callOnClass with ⟨hnew, hcall⟩ | ⟨hmalloc, _, hcall⟩
        · rw [hnew]
          exact hcall.summed_callNew hrest hknown hty hfresh₂ hrets
        · rw [hmalloc]
          exact (hcall.tallied_callMalloc hrest hknown hty).summed hfresh₂ ht hrets
      · rw [List.cons_append, Expr.ids_cons]
        exact List.mem_append_right _ hmem
    | ofLibrary library =>
      have hl := Env.receiverKind_ofLibrary hkind
      obtain ⟨f, given, w₁, w₂, hf, _, hgiven, hbody, hnative⟩ :=
        h.parts_callNative hrest hptr hkind
      obtain ⟨hargs, _⟩ : Passes c s (fun _ => True) (fun _ _ => False) _ args w₁ ∧
          GivenFor args given :=
        hgiven.of_inferNativeArgs hrest (fun _ _ _ => trivial) (hvalued args)
      have hpasses := hargs.append (hbody.of_inferBlock hrest (hvalued _))
      refine (hnative.tallied_callNative hrest hl (List.mem_of_find?_eq_some hf)).summed
        (hpasses.fresh hrest (fun hmem => hnode ?_) hfresh) ht hrets
      rw [List.cons_append, Expr.ids_cons]
      exact List.mem_append_right _ hmem

/-- An expression that is carried out as a call has the type of what is returned to it. -/
theorem summed {n : Expr} (h : Frozen s (c.infer n) w t w')
    (hnodup : (n.nodes.map Expr.id).Nodup) (hfresh : w.callsAt n.id = []) (hmay : n.mayCall = true)
    (hcalled : (∀ m name, n ≠ .ident m name) ∨ w'.callsAt n.id ≠ []) :
    Summed s (n.allocates c.env) (w'.callsAt n.id) t := by
  have hnode : n.id ∉ Expr.ids n.children := by
    rw [Expr.map_id_nodes] at hnodup
    exact (List.nodup_cons.mp hnodup).1
  cases n with
  | ident m name =>
    exact h.summed_ident hrest hfresh (hcalled.resolve_left fun hother => hother m name rfl)
  | opAssign m target op value => exact h.summed_opAssign hrest hnode hfresh
  | call m receiver name args block parens =>
    cases receiver with
    | none => exact h.summed_callSelf hrest hnode hfresh
    | some receiver => exact h.summed_receiver hrest rfl hnode hfresh
  | _ => cases hmay

end

end Frozen

/-! ### The calls of a unit -/

variable {c : Checking} {s : Engine} {w w' : Walk}

namespace Visited

theorem summed (hrest : Rest c s) {n : Expr} (h : Visited c s n w w')
    (hnodup : (n.nodes.map Expr.id).Nodup) (hfresh : w.callsAt n.id = []) (hmay : n.mayCall = true)
    (hcalled : (∀ m name, n ≠ .ident m name) ∨ w'.callsAt n.id ≠ []) :
    ∃ t, w'.types.find? n.id = some t ∧ Summed s (n.allocates c.env) (w'.callsAt n.id) t := by
  obtain ⟨w₁, t, w₂, hrun, hbefore, _, hcalls, htype⟩ := h
  have hstart : w₁.callsAt n.id = [] := by
    rw [Walk.callsAt_congr (congrArg Prod.snd (hbefore n n.mem_nodes_self)), hfresh]
  rw [Walk.callsAt_congr hcalls] at hcalled ⊢
  exact ⟨t, htype, hrun.summed hrest hnodup hstart hmay hcalled⟩

/-- Taking the address of a variable notes no call for the variable. -/
theorem callsAt_of_takesAddress (hrest : Rest c s) {e n : Expr} (h : Visited c s e w w')
    (he : e.takesAddress = true) (hnodup : (e.nodes.map Expr.id).Nodup) (hn : n ∈ e.children)
    (hfresh : w.callsAt n.id = []) : w'.callsAt n.id = [] := by
  obtain ⟨w₁, t, w₂, hrun, hbefore, hafter, _⟩ := h
  have hbelow := Expr.mem_nodesOf hn
  have hstart : w₁.callsAt n.id = [] := by
    rw [Walk.callsAt_congr (congrArg Prod.snd (hbefore n ?_)), hfresh]
    rw [Expr.nodes_eq]
    exact List.mem_cons_of_mem _ hbelow
  rw [Walk.callsAt_congr (congrArg Prod.snd (hafter n hbelow)), List.eq_nil_iff_forall_not_mem]
  intro call hcall
  cases e with
  | call m receiver name args block parens =>
    cases receiver with
    | none => cases he
    | some receiver =>
      rw [Checking.infer, if_pos (beq_iff_eq.mp he)] at hrun
      have hadds : Adds (CarriedAt c.env s m.id []) w₁ w₂ := hrun.adds_takePointer hrest
      rcases hadds n.id call hcall with hold | ⟨heq, _⟩
      · rw [hstart] at hold
        cases hold
      · exact Expr.id_ne_of_mem_below hnodup hbelow heq
  | _ => cases he

end Visited

/-- When expressions are gone through, a type is noted for each node below that is carried out
    as a call, and it is that of what is returned. -/
theorem Passes.summed (hrest : Rest c s) {n : Expr} {es : List Expr}
    (h : Passes c s (fun _ => False) (fun _ _ => False) w es w') (hnodup : (Expr.ids es).Nodup)
    (hn : n ∈ Expr.nodesOf es) (hfresh : w.callsAt n.id = []) (hmay : n.mayCall = true)
    (hcalled : (∀ m name, n ≠ .ident m name) ∨ w'.callsAt n.id ≠ []) :
    ∃ t, w'.types.find? n.id = some t ∧ Summed s (n.allocates c.env) (w'.callsAt n.id) t := by
  by_cases hpassed : ∃ k ∈ Expr.nodesOf es, n ∈ k.children ∧ k.passesOver n
  · -- only variables are passed over that could be calls, and then they are none
    obtain ⟨k, hk, hchild, hover⟩ := hpassed
    rcases hover with ⟨m, ref, rfl⟩ | ⟨m, target, rfl⟩ | ⟨haddress, hvariable⟩
    · cases hmay
    · cases hmay
    · have hparent : Visited c s k w w' := h.visited_below hrest hnodup hk fun j _ _ hoverk => by
        rw [hoverk.children_eq_nil] at hchild
        cases hchild
      have hnone := hparent.callsAt_of_takesAddress hrest haddress (Expr.nodup_nodes hnodup hk)
        hchild hfresh
      refine absurd hnone (hcalled.resolve_left fun hother => ?_)
      cases n with
      | ident m name => exact hother m name rfl
      | ivar => cases hmay
      | _ => cases hvariable
  · have hvisited := h.visited_below hrest hnodup hn fun k hk hchild hover =>
      hpassed ⟨k, hk, hchild, hover⟩
    exact hvisited.summed hrest (Expr.nodup_nodes hnodup hn) hfresh hmay hcalled

end UnionTyping
