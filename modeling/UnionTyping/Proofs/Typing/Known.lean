/-
  UnionTyping/Proofs/Typing/Known.lean
  ====================================
  **Where reading gives values, every expression has a value.**

  The rules allow that an expression has no type yet: a variable may be read before
  anything is assigned to it, and a call waits for the types of its arguments.  When
  reading a place always gives the type of a value, there is nothing to wait for, and each
  derived type has a member (`Types.inhabited`).
-/
import UnionTyping.Proofs.Typing.Derivation

namespace UnionTyping

open Ty (Over Proper Known)

theorem Ty.inhabited_of_has {t m : Ty} (h : t.Has m) : t.members ≠ [] := by
  rintro hnil
  rw [Ty.Has, hnil] at h
  cases h

theorem Ty.Within.inhabited {t t' : Ty} (h : t.Within t') (ht : t.members ≠ []) :
    t'.members ≠ [] := by
  obtain ⟨m, hm⟩ := List.exists_mem_of_ne_nil _ ht
  exact Ty.inhabited_of_has (h m hm)

namespace Typing

/-- What is read is the type of a value, and what is noted and the type of `self` consist
    of proper types. -/
structure Grounded (T : Typing) : Prop where
  reads : ∀ p t, T.context.reads p t → t.Known
  noted : ∀ node t, T.noted node = some t → t.Over Proper
  self : ∀ t, T.self = some t → t.Over Proper
  libraries : T.env.libraries.Plain

variable {T : Typing}

section

variable (hT : T.Grounded) {args : List Ty} (hargs : ∀ a ∈ args, a.members ≠ []) {name : String}
  {t : Ty}
include hT hargs

/-- A call whose arguments have types has a type. -/
theorem Answers.inhabited {on : Option Ty} {candidates : List Candidate}
    (hcandidates : ∀ k ∈ candidates, k.Offered T.env (SameType Known))
    (h : T.Answers on candidates args t) : t.members ≠ [] := by
  have hknown : args.any Ty.isUnresolved = false := by
    rw [List.any_eq_false]
    intro a ha hu
    cases a with
    | unresolved => exact hargs _ ha rfl
    | _ => cases hu
  obtain ⟨as, has⟩ := List.exists_mem_of_ne_nil _ (Overload.choices_ne_nil hargs)
  obtain ⟨i, k, _, hk, hgives⟩ := h.chosen hknown as (Overload.mem_choices.mp has)
  cases k with
  | method entry =>
    obtain ⟨_, u, hreads, hu⟩ := hgives
    exact hu.inhabited (hT.reads _ _ hreads).inhabited
  | primitive p =>
    have hret : SameType Known p.ret p.ret := hcandidates _ (List.mem_of_getElem? hk)
    exact Ty.Within.inhabited hgives hret.2.inhabited

theorem AnswersOn.inhabited {receiver : Ty} (hreceiver : receiver.Known)
    (h : T.AnswersOn receiver name args t) : t.members ≠ [] := by
  obtain ⟨r, hr⟩ := List.exists_mem_of_ne_nil _ hreceiver.inhabited
  exact (h r hr).2.inhabited hT hargs ((hreceiver.isOver.all r hr).isOver.offered name)

theorem AnswersTop.inhabited (h : T.AnswersTop name args t) : t.members ≠ [] := by
  exact h.2.inhabited hT hargs fun _ => Candidate.offered_of_mem_topLevel

theorem AnswersSelf.inhabited (h : T.AnswersSelf name args t) : t.members ≠ [] := by
  unfold AnswersSelf at h
  cases hself : T.self with
  | none =>
    rw [hself] at h
    exact AnswersTop.inhabited hT hargs h
  | some self =>
    rw [hself] at h
    simp only at h
    split at h
    · exact AnswersTop.inhabited hT hargs h
    · exact h.inhabited hT hargs ((hT.self self hself).offered name)

theorem AnswersClass.inhabited {className : String} {ref : TypeRef} {ty : Ty}
    (hty : T.env.classes.typeOf ref = .ok ty) (h : T.AnswersClass className ty name args t) :
    t.members ≠ [] := by
  have hproper : Proper ty := (T.env.classes.plain_typeOf ref hty).proper
  unfold AnswersClass at h
  split at h
  · rw [h.1]
    exact hproper.known.inhabited
  · obtain ⟨_, _, head, params, p, rfl, hp, hanswers⟩ := h
    exact hanswers.inhabited hT hargs (Candidate.offered_of_malloc hproper hp)

end

/-! ### Expressions -/

section

variable (hT : T.Grounded)
include hT

theorem Grounded.known {node : NodeId} {t : Ty} (hnoted : T.noted node = some t)
    (ht : t.members ≠ []) : t.Known := ⟨hT.noted node t hnoted, ht⟩

/-- The types of several expressions are noted. -/
theorem TypesAll.over {inLoop : Bool} {sc sc' : Outline} {es : List Expr} {ts : List Ty}
    (h : T.TypesAll inLoop sc es ts sc') : ∀ t ∈ ts, t.Over Proper := by
  induction es generalizing sc ts with
  | nil =>
    cases h
    exact List.forall_mem_nil _
  | cons e es ih =>
    cases h with
    | cons _ noted tail => exact List.forall_mem_cons.mpr ⟨hT.noted _ _ noted, ih tail⟩

end

mutual

/-- What the rules derive is the type of a value. -/
theorem Types.inhabited {inLoop : Bool} {sc sc' : Outline} {e : Expr} {t : Ty}
    (hT : T.Grounded) : T.Types inLoop sc e t sc' → t.members ≠ []
  | @Types.literal _ _ _ _ value => value.plain.proper.known.inhabited
  | .localVar _ reads | .ivar _ reads | .out _ reads => (hT.reads _ _ reads).inhabited
  | .name _ _ call => AnswersSelf.inhabited hT (List.forall_mem_nil _) call
  | .assign typed _ _ _ => typed.inhabited hT
  | .opAssign _ reads typed _ call _ => AnswersOn.inhabited hT
    (List.forall_mem_singleton.mpr (typed.inhabited hT)) (hT.reads _ _ reads) call
  | .path _ => (Ty.proper_plain "Class").known.inhabited
  | .connect typedLeft notedLeft _ notedRight =>
    (Ty.within_union_left (hT.noted _ _ notedLeft) (hT.noted _ _ notedRight)).inhabited
      (typedLeft.inhabited hT)
  | .ite _ _ typedThen typedElse => by
    have hnil := (Ty.proper_plain "Nil").known
    refine (Ty.within_union_left ?_ ?_).inhabited
      (Ty.of_getLastD (P := fun t => t.members ≠ []) hnil.inhabited (typedThen.inhabited hT))
    · exact Ty.of_getLastD hnil.isOver (typedThen.over hT)
    · exact Ty.of_getLastD hnil.isOver (typedElse.over hT)
  | .loop _ _ _ | .control => (Ty.proper_plain "Nil").known.inhabited
  | .callSelf typedArgs _ call => AnswersSelf.inhabited hT (typedArgs.inhabited hT) call
  | .pointer (t := t) _ _ reads _ => by
    have hknown := hT.reads _ _ reads
    rw [hknown.isUnresolved_eq_false]
    exact hknown.proper_pointer.known.inhabited
  | .callClass _ _ written _ typedArgs _ call =>
    AnswersClass.inhabited hT (typedArgs.inhabited hT) written call
  | .callNative (f := f) _ kind _ function _ _ _ _ =>
    (hT.libraries _ (Env.receiverKind_ofLibrary kind) f
      (List.mem_of_find?_eq_some function)).2.proper.known.inhabited
  | .callValue _ _ typed noted typedArgs _ call =>
    AnswersOn.inhabited hT (typedArgs.inhabited hT) (hT.known noted (typed.inhabited hT)) call

theorem TypesAll.inhabited {inLoop : Bool} {sc sc' : Outline} {es : List Expr} {ts : List Ty}
    (hT : T.Grounded) : T.TypesAll inLoop sc es ts sc' → ∀ t ∈ ts, t.members ≠ []
  | .nil => List.forall_mem_nil _
  | .cons head _ tail => List.forall_mem_cons.mpr ⟨head.inhabited hT, tail.inhabited hT⟩

end

end Typing

end UnionTyping
