/-
  UnionTyping/Proofs/Inference/Uniform.lean
  =========================================
  **Two checks that find the same types.**

  When two checks see the same types they resolve every call alike, so they enter
  the same methods.  Then nothing has to be shown about the ways of carrying out
  a call but that two instances of one method correspond (`Uniform.instanceOf`);
  the rest of a `Lockstep` follows (`Uniform.lockstep`).

  The types satisfy a predicate `T` throughout.  `TypeDomain` says that nothing an
  expression does leads out of `T`.  Methods are entered with members of such types
  only, so with types that satisfy a possibly stronger predicate `K`.
-/
import UnionTyping.Proofs.Inference.Lockstep
import UnionTyping.Proofs.Inference.Runs
import UnionTyping.Proofs.Overload

namespace UnionTyping

/-- One type on both sides, and it satisfies `T`. -/
def SameType (T : Ty → Prop) (t t' : Ty) : Prop := t = t' ∧ T t

namespace SameType

variable {T : Ty → Prop}

theorem self {t : Ty} (h : T t) : SameType T t t := ⟨rfl, h⟩

theorem forall₂_iff {as bs : List Ty} :
    List.Forall₂ (SameType T) as bs ↔ as = bs ∧ ∀ a ∈ as, T a := by
  constructor
  · intro h
    induction h with
    | nil => exact ⟨rfl, List.forall_mem_nil _⟩
    | cons hab _ ih => exact ⟨by rw [hab.1, ih.1], List.forall_mem_cons.mpr ⟨hab.2, ih.2⟩⟩
  · rintro ⟨rfl, h⟩
    exact List.forall₂_same.mpr fun a ha => self (h a ha)

theorem option_iff {a b : Option Ty} :
    Option.Rel (SameType T) a b ↔ a = b ∧ ∀ t, a = some t → T t := by
  constructor
  · rintro (hab | _)
    · exact ⟨by rw [hab.1], fun t ht => by cases ht; exact hab.2⟩
    · exact ⟨rfl, fun t ht => nomatch ht⟩
  · rintro ⟨rfl, h⟩
    cases a with
    | none => exact .none
    | some t => exact .some (self (h t rfl))

/-- An instance on both sides, for argument types that satisfy `T`. -/
theorem sameInstance {key : Option Instantiation} (h : ∀ k, key = some k → ∀ a ∈ k.args, T a) :
    Option.Rel (fun k k' : Instantiation =>
      k'.method = k.method ∧ List.Forall₂ (SameType T) k.args k'.args) key key := by
  cases key with
  | none => exact .none
  | some k => exact .some ⟨rfl, forall₂_iff.mpr ⟨rfl, h k rfl⟩⟩

/-- Arguments of a native call that have the same types and modes are the same. -/
theorem nativeArgs_eq {given given' : List NativeArg}
    (h : List.Forall₂ (fun a b => SameType T a.ty b.ty ∧ a.isOut = b.isOut) given given') :
    given' = given := by
  induction h with
  | nil => rfl
  | @cons a b _ _ hab _ ih =>
    obtain ⟨ta, oa⟩ := a
    obtain ⟨tb, ob⟩ := b
    obtain ⟨⟨hty, _⟩, hout⟩ := hab
    rw [ih]
    simp only at hty hout
    rw [hty, hout]

end SameType

/-- The predicate `T` holds of all types that the declarations bring in, and of those
    that the expressions of the vocabulary make of types satisfying it. -/
structure TypeDomain (env : Env) (v : Vocabulary) (T : Ty → Prop) : Prop
    extends TypeRelation env v (SameType T) where
  members : ∀ {t m}, T t → m ∈ t.members → T m
  primitive : ∀ {className args name p}, T (.con className args) →
    p ∈ Primitive.on className args name → T p.ret
  pointer : ∀ {t}, v.pointers → T t → t.isUnresolved = false → T (.pointer t)

/-- What is called on a value of a type in the domain is offered. -/
theorem TypeDomain.offered {env : Env} {v : Vocabulary} {T : Ty → Prop} (h : TypeDomain env v T)
    {t : Ty} {name : String} (ht : T t) :
    ∀ k ∈ env.candidates t name, k.Offered env (SameType T) := by
  intro k hk
  rcases Env.mem_candidates hk with ⟨id, _, hk⟩ | ⟨className, args, p, rfl, hp, rfl⟩
  · exact Candidate.offered_of_mem_lookup hk
  · exact .self (h.primitive ht hp)

/-- The steps of two checks that find the same types. -/
structure Uniform {W : Type} (c c' : Checking) (v : Vocabulary) (T K : Ty → Prop)
    (ext : W → W → Prop) (V : W → BindingId → BindingId → Prop)
    (P : ∀ {α β : Type}, W → (W → α → β → Prop) → WalkM α → WalkM β → Prop) : Prop
    extends Steps c c' v (SameType T) ext V P where
  domain : TypeDomain c.env v T
  entered : ∀ {t}, K t → T t
  members : ∀ {t m}, T t → m ∈ t.members → K m
  instanceOf : ∀ {w site self args} {entry : MethodEntry}, entry ∈ c.env.methods.live →
    entry.method.signature.takes args.length = true → (∀ s, self = some s → K s) →
    (∀ a ∈ args, K a) →
    P w (fun _ (a b : UnitId × Ty) => a = b ∧ T a.2) (c.instanceOf site entry.id self args)
      (c'.instanceOf site entry.id self args)

namespace Uniform

variable {W : Type} {c c' : Checking} {v : Vocabulary} {T K : Ty → Prop}
  {ext : W → W → Prop} {V : W → BindingId → BindingId → Prop}
  {P : ∀ {α β : Type}, W → (W → α → β → Prop) → WalkM α → WalkM β → Prop}

section

variable (h : Uniform c c' v T K ext V P)
include h

/-- A method can be entered with an instance of a class. -/
theorem concrete {t : Ty} (ht : T t) (hcon : t.IsCon) : K t :=
  h.members ht (hcon.members_eq.symm ▸ List.mem_singleton_self t)

theorem enterOne {w : W} {site : Location} {self : Option Ty} {name : String} {args : List Ty}
    {k : Candidate} (hself : ∀ s, self = some s → K s) (hk : k.Offered c.env (SameType T))
    (htakes : k.signature.takes args.length = true) (hargs : ∀ a ∈ args, K a) :
    P w (fun _ (a b : Ty × Callee) => a = b ∧ T a.1) (c.enter site self name args k)
      (c'.enter site self name args k) := by
  cases k with
  | method entry =>
    refine h.seq (h.instanceOf hk htakes hself hargs) fun _ a b _ hab => ?_
    obtain ⟨rfl, ha⟩ := hab
    exact h.ret ⟨rfl, ha⟩
  | primitive p => exact h.ret ⟨rfl, hk.2⟩

/-- Entering the matches of a call one after the other. -/
theorem enterAll {w : W} {mark : Mark} {self : Option Ty} {name : String}
    {candidates : List Candidate} {result : Ty} {found : List Overload.Match}
    (hid : v.ids mark.id) (hself : ∀ s, self = some s → K s)
    (hk : ∀ k ∈ candidates, k.Offered c.env (SameType T))
    (hfound : ∀ m ∈ found, (∀ a ∈ m.args, K a) ∧ ∀ k, candidates[m.candidate]? = some k →
      k.signature.takes m.args.length = true)
    (hresult : T result) :
    P w (fun _ => SameType T) (c.enterAll mark self name candidates result found)
      (c'.enterAll mark self name candidates result found) := by
  induction found generalizing w result with
  | nil =>
    rw [Checking.enterAll, Checking.enterAll]
    exact h.ret (.self hresult)
  | cons m rest ih =>
    rw [Checking.enterAll, Checking.enterAll]
    have hrest := fun m' hm' => hfound m' (List.mem_cons_of_mem _ hm')
    obtain ⟨hargs, htakes⟩ := hfound m List.mem_cons_self
    cases hget : candidates[m.candidate]? with
    | none => exact ih hrest hresult
    | some k =>
      refine h.seq (h.enterOne hself (hk k (List.mem_of_getElem? hget)) (htakes k hget) hargs)
        fun _ a b _ hab => ?_
      obtain ⟨rfl, ha⟩ := hab
      refine h.seq (h.noteCall hid
        (SameType.option_iff.mpr ⟨rfl, fun s hs => h.entered (hself s hs)⟩)
        (SameType.forall₂_iff.mpr ⟨rfl, fun a ha => h.entered (hargs a ha)⟩) (.self ha))
        fun _ _ _ _ _ => ?_
      exact ih hrest (h.types.union (.self hresult) (.self ha)).2

theorem callAmong {w : W} {mark : Mark} {self : Option Ty} {name : String}
    {candidates : List Candidate} {args : List Ty} (hid : v.ids mark.id)
    (hself : ∀ s, self = some s → K s) (hk : ∀ k ∈ candidates, k.Offered c.env (SameType T))
    (hargs : ∀ a ∈ args, T a) :
    P w (fun _ => Option.Rel (SameType T)) (c.callAmong mark self name candidates args)
      (c'.callAmong mark self name candidates args) := by
  have hnone : ∀ failure : Overload.Failure, P w (fun _ => Option.Rel (SameType T))
      (do let _ ← c.fail (failure.problem name) mark.loc; pure none)
      (do let _ ← c'.fail (failure.problem name) mark.loc; pure none) := fun failure =>
    h.seq h.fail fun _ _ _ _ _ => h.ret .none
  unfold Checking.callAmong
  rw [h.env.hierarchy]
  simp only
  cases Overload.requireArity (candidates.map Candidate.signature) args.length with
  | error failure => exact hnone failure
  | ok _ =>
    simp only
    split
    · exact h.ret (.some h.types.unresolved)
    · cases hr : Overload.resolve c.env.hierarchy (candidates.map Candidate.signature) args with
      | error failure => exact hnone failure
      | ok found =>
        refine h.seq (h.enterAll hid hself hk (fun m hm => ?_) h.types.unresolved.2)
          fun _ _ _ _ ht => h.ret (.some ht)
        obtain ⟨hchoice, s, hget, htakes, _⟩ := Overload.exists_signature_of_resolve hr hm
        constructor
        · intro a ha
          obtain ⟨t, ht, hat⟩ := Overload.exists_members_of_mem_choices hchoice ha
          exact h.members (hargs t ht) hat
        · intro k hcand
          rw [List.getElem?_map, hcand] at hget
          cases hget
          rw [Overload.length_of_mem_choices hchoice]
          exact htakes

theorem callOnEach {w : W} {mark : Mark} {name : String} {args : List Ty} {result : Ty}
    {receivers : List Ty} (hid : v.ids mark.id) (hargs : ∀ a ∈ args, T a)
    (hr : ∀ r ∈ receivers, T r) (hresult : T result) :
    P w (fun _ => SameType T) (c.callOnEach mark name args result receivers)
      (c'.callOnEach mark name args result receivers) := by
  induction receivers generalizing w result with
  | nil =>
    rw [Checking.callOnEach, Checking.callOnEach]
    exact h.ret (.self hresult)
  | cons r rest ih =>
    rw [Checking.callOnEach, Checking.callOnEach, h.env.candidates]
    have hhead : T r := hr r List.mem_cons_self
    split
    · exact h.fail
    · rename_i hcandidates
      refine h.seq (h.callAmong hid (fun s hs => ?_) (h.domain.offered hhead) hargs)
        fun _ a b _ hab => ?_
      · cases hs
        exact h.concrete hhead (Env.isCon_of_candidates hcandidates)
      · cases hab with
        | none => exact h.ret h.types.unresolved
        | some ht =>
          obtain ⟨rfl, ht⟩ := ht
          exact ih (fun r' hr' => hr r' (List.mem_cons_of_mem _ hr'))
            (h.types.union (.self hresult) (.self ht)).2

theorem pointerTo {w : W} {mark : Mark} {receiver : NodeId} {given : Nat} {hasBlock : Bool}
    {i j : BindingId} (hv : v.pointers) (hid : v.ids mark.id) (hreceiver : v.ids receiver)
    (hij : V w i j) :
    P w (fun _ => SameType T) (c.pointerTo mark receiver given hasBlock i)
      (c'.pointerTo mark receiver given hasBlock j) := by
  unfold Checking.pointerTo
  split
  · exact h.fail
  · split
    · exact h.fail
    · refine h.seq (h.read hij) fun _ t t' _ ht => ?_
      obtain ⟨rfl, ht⟩ := ht
      refine h.seq (h.noteType hreceiver (.self ht)) fun _ _ _ _ _ => ?_
      cases hu : t.isUnresolved with
      | true => exact h.ret h.types.unresolved
      | false =>
        have hp : T (.pointer t) := h.domain.pointer hv ht hu
        refine h.seq (h.noteCall hid (.some (.self ht)) .nil (.self hp)) fun _ _ _ _ _ => ?_
        exact h.ret (.self hp)

theorem takePointer {w : W} {mark : Mark} {receiver : Expr} {given : Nat} {hasBlock : Bool}
    (hv : v.pointers) (hid : v.ids mark.id) (hreceiver : v.speaks receiver.nodes) :
    P w (fun _ => SameType T) (c.takePointer mark receiver given hasBlock)
      (c'.takePointer mark receiver given hasBlock) := by
  obtain ⟨hrid, hfits⟩ := Vocabulary.admits_of_speaks hreceiver
  cases hvariable : receiver.isVariable with
  | false =>
    rw [Checking.takePointer_other _ _ _ _ _ hvariable, Checking.takePointer_other _ _ _ _ _
      hvariable]
    exact h.seq h.fail fun _ _ _ _ _ => h.ret h.types.unresolved
  | true =>
    cases receiver with
    | ident m name =>
      rw [Checking.takePointer_ident, Checking.takePointer_ident]
      refine h.seq h.lookup fun _ o o' _ ho => ?_
      cases ho with
      | none => exact h.seq h.fail fun _ _ _ _ _ => h.ret h.types.unresolved
      | some hij => exact h.pointerTo hv hid hrid hij
    | ivar m name =>
      rw [Checking.takePointer_ivar, Checking.takePointer_ivar]
      refine h.seq (h.ivarOf hfits) fun _ o o' _ ho => ?_
      cases ho with
      | none => exact h.ret h.types.unresolved
      | some hij => exact h.pointerTo hv hid hrid hij
    | _ => cases hvariable

theorem native {w : W} {lib : String} {loc : Location} {f : NativeFunction}
    {given given' : List NativeArg} {k k' : WalkM Ty}
    (hg : List.Forall₂ (fun a b => SameType T a.ty b.ty ∧ a.isOut = b.isOut) given given')
    (hk : P w (fun _ => SameType T) k k') :
    P w (fun _ => SameType T)
      (match f.check c.env.hierarchy lib given with
        | .error problem => c.fail problem loc
        | .ok _ => k)
      (match f.check c'.env.hierarchy lib given' with
        | .error problem => c'.fail problem loc
        | .ok _ => k') := by
  rw [SameType.nativeArgs_eq hg, h.env.hierarchy]
  cases f.check c.env.hierarchy lib given with
  | error problem => exact h.fail
  | ok _ => exact hk

/-- Two checks that find the same types go in lockstep. -/
theorem lockstep : Lockstep c c' v (SameType T) ext V P where
  toSteps := h.toSteps
  callAmong := by
    intro w mark self name candidates args args' hid hself hcon hk ha
    obtain ⟨rfl, hargs⟩ := SameType.forall₂_iff.mp ha
    refine h.callAmong hid (fun s hs => h.concrete ?_ (hcon s hs)) hk hargs
    exact (SameType.option_iff.mp hself).2 s hs
  callOn := by
    intro w mark t t' name args args' hid ht ha
    obtain ⟨rfl, hargs⟩ := SameType.forall₂_iff.mp ha
    obtain ⟨rfl, ht⟩ := ht
    exact h.callOnEach hid hargs (fun r hr => h.domain.members ht hr) h.types.unresolved.2
  takePointer := h.takePointer
  native := h.native

end

end Uniform

end UnionTyping
