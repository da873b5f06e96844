/-
  UnionTyping/Proofs/Inheritance.lean
  ===================================
  **Declared methods are inherited, and primitives are not.**

  A class finds for every method that an ancestor finds one with the same signature: the
  method itself, or a nearer one that hides it (`Env.exists_inherited`).  With more
  signatures no fewer calls can be resolved, so what can be called on a class can be called
  on its descendants (`Env.inherited_calls_resolve`).

  This holds for the methods that a program declares.  Primitives are listed for the name
  of the receiver's own class, so a class below `Int` has none of them
  (`inheritedPrimitive_missing`).
-/
import UnionTyping.Proofs.Classes
import UnionTyping.Proofs.Inference.AddressFree
import UnionTyping.Proofs.Overload

namespace UnionTyping

/-! ### Hiding -/

namespace Methods

theorem prefix_addUnhidden (found es : List MethodEntry) : found <+: addUnhidden found es := by
  induction es generalizing found with
  | nil => exact List.prefix_rfl
  | cons e es ih =>
    rw [addUnhidden]
    refine List.IsPrefix.trans ?_ (ih _)
    split
    · exact List.prefix_rfl
    · exact List.prefix_append _ _

/-- What is not added is hidden by a method with the same signature. -/
theorem exists_addUnhidden {found es : List MethodEntry} {e : MethodEntry} (he : e ∈ es) :
    ∃ f ∈ addUnhidden found es, f = e ∨ (f.method.signature == e.method.signature) = true := by
  induction es generalizing found with
  | nil => cases he
  | cons e' es ih =>
    rw [addUnhidden]
    rcases List.mem_cons.mp he with rfl | he
    · split
      · rename_i hidden
        obtain ⟨f, hf, hsame⟩ := List.any_eq_true.mp hidden
        exact ⟨f, (prefix_addUnhidden _ es).mem hf, .inr hsame⟩
      · refine ⟨e, (prefix_addUnhidden _ es).mem ?_, .inl rfl⟩
        exact List.mem_append_right _ (List.mem_singleton_self e)
    · exact ih he

/-- A method of an ancestor is found, or one that hides it. -/
theorem exists_of_ownedBy {ms : Methods} {classes : ClassTable} {id ancestor : ClassId}
    {name : String} {e : MethodEntry} (hancestor : ancestor ∈ classes.ancestors id)
    (he : e ∈ ms.ownedBy (.ofClass ancestor) name) :
    ∃ f ∈ ms.lookup classes id name,
      f = e ∨ (f.method.signature == e.method.signature) = true := by
  have hkept : ∀ (ancestors : List ClassId) (found : List MethodEntry),
      found <+: ancestors.foldl
        (fun found ancestor => addUnhidden found (ms.ownedBy (.ofClass ancestor) name)) found := by
    intro ancestors
    induction ancestors with
    | nil => exact fun _ => List.prefix_rfl
    | cons a ancestors ih => exact fun found => (prefix_addUnhidden found _).trans (ih _)
  obtain ⟨nearer, farther, hsplit⟩ := List.append_of_mem hancestor
  obtain ⟨f, hf, hsame⟩ := @exists_addUnhidden (nearer.foldl
    (fun found ancestor => addUnhidden found (ms.ownedBy (.ofClass ancestor) name)) []) _ _ he
  refine ⟨f, ?_, hsame⟩
  rw [lookup, hsplit, List.foldl_append, List.foldl_cons]
  exact (hkept farther _).mem hf

end Methods

/-! ### Signatures -/

def Signature.Plain (s : Signature) : Prop := ∀ t, some t ∈ s.params → t.Plain

theorem Signature.params_eq_of_beq {params params' : List (Option Ty)}
    (hplain : ∀ t, some t ∈ params → t.Plain) (h : (params == params') = true) :
    params = params' := by
  induction params generalizing params' with
  | nil => cases params' with
    | nil => rfl
    | cons => cases h
  | cons p params ih => cases params' with
    | nil => cases h
    | cons p' params' =>
      rw [List.cons_beq_cons, Bool.and_eq_true] at h
      rw [ih (fun t ht => hplain t (List.mem_cons_of_mem _ ht)) h.2]
      cases p with
      | none => cases p' with
        | none => rfl
        | some => cases h.1
      | some t => cases p' with
        | none => cases h.1
        | some t' => rw [(hplain t List.mem_cons_self).eq_of_beq h.1]

/-- Plain signatures that are the same are equal. -/
theorem Signature.Plain.eq_of_beq {s s' : Signature} (hs : s.Plain) (h : (s == s') = true) :
    s = s' := by
  obtain ⟨params, required⟩ := s
  obtain ⟨params', required'⟩ := s'
  obtain ⟨hparams, hrequired⟩ := Bool.and_eq_true_iff.mp
    (show (params == params' && required == required') = true from h)
  have heq : params = params' := params_eq_of_beq hs hparams
  rw [heq, beq_iff_eq.mp hrequired]

namespace Env

theorem plain_signatureOf {classes : ClassTable} {d : Def} {s : Signature}
    (h : signatureOf classes d = .ok s) : s.Plain := by
  obtain ⟨params, hparams, h⟩ := exists_of_bind_eq_ok h
  cases h
  intro t ht
  obtain ⟨p, _, hp⟩ := mem_of_mapM_eq_ok hparams _ ht
  cases hrestriction : p.restriction with
  | none =>
    rw [hrestriction] at hp
    cases hp
  | some ref =>
    rw [hrestriction] at hp
    obtain ⟨t', ht', hp⟩ := exists_of_bind_eq_ok hp
    cases hp
    exact classes.plain_typeOf ref ht'

/-! ### Inheritance -/

def methodsOn (env : Env) (className name : String) : List MethodEntry :=
  match env.classes.lookup className with
  | some id => env.methods.lookup env.classes id name
  | none => []

theorem candidates_con (env : Env) (className name : String) (args : List Ty) :
    env.candidates (.con className args) name =
      (env.methodsOn className name).map .method ++
        (Primitive.on className args name).map .primitive := rfl

variable {settings : Settings} {p : Program} {env : Env}

/-- A class has methods with all the signatures that an ancestor has. -/
theorem exists_inherited (h : ofProgram settings p = .ok env) {sub sup name : String}
    (hsub : env.hierarchy.isSubclass sub sup = true) {e : MethodEntry}
    (he : e ∈ env.methodsOn sup name) :
    ∃ f ∈ env.methodsOn sub name, f.method.signature = e.method.signature := by
  obtain ⟨hsound, hhierarchy⟩ := sound_of_ofProgram h
  have hdeclared := declaredIn_of_ofProgram h
  rw [hhierarchy] at hsub
  cases hid : env.classes.lookup sub with
  | none =>
    rw [← ClassTable.eq_of_isSubclass hid hsub]
    exact ⟨e, he, rfl⟩
  | some id =>
    obtain ⟨ancestor, hancestor, hsup⟩ := hsound.exists_ancestor_of_isSubclass hid hsub
    rw [methodsOn, hsup] at he
    obtain ⟨owner, howner, howned⟩ := Methods.exists_ancestor_of_mem_lookup he
    have hlt := ClassTable.lookup_lt hid
    obtain ⟨f, hf, hsame⟩ := Methods.exists_of_ownedBy
      ((hsound.suffix_ancestors hlt hancestor).mem howner) howned
    refine ⟨f, by rw [methodsOn, hid]; exact hf, ?_⟩
    rcases hsame with rfl | hsame
    · rfl
    · have hget := hdeclared.numbered f (Methods.live_of_mem_lookup hf)
      have hsignature := hdeclared.signature _ (List.mem_of_getElem? hget)
      exact (plain_signatureOf hsignature).eq_of_beq hsame

/-- What can be called on a class can be called on the classes that inherit from it, as long
    as the call does not need a primitive of the class. -/
theorem inherited_calls_resolve (h : ofProgram settings p = .ok env) {sub sup : String}
    (hsub : env.hierarchy.isSubclass sub sup = true) (supArgs subArgs : List Ty) {name : String}
    {args : List Ty}
    (hresolves : ∃ found, Overload.resolve env.hierarchy
      ((env.candidates (.con sup supArgs) name).map Candidate.signature) args = .ok found)
    (hdeclared : Primitive.on sup supArgs name = [] ∨ ∃ found, Overload.resolve env.hierarchy
      ((env.methodsOn sup name).map fun e => e.method.signature) args = .ok found) :
    ∃ found, Overload.resolve env.hierarchy
      ((env.candidates (.con sub subArgs) name).map Candidate.signature) args = .ok found := by
  have hmethods : ∃ found, Overload.resolve env.hierarchy
      ((env.methodsOn sup name).map fun e => e.method.signature) args = .ok found := by
    rcases hdeclared with hnone | hmethods
    · rw [candidates_con, hnone, List.map_nil, List.append_nil, List.map_map] at hresolves
      exact hresolves
    · exact hmethods
  refine Overload.exists_resolve_of_subset (fun s hs => ?_) hmethods
  obtain ⟨e, he, rfl⟩ := List.mem_map.mp hs
  obtain ⟨f, hf, hsame⟩ := exists_inherited h hsub he
  rw [← hsame, candidates_con, List.map_append]
  exact List.mem_append_left _ (List.mem_map.mpr ⟨_, List.mem_map_of_mem hf, rfl⟩)

end Env

theorem inheritingProgram_resolves :
    ∃ env, Env.ofProgram {} inheritingProgram = .ok env ∧
      env.hierarchy.isSubclass "Square" "Shape" = true ∧
      Primitive.on "Shape" [] "grow" = [] ∧
      ∃ found, Overload.resolve env.hierarchy
        ((env.candidates (.con "Square" []) "grow").map Candidate.signature) [.int] =
          .ok found := by
  have hfacts : (match Env.ofProgram {} inheritingProgram with
      | .ok env => env.hierarchy.isSubclass "Square" "Shape" &&
          (Overload.resolve env.hierarchy
            ((env.candidates (.con "Shape" []) "grow").map Candidate.signature) [.int]).toBool
      | .error _ => false) = true := by decide +kernel
  split at hfacts
  · rename_i env h
    obtain ⟨hsub, hresolves⟩ := Bool.and_eq_true_iff.mp hfacts
    refine ⟨env, h, hsub, rfl, Env.inherited_calls_resolve h hsub [] [] ?_ (.inl rfl)⟩
    cases hfound : Overload.resolve env.hierarchy
        ((env.candidates (.con "Shape" []) "grow").map Candidate.signature) [.int] with
    | ok found => exact ⟨found, rfl⟩
    | error failure =>
      rw [hfound] at hresolves
      cases hresolves
  · cases hfacts

/-- A class below a number, used where a number is expected: `class Foo < Int; end;
    def next(x : Int) x + 1; end; next(1); next(Foo.new)`. -/
def numberProgram : Program :=
  let m : Mark := ⟨0, .unplaced⟩
  let ref (name : String) : TypeRef := .mk name [] .unplaced
  .ofItems "number.qz" [
    .classDecl ⟨"Foo", some (ref "Int"), false, [], .unplaced⟩,
    .method ⟨"next", [⟨"x", some (ref "Int"), none⟩],
      [.call m (some (.ident m "x")) "+" [.literal m .int] none false], .unplaced⟩,
    .expr (.call m none "next" [.literal m .int] none true),
    .expr (.call m none "next" [.call m (some (.path m (ref "Foo"))) "new" [] none true] none true)]

/-- A primitive of a class is not found on the classes below it, although their instances can
    be used as its own. -/
theorem inheritedPrimitive_missing :
    (∃ env, Env.ofProgram {} numberProgram = .ok env ∧
      env.hierarchy.isSubclass "Foo" "Int" = true ∧
      (∃ found, Overload.resolve env.hierarchy
        ((env.candidates (.con "Int" []) "+").map Candidate.signature) [.int] = .ok found) ∧
      ¬ ∃ found, Overload.resolve env.hierarchy
        ((env.candidates (.con "Foo" []) "+").map Candidate.signature) [.int] = .ok found) ∧
    ∃ d, numberProgram.check {} = .error (.rejected d) ∧
      (d.problem == .undefinedMethod "+" (some "Foo")) = true := by
  constructor
  · have hfacts : (match Env.ofProgram {} numberProgram with
        | .ok env => env.hierarchy.isSubclass "Foo" "Int" &&
            ((Overload.resolve env.hierarchy
              ((env.candidates (.con "Int" []) "+").map Candidate.signature) [.int]).toBool &&
            !(Overload.resolve env.hierarchy
              ((env.candidates (.con "Foo" []) "+").map Candidate.signature) [.int]).toBool)
        | .error _ => false) = true := by decide +kernel
    split at hfacts
    · rename_i env h
      obtain ⟨hsub, hresolves⟩ := Bool.and_eq_true_iff.mp hfacts
      obtain ⟨habove, hbelow⟩ := Bool.and_eq_true_iff.mp hresolves
      refine ⟨env, h, hsub, ?_, fun ⟨found, hfound⟩ => ?_⟩
      · cases hfound : Overload.resolve env.hierarchy
            ((env.candidates (.con "Int" []) "+").map Candidate.signature) [.int] with
        | ok found => exact ⟨found, rfl⟩
        | error failure =>
          rw [hfound] at habove
          cases habove
      · rw [hfound] at hbelow
        cases hbelow
    · cases hfacts
  · have hproblem : (match numberProgram.check {} with
        | .error (.rejected d) => d.problem == .undefinedMethod "+" (some "Foo")
        | _ => false) = true := by decide +kernel
    split at hproblem
    · rename_i d h
      exact ⟨d, h, hproblem⟩
    · cases hproblem

end UnionTyping
