/-
  UnionTyping/Proofs/Overload/Combinations.lean
  =============================================
  **Overload resolution goes through all combinations of members, in order.**

  A combination takes one member of each argument type.  It is told by the places of these
  members (`pick`), and combinations come in the lexicographic order of their places.
  `choices` lists each combination once and in this order (`pick_places`), so resolution
  reports the first combination in it that no signature admits, and else has one match for
  each combination, in order (`resolve_conjunctive`).

  That a match is added only when it is not there yet does not leave out any: the
  combinations of types in normal form are different.
-/
import UnionTyping.Proofs.Overload
import UnionTyping.Proofs.Ty.Normal

namespace UnionTyping

/-! ### When a signature admits arguments -/

namespace Signature

def Fits (s : Signature) (given : Nat) : Prop :=
  s.required ≤ given ∧ given ≤ s.params.length

instance (s : Signature) (given : Nat) : Decidable (s.Fits given) :=
  inferInstanceAs (Decidable (_ ∧ _))

/-- The signature can be called with so many arguments, and each restricted parameter that
    is given accepts the argument at its place. -/
structure Admits (h : Hierarchy) (s : Signature) (args : List Ty) : Prop where
  fits : s.Fits args.length
  allowed : ∀ (i : Nat) (expected arg : Ty), s.params[i]? = some (some expected) →
    args[i]? = some arg → h.assignable arg expected = true

variable {h : Hierarchy} {s : Signature}

theorem takes_iff {given : Nat} : s.takes given = true ↔ s.Fits given := by
  rw [takes, Arity.contains, Bool.and_eq_true, decide_eq_true_eq, decide_eq_true_eq]
  rfl

@[simp] theorem accepts_cons {restriction : Option Ty} {params : List (Option Ty)} {required : Nat}
    {arg : Ty} {args : List Ty} :
    accepts h ⟨restriction :: params, required⟩ (arg :: args) =
      (allows h restriction arg && accepts h ⟨params, required⟩ args) := rfl

theorem accepts_iff {args : List Ty} :
    s.accepts h args = true ↔ ∀ (i : Nat) (expected arg : Ty),
      s.params[i]? = some (some expected) → args[i]? = some arg →
        h.assignable arg expected = true := by
  simp only [accepts, List.all_eq_true]
  constructor
  · intro hall i expected arg hparam harg
    have hpair : (some expected, arg) ∈ s.params.zip args :=
      List.mem_of_getElem? (List.getElem?_zip_eq_some.mpr ⟨hparam, harg⟩)
    exact hall _ hpair
  · rintro hall ⟨restriction, arg⟩ hpair
    obtain ⟨i, hi⟩ := List.getElem?_of_mem hpair
    obtain ⟨hparam, harg⟩ := List.getElem?_zip_eq_some.mp hi
    cases restriction with
    | none => rfl
    | some expected => exact hall i expected arg hparam harg

theorem admits_iff {args : List Ty} :
    s.Admits h args ↔ s.takes args.length = true ∧ s.accepts h args = true := by
  rw [takes_iff, accepts_iff]
  exact ⟨fun hs => ⟨hs.fits, hs.allowed⟩, fun hs => ⟨hs.1, hs.2⟩⟩

instance (args : List Ty) : Decidable (s.Admits h args) :=
  decidable_of_iff _ admits_iff.symm

end Signature

namespace Overload

variable {h : Hierarchy} {signatures : List Signature} {args : List Ty}

/-! ### Combinations by the places of their members -/

/-- The members of the types at the given places, one place for each type. -/
def pick : List Ty → List Nat → Option (List Ty)
  | [], [] => some []
  | t :: ts, i :: places => do
    let m ← t.members[i]?
    let rest ← pick ts places
    return m :: rest
  | [], _ :: _ => none
  | _ :: _, [] => none

theorem pick_cons_iff {t : Ty} {ts as : List Ty} {i : Nat} {places : List Nat} :
    pick (t :: ts) (i :: places) = some as ↔
      ∃ m rest, t.members[i]? = some m ∧ pick ts places = some rest ∧ m :: rest = as := by
  simp [pick, Option.bind_eq_some_iff]

def places : List Ty → List (List Nat)
  | [] => [[]]
  | t :: ts => (List.range t.members.length).flatMap fun i => (places ts).map (i :: ·)

theorem mem_places_iff {ts : List Ty} {p : List Nat} :
    p ∈ places ts ↔ (pick ts p).isSome := by
  induction ts generalizing p with
  | nil => cases p <;> simp [places, pick]
  | cons t ts ih =>
    cases p with
    | nil => simp [places, pick]
    | cons i p =>
      simp only [places, List.mem_flatMap, List.mem_range, List.mem_map, List.cons.injEq,
        Option.isSome_iff_exists, pick_cons_iff]
      constructor
      · rintro ⟨j, hj, q, hq, rfl, rfl⟩
        obtain ⟨rest, hrest⟩ := Option.isSome_iff_exists.mp (ih.mp hq)
        exact ⟨_, t.members[j], rest, List.getElem?_eq_getElem hj, hrest, rfl⟩
      · rintro ⟨as, m, rest, hm, hrest, -⟩
        obtain ⟨hi, -⟩ := List.getElem?_eq_some_iff.mp hm
        exact ⟨i, hi, p, ih.mpr (by simp [hrest]), rfl, rfl⟩

theorem pairwise_places {ts : List Ty} : (places ts).Pairwise (· < ·) := by
  induction ts with
  | nil => exact List.pairwise_singleton _ _
  | cons t ts ih =>
    rw [places, List.pairwise_flatMap]
    constructor
    · intro i _
      refine List.pairwise_map.mpr (ih.imp fun hpq => ?_)
      exact List.cons_lt_cons_iff.mpr (.inr ⟨rfl, hpq⟩)
    · refine List.pairwise_lt_range.imp fun hij p hp q hq => ?_
      obtain ⟨p', _, rfl⟩ := List.mem_map.mp hp
      obtain ⟨q', _, rfl⟩ := List.mem_map.mp hq
      exact List.cons_lt_cons_iff.mpr (.inl hij)

/-- The combinations are listed in the order of their places. -/
theorem pick_places {ts : List Ty} :
    List.Forall₂ (fun p as => pick ts p = some as) (places ts) (choices ts) := by
  induction ts with
  | nil => exact .cons rfl .nil
  | cons t ts ih =>
    rw [places, choices]
    have hmembers : List.Forall₂ (fun i m => t.members[i]? = some m)
        (List.range t.members.length) t.members := by
      rw [List.forall₂_iff_get]
      refine ⟨List.length_range, fun i _ hi => ?_⟩
      simp only [List.get_eq_getElem, List.getElem_range]
      exact List.getElem?_eq_getElem hi
    refine List.rel_flatMap hmembers fun i m hm => ?_
    refine List.forall₂_map_left_iff.mpr (List.forall₂_map_right_iff.mpr (ih.imp ?_))
    intro p as hp
    exact pick_cons_iff.mpr ⟨m, as, hm, hp, rfl⟩

/-- What is picked at certain places is the combination at the same position of the list. -/
theorem pick_eq_some_iff {ts as : List Ty} {p : List Nat} :
    pick ts p = some as ↔ ∃ i : Nat, (places ts)[i]? = some p ∧ (choices ts)[i]? = some as := by
  have hpicked : ∀ {i : Nat} {q : List Nat} {bs : List Ty}, (places ts)[i]? = some q →
      (choices ts)[i]? = some bs → pick ts q = some bs := by
    intro i q bs hq hbs
    obtain ⟨hi, rfl⟩ := List.getElem?_eq_some_iff.mp hq
    obtain ⟨hi', rfl⟩ := List.getElem?_eq_some_iff.mp hbs
    exact pick_places.get hi hi'
  constructor
  · intro hpick
    obtain ⟨i, hi⟩ := List.getElem?_of_mem (mem_places_iff.mpr (Option.isSome_of_mem hpick))
    obtain ⟨hlt, -⟩ := List.getElem?_eq_some_iff.mp hi
    rw [pick_places.length_eq] at hlt
    have hget := List.getElem?_eq_getElem hlt
    have hsame := (hpicked hi hget).symm.trans hpick
    exact ⟨i, hi, hget.trans hsame⟩
  · rintro ⟨i, hp, has⟩
    exact hpicked hp has

theorem exists_places_of_choices {ts as : List Ty} {i : Nat} (has : (choices ts)[i]? = some as) :
    ∃ p, (places ts)[i]? = some p := by
  obtain ⟨hi, -⟩ := List.getElem?_eq_some_iff.mp has
  rw [← pick_places.length_eq] at hi
  exact ⟨_, List.getElem?_eq_getElem hi⟩

theorem mem_choices_iff_pick {ts as : List Ty} : as ∈ choices ts ↔ ∃ p, pick ts p = some as := by
  constructor
  · intro has
    obtain ⟨i, hi⟩ := List.getElem?_of_mem has
    obtain ⟨p, hp⟩ := exists_places_of_choices hi
    exact ⟨p, pick_eq_some_iff.mpr ⟨i, hp, hi⟩⟩
  · rintro ⟨p, hp⟩
    obtain ⟨i, -, hi⟩ := pick_eq_some_iff.mp hp
    exact List.mem_of_getElem? hi

theorem length_of_pick {ts as : List Ty} {p : List Nat} (hpick : pick ts p = some as) :
    as.length = ts.length :=
  length_of_mem_choices (mem_choices_iff_pick.mpr ⟨p, hpick⟩)

/-- The order of the places is the order in the list. -/
theorem lt_iff_of_places {ts : List Ty} {p q : List Nat} {i j : Nat}
    (hp : (places ts)[i]? = some p) (hq : (places ts)[j]? = some q) : p < q ↔ i < j := by
  obtain ⟨hi, rfl⟩ := List.getElem?_eq_some_iff.mp hp
  obtain ⟨hj, rfl⟩ := List.getElem?_eq_some_iff.mp hq
  have hordered : (places ts).Pairwise (· < ·) := pairwise_places
  have hincreasing := List.pairwise_iff_getElem.mp hordered
  constructor
  · intro hlt
    by_contra hge
    rcases Nat.lt_or_eq_of_le (Nat.le_of_not_lt hge) with hji | rfl
    · exact List.lt_asymm hlt (hincreasing j i hj hi hji)
    · exact List.lt_irrefl _ hlt
  · exact hincreasing i j hi hj

/-! ### The first combination without a signature -/

def Admitted (h : Hierarchy) (signatures : List Signature) (args : List Ty) : Prop :=
  ∃ s ∈ signatures, s.Admits h args

/-- The combination that no signature admits and that comes before all others such. -/
def FirstUnmatched (h : Hierarchy) (signatures : List Signature) (args as : List Ty) : Prop :=
  ∃ p, pick args p = some as ∧ ¬ Admitted h signatures as ∧
    ∀ q bs, q < p → pick args q = some bs → Admitted h signatures bs

theorem isSome_choose_iff {as : List Ty} (hlength : as.length = args.length) :
    (choose h (ranked signatures args.length) as).isSome ↔ Admitted h signatures as := by
  rw [Option.isSome_iff_exists, exists_choose_iff, ← hlength]
  simp only [Admitted, Signature.admits_iff]

/-- Collecting matches fails at the first combination without a signature, and only there. -/
theorem matchAll_eq_error_iff {order : List (Nat × Signature)} {found : List Match}
    {combos : List (List Ty)} {failure : Failure} :
    matchAll h order found combos = .error failure ↔
      ∃ as, failure = .noMatch as ∧
        combos.find? (fun as => (choose h order as).isNone) = some as := by
  induction combos generalizing found with
  | nil => simp [matchAll]
  | cons first rest ih =>
    cases hc : choose h order first with
    | none => simp [matchAll, hc, eq_comm]
    | some i => simp [matchAll, hc, ih]

/-- Being first by the places is being first in the list. -/
theorem firstUnmatched_iff {as : List Ty} :
    FirstUnmatched h signatures args as ↔
      ∃ i : Nat, (choices args)[i]? = some as ∧ ¬ Admitted h signatures as ∧
        ∀ j bs, j < i → (choices args)[j]? = some bs → Admitted h signatures bs := by
  constructor
  · rintro ⟨p, hpick, hnot, hbefore⟩
    obtain ⟨i, hp, has⟩ := pick_eq_some_iff.mp hpick
    refine ⟨i, has, hnot, fun j bs hj hbs => ?_⟩
    obtain ⟨q, hq⟩ := exists_places_of_choices hbs
    exact hbefore q bs ((lt_iff_of_places hq hp).mpr hj) (pick_eq_some_iff.mpr ⟨j, hq, hbs⟩)
  · rintro ⟨i, has, hnot, hbefore⟩
    obtain ⟨p, hp⟩ := exists_places_of_choices has
    refine ⟨p, pick_eq_some_iff.mpr ⟨i, hp, has⟩, hnot, fun q bs hq hpick => ?_⟩
    obtain ⟨j, hqj, hbs⟩ := pick_eq_some_iff.mp hpick
    exact hbefore j bs ((lt_iff_of_places hqj hp).mp hq) hbs

theorem find?_choices_iff {as : List Ty} :
    (choices args).find? (fun as => (choose h (ranked signatures args.length) as).isNone) =
      some as ↔ FirstUnmatched h signatures args as := by
  have hchosen : ∀ {i : Nat} {bs : List Ty}, (choices args)[i]? = some bs →
      ((choose h (ranked signatures args.length) bs).isSome ↔ Admitted h signatures bs) :=
    fun hbs => isSome_choose_iff (length_of_mem_choices (List.mem_of_getElem? hbs))
  rw [firstUnmatched_iff, List.find?_eq_some_iff_getElem]
  constructor
  · rintro ⟨hmissed, i, hi, rfl, hbefore⟩
    have has := List.getElem?_eq_getElem hi
    refine ⟨i, has, ?_, fun j bs hj hbs => ?_⟩
    · rw [← hchosen has]
      simpa using hmissed
    · obtain ⟨_, rfl⟩ := List.getElem?_eq_some_iff.mp hbs
      rw [← hchosen hbs]
      simpa [Option.isSome_iff_ne_none] using hbefore j hj
  · rintro ⟨i, has, hnot, hbefore⟩
    obtain ⟨hi, hget⟩ := List.getElem?_eq_some_iff.mp has
    refine ⟨?_, i, hi, hget, fun j hj => ?_⟩
    · rw [← hchosen has] at hnot
      simpa using hnot
    · have hbs := List.getElem?_eq_getElem (Nat.lt_trans hj hi)
      have hadmitted := (hchosen hbs).mpr (hbefore j _ hj hbs)
      simpa [Option.isSome_iff_ne_none] using hadmitted

/-! ### Resolution -/

theorem any_takes_iff {given : Nat} :
    signatures.any (·.takes given) = true ↔ ∃ s ∈ signatures, s.Fits given := by
  simp only [List.any_eq_true, Signature.takes_iff]

theorem resolve_of_fits (hfits : ∃ s ∈ signatures, s.Fits args.length) :
    resolve h signatures args =
      matchAll h (ranked signatures args.length) [] (choices args) := by
  rw [resolve, requireArity, if_pos (any_takes_iff.mpr hfits)]
  rfl

/-- A call that gives a number of arguments that no signature takes is told the arity of the
    first signature. -/
theorem resolve_of_not_fits (hfits : ¬ ∃ s ∈ signatures, s.Fits args.length) :
    resolve h signatures args = .error (.wrongArity args.length
      ((signatures.head?.map Signature.arity).getD (Arity.exactly 0))) := by
  rw [resolve, requireArity, if_neg (mt any_takes_iff.mp hfits)]
  rfl

theorem resolve_eq_wrongArity_iff {given : Nat} {expected : Arity} :
    resolve h signatures args = .error (.wrongArity given expected) ↔
      (¬ ∃ s ∈ signatures, s.Fits args.length) ∧ given = args.length ∧
        expected = (signatures.head?.map Signature.arity).getD (Arity.exactly 0) := by
  by_cases hfits : ∃ s ∈ signatures, s.Fits args.length
  · rw [resolve_of_fits hfits, matchAll_eq_error_iff]
    exact iff_of_false (fun ⟨_, hmatch, _⟩ => nomatch hmatch) fun hnot => hnot.1 hfits
  · simp [resolve_of_not_fits hfits, hfits, eq_comm]

theorem resolve_wrongArity_iff :
    (∃ given expected, resolve h signatures args = .error (.wrongArity given expected)) ↔
      ¬ ∃ s ∈ signatures, s.Fits args.length := by
  simp [resolve_eq_wrongArity_iff]

theorem resolve_noMatch_iff {as : List Ty} :
    resolve h signatures args = .error (.noMatch as) ↔
      (∃ s ∈ signatures, s.Fits args.length) ∧ FirstUnmatched h signatures args as := by
  by_cases hfits : ∃ s ∈ signatures, s.Fits args.length
  · simp [resolve_of_fits hfits, matchAll_eq_error_iff, find?_choices_iff, hfits]
  · simp [resolve_of_not_fits hfits, hfits]

theorem resolve_ok_iff :
    (∃ found, resolve h signatures args = .ok found) ↔
      (∃ s ∈ signatures, s.Fits args.length) ∧
        ∀ p as, pick args p = some as → Admitted h signatures as := by
  rw [resolves_iff]
  simp only [Signature.takes_iff]
  refine and_congr_right fun _ => ?_
  constructor
  · intro hall p as hpick
    obtain ⟨s, hs, hfits, haccepts⟩ := hall as (mem_choices_iff_pick.mpr ⟨p, hpick⟩)
    exact ⟨s, hs, Signature.admits_iff.mpr ⟨Signature.takes_iff.mpr
      (length_of_pick hpick ▸ hfits), haccepts⟩⟩
  · intro hall as has
    obtain ⟨p, hpick⟩ := mem_choices_iff_pick.mp has
    obtain ⟨s, hs, hadmits⟩ := hall p as hpick
    exact ⟨s, hs, length_of_pick hpick ▸ hadmits.fits, (Signature.admits_iff.mp hadmits).2⟩

/-- A match selects a signature that admits its arguments. -/
theorem admits_of_resolve {found : List Match} (hr : resolve h signatures args = .ok found)
    {m : Match} (hm : m ∈ found) :
    ∃ s, signatures[m.candidate]? = some s ∧ s.Admits h m.args := by
  obtain ⟨hchoice, s, hs, htakes, haccepts⟩ := exists_signature_of_resolve hr hm
  rw [← length_of_mem_choices hchoice] at htakes
  exact ⟨s, hs, Signature.admits_iff.mpr ⟨htakes, haccepts⟩⟩

/-- Overload resolution is conjunctive, over any hierarchy.  It fails on the number of
    arguments when no signature takes so many.  Otherwise it fails on the first combination of
    members, in lexicographic order of their places, that no signature admits, if there is
    one.  Otherwise it gives exactly one match for each combination, in this order, with a
    signature that admits it. -/
theorem resolve_conjunctive (hargs : ∀ t ∈ args, t.Normal) :
    ((∃ given expected, resolve h signatures args = .error (.wrongArity given expected)) ↔
      ¬ ∃ s ∈ signatures, s.Fits args.length) ∧
    (∀ as, resolve h signatures args = .error (.noMatch as) ↔
      (∃ s ∈ signatures, s.Fits args.length) ∧ FirstUnmatched h signatures args as) ∧
    ((∃ found, resolve h signatures args = .ok found) ↔
      (∃ s ∈ signatures, s.Fits args.length) ∧
        ∀ p as, pick args p = some as → Admitted h signatures as) ∧
    ∀ found, resolve h signatures args = .ok found →
      ∃ order : List (List Nat), order.Pairwise (· < ·) ∧
        (∀ p, p ∈ order ↔ (pick args p).isSome) ∧
        List.Forall₂ (fun p m => pick args p = some m.args ∧
          ∃ s, signatures[m.candidate]? = some s ∧ s.Admits h m.args) order found := by
  refine ⟨resolve_wrongArity_iff, fun as => resolve_noMatch_iff, resolve_ok_iff, ?_⟩
  intro found hr
  refine ⟨places args, pairwise_places, fun p => mem_places_iff, ?_⟩
  have hpicked : List.Forall₂ (fun p as => pick args p = some as) (places args)
      (found.map Match.args) := by
    rw [map_args_of_resolve hr fun t ht => (hargs t ht).isOver.distinct]
    exact pick_places
  rw [List.forall₂_map_right_iff] at hpicked
  refine List.forall₂_iff_zip.mpr ⟨hpicked.length_eq, fun hpm => ⟨List.forall₂_zip hpicked hpm, ?_⟩⟩
  exact admits_of_resolve hr (List.of_mem_zip hpm).2

def numberClasses : Hierarchy := ⟨[("Int", some "Number"), ("Double", some "Number")]⟩

def scaling : List Signature :=
  [⟨[some .int, some .double], 1⟩, .exact [some .double, some (.con "Number" [])]]

/-- Nothing can be scaled by nil, and what is a whole number or a fraction reaches both
    signatures. -/
theorem scaling_conjunctive :
    (∀ t ∈ [Ty.oneOf [.int, .double], .oneOf [.double, .nil]], t.Normal) ∧
      FirstUnmatched numberClasses scaling [.oneOf [.int, .double], .oneOf [.double, .nil]]
        [.int, .nil] ∧
      (∀ t ∈ [Ty.oneOf [.int, .double], .double], t.Normal) ∧
      ∃ order : List (List Nat), order.Pairwise (· < ·) ∧
        (∀ p, p ∈ order ↔ (pick [.oneOf [.int, .double], .double] p).isSome) ∧
        List.Forall₂ (fun (p : List Nat) (m : Match) =>
            pick [.oneOf [.int, .double], .double] p = some m.args ∧
              ∃ s : Signature, scaling[m.candidate]? = some s ∧ s.Admits numberClasses m.args)
          order [⟨0, [.int, .double]⟩, ⟨1, [.double, .double]⟩] := by
  have hargs : ∀ t ∈ [Ty.oneOf [.int, .double], .oneOf [.double, .nil]], t.Normal := by
    decide +kernel
  have hargs' : ∀ t ∈ [Ty.oneOf [.int, .double], .double], t.Normal := by decide +kernel
  obtain ⟨_, hmissed, _⟩ := @resolve_conjunctive numberClasses scaling _ hargs
  obtain ⟨_, _, _, hfound⟩ := @resolve_conjunctive numberClasses scaling _ hargs'
  exact ⟨hargs, ((hmissed _).mp rfl).2, hargs', hfound _ rfl⟩

end Overload

end UnionTyping
