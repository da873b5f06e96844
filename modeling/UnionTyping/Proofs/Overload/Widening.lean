/-
  UnionTyping/Proofs/Overload/Widening.lean
  =========================================
  **Wider arguments can only break a call.**

  When each argument type is within a wider one, each combination of members has a counterpart
  among the combinations of the wider types, up to the order in unions (`exists_counterpart`).
  A signature does not tell the two apart (`Signature.accepts_congr`), so both select the same
  one.  A call that can be resolved for the wider types can therefore be resolved for the
  narrower ones, and its matches are among those for the wider types (`resolve_within`).  Types
  that are the same are within each other, so they have the same matches.
-/
import UnionTyping.Proofs.Assignable
import UnionTyping.Proofs.Overload.MostSpecific

namespace UnionTyping

/-! ### Signatures -/

namespace Signature

variable {h : Hierarchy}

theorem allows_congr (hacyclic : h.Acyclic) {restriction : Option Ty} {a b : Ty}
    (hnormal : ∀ t, restriction = some t → t.Normal) (ha : a.Normal) (hb : b.Normal)
    (hsame : (a == b) = true) : allows h restriction a = allows h restriction b := by
  cases restriction with
  | none => rfl
  | some t =>
    exact Hierarchy.assignable_congr hacyclic ha (hnormal t rfl) hb (hnormal t rfl) hsame BEq.rfl

/-- A signature does not tell arguments apart that are the same. -/
theorem accepts_congr (hacyclic : h.Acyclic) {s : Signature} (hs : s.InNormalForm)
    {as bs : List Ty} (has : ∀ a ∈ as, a.Normal) (hbs : ∀ b ∈ bs, b.Normal)
    (hsame : (as == bs) = true) : s.accepts h as = s.accepts h bs := by
  obtain ⟨params, required⟩ := s
  have hpairs := Ty.beq_list_iff.mp hsame
  induction hpairs generalizing params with
  | nil => rfl
  | cons hab hrest ih =>
    cases params with
    | nil => rfl
    | cons restriction params =>
      have hrestriction : ∀ t, restriction = some t → t.Normal := by
        rintro t rfl
        exact hs t List.mem_cons_self
      obtain ⟨ha, has⟩ := List.forall_mem_cons.mp has
      obtain ⟨hb, hbs⟩ := List.forall_mem_cons.mp hbs
      have hparams : InNormalForm ⟨params, required⟩ := fun t ht => hs t (List.mem_cons_of_mem _ ht)
      rw [accepts_cons, accepts_cons, allows_congr hacyclic hrestriction ha hb hab,
        ih has hbs (Ty.beq_list_iff.mpr hrest) params hparams]

end Signature

namespace Overload

variable {h : Hierarchy} {signatures : List Signature} {args wider : List Ty}

/-! ### Combinations -/

theorem normal_of_mem_choices (hargs : ∀ t ∈ args, t.Normal) {as : List Ty}
    (has : as ∈ choices args) : ∀ a ∈ as, a.Normal := by
  intro a ha
  obtain ⟨t, ht, hat⟩ := exists_members_of_mem_choices has ha
  exact (hargs t ht).member hat

/-- Combinations that are the same select the same signature. -/
theorem choose_congr (hacyclic : h.Acyclic) (hnormal : ∀ s ∈ signatures, s.InNormalForm)
    {as bs : List Ty} (has : ∀ a ∈ as, a.Normal) (hbs : ∀ b ∈ bs, b.Normal)
    (hsame : (as == bs) = true) (given : Nat) :
    choose h (ranked signatures given) as = choose h (ranked signatures given) bs := by
  have hfilter : (ranked signatures given).filter (fun c => c.2.accepts h as) =
      (ranked signatures given).filter fun c => c.2.accepts h bs :=
    List.filter_congr fun _ hc => Signature.accepts_congr hacyclic
      (hnormal _ (List.mem_of_getElem? (mem_ranked_iff.mp hc).1)) has hbs hsame
  rw [choose, choose, hfilter]

/-- A combination of types is one of any wider types, up to the order in unions. -/
theorem exists_counterpart (hwithin : List.Forall₂ Ty.Within args wider) {as : List Ty}
    (has : as ∈ choices args) : ∃ bs ∈ choices wider, (bs == as) = true := by
  simp only [mem_choices, Ty.beq_list_iff] at has ⊢
  induction hwithin generalizing as with
  | nil =>
    cases has
    exact ⟨[], .nil, .nil⟩
  | cons hhead _ ih =>
    cases has with
    | @cons a _ as _ ha has =>
      obtain ⟨b, hb, hba⟩ := List.any_eq_true.mp (hhead a ha)
      obtain ⟨bs, hbs, hsame⟩ := ih has
      exact ⟨b :: bs, .cons hb hbs, .cons hba hsame⟩

/-! ### Resolution -/

section Wider

variable (hacyclic : h.Acyclic) (hnormal : ∀ s ∈ signatures, s.InNormalForm)
  (hargs : ∀ t ∈ args, t.Normal) (hwider : ∀ t ∈ wider, t.Normal)
  (hwithin : List.Forall₂ Ty.Within args wider)
include hacyclic hnormal hargs hwider hwithin

/-- What a combination selects is selected by its counterpart, whose match is there. -/
theorem exists_choose_of_wider {found : List Match} (hr : resolve h signatures wider = .ok found)
    {as : List Ty} (has : as ∈ choices args) :
    ∃ i, choose h (ranked signatures args.length) as = some i ∧
      found.any (· == ⟨i, as⟩) = true := by
  obtain ⟨bs, hbs, hsame⟩ := exists_counterpart hwithin has
  obtain ⟨i, hi, hany⟩ := any_of_matchAll (resolve_eq_ok hr) bs hbs
  obtain ⟨m, hm, hmatch⟩ := List.any_eq_true.mp hany
  obtain ⟨hcandidate, hcombination⟩ := Match.beq_iff.mp hmatch
  refine ⟨i, ?_, List.any_eq_true.mpr ⟨m, hm, Match.beq_iff.mpr ⟨hcandidate, ?_⟩⟩⟩
  · rw [hwithin.length_eq, ← hi]
    exact (choose_congr hacyclic hnormal (normal_of_mem_choices hwider hbs)
      (normal_of_mem_choices hargs has) hsame _).symm
  · exact Ty.beq_list_trans hcombination hsame

/-- A call that can be resolved for wider arguments can be resolved for these. -/
theorem exists_resolve_of_wider {found : List Match}
    (hr : resolve h signatures wider = .ok found) :
    ∃ found', resolve h signatures args = .ok found' := by
  obtain ⟨hfits, _⟩ := resolve_ok_iff.mp ⟨found, hr⟩
  rw [← hwithin.length_eq] at hfits
  have hselected : ∀ as ∈ choices args,
      ∃ i, choose h (ranked signatures args.length) as = some i := by
    intro as has
    obtain ⟨i, hi, _⟩ := exists_choose_of_wider hacyclic hnormal hargs hwider hwithin hr has
    exact ⟨i, hi⟩
  obtain ⟨found', hr'⟩ := @exists_of_matchAll h _ [] _ hselected
  exact ⟨found', (resolve_of_fits hfits).trans hr'⟩

/-- All matches are matches for the wider arguments. -/
theorem any_of_resolve_wider {found found' : List Match}
    (hr : resolve h signatures wider = .ok found) (hr' : resolve h signatures args = .ok found') :
    ∀ m ∈ found', found.any (· == m) = true := by
  intro m hm
  rcases mem_of_matchAll (resolve_eq_ok hr') m hm with hnil | ⟨hchoice, hchoose⟩
  · cases hnil
  · obtain ⟨i, hi, hany⟩ :=
      exists_choose_of_wider hacyclic hnormal hargs hwider hwithin hr hchoice
    obtain rfl := Option.some.inj (hchoose.symm.trans hi)
    exact hany

end Wider

theorem within_of_beq (hargs : ∀ t ∈ args, t.Normal) (hwider : ∀ t ∈ wider, t.Normal)
    (hsame : (args == wider) = true) : List.Forall₂ Ty.Within args wider := by
  have hpairs := Ty.beq_list_iff.mp hsame
  refine List.forall₂_iff_zip.mpr ⟨hpairs.length_eq, fun hpair => ?_⟩
  obtain ⟨ha, hb⟩ := List.of_mem_zip hpair
  exact (hargs _ ha).within_of_beq (hwider _ hb) (List.forall₂_zip hpairs hpair)

/-- Over a hierarchy without cycles, for restrictions and arguments in normal form, a call that
    can be resolved for wider arguments can be resolved for narrower ones, and each of its
    matches is one of those for the wider arguments.  In particular calls whose arguments are
    the same can both be resolved, with the same matches, or can both not be. -/
theorem resolve_within (hacyclic : h.Acyclic) (hnormal : ∀ s ∈ signatures, s.InNormalForm)
    (hargs : ∀ t ∈ args, t.Normal) (hwider : ∀ t ∈ wider, t.Normal) :
    (List.Forall₂ Ty.Within args wider → ∀ found, resolve h signatures wider = .ok found →
      ∃ found', resolve h signatures args = .ok found' ∧
        ∀ m ∈ found', found.any (· == m) = true) ∧
    ((args == wider) = true →
      ((∃ found, resolve h signatures args = .ok found) ↔
        ∃ found, resolve h signatures wider = .ok found) ∧
      ∀ found found', resolve h signatures wider = .ok found →
        resolve h signatures args = .ok found' →
          (∀ m ∈ found', found.any (· == m) = true) ∧
            ∀ m ∈ found, found'.any (· == m) = true) := by
  constructor
  · intro hwithin found hr
    obtain ⟨found', hr'⟩ := exists_resolve_of_wider hacyclic hnormal hargs hwider hwithin hr
    exact ⟨found', hr', any_of_resolve_wider hacyclic hnormal hargs hwider hwithin hr hr'⟩
  · -- what is the same is wider, on either side
    intro hsame
    have hturned : (wider == args) = true := by
      rw [Ty.beq_list_comm_of_mem fun a ha b hb => (hwider a ha).beq_comm (hargs b hb)]
      exact hsame
    have hwithin := within_of_beq hargs hwider hsame
    have hwithin' := within_of_beq hwider hargs hturned
    refine ⟨⟨?_, ?_⟩, fun found found' hr hr' => ⟨?_, ?_⟩⟩
    · rintro ⟨_, hr'⟩
      exact exists_resolve_of_wider hacyclic hnormal hwider hargs hwithin' hr'
    · rintro ⟨_, hr⟩
      exact exists_resolve_of_wider hacyclic hnormal hargs hwider hwithin hr
    · exact any_of_resolve_wider hacyclic hnormal hargs hwider hwithin hr hr'
    · exact any_of_resolve_wider hacyclic hnormal hwider hargs hwithin' hr' hr

/-- Any value can be copied, to a place or not, and a pointer that may be nil is copied in a way
    of its own. -/
def copying : List Signature :=
  [⟨[some (.con "Value" []), none], 1⟩, .exact [some (.pointer (.oneOf [.int, .nil]))]]

/-- A pointer is copied in the same way when it may be a number instead, and in whatever order
    this is written. -/
theorem copying_within :
    Hierarchy.pointerClasses.Acyclic ∧ (∀ s ∈ copying, s.InNormalForm) ∧
      (∃ found', resolve Hierarchy.pointerClasses copying [.pointer (.oneOf [.nil, .int])] =
          .ok found' ∧
        ∀ m ∈ found', [⟨1, [.pointer (.oneOf [.int, .nil])]⟩, (⟨0, [.int]⟩ : Match)].any (· == m) =
          true) ∧
      ∀ m ∈ [(⟨0, [.int]⟩ : Match), ⟨1, [.pointer (.oneOf [.nil, .int])]⟩],
        [⟨1, [.pointer (.oneOf [.int, .nil])]⟩, (⟨0, [.int]⟩ : Match)].any (· == m) = true := by
  have hnormal : ∀ s ∈ copying, s.InNormalForm := by decide +kernel
  have hwider : ∀ t ∈ [Ty.oneOf [.pointer (.oneOf [.int, .nil]), .int]], t.Normal := by
    decide +kernel
  have hnarrow : ∀ t ∈ [Ty.pointer (.oneOf [.nil, .int])], t.Normal := by decide +kernel
  have hreordered : ∀ t ∈ [Ty.oneOf [.int, .pointer (.oneOf [.nil, .int])]], t.Normal := by
    decide +kernel
  have hwithin : Ty.Within (.pointer (.oneOf [.nil, .int]))
      (.oneOf [.pointer (.oneOf [.int, .nil]), .int]) := by
    intro m hm
    rw [List.mem_singleton.mp hm]
    decide +kernel
  obtain ⟨hbelow, _⟩ := resolve_within Hierarchy.acyclic_pointerClasses hnormal hnarrow hwider
  obtain ⟨_, hsame⟩ := resolve_within Hierarchy.acyclic_pointerClasses hnormal hreordered hwider
  refine ⟨Hierarchy.acyclic_pointerClasses, hnormal, hbelow (.cons hwithin .nil) _ rfl, ?_⟩
  obtain ⟨_, hmatches⟩ := hsame (by decide +kernel)
  exact (hmatches _ _ rfl rfl).1

end Overload

end UnionTyping
