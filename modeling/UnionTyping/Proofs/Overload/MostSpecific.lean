/-
  UnionTyping/Proofs/Overload/MostSpecific.lean
  =============================================
  **The most specific signature wins.**

  Signatures are compared on the parameters that both have, so to be more specific is not
  transitive between signatures of different lengths.  It has no cycles all the same.  Count,
  for each restriction of a candidate, the candidates that are at least as narrow at its
  place.  Assignability is transitive, so a candidate that is more specific than another one
  has smaller counts, in lexicographic order and within the common part
  (`Signature.ranks_lt_of_beats`).  Hence some candidate is beaten by no other
  (`Overload.exists_unbeaten`), and such a one is selected for every combination that can be
  selected for at all (`Overload.resolve_mostSpecific`).
-/
import Mathlib.Data.List.Lex
import Mathlib.Data.List.MinMax
import UnionTyping.Proofs.Assignable
import UnionTyping.Proofs.Overload.Combinations

namespace UnionTyping

/-! ### Counting and comparing -/

theorem countP_lt_countP {α : Type} {p q : α → Bool} {l : List α} (hsub : ∀ x ∈ l, p x → q x)
    {x : α} (hx : x ∈ l) (hq : q x = true) (hp : ¬ p x = true) : l.countP p < l.countP q := by
  have hfilter : l.filter p = (l.filter q).filter p := by
    rw [List.filter_filter]
    refine List.filter_congr fun y hy => ?_
    cases hpy : p y with
    | false => rfl
    | true => rw [hsub y hy hpy, Bool.and_self]
  rw [List.countP_eq_length_filter, List.countP_eq_length_filter, hfilter]
  exact List.length_filter_lt_length_iff_exists.mpr ⟨x, List.mem_filter.mpr ⟨hx, hq⟩, hp⟩

/-- A list that is nowhere larger in the common part and smaller somewhere in it comes first. -/
theorem lt_of_common_part {as bs : List Nat}
    (hle : ∀ i a b : Nat, as[i]? = some a → bs[i]? = some b → a ≤ b)
    (hlt : ∃ i a b : Nat, as[i]? = some a ∧ bs[i]? = some b ∧ a < b) : as < bs := by
  induction as generalizing bs with
  | nil =>
    obtain ⟨i, a, b, ha, _⟩ := hlt
    cases ha
  | cons a as ih =>
    obtain ⟨i, a', b', ha', hb', hab'⟩ := hlt
    cases bs with
    | nil => cases hb'
    | cons b bs =>
      rw [List.cons_lt_cons_iff]
      rcases Nat.lt_or_eq_of_le (hle 0 a b rfl rfl) with hab | hab
      · exact .inl hab
      · refine .inr ⟨hab, ih (fun j => hle (j + 1)) ?_⟩
        cases i with
        | zero =>
          cases ha'
          cases hb'
          exact absurd hab (Nat.ne_of_lt hab')
        | succ i => exact ⟨i, a', b', ha', hb', hab'⟩

/-! ### Narrower restrictions -/

namespace Signature

variable {h : Hierarchy}

def InNormalForm (s : Signature) : Prop := ∀ t, some t ∈ s.params → t.Normal

theorem inNormalForm_iff {s : Signature} :
    (∀ restriction ∈ s.params, ∀ t ∈ restriction, t.Normal) ↔ s.InNormalForm := by
  constructor
  · intro hall t ht
    exact hall (some t) ht t rfl
  · rintro hs _ hr t rfl
    exact hs t hr

instance : DecidablePred InNormalForm := fun _ => decidable_of_iff _ inNormalForm_iff

theorem narrows_self {restriction : Option Ty} (hnormal : ∀ t, restriction = some t → t.Normal) :
    narrows h restriction restriction = true := by
  cases restriction with
  | none => rfl
  | some t => exact Hierarchy.assignable_of_within (hnormal t rfl) (hnormal t rfl) (.refl t)

theorem narrows_trans (hacyclic : h.Acyclic) {a b c : Option Ty}
    (ha : ∀ t, a = some t → t.Normal) (hb : ∀ t, b = some t → t.Normal)
    (hc : ∀ t, c = some t → t.Normal) (hab : narrows h a b = true) (hbc : narrows h b c = true) :
    narrows h a c = true := by
  cases c with
  | none => cases a <;> rfl
  | some c => cases b with
    | none => cases hbc
    | some b => cases a with
      | none => cases hab
      | some a => exact Hierarchy.assignable_trans hacyclic (ha a rfl) (hb b rfl) (hc c rfl) hab hbc

theorem fitsWithin_iff {s s' : Signature} :
    s.fitsWithin h s' = true ↔ ∀ (i : Nat) (mine theirs : Option Ty), s.params[i]? = some mine →
      s'.params[i]? = some theirs → narrows h mine theirs = true := by
  simp only [fitsWithin, List.all_eq_true]
  constructor
  · intro hall i mine theirs hmine htheirs
    have hpair : (mine, theirs) ∈ s.params.zip s'.params :=
      List.mem_of_getElem? (List.getElem?_zip_eq_some.mpr ⟨hmine, htheirs⟩)
    exact hall _ hpair
  · rintro hall ⟨mine, theirs⟩ hpair
    obtain ⟨i, hi⟩ := List.getElem?_of_mem hpair
    obtain ⟨hmine, htheirs⟩ := List.getElem?_zip_eq_some.mp hi
    exact hall i mine theirs hmine htheirs

/-! ### Ranks -/

/-- The number of candidates with a parameter at this place that is at least as narrow. -/
def rankAt (h : Hierarchy) (candidates : List Signature) (place : Nat)
    (restriction : Option Ty) : Nat :=
  candidates.countP fun s => s.params[place]?.any (narrows h · restriction)

def ranks (h : Hierarchy) (candidates : List Signature) (s : Signature) : List Nat :=
  s.params.mapIdx (rankAt h candidates)

section Ranks

variable {candidates : List Signature} (hacyclic : h.Acyclic)
  (hnormal : ∀ s ∈ candidates, s.InNormalForm) {place : Nat} {mine theirs : Option Ty}
  (hmine : ∀ t, mine = some t → t.Normal) (htheirs : ∀ t, theirs = some t → t.Normal)
  (hnarrows : narrows h mine theirs = true)
include hacyclic hnormal hmine htheirs hnarrows

theorem narrows_of_narrower {s : Signature} (hs : s ∈ candidates)
    (hany : s.params[place]?.any (narrows h · mine) = true) :
    s.params[place]?.any (narrows h · theirs) = true := by
  obtain ⟨r, hr, hrm⟩ := (Option.any_eq_true _ _).mp hany
  refine (Option.any_eq_true _ _).mpr ⟨r, hr, ?_⟩
  have hrnormal : ∀ t, r = some t → t.Normal := by
    rintro t rfl
    exact hnormal s hs t (List.mem_of_getElem? hr)
  exact narrows_trans hacyclic hrnormal hmine htheirs hrm hnarrows

theorem rankAt_le : rankAt h candidates place mine ≤ rankAt h candidates place theirs :=
  List.countP_mono_left fun _ hs =>
    narrows_of_narrower hacyclic hnormal hmine htheirs hnarrows hs

/-- The rank is larger when some candidate has the wider restriction itself. -/
theorem rankAt_lt {s : Signature} (hs : s ∈ candidates) (hplace : s.params[place]? = some theirs)
    (hnot : ¬ narrows h theirs mine = true) :
    rankAt h candidates place mine < rankAt h candidates place theirs := by
  refine countP_lt_countP (fun _ hs =>
    narrows_of_narrower hacyclic hnormal hmine htheirs hnarrows hs) hs ?_ ?_
  · rw [hplace, Option.any_some]
    exact narrows_self htheirs
  · rwa [hplace, Option.any_some]

end Ranks

/-- What is more specific than a candidate has smaller ranks. -/
theorem ranks_lt_of_beats (hacyclic : h.Acyclic) {candidates : List Signature}
    (hnormal : ∀ s ∈ candidates, s.InNormalForm) {s s' : Signature} (hs : s ∈ candidates)
    (hs' : s' ∈ candidates) (hbeats : s.beats h s' = true) :
    ranks h candidates s < ranks h candidates s' := by
  obtain ⟨hfits, hnot⟩ := Bool.and_eq_true_iff.mp hbeats
  rw [fitsWithin_iff] at hfits
  have hat : ∀ (r : Signature) (i rank : Nat), (ranks h candidates r)[i]? = some rank →
      ∃ restriction, r.params[i]? = some restriction ∧
        rankAt h candidates i restriction = rank := by
    intro r i rank hrank
    rw [ranks, List.getElem?_mapIdx] at hrank
    exact Option.map_eq_some_iff.mp hrank
  have hparam : ∀ r ∈ candidates, ∀ (i : Nat) (restriction : Option Ty),
      r.params[i]? = some restriction → ∀ t, restriction = some t → t.Normal := by
    rintro r hr i _ hi t rfl
    exact hnormal r hr t (List.mem_of_getElem? hi)
  refine lt_of_common_part ?_ ?_
  · intro i a b ha hb
    obtain ⟨mine, hmine, rfl⟩ := hat s i a ha
    obtain ⟨theirs, htheirs, rfl⟩ := hat s' i b hb
    exact rankAt_le hacyclic hnormal (hparam s hs i mine hmine) (hparam s' hs' i theirs htheirs)
      (hfits i mine theirs hmine htheirs)
  · -- where the other one is not as narrow, the rank is smaller
    rw [Bool.not_eq_true', ← Bool.not_eq_true, fitsWithin_iff] at hnot
    simp only [not_forall] at hnot
    obtain ⟨i, theirs, mine, htheirs, hmine, hwider⟩ := hnot
    refine ⟨i, _, _, ?_, ?_, rankAt_lt hacyclic hnormal (hparam s hs i mine hmine)
      (hparam s' hs' i theirs htheirs) (hfits i mine theirs hmine htheirs) hs' htheirs hwider⟩
    · rw [ranks, List.getElem?_mapIdx, hmine, Option.map_some]
    · rw [ranks, List.getElem?_mapIdx, htheirs, Option.map_some]

end Signature

namespace Overload

variable {h : Hierarchy} {signatures : List Signature} {args : List Ty}

/-! ### Candidates that are not beaten -/

def isUnbeaten (h : Hierarchy) (candidates : List (Nat × Signature)) (c : Nat × Signature) : Bool :=
  !candidates.any fun other => other.2.beats h c.2

theorem isUnbeaten_iff {candidates : List (Nat × Signature)} {c : Nat × Signature} :
    isUnbeaten h candidates c = true ↔ ∀ other ∈ candidates, other.2.beats h c.2 = false := by
  rw [isUnbeaten, Bool.not_eq_true', List.any_eq_false]
  simp only [Bool.not_eq_true]

section Candidates

variable {candidates : List (Nat × Signature)} (hacyclic : h.Acyclic)
  (hnormal : ∀ c ∈ candidates, c.2.InNormalForm)
include hacyclic hnormal

/-- Of several candidates the one with the least ranks is not beaten. -/
theorem exists_unbeaten (hne : candidates ≠ []) :
    ∃ c ∈ candidates, isUnbeaten h candidates c = true := by
  let rank (c : Nat × Signature) : List Nat := c.2.ranks h (candidates.map Prod.snd)
  have hsome : candidates.argmin rank ≠ none := mt List.argmin_eq_none.mp hne
  obtain ⟨c, hc⟩ := Option.ne_none_iff_exists'.mp hsome
  have hmem := List.argmin_mem hc
  refine ⟨c, hmem, isUnbeaten_iff.mpr fun other hother => ?_⟩
  rw [← Bool.not_eq_true]
  intro hbeats
  refine List.not_lt_of_mem_argmin hother hc ?_
  refine Signature.ranks_lt_of_beats hacyclic ?_ (List.mem_map_of_mem hother)
    (List.mem_map_of_mem hmem) hbeats
  intro s hs
  obtain ⟨c', hc', rfl⟩ := List.mem_map.mp hs
  exact hnormal c' hc'

/-- The first candidate that is not beaten is selected, so there is no need to fall back on
    the first one of all. -/
theorem mostSpecific_eq :
    mostSpecific h candidates = (candidates.find? (isUnbeaten h candidates)).map Prod.fst := by
  cases hfind : candidates.find? (isUnbeaten h candidates) with
  | some c =>
    have hfind' : (candidates.find? fun c => !candidates.any fun other => other.2.beats h c.2) =
      some c := hfind
    rw [mostSpecific, hfind']
    rfl
  | none =>
    have hnone := List.find?_eq_none.mp hfind
    by_cases hne : candidates = []
    · rw [hne]
      rfl
    · obtain ⟨c, hc, hunbeaten⟩ := exists_unbeaten hacyclic hnormal hne
      exact absurd hunbeaten (hnone c hc)

end Candidates

/-! ### Signatures that are not beaten -/

/-- The signatures that admit the arguments, with their places, in the order in which they are
    tried. -/
def admitting (h : Hierarchy) (signatures : List Signature) (args : List Ty) :
    List (Nat × Signature) :=
  (ranked signatures args.length).filter fun c => c.2.accepts h args

theorem mem_admitting_iff {i : Nat} {s : Signature} :
    (i, s) ∈ admitting h signatures args ↔ signatures[i]? = some s ∧ s.Admits h args := by
  rw [admitting, List.mem_filter, mem_ranked_iff, Signature.admits_iff, and_assoc]

/-- The signature at this place admits the arguments, and no other one that does is more
    specific. -/
structure Unbeaten (h : Hierarchy) (signatures : List Signature) (args : List Ty) (i : Nat)
    (s : Signature) : Prop where
  here : signatures[i]? = some s
  admits : s.Admits h args
  unbeaten : ∀ s' ∈ signatures, s'.Admits h args → s'.beats h s = false

theorem unbeaten_iff {i : Nat} {s : Signature} :
    Unbeaten h signatures args i s ↔ (i, s) ∈ admitting h signatures args ∧
      isUnbeaten h (admitting h signatures args) (i, s) = true := by
  rw [mem_admitting_iff, isUnbeaten_iff]
  constructor
  · intro hs
    refine ⟨⟨hs.here, hs.admits⟩, fun other hother => ?_⟩
    obtain ⟨hget, hadmits⟩ := mem_admitting_iff.mp hother
    exact hs.unbeaten _ (List.mem_of_getElem? hget) hadmits
  · rintro ⟨⟨hget, hadmits⟩, hothers⟩
    refine ⟨hget, hadmits, fun s' hs' hadmits' => ?_⟩
    obtain ⟨j, hj⟩ := List.getElem?_of_mem hs'
    exact hothers (j, s') (mem_admitting_iff.mpr ⟨hj, hadmits'⟩)

/-- What is selected for admitted arguments is not beaten. -/
theorem exists_choose (hacyclic : h.Acyclic) (hnormal : ∀ s ∈ signatures, s.InNormalForm)
    (hadmitted : Admitted h signatures args) :
    ∃ i s, choose h (ranked signatures args.length) args = some i ∧
      (admitting h signatures args).find? (isUnbeaten h (admitting h signatures args)) =
        some (i, s) ∧ Unbeaten h signatures args i s := by
  have hcandidates : ∀ c ∈ admitting h signatures args, c.2.InNormalForm := fun c hc =>
    hnormal _ (List.mem_of_getElem? (mem_admitting_iff.mp hc).1)
  obtain ⟨s, hs, hadmits⟩ := hadmitted
  obtain ⟨i, hi⟩ := List.getElem?_of_mem hs
  have hne := List.ne_nil_of_mem (mem_admitting_iff.mpr ⟨hi, hadmits⟩)
  have hfound : ((admitting h signatures args).find?
      (isUnbeaten h (admitting h signatures args))).isSome :=
    List.find?_isSome.mpr (exists_unbeaten hacyclic hcandidates hne)
  obtain ⟨⟨j, s'⟩, hfind⟩ := Option.isSome_iff_exists.mp hfound
  have hunbeaten := unbeaten_iff.mpr ⟨List.mem_of_find?_eq_some hfind, List.find?_some hfind⟩
  refine ⟨j, s', ?_, hfind, hunbeaten⟩
  have hchoose : choose h (ranked signatures args.length) args =
    mostSpecific h (admitting h signatures args) := rfl
  rw [hchoose, mostSpecific_eq hacyclic hcandidates, hfind]
  rfl

/-- The arguments that are instances of classes can be combined in one way. -/
theorem choices_eq_singleton (hconcrete : ∀ t ∈ args, t.IsCon) : choices args = [args] := by
  induction args with
  | nil => rfl
  | cons t ts ih =>
    obtain ⟨ht, hts⟩ := List.forall_mem_cons.mp hconcrete
    rw [choices, ht.members_eq, ih hts]
    rfl

theorem resolve_eq_of_choose (hconcrete : ∀ t ∈ args, t.IsCon)
    (hadmitted : Admitted h signatures args) {i : Nat}
    (hi : choose h (ranked signatures args.length) args = some i) :
    resolve h signatures args = .ok [⟨i, args⟩] := by
  obtain ⟨s, hs, hadmits⟩ := hadmitted
  rw [resolve_of_fits ⟨s, hs, hadmits.fits⟩, choices_eq_singleton hconcrete, matchAll, hi]
  rfl

/-- The candidate of a match is what is selected for its arguments. -/
theorem choose_of_resolve {call : List Ty} {found : List Match}
    (hr : resolve h signatures call = .ok found) {m : Match} (hm : m ∈ found) :
    choose h (ranked signatures m.args.length) m.args = some m.candidate := by
  rcases mem_of_matchAll (resolve_eq_ok hr) m hm with hnil | ⟨hchoice, hchoose⟩
  · cases hnil
  · rw [length_of_mem_choices hchoice]
    exact hchoose

/-! ### Other orders of declaration -/

section Placed

variable {placed : List (Signature × Nat)} (hperm : placed.Perm signatures.zipIdx)
include hperm

theorem mem_map_placed_iff {s : Signature} : s ∈ placed.map Prod.fst ↔ s ∈ signatures := by
  rw [(hperm.map Prod.fst).mem_iff, List.zipIdx_map_fst]

/-- A signature that is not beaten in another order is not beaten at its own place. -/
theorem unbeaten_of_placed {j : Nat} {s : Signature}
    (hs : Unbeaten h (placed.map Prod.fst) args j s) :
    ∃ i, placed[j]? = some (s, i) ∧ Unbeaten h signatures args i s := by
  have hget := hs.here
  rw [List.getElem?_map] at hget
  obtain ⟨⟨s', i⟩, hplaced, rfl⟩ := Option.map_eq_some_iff.mp hget
  have hhere := List.mem_zipIdx_iff_getElem?.mp
    (hperm.mem_iff.mp (List.mem_of_getElem? hplaced))
  exact ⟨i, hplaced, hhere, hs.admits, fun r hr =>
    hs.unbeaten r ((mem_map_placed_iff hperm).mpr hr)⟩

end Placed

/-- Over a hierarchy without cycles, for restrictions in normal form, every combination that
    some signature admits selects a signature that admits it and to which no other one that
    does is more specific.  It is the first such in the order in which the signatures are
    tried, and the same one in every call in which the combination comes up.  If there is only
    one, it is selected in whatever order the signatures are declared. -/
theorem resolve_mostSpecific (hacyclic : h.Acyclic) (hnormal : ∀ s ∈ signatures, s.InNormalForm)
    (hconcrete : ∀ t ∈ args, t.IsCon) (hadmitted : Admitted h signatures args) :
    ∃ i s, resolve h signatures args = .ok [⟨i, args⟩] ∧ Unbeaten h signatures args i s ∧
      (admitting h signatures args).find? (isUnbeaten h (admitting h signatures args)) =
        some (i, s) ∧
      (∀ call found, resolve h signatures call = .ok found → ∀ m ∈ found, m.args = args →
        m.candidate = i) ∧
      ((∀ j s', Unbeaten h signatures args j s' → j = i) →
        ∀ placed : List (Signature × Nat), placed.Perm signatures.zipIdx →
          ∃ j, resolve h (placed.map Prod.fst) args = .ok [⟨j, args⟩] ∧
            placed[j]? = some (s, i)) := by
  obtain ⟨i, s, hchoose, hfind, hunbeaten⟩ := exists_choose hacyclic hnormal hadmitted
  refine ⟨i, s, resolve_eq_of_choose hconcrete hadmitted hchoose, hunbeaten, hfind, ?_, ?_⟩
  · rintro call found hr m hm rfl
    have hsame := (choose_of_resolve hr hm).symm.trans hchoose
    exact Option.some.inj hsame
  · intro honly placed hperm
    have hnormal' : ∀ s' ∈ placed.map Prod.fst, s'.InNormalForm := fun s' hs' =>
      hnormal s' ((mem_map_placed_iff hperm).mp hs')
    have hadmitted' : Admitted h (placed.map Prod.fst) args := by
      obtain ⟨s', hs', hadmits⟩ := hadmitted
      exact ⟨s', (mem_map_placed_iff hperm).mpr hs', hadmits⟩
    obtain ⟨j, s', hchoose', _, hunbeaten'⟩ := exists_choose hacyclic hnormal' hadmitted'
    obtain ⟨k, hplaced, hk⟩ := unbeaten_of_placed hperm hunbeaten'
    refine ⟨j, resolve_eq_of_choose hconcrete hadmitted' hchoose', ?_⟩
    obtain rfl := honly k s' hk
    rw [hplaced, Option.some.inj (hk.here.symm.trans hunbeaten.here)]

/-- Anything can be printed in a given width, a number in its own, and a whole number in any
    width.  The last is more specific than the second, which is more specific than the first,
    but the last and the first are not comparable. -/
def printing : List Signature :=
  [⟨[none, some .int], 1⟩, .exact [some (.con "Number" [])], ⟨[some .int, none], 1⟩]

theorem acyclic_numberClasses : numberClasses.Acyclic :=
  Hierarchy.acyclic_of_rank (fun name => (numberClasses.chain name).length) (by decide +kernel)

/-- A whole number is printed by the last signature, in whatever order they are declared. -/
theorem printing_mostSpecific :
    numberClasses.Acyclic ∧ (∀ s ∈ printing, s.InNormalForm) ∧ (∀ t ∈ [Ty.int], t.IsCon) ∧
      Admitted numberClasses printing [.int] ∧
      Unbeaten numberClasses printing [.int] 2 ⟨[some .int, none], 1⟩ ∧
      ∀ placed : List (Signature × Nat), placed.Perm printing.zipIdx →
        ∃ j, resolve numberClasses (placed.map Prod.fst) [.int] = .ok [⟨j, [.int]⟩] ∧
          placed[j]? = some (⟨[some .int, none], 1⟩, 2) := by
  have hnormal : ∀ s ∈ printing, s.InNormalForm := by decide +kernel
  have hconcrete : ∀ t ∈ [Ty.int], t.IsCon := List.forall_mem_singleton.mpr ⟨"Int", [], rfl⟩
  have hadmitted : Admitted numberClasses printing [.int] :=
    ⟨⟨[some .int, none], 1⟩, by simp [printing], by decide +kernel⟩
  obtain ⟨i, s, hr, hunbeaten, _, _, hplaced⟩ :=
    resolve_mostSpecific acyclic_numberClasses hnormal hconcrete hadmitted
  have hi : i = 2 := by
    have hlast : resolve numberClasses printing [.int] = .ok [⟨2, [.int]⟩] := rfl
    cases hr.symm.trans hlast
    rfl
  subst hi
  cases hunbeaten.here
  refine ⟨acyclic_numberClasses, hnormal, hconcrete, hadmitted, hunbeaten, hplaced ?_⟩
  intro j s hs
  have hbeaten := hs.unbeaten
  match j, hs.here with
  | 0, hhere =>
    cases hhere
    exact absurd (hbeaten (.exact [some (.con "Number" [])]) (by simp [printing])
      (by decide +kernel)) (by decide +kernel)
  | 1, hhere =>
    cases hhere
    exact absurd (hbeaten ⟨[some .int, none], 1⟩ (by simp [printing]) (by decide +kernel))
      (by decide +kernel)
  | 2, _ => rfl

end Overload

end UnionTyping
