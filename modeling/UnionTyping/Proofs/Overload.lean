/-
  UnionTyping/Proofs/Overload.lean
  ================================
  **What a successful overload resolution selects.**

  A resolution that succeeds gives one match for each way of choosing a member of
  each argument type, and each match selects a signature that takes that many
  arguments and accepts these (`exists_signature_of_resolve`).  Conversely every
  choice has its match (`exists_match_of_resolve`), so nothing that an argument
  can be is passed over.
-/
import Mathlib.Data.List.Forall2
import UnionTyping.Overload
import UnionTyping.Proofs.Ty.Members

namespace UnionTyping

namespace Overload

variable {h : Hierarchy}

theorem Match.beq_iff {m m' : Match} :
    (m == m') = true ↔ m.candidate = m'.candidate ∧ (m.args == m'.args) = true := by
  have hsplit : (m == m') = (m.candidate == m'.candidate && m.args == m'.args) := rfl
  rw [hsplit, Bool.and_eq_true, beq_iff_eq]

instance : ReflBEq Match where
  rfl := Match.beq_iff.mpr ⟨rfl, BEq.rfl⟩

/-! ### Choosing members -/

/-- A choice takes a member of each type, in order. -/
theorem mem_choices {ts as : List Ty} :
    as ∈ choices ts ↔ List.Forall₂ (fun a t => a ∈ t.members) as ts := by
  induction ts generalizing as with
  | nil => rw [choices, List.mem_singleton, List.forall₂_nil_right_iff]
  | cons t ts ih =>
    simp only [choices, List.mem_flatMap, List.mem_map]
    constructor
    · rintro ⟨m, hm, rest, hrest, rfl⟩
      exact .cons hm (ih.mp hrest)
    · intro hall
      cases hall with
      | cons hm hrest => exact ⟨_, hm, _, ih.mpr hrest, rfl⟩

theorem length_of_mem_choices {ts as : List Ty} (hmem : as ∈ choices ts) :
    as.length = ts.length :=
  (mem_choices.mp hmem).length_eq

theorem exists_members_of_mem_choices {ts as : List Ty} (hmem : as ∈ choices ts) {a : Ty}
    (ha : a ∈ as) : ∃ t ∈ ts, a ∈ t.members := by
  have hall := mem_choices.mp hmem
  induction hall with
  | nil => cases ha
  | @cons b t _ _ hb hrest ih =>
    rcases List.mem_cons.mp ha with rfl | ha
    · exact ⟨t, List.mem_cons_self, hb⟩
    · obtain ⟨t', ht', hat⟩ := ih (mem_choices.mpr hrest) ha
      exact ⟨t', List.mem_cons_of_mem _ ht', hat⟩

/-- Only when some type has no member is there no choice. -/
theorem choices_ne_nil {ts : List Ty} (hall : ∀ t ∈ ts, t.members ≠ []) : choices ts ≠ [] := by
  induction ts with
  | nil => exact List.cons_ne_nil _ _
  | cons t ts ih =>
    obtain ⟨rest, hrest⟩ := List.exists_mem_of_ne_nil _
      (ih fun t ht => hall t (List.mem_cons_of_mem _ ht))
    obtain ⟨m, hm⟩ := List.exists_mem_of_ne_nil _ (hall t List.mem_cons_self)
    refine List.ne_nil_of_mem (a := m :: rest) ?_
    exact mem_choices.mpr (.cons hm (mem_choices.mp hrest))

/-- Types with distinct members are chosen from in distinct ways. -/
theorem pairwise_choices {ts : List Ty} (hdistinct : ∀ t ∈ ts, Ty.Distinct t.members) :
    (choices ts).Pairwise fun as bs => (as == bs) = false := by
  induction ts with
  | nil => exact List.pairwise_singleton _ _
  | cons t ts ih =>
    obtain ⟨ht, hts⟩ := List.forall_mem_cons.mp hdistinct
    rw [choices, List.pairwise_flatMap]
    constructor
    · intro m _
      refine List.pairwise_map.mpr ((ih hts).imp fun hab => ?_)
      rw [List.cons_beq_cons, hab, Bool.and_false]
    · refine ht.imp fun hmm as has bs hbs => ?_
      obtain ⟨as', _, rfl⟩ := List.mem_map.mp has
      obtain ⟨bs', _, rfl⟩ := List.mem_map.mp hbs
      rw [List.cons_beq_cons, hmm, Bool.false_and]

/-! ### Choosing a signature -/

theorem mem_insertRanked {c d : Nat × Signature} {ds : List (Nat × Signature)} :
    d ∈ insertRanked c ds ↔ d = c ∨ d ∈ ds := by
  induction ds with
  | nil => rw [insertRanked, List.mem_cons]
  | cons e es ih =>
    rw [insertRanked]
    split
    · exact List.mem_cons
    · rw [List.mem_cons, List.mem_cons, ih]
      exact or_left_comm

theorem mem_foldr_insertRanked {fitting : List (Signature × Nat)} {i : Nat} {s : Signature} :
    (i, s) ∈ fitting.foldr (fun (s, i) sorted => insertRanked (i, s) sorted) [] ↔
      (s, i) ∈ fitting := by
  induction fitting with
  | nil => simp
  | cons c cs ih =>
    rw [List.foldr_cons, mem_insertRanked, ih, List.mem_cons]
    simp [Prod.ext_iff, and_comm]

/-- The signatures that take so many arguments are ranked, and no others. -/
theorem mem_ranked_iff {signatures : List Signature} {given i : Nat} {s : Signature} :
    (i, s) ∈ ranked signatures given ↔ signatures[i]? = some s ∧ s.takes given = true := by
  rw [ranked, mem_foldr_insertRanked, List.mem_filter, List.mem_zipIdx_iff_getElem?]

theorem mem_of_mostSpecific {candidates : List (Nat × Signature)} {i : Nat}
    (hi : mostSpecific h candidates = some i) : ∃ s, (i, s) ∈ candidates := by
  obtain ⟨⟨j, s⟩, hfound, rfl⟩ := Option.map_eq_some_iff.mp hi
  refine ⟨s, ?_⟩
  cases hfind : candidates.find? fun c => !candidates.any fun other => other.2.beats h c.2 with
  | some c =>
    rw [hfind] at hfound
    cases hfound
    exact List.mem_of_find?_eq_some hfind
  | none =>
    rw [hfind] at hfound
    exact List.mem_of_head? hfound

theorem exists_mostSpecific {candidates : List (Nat × Signature)} (hne : candidates ≠ []) :
    ∃ i, mostSpecific h candidates = some i := by
  obtain ⟨c, cs, rfl⟩ := List.exists_cons_of_ne_nil hne
  unfold mostSpecific
  cases (c :: cs).find? fun c' => !(c :: cs).any fun other => other.2.beats h c'.2 with
  | some d => exact ⟨d.1, rfl⟩
  | none => exact ⟨c.1, rfl⟩

theorem mem_of_choose {order : List (Nat × Signature)} {args : List Ty} {i : Nat}
    (hi : choose h order args = some i) : ∃ s, (i, s) ∈ order ∧ s.accepts h args = true := by
  obtain ⟨s, hs⟩ := mem_of_mostSpecific hi
  obtain ⟨horder, haccepts⟩ := List.mem_filter.mp hs
  exact ⟨s, horder, haccepts⟩

/-- There is something to select as soon as some signature takes the arguments. -/
theorem exists_choose_iff {signatures : List Signature} {given : Nat} {args : List Ty} :
    (∃ i, choose h (ranked signatures given) args = some i) ↔
      ∃ s ∈ signatures, s.takes given = true ∧ s.accepts h args = true := by
  constructor
  · rintro ⟨i, hi⟩
    obtain ⟨s, hmem, haccepts⟩ := mem_of_choose hi
    obtain ⟨hget, htakes⟩ := mem_ranked_iff.mp hmem
    exact ⟨s, List.mem_of_getElem? hget, htakes, haccepts⟩
  · rintro ⟨s, hs, htakes, haccepts⟩
    obtain ⟨i, hget⟩ := List.getElem?_of_mem hs
    have hmem : (i, s) ∈ (ranked signatures given).filter fun c => c.2.accepts h args :=
      List.mem_filter.mpr ⟨mem_ranked_iff.mpr ⟨hget, htakes⟩, haccepts⟩
    exact exists_mostSpecific (List.ne_nil_of_mem hmem)

/-! ### All matches -/

/-- A combination for which matches are collected selects a signature, and the others follow. -/
theorem exists_choose_of_matchAll {order : List (Nat × Signature)} {found result : List Match}
    {args : List Ty} {rest : List (List Ty)}
    (hr : matchAll h order found (args :: rest) = .ok result) :
    ∃ i, choose h order args = some i ∧
      matchAll h order (if found.any (· == ⟨i, args⟩) then found else found ++ [⟨i, args⟩]) rest =
        .ok result := by
  rw [matchAll] at hr
  cases hc : choose h order args with
  | none =>
    rw [hc] at hr
    cases hr
  | some i =>
    rw [hc] at hr
    exact ⟨i, rfl, hr⟩

/-- Each match that is collected stands for a combination. -/
theorem mem_of_matchAll {order : List (Nat × Signature)} {found result : List Match}
    {combos : List (List Ty)} (hr : matchAll h order found combos = .ok result) :
    ∀ m ∈ result, m ∈ found ∨ (m.args ∈ combos ∧ choose h order m.args = some m.candidate) := by
  induction combos generalizing found with
  | nil =>
    cases hr
    exact fun m hm => Or.inl hm
  | cons args rest ih =>
    obtain ⟨i, hi, hrest⟩ := exists_choose_of_matchAll hr
    intro m hm
    rcases ih hrest m hm with hfound | ⟨hargs, hchoose⟩
    · split at hfound
      · exact Or.inl hfound
      · rcases List.mem_append.mp hfound with hfound | hlast
        · exact Or.inl hfound
        · rw [List.mem_singleton.mp hlast]
          exact Or.inr ⟨List.mem_cons_self, hi⟩
    · exact Or.inr ⟨List.mem_cons_of_mem _ hargs, hchoose⟩

theorem prefix_of_matchAll {order : List (Nat × Signature)} {found result : List Match}
    {combos : List (List Ty)} (hr : matchAll h order found combos = .ok result) :
    found <+: result := by
  induction combos generalizing found with
  | nil =>
    cases hr
    exact List.prefix_rfl
  | cons args rest ih =>
    obtain ⟨i, _, hrest⟩ := exists_choose_of_matchAll hr
    refine List.IsPrefix.trans ?_ (ih hrest)
    split
    · exact List.prefix_rfl
    · exact List.prefix_append _ _

/-- Each combination has its match, if only as one that is the same. -/
theorem any_of_matchAll {order : List (Nat × Signature)} {found result : List Match}
    {combos : List (List Ty)} (hr : matchAll h order found combos = .ok result) :
    ∀ args ∈ combos, ∃ i, choose h order args = some i ∧ result.any (· == ⟨i, args⟩) = true := by
  induction combos generalizing found with
  | nil => exact fun args hargs => nomatch hargs
  | cons first rest ih =>
    obtain ⟨i, hi, hrest⟩ := exists_choose_of_matchAll hr
    intro args hargs
    rcases List.mem_cons.mp hargs with rfl | hargs
    · have hany : (if found.any (· == ⟨i, args⟩) then found else found ++ [⟨i, args⟩]).any
          (· == (⟨i, args⟩ : Match)) = true := by
        split
        · assumption
        · rw [List.any_append, List.any_cons, BEq.rfl, Bool.true_or, Bool.or_true]
      obtain ⟨m, hm, hsame⟩ := List.any_eq_true.mp hany
      exact ⟨i, hi, List.any_eq_true.mpr ⟨m, (prefix_of_matchAll hrest).mem hm, hsame⟩⟩
    · exact ih hrest args hargs

/-- Distinct combinations have one match each, in order. -/
theorem map_args_of_matchAll {order : List (Nat × Signature)} {found result : List Match}
    {combos : List (List Ty)} (hr : matchAll h order found combos = .ok result)
    (hdistinct : (found.map Match.args ++ combos).Pairwise fun as bs => (as == bs) = false) :
    result.map Match.args = found.map Match.args ++ combos := by
  induction combos generalizing found with
  | nil =>
    cases hr
    rw [List.append_nil]
  | cons args rest ih =>
    obtain ⟨i, _, hrest⟩ := exists_choose_of_matchAll hr
    have hnew : found.any (· == (⟨i, args⟩ : Match)) = false := by
      rw [List.any_eq_false]
      intro m hm hsame
      have happart := (List.pairwise_append.mp hdistinct).2.2 m.args
        (List.mem_map.mpr ⟨m, hm, rfl⟩) args List.mem_cons_self
      rw [(Match.beq_iff.mp hsame).2] at happart
      cases happart
    rw [hnew, if_neg Bool.false_ne_true] at hrest
    have hnext : (found ++ [(⟨i, args⟩ : Match)]).map Match.args ++ rest =
        found.map Match.args ++ args :: rest := by
      rw [List.map_append, List.append_assoc]
      rfl
    rw [ih hrest (by rw [hnext]; exact hdistinct), hnext]

/-! ### Resolution -/

/-- A resolution succeeds when every choice of members selects a signature. -/
theorem exists_of_matchAll {order : List (Nat × Signature)} {found : List Match}
    {combos : List (List Ty)} (hall : ∀ as ∈ combos, ∃ i, choose h order as = some i) :
    ∃ result, matchAll h order found combos = .ok result := by
  induction combos generalizing found with
  | nil => exact ⟨found, rfl⟩
  | cons as rest ih =>
    obtain ⟨i, hi⟩ := hall as List.mem_cons_self
    rw [matchAll, hi]
    exact ih fun bs hbs => hall bs (List.mem_cons_of_mem _ hbs)

theorem exists_of_resolve {signatures : List Signature} {args : List Ty}
    (harity : requireArity signatures args.length = .ok ())
    (hall : ∀ as ∈ choices args, ∃ i, choose h (ranked signatures args.length) as = some i) :
    ∃ found, resolve h signatures args = .ok found := by
  obtain ⟨found, hfound⟩ := @exists_of_matchAll h _ [] _ hall
  refine ⟨found, ?_⟩
  rw [resolve, harity]
  exact hfound

theorem resolve_eq_ok {signatures : List Signature} {args : List Ty} {found : List Match}
    (hr : resolve h signatures args = .ok found) :
    matchAll h (ranked signatures args.length) [] (choices args) = .ok found := by
  unfold resolve at hr
  cases ha : requireArity signatures args.length with
  | error failure => rw [ha] at hr; cases hr
  | ok _ => rw [ha] at hr; exact hr

/-- A match passes one member of each argument type to a signature that takes so
    many arguments and accepts these. -/
theorem exists_signature_of_resolve {signatures : List Signature} {args : List Ty}
    {found : List Match} (hr : resolve h signatures args = .ok found) {m : Match} (hm : m ∈ found) :
    m.args ∈ choices args ∧ ∃ s, signatures[m.candidate]? = some s ∧
      s.takes args.length = true ∧ s.accepts h m.args = true := by
  rcases mem_of_matchAll (resolve_eq_ok hr) m hm with hnil | ⟨hargs, hchoose⟩
  · cases hnil
  · obtain ⟨s, hmem, haccepts⟩ := mem_of_choose hchoose
    obtain ⟨hget, htakes⟩ := mem_ranked_iff.mp hmem
    exact ⟨hargs, s, hget, htakes, haccepts⟩

/-- Every choice of members has a match. -/
theorem exists_match_of_resolve {signatures : List Signature} {args : List Ty}
    {found : List Match} (hr : resolve h signatures args = .ok found) {choice : List Ty}
    (hchoice : choice ∈ choices args) : ∃ m ∈ found, (m.args == choice) = true := by
  obtain ⟨i, _, hany⟩ := any_of_matchAll (resolve_eq_ok hr) choice hchoice
  obtain ⟨m, hm, hsame⟩ := List.any_eq_true.mp hany
  exact ⟨m, hm, (Match.beq_iff.mp hsame).2⟩

/-- A resolution has one match for each choice of members, in order. -/
theorem map_args_of_resolve {signatures : List Signature} {args : List Ty} {found : List Match}
    (hr : resolve h signatures args = .ok found) (hargs : ∀ t ∈ args, Ty.Distinct t.members) :
    found.map Match.args = choices args :=
  map_args_of_matchAll (resolve_eq_ok hr) (pairwise_choices hargs)

/-- A call can be resolved when some signature takes so many arguments and each choice of
    members is accepted by such a signature. -/
theorem resolves_iff {signatures : List Signature} {args : List Ty} :
    (∃ found, resolve h signatures args = .ok found) ↔
      (∃ s ∈ signatures, s.takes args.length = true) ∧
        ∀ as ∈ choices args, ∃ s ∈ signatures, s.takes args.length = true ∧
          s.accepts h as = true := by
  have harity : requireArity signatures args.length = .ok () ↔
      ∃ s ∈ signatures, s.takes args.length = true := by
    rw [requireArity, ← List.any_eq_true]
    split
    · rename_i hany
      exact ⟨fun _ => hany, fun _ => rfl⟩
    · rename_i hany
      exact ⟨nofun, fun h => absurd h hany⟩
  constructor
  · rintro ⟨found, hr⟩
    refine ⟨harity.mp ?_, fun as has => exists_choose_iff.mp ?_⟩
    · cases ha : requireArity signatures args.length with
      | ok _ => rfl
      | error failure =>
        rw [resolve, ha] at hr
        cases hr
    · obtain ⟨i, hi, _⟩ := any_of_matchAll (resolve_eq_ok hr) as has
      exact ⟨i, hi⟩
  · rintro ⟨htakes, hall⟩
    exact exists_of_resolve (harity.mpr htakes) fun as has => exists_choose_iff.mpr (hall as has)

/-- With more signatures no fewer calls can be resolved. -/
theorem exists_resolve_of_subset {signatures signatures' : List Signature} {args : List Ty}
    (hsub : signatures ⊆ signatures') (hr : ∃ found, resolve h signatures args = .ok found) :
    ∃ found, resolve h signatures' args = .ok found := by
  obtain ⟨⟨s, hs, htakes⟩, hall⟩ := resolves_iff.mp hr
  refine resolves_iff.mpr ⟨⟨s, hsub hs, htakes⟩, fun as has => ?_⟩
  obtain ⟨s', hs', haccepts⟩ := hall as has
  exact ⟨s', hsub hs', haccepts⟩

end Overload

end UnionTyping
