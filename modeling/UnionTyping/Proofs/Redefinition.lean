/-
  UnionTyping/Proofs/Redefinition.lean
  ====================================
  **Of the methods of one kind the last can be found, at the place of the first.**

  A method with the owner, the name and the signature of an earlier one takes the place of that
  one.  So whatever is declared in whatever order, the methods that can still be found are the
  last ones of their kind, and they stand in the order of the first ones
  (`Methods.current_addAll`).

  This needs that it makes no difference which of two signatures stands on the left
  (`Method.Comparable`).  It makes none for restrictions in normal form, and without that a
  method can fail to replace one that it is the same as.
-/
import UnionTyping.Proofs.Inference.Reordered
import UnionTyping.Proofs.Overload.MostSpecific

namespace UnionTyping

/-! ### Sameness of signatures -/

namespace Signature

variable {s s' s'' : Signature}

theorem beq_iff : (s == s') = true ↔ (s.params == s'.params) = true ∧ s.required = s'.required := by
  rw [← beq_iff_eq (a := s.required), ← Bool.and_eq_true]
  rfl

theorem restriction_beq_trans {a b c : Option Ty} (hab : (a == b) = true) (hbc : (b == c) = true) :
    (a == c) = true := by
  cases a with
  | none =>
    cases b with
    | none => exact hbc
    | some => cases hab
  | some t =>
    cases b with
    | none => cases hab
    | some t' =>
      cases c with
      | none => cases hbc
      | some t'' =>
        rw [Option.some_beq_some] at hab hbc ⊢
        exact Ty.beq_trans hab hbc

theorem params_beq_trans {as bs cs : List (Option Ty)} (hab : (as == bs) = true)
    (hbc : (bs == cs) = true) : (as == cs) = true := by
  induction as generalizing bs cs with
  | nil =>
    cases bs with
    | nil => exact hbc
    | cons => cases hab
  | cons a as ih =>
    cases bs with
    | nil => cases hab
    | cons b bs =>
      cases cs with
      | nil => cases hbc
      | cons c cs =>
        rw [List.cons_beq_cons, Bool.and_eq_true] at hab hbc ⊢
        constructor
        · exact restriction_beq_trans hab.1 hbc.1
        · exact ih hab.2 hbc.2

theorem beq_trans (h : (s == s') = true) (h' : (s' == s'') = true) : (s == s'') = true := by
  rw [beq_iff] at h h' ⊢
  constructor
  · exact params_beq_trans h.1 h'.1
  · exact h.2.trans h'.2

instance : ReflBEq Signature where
  rfl := beq_iff.mpr ⟨BEq.rfl, rfl⟩

theorem params_beq_comm {as bs : List (Option Ty)} (has : ∀ t, some t ∈ as → t.Normal)
    (hbs : ∀ t, some t ∈ bs → t.Normal) : (as == bs) = (bs == as) := by
  induction as generalizing bs with
  | nil => cases bs <;> rfl
  | cons a as ih =>
    cases bs with
    | nil => rfl
    | cons b bs =>
      have htail : (as == bs) = (bs == as) := by
        apply ih
        · intro t ht
          exact has t (by simp [ht])
        · intro t ht
          exact hbs t (by simp [ht])
      have hhead : (a == b) = (b == a) := by
        cases a with
        | none => cases b <;> rfl
        | some t =>
          cases b with
          | none => rfl
          | some t' =>
            rw [Option.some_beq_some, Option.some_beq_some]
            exact (has t (by simp)).beq_comm (hbs t' (by simp))
      rw [List.cons_beq_cons, List.cons_beq_cons, hhead, htail]

theorem InNormalForm.beq_comm (hs : s.InNormalForm) (hs' : s'.InNormalForm) :
    (s == s') = (s' == s) := by
  rw [Bool.eq_iff_iff, beq_iff, beq_iff, params_beq_comm hs hs', eq_comm (a := s.required)]

end Signature

namespace Method

variable {m m' m'' : Method}

theorem clashes_iff : m.clashes m' = true ↔
    m.owner = m'.owner ∧ m.name = m'.name ∧ (m.signature == m'.signature) = true := by
  simp only [clashes, Bool.and_eq_true, decide_eq_true_eq, beq_iff_eq, and_assoc]

theorem clashes_self (m : Method) : m.clashes m = true :=
  clashes_iff.mpr ⟨rfl, rfl, BEq.rfl⟩

theorem clashes_trans (h : m.clashes m' = true) (h' : m'.clashes m'' = true) :
    m.clashes m'' = true := by
  rw [clashes_iff] at h h' ⊢
  exact ⟨h.1.trans h'.1, h.2.1.trans h'.2.1, Signature.beq_trans h.2.2 h'.2.2⟩

/-- For these methods it makes no difference which of two signatures stands on the left. -/
def Comparable (methods : List Method) : Prop :=
  ∀ m ∈ methods, ∀ m' ∈ methods, (m.signature == m'.signature) = (m'.signature == m.signature)

theorem comparable_of_inNormalForm {methods : List Method}
    (hnormal : ∀ m ∈ methods, m.signature.InNormalForm) : Comparable methods := by
  intro m hm m' hm'
  exact (hnormal m hm).beq_comm (hnormal m' hm')

namespace Comparable

variable {methods : List Method}

theorem clashes_symm (hcomm : Comparable methods) (hm : m ∈ methods) (hm' : m' ∈ methods)
    (h : m.clashes m' = true) : m'.clashes m = true := by
  rw [clashes_iff] at h ⊢
  rw [hcomm m' hm' m hm]
  exact ⟨h.1.symm, h.2.1.symm, h.2.2⟩

theorem of_append {more : List Method} (hcomm : Comparable (methods ++ more)) :
    Comparable methods := by
  intro m hm m' hm'
  exact hcomm m (List.mem_append_left _ hm) m' (List.mem_append_left _ hm')

end Comparable

/-- The place of the first declaration with the owner, the name and the signature of the
    method. -/
def firstPlace (methods : List Method) (m : Method) : Nat :=
  methods.findIdx (·.clashes m)

theorem firstPlace_lt {methods : List Method} (hm : m ∈ methods) :
    firstPlace methods m < methods.length :=
  List.findIdx_lt_length_of_exists ⟨m, hm, clashes_self m⟩

theorem firstPlace_append {methods : List Method} (more : List Method) (hm : m ∈ methods) :
    firstPlace (methods ++ more) m = firstPlace methods m := by
  rw [firstPlace, List.findIdx_append]
  exact if_pos (firstPlace_lt hm)

theorem Comparable.firstPlace_eq {methods : List Method} (hcomm : Comparable methods)
    (hm : m ∈ methods) (hm' : m' ∈ methods) (h : m.clashes m' = true) :
    firstPlace methods m = firstPlace methods m' := by
  have h' := hcomm.clashes_symm hm hm' h
  have hsame : (fun x : Method => x.clashes m) = fun x => x.clashes m' := by
    funext x
    rw [Bool.eq_iff_iff]
    constructor
    · intro hx
      exact clashes_trans hx h
    · intro hx
      exact clashes_trans hx h'
  rw [firstPlace, firstPlace, hsame]

end Method

namespace Methods

open Method (Comparable firstPlace)

/-! ### Taking the place of another -/

theorem supersede_cases (entry : MethodEntry) (es : List MethodEntry) :
    (∃ front e back, es = front ++ e :: back ∧ e.method.clashes entry.method = true ∧
      supersede entry es = front ++ entry :: back) ∨
    (∀ e ∈ es, e.method.clashes entry.method = false) ∧ supersede entry es = es ++ [entry] := by
  induction es with
  | nil => exact .inr ⟨by simp, rfl⟩
  | cons e es ih =>
    by_cases hclash : e.method.clashes entry.method = true
    · refine .inl ⟨[], e, es, rfl, hclash, ?_⟩
      rw [supersede, if_pos hclash, List.nil_append]
    · rw [supersede, if_neg hclash]
      rcases ih with ⟨front, e', back, rfl, hclash', heq⟩ | ⟨hnone, heq⟩
      · exact .inl ⟨e :: front, e', back, rfl, hclash', by rw [heq, List.cons_append]⟩
      · refine .inr ⟨?_, by rw [heq, List.cons_append]⟩
        rw [List.forall_mem_cons]
        exact ⟨Bool.eq_false_of_not_eq_true hclash, hnone⟩

/-- What a method leaves of others that do not clash among each other is what it does not clash
    with. -/
theorem mem_supersede_iff {entry f : MethodEntry} {es : List MethodEntry}
    (hone : es.Pairwise fun e f => e.method.clashes entry.method = true →
      f.method.clashes entry.method = false) :
    f ∈ supersede entry es ↔ f = entry ∨ f ∈ es ∧ f.method.clashes entry.method = false := by
  induction es with
  | nil => simp [supersede]
  | cons e es ih =>
    rw [List.pairwise_cons] at hone
    by_cases hclash : e.method.clashes entry.method = true
    · rw [supersede, if_pos hclash, List.mem_cons, List.mem_cons]
      have hrest : ∀ f ∈ es, f.method.clashes entry.method = false :=
        fun f hf => hone.1 f hf hclash
      constructor
      · rintro (rfl | hf)
        · exact .inl rfl
        · exact .inr ⟨.inr hf, hrest f hf⟩
      · rintro (rfl | ⟨rfl | hf, hfree⟩)
        · exact .inl rfl
        · rw [hclash] at hfree
          cases hfree
        · exact .inr hf
    · rw [supersede, if_neg hclash, List.mem_cons, List.mem_cons, ih hone.2]
      have hfree := Bool.eq_false_of_not_eq_true hclash
      constructor
      · rintro (rfl | rfl | ⟨hf, hfree'⟩)
        · exact .inr ⟨.inl rfl, hfree⟩
        · exact .inl rfl
        · exact .inr ⟨.inr hf, hfree'⟩
      · rintro (rfl | ⟨rfl | hf, hfree'⟩)
        · exact .inr (.inl rfl)
        · exact .inl rfl
        · exact .inr (.inr ⟨hf, hfree'⟩)

/-! ### What can still be found -/

/-- No method behind the place `i` clashes with the method. -/
def IsLast (methods : List Method) (i : Nat) (m : Method) : Prop :=
  ∀ (j : Nat) (m' : Method), i < j → methods[j]? = some m' → m.clashes m' = false

theorem isLast_concat_iff {methods : List Method} {i : Nat} {m x : Method}
    (hi : i < methods.length) :
    IsLast (methods ++ [m]) i x ↔ IsLast methods i x ∧ x.clashes m = false := by
  constructor
  · intro hlast
    constructor
    · intro j m' hj hm'
      have hj' := (List.getElem?_eq_some_iff.mp hm').1
      exact hlast j m' hj (by rw [List.getElem?_append_left hj']; exact hm')
    · exact hlast methods.length m hi (by simp)
  · rintro ⟨hlast, hfree⟩ j m' hj hm'
    rcases Nat.lt_or_ge j methods.length with hlt | hge
    · rw [List.getElem?_append_left hlt] at hm'
      exact hlast j m' hj hm'
    · rw [List.getElem?_append_right hge] at hm'
      obtain rfl := List.mem_singleton.mp (List.mem_of_getElem? hm')
      exact hfree

theorem isLast_concat_length (methods : List Method) (m x : Method) :
    IsLast (methods ++ [m]) methods.length x := by
  intro j m' hj hm'
  have hbound := (List.getElem?_eq_some_iff.mp hm').1
  rw [List.length_append, List.length_singleton] at hbound
  omega

/-- Every method clashes with a last one, itself or one behind it. -/
theorem exists_isLast {methods : List Method} {m : Method} (hm : m ∈ methods) :
    ∃ (i : Nat) (m' : Method), methods[i]? = some m' ∧ m.clashes m' = true ∧
      IsLast methods i m' := by
  induction methods using List.reverseRecOn with
  | nil => cases hm
  | append_singleton methods new ih =>
    by_cases hclash : m.clashes new = true
    · exact ⟨methods.length, new, by simp, hclash, isLast_concat_length methods new new⟩
    · have hold : m ∈ methods := by
        rcases List.mem_append.mp hm with hm | hm
        · exact hm
        · obtain rfl := List.mem_singleton.mp hm
          exact absurd (Method.clashes_self m) hclash
      obtain ⟨i, m', hm', hclash', hlast⟩ := ih hold
      have hi := (List.getElem?_eq_some_iff.mp hm').1
      refine ⟨i, m', by rw [List.getElem?_append_left hi]; exact hm', hclash', ?_⟩
      refine (isLast_concat_iff hi).mpr ⟨hlast, ?_⟩
      by_contra hagain
      exact hclash (Method.clashes_trans hclash' (Bool.eq_true_of_not_eq_false hagain))

/-- The declared methods that can still be found: the last ones of their kind, in the order of
    the first ones. -/
structure Current (methods : List Method) (live : List MethodEntry) : Prop where
  numbered : ∀ e ∈ live, methods[e.id]? = some e.method
  last_iff : ∀ (i : Nat) (m : Method), methods[i]? = some m →
    ((⟨i, m⟩ : MethodEntry) ∈ live ↔ IsLast methods i m)
  ordered : (live.map fun e => firstPlace methods e.method).Pairwise fun a b => a < b

namespace Current

variable {methods : List Method} {live : List MethodEntry} {m : Method}

theorem mem_methods {e : MethodEntry} (h : Current methods live) (he : e ∈ live) :
    e.method ∈ methods :=
  List.mem_of_getElem? (h.numbered e he)

/-- Of two methods that can be found neither replaces the other. -/
theorem apart (h : Current methods live) (hcomm : Comparable methods) :
    live.Pairwise fun e f => e.method.clashes f.method = false := by
  have hordered := List.pairwise_map.mp h.ordered
  apply hordered.imp_of_mem
  intro e f he hf hlt
  by_contra hclash
  have hsame := hcomm.firstPlace_eq (h.mem_methods he) (h.mem_methods hf)
    (Bool.eq_true_of_not_eq_false hclash)
  omega

/-- Every declared method can be found itself or was replaced by one that can. -/
theorem exists_live (h : Current methods live) (hm : m ∈ methods) :
    ∃ e ∈ live, m.clashes e.method = true := by
  obtain ⟨i, m', hm', hclash, hlast⟩ := exists_isLast hm
  exact ⟨⟨i, m'⟩, (h.last_iff i m' hm').mpr hlast, hclash⟩

section

variable (h : Current methods live) (hcomm : Comparable (methods ++ [m]))

include h hcomm

/-- A further method leaves what it does not clash with. -/
theorem mem_add_iff {f : MethodEntry} :
    f ∈ supersede ⟨methods.length, m⟩ live ↔
      f = ⟨methods.length, m⟩ ∨ f ∈ live ∧ f.method.clashes m = false := by
  apply mem_supersede_iff
  apply (h.apart hcomm.of_append).imp_of_mem
  intro e f he hf hapart hclash
  by_contra hclash'
  have hback := hcomm.clashes_symm (List.mem_append_left _ (h.mem_methods hf)) (by simp)
    (Bool.eq_true_of_not_eq_false hclash')
  rw [Method.clashes_trans hclash hback] at hapart
  cases hapart

/-- When nothing that can be found clashes with a further method, it is the first of its
    kind. -/
theorem firstPlace_new (hnone : ∀ e ∈ live, e.method.clashes m = false) :
    firstPlace (methods ++ [m]) m = methods.length := by
  have hnone' : ∀ x ∈ methods, x.clashes m = false := by
    intro x hx
    by_contra hclash
    obtain ⟨e, he, hlive⟩ := h.exists_live hx
    have hback := hcomm.clashes_symm (List.mem_append_left _ hx)
      (List.mem_append_left _ (h.mem_methods he)) hlive
    have hbad := Method.clashes_trans hback (Bool.eq_true_of_not_eq_false hclash)
    rw [hnone e he] at hbad
    cases hbad
  rw [firstPlace, List.findIdx_append, List.findIdx_eq_length_of_false hnone']
  simp [Method.clashes_self]

theorem ordered_add : ((supersede ⟨methods.length, m⟩ live).map fun e =>
    firstPlace (methods ++ [m]) e.method).Pairwise fun a b => a < b := by
  have hplaces : live.map (fun e => firstPlace (methods ++ [m]) e.method) =
      live.map fun e => firstPlace methods e.method :=
    List.map_congr_left fun e he => Method.firstPlace_append [m] (h.mem_methods he)
  rcases supersede_cases ⟨methods.length, m⟩ live with
    ⟨front, e, back, hsplit, hclash, heq⟩ | ⟨hnone, heq⟩
  · -- It stands where the replaced one stood, and the first of both is the same.
    have he : e ∈ live := by simp [hsplit]
    have hsame := hcomm.firstPlace_eq (List.mem_append_left _ (h.mem_methods he)) (by simp) hclash
    have hordered := hplaces ▸ h.ordered
    rw [hsplit, List.map_append, List.map_cons, hsame] at hordered
    rw [heq, List.map_append, List.map_cons]
    exact hordered
  · rw [heq, List.map_append, hplaces, List.map_singleton, h.firstPlace_new hcomm hnone,
      List.pairwise_append]
    refine ⟨h.ordered, List.pairwise_singleton _ _, ?_⟩
    simp only [List.mem_map, List.mem_singleton]
    rintro _ ⟨e, he, rfl⟩ _ rfl
    exact Method.firstPlace_lt (h.mem_methods he)

/-- A further method takes the place of the one that it clashes with, or the last place. -/
theorem add : Current (methods ++ [m]) (supersede ⟨methods.length, m⟩ live) := by
  constructor
  · intro e he
    rcases (h.mem_add_iff hcomm).mp he with rfl | ⟨he, _⟩
    · simp
    · have hnumber := h.numbered e he
      rw [List.getElem?_append_left (List.getElem?_eq_some_iff.mp hnumber).1]
      exact hnumber
  · intro i x hx
    rw [h.mem_add_iff hcomm]
    rcases Nat.lt_or_ge i methods.length with hlt | hge
    · rw [List.getElem?_append_left hlt] at hx
      rw [h.last_iff i x hx, isLast_concat_iff hlt]
      have hother : (⟨i, x⟩ : MethodEntry) ≠ ⟨methods.length, m⟩ := by
        intro heq
        cases heq
        exact Nat.lt_irrefl _ hlt
      exact or_iff_right hother
    · have hbound := (List.getElem?_eq_some_iff.mp hx).1
      rw [List.length_append, List.length_singleton] at hbound
      obtain rfl : i = methods.length := by omega
      obtain rfl : m = x := by simpa using hx
      exact iff_of_true (.inl rfl) (isLast_concat_length methods m m)
  · exact h.ordered_add hcomm

end

end Current

theorem addAll_concat (methods : List Method) (m : Method) :
    (empty.addAll (methods ++ [m])).live =
      supersede ⟨methods.length, m⟩ (empty.addAll methods).live := by
  rw [addAll_append, addAll, addAll, add, declared_addAll]
  rfl

/-- After any declarations the last methods of their kind can be found. -/
theorem current_addAll {methods : List Method} (hcomm : Comparable methods) :
    Current methods (empty.addAll methods).live := by
  induction methods using List.reverseRecOn with
  | nil =>
    constructor
    · simp [empty, addAll]
    · simp
    · simp [empty, addAll]
  | append_singleton methods m ih =>
    rw [addAll_concat]
    exact (ih hcomm.of_append).add hcomm

end Methods

end UnionTyping
