/-
  UnionTyping/Proofs/MethodLookup.lean
  ====================================
  **A class finds the nearest definitions.**

  The methods on instances of a class are those of its ancestors, from the class upwards,
  without the ones whose signature a nearer class uses.  What several owners give together is
  told by the methods that can be found at all (`Methods.Gathered`), and those by the
  declarations, so the methods that are found on a class, and their order, are told by the
  declarations alone (`Methods.lookup_nearest`).

  With a union that lists a member twice a later method can fail to replace one that it is the
  same as, and then both are found (`Methods.repeatedMembers_found`).
-/
import UnionTyping.Proofs.Redefinition

namespace UnionTyping

namespace Methods

open Method (Comparable firstPlace)

/-! ### Going up -/

section

variable {α : Type} [BEq α] [LawfulBEq α] {as : List α} {a b : α}

theorem length_le_idxOf_concat (hb : b ∉ as) : as.length ≤ (as ++ [a]).idxOf b := by
  rw [List.idxOf_append_of_notMem hb]
  exact Nat.le_add_right _ _

/-- What comes before something of the longer list is in the shorter one. -/
theorem mem_of_idxOf_concat_lt (hb : b ∈ as ++ [a]) {c : α}
    (hlt : (as ++ [a]).idxOf c < (as ++ [a]).idxOf b) : c ∈ as := by
  have hbound := List.idxOf_lt_length_of_mem hb
  rw [List.length_append, List.length_singleton] at hbound
  by_contra hc
  have hle := @length_le_idxOf_concat _ _ _ as a c hc
  omega

end

/-- What is new in a list of methods with different signatures. -/
theorem addUnhidden_eq {found es : List MethodEntry}
    (hapart : es.Pairwise fun e f => (e.method.signature == f.method.signature) = false) :
    addUnhidden found es =
      found ++ es.filter fun e => !found.any (·.method.signature == e.method.signature) := by
  induction es generalizing found with
  | nil => simp [addUnhidden]
  | cons e es ih =>
    rw [List.pairwise_cons] at hapart
    rw [addUnhidden, ih hapart.2, List.filter_cons]
    by_cases hhidden : found.any (·.method.signature == e.method.signature) = true
    · simp [hhidden]
    · have hrest : es.filter (fun f => !(found ++ [e]).any fun g =>
            g.method.signature == f.method.signature) =
          es.filter fun f => !found.any fun g => g.method.signature == f.method.signature := by
        apply List.filter_congr
        intro f hf
        simp [hapart.1 f hf]
      rw [if_neg hhidden, hrest, Bool.eq_false_of_not_eq_true hhidden, Bool.not_false, if_pos rfl,
        List.append_assoc, List.singleton_append]

/-- The methods of that name of all the owners, without those whose signature an owner before
    uses. -/
def gather (ms : Methods) (name : String) (owners : List Owner) : List MethodEntry :=
  owners.foldl (fun found owner => addUnhidden found (ms.ownedBy owner name)) []

theorem lookup_eq_gather (ms : Methods) (classes : ClassTable) (id : ClassId) (name : String) :
    ms.lookup classes id name = ms.gather name ((classes.ancestors id).map .ofClass) := by
  rw [gather, List.foldl_map]
  rfl

theorem mem_ownedBy_iff {ms : Methods} {owner : Owner} {name : String} {e : MethodEntry} :
    e ∈ ms.ownedBy owner name ↔ e ∈ ms.live ∧ e.method.owner = owner ∧ e.method.name = name := by
  simp [ownedBy]

/-- What the owners give together, nearest first. -/
structure Gathered (before : MethodEntry → MethodEntry → Prop) (live : List MethodEntry)
    (name : String) (owners : List Owner) (found : List MethodEntry) : Prop where
  mem_iff : ∀ e, e ∈ found ↔ e ∈ live ∧ e.method.name = name ∧ e.method.owner ∈ owners ∧
    ∀ f ∈ live, f.method.name = name → owners.idxOf f.method.owner < owners.idxOf e.method.owner →
      (f.method.signature == e.method.signature) = false
  hides : ∀ e ∈ live, e.method.name = name → e.method.owner ∈ owners →
    ∃ f ∈ found, (f.method.signature == e.method.signature) = true
  apart : found.Pairwise fun e f => (e.method.signature == f.method.signature) = false
  ordered : found.Pairwise fun e f =>
    owners.idxOf e.method.owner < owners.idxOf f.method.owner ∨
      e.method.owner = f.method.owner ∧ before e f

namespace Gathered

variable {before : MethodEntry → MethodEntry → Prop} {live found new : List MethodEntry}
  {name : String} {owners : List Owner} {owner : Owner} {e : MethodEntry}
  (h : Gathered before live name owners found)
  (hnew : ∀ e, e ∈ new ↔ e ∈ live ∧ e.method.owner = owner ∧ e.method.name = name ∧
    ∀ f ∈ found, (f.method.signature == e.method.signature) = false)

include h hnew

/-- What is hidden by nothing belongs to an owner that was not asked before. -/
theorem owner_notMem (he : e ∈ new) : e.method.owner ∉ owners := by
  obtain ⟨hlive, _, hname, hfree⟩ := (hnew e).mp he
  intro hmem
  obtain ⟨f, hf, hsame⟩ := h.hides e hlive hname hmem
  rw [hfree f hf] at hsame
  cases hsame

theorem mem_concat_iff : e ∈ found ++ new ↔
    e ∈ live ∧ e.method.name = name ∧ e.method.owner ∈ owners ++ [owner] ∧
      ∀ f ∈ live, f.method.name = name →
        (owners ++ [owner]).idxOf f.method.owner < (owners ++ [owner]).idxOf e.method.owner →
          (f.method.signature == e.method.signature) = false := by
  rw [List.mem_append]
  constructor
  · rintro (he | he)
    · obtain ⟨hlive, hname, howner, hnone⟩ := (h.mem_iff e).mp he
      have howner' : e.method.owner ∈ owners ++ [owner] := List.mem_append_left _ howner
      refine ⟨hlive, hname, howner', ?_⟩
      intro f hf hname' hlt
      have hmem := mem_of_idxOf_concat_lt howner' hlt
      rw [List.idxOf_append_of_mem howner, List.idxOf_append_of_mem hmem] at hlt
      exact hnone f hf hname' hlt
    · obtain ⟨hlive, howner, hname, hfree⟩ := (hnew e).mp he
      have howner' : e.method.owner ∈ owners ++ [owner] := by simp [howner]
      refine ⟨hlive, hname, howner', ?_⟩
      intro f hf hname' hlt
      by_contra hsame
      obtain ⟨f', hf', hsame'⟩ := h.hides f hf hname' (mem_of_idxOf_concat_lt howner' hlt)
      have htrans := Signature.beq_trans hsame' (Bool.eq_true_of_not_eq_false hsame)
      rw [hfree f' hf'] at htrans
      cases htrans
  · rintro ⟨hlive, hname, howner, hnone⟩
    by_cases hmem : e.method.owner ∈ owners
    · refine .inl ((h.mem_iff e).mpr ⟨hlive, hname, hmem, ?_⟩)
      intro f hf hname' hlt
      have hbound := List.idxOf_lt_length_of_mem hmem
      have hmem' : f.method.owner ∈ owners := List.idxOf_lt_length_iff.mp (by omega)
      apply hnone f hf hname'
      rw [List.idxOf_append_of_mem hmem, List.idxOf_append_of_mem hmem']
      exact hlt
    · have howner' : e.method.owner = owner := by simpa [hmem] using howner
      refine .inr ((hnew e).mpr ⟨hlive, howner', hname, ?_⟩)
      intro f hf
      obtain ⟨hlive', hname', hmem', _⟩ := (h.mem_iff f).mp hf
      apply hnone f hlive' hname'
      rw [List.idxOf_append_of_mem hmem']
      exact Nat.lt_of_lt_of_le (List.idxOf_lt_length_of_mem hmem') (length_le_idxOf_concat hmem)

theorem hides_concat (hlive : e ∈ live) (hname : e.method.name = name)
    (howner : e.method.owner ∈ owners ++ [owner]) :
    ∃ f ∈ found ++ new, (f.method.signature == e.method.signature) = true := by
  by_cases hhidden : ∃ f ∈ found, (f.method.signature == e.method.signature) = true
  · obtain ⟨f, hf, hsame⟩ := hhidden
    exact ⟨f, List.mem_append_left _ hf, hsame⟩
  · refine ⟨e, List.mem_append_right _ ((hnew e).mpr ⟨hlive, ?_, hname, ?_⟩), BEq.rfl⟩
    · by_contra hother
      have hmem : e.method.owner ∈ owners := by simpa [hother] using howner
      exact hhidden (h.hides e hlive hname hmem)
    · intro f hf
      by_contra hsame
      exact hhidden ⟨f, hf, Bool.eq_true_of_not_eq_false hsame⟩

/-- One more owner adds behind the others what those do not hide. -/
theorem concat
    (hapart : new.Pairwise fun e f => (e.method.signature == f.method.signature) = false)
    (hbefore : new.Pairwise before) :
    Gathered before live name (owners ++ [owner]) (found ++ new) := by
  constructor
  · exact fun e => h.mem_concat_iff hnew
  · exact fun e hlive hname howner => h.hides_concat hnew hlive hname howner
  · rw [List.pairwise_append]
    refine ⟨h.apart, hapart, ?_⟩
    intro f hf e he
    exact ((hnew e).mp he).2.2.2 f hf
  · rw [List.pairwise_append]
    refine ⟨?_, ?_, ?_⟩
    · apply h.ordered.imp_of_mem
      intro e f he hf hbelow
      rw [List.idxOf_append_of_mem ((h.mem_iff e).mp he).2.2.1,
        List.idxOf_append_of_mem ((h.mem_iff f).mp hf).2.2.1]
      exact hbelow
    · apply hbefore.imp_of_mem
      intro e f he hf hbelow
      exact .inr ⟨((hnew e).mp he).2.1.trans ((hnew f).mp hf).2.1.symm, hbelow⟩
    · intro f hf e he
      have hmem := ((h.mem_iff f).mp hf).2.2.1
      left
      rw [List.idxOf_append_of_mem hmem]
      exact Nat.lt_of_lt_of_le (List.idxOf_lt_length_of_mem hmem)
        (length_le_idxOf_concat (h.owner_notMem hnew he))

end Gathered

theorem gathered {before : MethodEntry → MethodEntry → Prop} {ms : Methods}
    (hbefore : ms.live.Pairwise before)
    (hlive : ms.live.Pairwise fun e f => e.method.clashes f.method = false) (name : String)
    (owners : List Owner) : Gathered before ms.live name owners (ms.gather name owners) := by
  induction owners using List.reverseRecOn with
  | nil =>
    constructor
    · simp [gather]
    · simp
    · exact List.Pairwise.nil
    · exact List.Pairwise.nil
  | append_singleton owners owner ih =>
    have hapart : (ms.ownedBy owner name).Pairwise fun e f =>
        (e.method.signature == f.method.signature) = false := by
      apply (hlive.filter _).imp_of_mem
      intro e f he hf hfree
      obtain ⟨_, howner, hname⟩ := mem_ownedBy_iff.mp he
      obtain ⟨_, howner', hname'⟩ := mem_ownedBy_iff.mp hf
      simpa [Method.clashes, howner, howner', hname, hname'] using hfree
    have hstep : ms.gather name (owners ++ [owner]) =
        addUnhidden (ms.gather name owners) (ms.ownedBy owner name) := by
      rw [gather, List.foldl_append]
      rfl
    rw [hstep, addUnhidden_eq hapart]
    apply ih.concat
    · simp [mem_ownedBy_iff, and_assoc]
    · exact hapart.filter _
    · exact (hbefore.filter _).filter _

/-! ### What a class finds -/

/-- How far up from the class the owner of the method stands; behind all that are there for one
    that is no ancestor. -/
def distance (classes : ClassTable) (id : ClassId) (m : Method) : Nat :=
  ((classes.ancestors id).map Owner.ofClass).idxOf m.owner

/-- For declarations whose signatures compare alike in both orders, a class finds methods with
    pairwise different signatures.  A method is among them exactly when it has that name, its
    owner is the class or an ancestor, it is the last one with its owner, name and signature, and
    no ancestor that is nearer declares one with the name and an equal signature.  They are
    ordered by the distance of their owner, and within one owner by the first declaration of
    their signature. -/
theorem lookup_nearest {methods : List Method} (hcomm : Comparable methods)
    (classes : ClassTable) (id : ClassId) (name : String) :
    let found := (empty.addAll methods).lookup classes id name
    (∀ e ∈ found, methods[e.id]? = some e.method) ∧
      found.Pairwise (fun e f => (e.method.signature == f.method.signature) = false ∧
        (f.method.signature == e.method.signature) = false) ∧
      (∀ (i : Nat) (m : Method), methods[i]? = some m → (⟨i, m⟩ ∈ found ↔
        m.name = name ∧ (∃ ancestor ∈ classes.ancestors id, m.owner = .ofClass ancestor) ∧
          (∀ (j : Nat) (m' : Method), i < j → methods[j]? = some m' → m.clashes m' = false) ∧
          ∀ m' ∈ methods, m'.name = name → distance classes id m' < distance classes id m →
            (m'.signature == m.signature) = false)) ∧
      found.Pairwise fun e f => distance classes id e.method < distance classes id f.method ∨
        e.method.owner = f.method.owner ∧
          firstPlace methods e.method < firstPlace methods f.method := by
  intro found
  have hcurrent := current_addAll hcomm
  have hgathered := gathered (List.pairwise_map.mp hcurrent.ordered) (hcurrent.apart hcomm) name
    ((classes.ancestors id).map .ofClass)
  rw [← lookup_eq_gather] at hgathered
  have hdeclared : ∀ e ∈ found, methods[e.id]? = some e.method :=
    fun e he => hcurrent.numbered e ((hgathered.mem_iff e).mp he).1
  refine ⟨hdeclared, ?_, ?_, hgathered.ordered⟩
  · apply hgathered.apart.imp_of_mem
    intro e f he hf hapart
    rw [hcomm _ (List.mem_of_getElem? (hdeclared f hf)) _ (List.mem_of_getElem? (hdeclared e he))]
    exact ⟨hapart, hapart⟩
  · intro i m hm
    rw [hgathered.mem_iff, hcurrent.last_iff i m hm]
    have howner : m.owner ∈ (classes.ancestors id).map Owner.ofClass ↔
        ∃ ancestor ∈ classes.ancestors id, m.owner = .ofClass ancestor := by
      simp [eq_comm]
    -- What can be found stands for all that was declared.
    have hnearer : (∀ f ∈ (empty.addAll methods).live, f.method.name = name →
          distance classes id f.method < distance classes id m →
            (f.method.signature == m.signature) = false) ↔
        ∀ m' ∈ methods, m'.name = name → distance classes id m' < distance classes id m →
          (m'.signature == m.signature) = false := by
      constructor
      · intro hlive m' hm' hname hlt
        by_contra hsame
        obtain ⟨f, hf, hclash⟩ := hcurrent.exists_live hm'
        have hback := hcomm.clashes_symm hm' (hcurrent.mem_methods hf) hclash
        obtain ⟨howner', hname', hsame'⟩ := Method.clashes_iff.mp hback
        have hsig := Signature.beq_trans hsame' (Bool.eq_true_of_not_eq_false hsame)
        have hlt' : distance classes id f.method < distance classes id m := by
          rw [distance, howner']
          exact hlt
        rw [hlive f hf (hname'.trans hname) hlt'] at hsig
        cases hsig
      · intro hall f hf
        exact hall f.method (hcurrent.mem_methods hf)
    rw [← hnearer, ← howner]
    constructor
    · rintro ⟨hlast, hname, hmem, hnone⟩
      exact ⟨hname, hmem, hlast, hnone⟩
    · rintro ⟨hname, hmem, hlast, hnone⟩
      exact ⟨hlast, hname, hmem, hnone⟩

def fooBar : ClassTable :=
  ((ClassTable.empty.addBuiltins.2.insert ⟨"Foo", some 0, .reference, []⟩).2.insert
    ⟨"Bar", some 10, .reference, []⟩).2

def taking (owner : ClassId) (params : List (Option Ty)) : Method :=
  ⟨.ofClass owner, .exact params, ⟨"f", [], [], .unplaced⟩⟩

/-- `Foo` declares `f` without parameters and `f` for one `Int | Char`, which it declares again
    for one `Char | Int` after `Bar` has declared `f` without parameters. -/
def overrides : List Method :=
  [taking 10 [], taking 10 [some (.oneOf [.int, .char])], taking 11 [],
    taking 10 [some (.oneOf [.char, .int])]]

/-- `Bar` finds its own method and the second declaration of the other one. -/
theorem overrides_nearest :
    (∀ m ∈ overrides, m.signature.InNormalForm) ∧
      ((empty.addAll overrides).lookup fooBar 11 "f").map (·.id) = [2, 3] ∧
      ((empty.addAll overrides).lookup fooBar 11 "f").Pairwise fun e f =>
        (e.method.signature == f.method.signature) = false ∧
          (f.method.signature == e.method.signature) = false := by
  have hnormal : ∀ m ∈ overrides, m.signature.InNormalForm := by decide +kernel
  have hnearest := lookup_nearest (Method.comparable_of_inNormalForm hnormal) fooBar 11 "f"
  exact ⟨hnormal, by decide +kernel, hnearest.2.1⟩

/-- `Foo` declares `f` for one `Int | Char` and then for one union that lists `Int` twice. -/
def repeatedMembers : List Method :=
  [taking 10 [some (.oneOf [.int, .char])], taking 10 [some (.oneOf [.int, .int])]]

/-- The second union is the same as the first, and not the other way round, so the second method
    does not replace the first one and both are found. -/
theorem repeatedMembers_found :
    ((empty.addAll repeatedMembers).lookup fooBar 10 "f").map (·.id) = [0, 1] ∧
      ∃ e ∈ (empty.addAll repeatedMembers).lookup fooBar 10 "f",
        ∃ f ∈ (empty.addAll repeatedMembers).lookup fooBar 10 "f",
          e.id < f.id ∧ f.method.clashes e.method = true := by
  decide +kernel

end Methods

end UnionTyping
