/-
  UnionTyping/Proofs/Classes.lean
  ===============================
  **The class table of a program.**

  In the table of a program no two classes have the same name, and a superclass stands
  before the classes that inherit from it (`ClassTable.Sound`).  The classes of the
  language are such a table and every declaration keeps it one
  (`Env.sound_of_ofProgram`).

  The two ways of walking up agree then: the chain of names in the hierarchy consists of
  the names of the ancestors (`Sound.chain_nameOf`).  And the ancestors of an ancestor are
  the last ones of those of the class itself (`Sound.suffix_ancestors`).
-/
import UnionTyping.Proofs.Inference.Declarations

namespace UnionTyping

namespace ClassTable

variable {t t' : ClassTable} {name : String} {superclass : Option ClassId}
  {fallback id : ClassId} {c : ClassEntry}

theorem lookup_lt (h : t.lookup name = some id) : id < t.classes.length := by
  obtain ⟨c, hc, _⟩ := exists_of_lookup h
  exact (List.getElem?_eq_some_iff.mp hc).1

theorem nameOf_eq (hc : t.classes[id]? = some c) : t.nameOf id = c.name := by
  rw [nameOf, get?, hc]
  rfl

theorem parent?_eq (hc : t.classes[id]? = some c) : t.parent? id = c.superclass := by
  rw [parent?, get?, hc]
  rfl

theorem nameOf_lookup (hid : t.lookup name = some id) : t.nameOf id = name := by
  obtain ⟨c, hc, rfl⟩ := exists_of_lookup hid
  exact nameOf_eq hc

theorem lt_of_parent? {parent : ClassId} (hparent : t.parent? id = some parent) :
    id < t.classes.length := by
  obtain ⟨c, hc, _⟩ := Option.bind_eq_some_iff.mp hparent
  exact (List.getElem?_eq_some_iff.mp hc).1

/-! ### What opening a class does -/

def freshEntry (t : ClassTable) (name : String) (superclass : Option ClassId)
    (fallback : ClassId) : ClassEntry :=
  ⟨name, some (superclass.getD fallback), t.kindOf (superclass.getD fallback), []⟩

inductive Opens (t : ClassTable) (name : String) (superclass : Option ClassId)
    (fallback : ClassId) : Except Problem ClassId × ClassTable → Prop where
  | new (unknown : t.lookup name = none) :
    Opens t name superclass fallback
      (.ok t.classes.length, (t.insert (t.freshEntry name superclass fallback)).2)
  | reopened {id : ClassId} (known : t.lookup name = some id)
      (same : ∀ given, superclass = some given → t.parent? id = some given) :
    Opens t name superclass fallback (.ok id, t)
  | mismatch {id given : ClassId} (known : t.lookup name = some id)
      (explicit : superclass = some given) (other : t.parent? id ≠ some given) :
    Opens t name superclass fallback (.error (.superclassMismatch name (t.nameOf given)
      (((t.parent? id).map t.nameOf).getD "nothing")), t)

/-- What opening a class does: a new name adds a class behind the others, a name that is there
    already answers its class and adds nothing, and a superclass that is not the established
    one fails and adds nothing either. -/
theorem openClass_cases {outcome : Except Problem ClassId × ClassTable}
    (h : t.openClass name superclass fallback = outcome) :
    t.Opens name superclass fallback outcome := by
  subst h
  cases hlookup : t.lookup name with
  | none =>
    simp only [openClass, hlookup]
    exact .new hlookup
  | some id =>
    cases superclass with
    | none =>
      simp only [openClass, hlookup]
      apply Opens.reopened hlookup
      intro given hgiven
      cases hgiven
    | some given =>
      by_cases hsame : t.parent? id = some given
      · simp only [openClass, hlookup, if_pos hsame]
        apply Opens.reopened hlookup
        rintro _ ⟨⟩
        exact hsame
      · simp only [openClass, hlookup, if_neg hsame]
        exact .mismatch hlookup rfl hsame

theorem openClass_of_declare (h : t.declare name superclass fallback = .ok (id, t')) :
    t.openClass name superclass fallback = (.ok id, t') := by
  unfold declare at h
  split at h
  · rename_i hopen
    cases h
    exact hopen
  · cases h

theorem openClass_of_declare_error {problem : Problem}
    (h : t.declare name superclass fallback = .error problem) :
    ∃ t', t.openClass name superclass fallback = (.error problem, t') := by
  unfold declare at h
  split at h
  · cases h
  · rename_i hopen
    cases h
    exact ⟨_, hopen⟩

/-! ### Sound tables -/

/-- Names are not used twice, and superclasses come first. -/
structure Sound (t : ClassTable) : Prop where
  names : (t.classes.map ClassEntry.name).Nodup
  older : ∀ (id : ClassId) (c : ClassEntry) (parent : ClassId), t.classes[id]? = some c →
    c.superclass = some parent → parent < id

namespace Sound

/-- A class is found under its name. -/
theorem lookup_eq (h : t.Sound) (hc : t.classes[id]? = some c) : t.lookup c.name = some id := by
  cases hlookup : t.lookup c.name with
  | none =>
    have hdiffer := lastIdx?_eq_none hlookup c (List.mem_of_getElem? hc)
    rw [BEq.rfl] at hdiffer
    cases hdiffer
  | some j =>
    obtain ⟨c', hc', hname⟩ := exists_of_lookup hlookup
    have hat : (t.classes.map ClassEntry.name)[id]? = (t.classes.map ClassEntry.name)[j]? := by
      rw [List.getElem?_map, List.getElem?_map, hc, hc', Option.map_some, Option.map_some, hname]
    have hlt : id < (t.classes.map ClassEntry.name).length := by
      rw [List.length_map]
      exact (List.getElem?_eq_some_iff.mp hc).1
    rw [(List.getElem?_inj hlt h.names).mp hat]

theorem lookup_nameOf (h : t.Sound) (hid : id < t.classes.length) :
    t.lookup (t.nameOf id) = some id := by
  rw [nameOf_eq (List.getElem?_eq_getElem hid)]
  exact h.lookup_eq (List.getElem?_eq_getElem hid)

theorem parent_lt (h : t.Sound) {parent : ClassId} (hparent : t.parent? id = some parent) :
    parent < id := by
  obtain ⟨c, hc, hsuper⟩ := Option.bind_eq_some_iff.mp hparent
  exact h.older id c parent hc hsuper

/-- A new class is added behind its superclass. -/
theorem insert (h : t.Sound) (hnew : t.lookup c.name = none)
    (hsuper : ∀ parent, c.superclass = some parent → parent < t.classes.length) :
    (t.insert c).2.Sound where
  names := by
    change ((t.classes ++ [c]).map ClassEntry.name).Nodup
    rw [List.map_append, List.map_singleton]
    refine List.nodup_append.mpr ⟨h.names, List.nodup_singleton _, ?_⟩
    rintro _ hmem _ hlast rfl
    obtain ⟨c', hc', hname⟩ := List.mem_map.mp hmem
    have hdiffer := lastIdx?_eq_none hnew c' hc'
    rw [beq_eq_false_iff_ne] at hdiffer
    exact hdiffer (hname.trans (List.mem_singleton.mp hlast))
  older := by
    intro id c' parent hc' hparent
    change (t.classes ++ [c])[id]? = some c' at hc'
    rcases Nat.lt_or_ge id t.classes.length with hlt | hge
    · rw [List.getElem?_append_left hlt] at hc'
      exact h.older id c' parent hc' hparent
    · rw [List.getElem?_append_right hge] at hc'
      have heq : c' = c := (List.mem_singleton.mp (List.mem_of_getElem? hc'))
      rw [heq] at hparent
      exact Nat.lt_of_lt_of_le (hsuper parent hparent) hge

theorem openClass (h : t.Sound)
    (hparent : t.lookup name = none → superclass.getD fallback < t.classes.length)
    {outcome : Except Problem ClassId}
    (hopen : t.openClass name superclass fallback = (outcome, t')) :
    t'.Sound ∧ t.classes.length ≤ t'.classes.length := by
  cases openClass_cases hopen with
  | new hnew =>
    refine ⟨h.insert hnew fun parent hsome => ?_, ?_⟩
    · rw [← Option.some.inj hsome]
      exact hparent hnew
    · change _ ≤ (t.classes ++ [_]).length
      rw [List.length_append]
      exact Nat.le_add_right _ _
  | reopened => exact ⟨h, Nat.le_refl _⟩
  | mismatch => exact ⟨h, Nat.le_refl _⟩

end Sound

theorem mem_openClass {outcome : Except Problem ClassId}
    (hopen : t.openClass name superclass fallback = (outcome, t')) :
    ∀ c ∈ t'.classes, c ∈ t.classes ∨ c.typeParams = [] := by
  cases openClass_cases hopen with
  | new =>
    intro c hc
    refine (List.mem_append.mp hc).imp_right fun hc => ?_
    rw [List.mem_singleton.mp hc]
    rfl
  | reopened => exact fun c hc => Or.inl hc
  | mismatch => exact fun c hc => Or.inl hc

theorem sound_builtins : ClassTable.empty.addBuiltins.2.Sound where
  names := by decide +kernel
  older := by
    have hall : ClassTable.empty.addBuiltins.2.classes.zipIdx.all (fun (c, id) =>
        c.superclass.all fun parent => decide (parent < id)) = true := by decide +kernel
    intro id c parent hc hparent
    have hbelow := List.all_eq_true.mp hall (c, id) (List.mem_zipIdx_iff_getElem?.mpr hc)
    simp only [hparent, Option.all_some, decide_eq_true_iff] at hbelow
    exact hbelow

end ClassTable

namespace Env

theorem sound_declareClass {roots : Roots} {t t' : ClassTable} {decl : ClassDecl} (h : t.Sound)
    (hobject : roots.object < t.classes.length) (hvalue : roots.value < t.classes.length)
    (hdeclare : declareClass roots t decl = .ok t') :
    t'.Sound ∧ t.classes.length ≤ t'.classes.length := by
  obtain ⟨superclass, hsuper, hdeclare⟩ := exists_of_bind_eq_ok hdeclare
  simp only at hdeclare
  split at hdeclare
  · rename_i declared
    cases hdeclare
    refine h.openClass (fun _ => ?_) (ClassTable.openClass_of_declare declared)
    cases href : decl.superclass with
    | none =>
      rw [href] at hsuper
      cases hsuper
      rw [Option.getD_none]
      split
      · exact hvalue
      · exact hobject
    | some ref =>
      rw [href] at hsuper
      obtain ⟨id, hid, hsuper⟩ := exists_of_bind_eq_ok hsuper
      cases hsuper
      rw [superclassId] at hid
      split at hid
      · rename_i hlookup
        cases hid
        exact ClassTable.lookup_lt hlookup
      · cases hid
  · cases hdeclare

theorem sound_declareClasses {roots : Roots} {items : List Item} {t t' : ClassTable} (h : t.Sound)
    (hobject : roots.object < t.classes.length) (hvalue : roots.value < t.classes.length)
    (hdeclare : declareClasses roots t items = .ok t') : t'.Sound := by
  induction items generalizing t with
  | nil =>
    cases hdeclare
    exact h
  | cons item rest ih =>
    cases item with
    | classDecl decl =>
      obtain ⟨t₁, hfirst, hdeclare⟩ := exists_of_bind_eq_ok hdeclare
      obtain ⟨h₁, hle⟩ := sound_declareClass h hobject hvalue hfirst
      exact ih h₁ (Nat.lt_of_lt_of_le hobject hle) (Nat.lt_of_lt_of_le hvalue hle) hdeclare
    | _ => exact ih h hobject hvalue hdeclare

/-- Classes that a program declares have no type parameters. -/
theorem mem_declareClasses {roots : Roots} {items : List Item} {t t' : ClassTable}
    (hdeclare : declareClasses roots t items = .ok t') :
    ∀ c ∈ t'.classes, c ∈ t.classes ∨ c.typeParams = [] := by
  induction items generalizing t with
  | nil =>
    cases hdeclare
    exact fun c hc => Or.inl hc
  | cons item rest ih =>
    cases item with
    | classDecl decl =>
      obtain ⟨t₁, hfirst, hdeclare⟩ := exists_of_bind_eq_ok hdeclare
      obtain ⟨superclass, _, hfirst⟩ := exists_of_bind_eq_ok hfirst
      simp only at hfirst
      split at hfirst
      · rename_i declared
        cases hfirst
        intro c hc
        rcases ih hdeclare c hc with hc | hc
        · exact ClassTable.mem_openClass (ClassTable.openClass_of_declare declared) c hc
        · exact Or.inr hc
      · cases hfirst
    | _ => exact ih hdeclare

/-- The only class with type parameters is that of pointers, which has one. -/
theorem generic_of_ofProgram {settings : Settings} {p : Program} {env : Env}
    (h : ofProgram settings p = .ok env) :
    ∀ c ∈ env.classes.classes, c.typeParams = [] ∨ c.name = "Pointer" ∧ c.typeParams = ["T"] := by
  obtain ⟨classes, methods, libraries, hclasses, _, rfl⟩ := exists_of_ofProgram h
  have hbuiltin : ∀ c ∈ ClassTable.empty.addBuiltins.2.classes,
      c.typeParams = [] ∨ c.name = "Pointer" ∧ c.typeParams = ["T"] := by decide +kernel
  intro c hc
  rcases mem_declareClasses hclasses c hc with hc | hc
  · exact hbuiltin c hc
  · exact Or.inl hc

/-- The classes of a program are a sound table, and the hierarchy is theirs. -/
theorem sound_of_ofProgram {settings : Settings} {p : Program} {env : Env}
    (h : ofProgram settings p = .ok env) :
    env.classes.Sound ∧ env.hierarchy = env.classes.hierarchy := by
  obtain ⟨classes, methods, libraries, hclasses, _, rfl⟩ := exists_of_ofProgram h
  exact ⟨sound_declareClasses ClassTable.sound_builtins (by decide +kernel) (by decide +kernel)
    hclasses, rfl⟩

end Env

/-- A written type with type arguments is that of pointers to one type. -/
theorem Env.pointer_of_typeOf {settings : Settings} {p : Program} {env : Env}
    (h : ofProgram settings p = .ok env) {ref : TypeRef} {name : String} {element : Ty}
    {args : List Ty} (hty : env.classes.typeOf ref = .ok (.con name (element :: args))) :
    Ty.con name (element :: args) = .pointer element := by
  obtain ⟨haccepts, hspelled⟩ := ClassTable.typeOf_eq_ok_iff.mp hty
  obtain ⟨id, info, hid, hget, hcount⟩ := haccepts ref ref.mem_nodes_self
  obtain ⟨written, refs, loc⟩ := ref
  cases refs with
  | nil => cases hspelled
  | cons ref refs =>
    cases hspelled
    obtain ⟨c, hc, hname⟩ := ClassTable.exists_of_lookup hid
    obtain rfl : c = info := Option.some.inj (hc.symm.trans hget)
    have hlength : (ref :: refs).length = c.typeParams.length :=
      hcount.resolve_left (List.cons_ne_nil _ _)
    rcases generic_of_ofProgram h c (List.mem_of_getElem? hc) with hnone | ⟨hpointer, hone⟩
    · simp [hnone] at hlength
    · have hnil : refs = [] := by simpa [hone] using hlength
      have hpointer : name = "Pointer" := hname.symm.trans hpointer
      rw [hnil, hpointer]
      rfl

/-! ### Walking up -/

/-- An entry of a list without repeated keys is found under its key. -/
theorem lookup_eq_some_of_mem {α β : Type} [BEq α] [LawfulBEq α] {l : List (α × β)} {a : α}
    {b : β} (hkeys : (l.map Prod.fst).Nodup) (hmem : (a, b) ∈ l) : l.lookup a = some b := by
  induction l with
  | nil => cases hmem
  | cons p l ih =>
    rw [List.map_cons, List.nodup_cons] at hkeys
    rcases List.mem_cons.mp hmem with rfl | hmem
    · rw [List.lookup_cons, BEq.rfl]
    · have hdiffer : (a == p.1) = false := by
        rw [beq_eq_false_iff_ne]
        rintro rfl
        exact hkeys.1 (List.mem_map.mpr ⟨_, hmem, rfl⟩)
      rw [List.lookup_cons, hdiffer]
      exact ih hkeys.2 hmem

namespace ClassTable

variable {t : ClassTable} {name : String} {id ancestor : ClassId} {c : ClassEntry}

theorem ancestors_of_root (hroot : t.parent? id = none) : t.ancestors id = [id] := by
  rw [ancestors]
  cases t.classes.length with
  | zero => rfl
  | succ n => rw [climb, hroot]

namespace Sound

theorem parent?_nameOf (h : t.Sound) (hid : id < t.classes.length) :
    t.hierarchy.parent? (t.nameOf id) = (t.parent? id).map t.nameOf := by
  have hc : t.classes[id]? = some t.classes[id] := List.getElem?_eq_getElem hid
  have hkeys : (t.hierarchy.entries.map Prod.fst).Nodup := by
    change ((t.classes.reverse.map _).map Prod.fst).Nodup
    rw [List.map_map]
    exact (List.map_reverse ▸ List.nodup_reverse.mpr h.names :)
  have hmem : (t.classes[id].name, t.classes[id].superclass.map t.nameOf) ∈ t.hierarchy.entries :=
    List.mem_map.mpr ⟨_, List.mem_reverse.mpr (List.getElem_mem hid), rfl⟩
  rw [nameOf_eq hc, parent?_eq hc, Hierarchy.parent?, lookup_eq_some_of_mem hkeys hmem]
  rfl

theorem climb_nameOf (h : t.Sound) (steps : Nat) (hid : id < t.classes.length) :
    t.hierarchy.climb steps (t.nameOf id) = (t.climb steps id).map t.nameOf := by
  induction steps generalizing id with
  | zero => rfl
  | succ steps ih =>
    rw [Hierarchy.climb, climb, List.map_cons, h.parent?_nameOf hid]
    cases hparent : t.parent? id with
    | none => rfl
    | some parent => exact congrArg _ (ih (Nat.lt_trans (h.parent_lt hparent) hid))

/-- The chain of a name is that of the ancestors of its class. -/
theorem chain_nameOf (h : t.Sound) (hid : id < t.classes.length) :
    t.hierarchy.chain (t.nameOf id) = (t.ancestors id).map t.nameOf := by
  have hlength : t.hierarchy.entries.length = t.classes.length := by
    change (t.classes.reverse.map _).length = _
    rw [List.length_map, List.length_reverse]
  rw [Hierarchy.chain, hlength]
  exact h.climb_nameOf _ hid

/-- As many steps as there are older classes reach the root. -/
theorem climb_eq (h : t.Sound) {n m : Nat} (hn : id ≤ n) (hm : id ≤ m) :
    t.climb n id = t.climb m id := by
  induction n generalizing id m with
  | zero =>
    cases Nat.le_zero.mp hn
    have hroot : t.parent? 0 = none := by
      cases hparent : t.parent? 0 with
      | none => rfl
      | some parent => exact absurd (h.parent_lt hparent) (Nat.not_lt_zero _)
    cases m with
    | zero => rfl
    | succ m => rw [climb, climb, hroot]
  | succ n ih =>
    cases hparent : t.parent? id with
    | none => cases m <;> simp [climb, hparent]
    | some parent =>
      have hlt := h.parent_lt hparent
      cases m with
      | zero => exact absurd (Nat.lt_of_lt_of_le hlt hm) (Nat.not_lt_zero _)
      | succ m =>
        rw [climb, climb, hparent]
        exact congrArg _ (ih (Nat.le_of_lt_succ (Nat.lt_of_lt_of_le hlt hn))
          (Nat.le_of_lt_succ (Nat.lt_of_lt_of_le hlt hm)))

theorem ancestors_of_parent (h : t.Sound) (hid : id < t.classes.length) {parent : ClassId}
    (hparent : t.parent? id = some parent) : t.ancestors id = id :: t.ancestors parent := by
  obtain ⟨n, hn⟩ := Nat.exists_eq_succ_of_ne_zero (Nat.ne_zero_of_lt hid)
  have hle : parent ≤ n := Nat.le_of_lt_succ (hn ▸ Nat.lt_trans (h.parent_lt hparent) hid)
  rw [ancestors, hn, climb, hparent]
  exact congrArg _ (h.climb_eq hle (hn ▸ Nat.le_succ_of_le hle))

/-- An ancestor is the class itself or one of its superclass. -/
theorem mem_ancestors_cases (h : t.Sound) (hid : id < t.classes.length)
    (hancestor : ancestor ∈ t.ancestors id) :
    ancestor = id ∨ ∃ parent, t.parent? id = some parent ∧ ancestor ∈ t.ancestors parent := by
  cases hparent : t.parent? id with
  | none =>
    rw [ancestors_of_root hparent] at hancestor
    exact .inl (List.mem_singleton.mp hancestor)
  | some parent =>
    rw [h.ancestors_of_parent hid hparent] at hancestor
    exact (List.mem_cons.mp hancestor).imp_right fun hancestor => ⟨parent, rfl, hancestor⟩

/-- The ancestors of an ancestor are the last ones of the class. -/
theorem suffix_ancestors (h : t.Sound) (hid : id < t.classes.length)
    (hancestor : ancestor ∈ t.ancestors id) : t.ancestors ancestor <:+ t.ancestors id := by
  induction id using Nat.strongRecOn with
  | ind id ih =>
    rcases h.mem_ancestors_cases hid hancestor with rfl | ⟨parent, hparent, hancestor⟩
    · exact List.suffix_rfl
    · have hlt := h.parent_lt hparent
      rw [h.ancestors_of_parent hid hparent]
      exact (ih parent hlt (Nat.lt_trans hlt hid) hancestor).trans (List.suffix_cons _ _)

theorem le_of_mem_ancestors (h : t.Sound) (hid : id < t.classes.length)
    (hancestor : ancestor ∈ t.ancestors id) : ancestor ≤ id := by
  induction id using Nat.strongRecOn with
  | ind id ih =>
    rcases h.mem_ancestors_cases hid hancestor with rfl | ⟨parent, hparent, hancestor⟩
    · exact Nat.le_refl _
    · have hlt := h.parent_lt hparent
      exact Nat.le_trans (ih parent hlt (Nat.lt_trans hlt hid) hancestor) (Nat.le_of_lt hlt)

/-- A class inherits from those whose names are on its chain. -/
theorem exists_ancestor_of_isSubclass (h : t.Sound) {sub sup : String}
    (hid : t.lookup sub = some id) (hsub : t.hierarchy.isSubclass sub sup = true) :
    ∃ ancestor ∈ t.ancestors id, t.lookup sup = some ancestor := by
  have hlt := lookup_lt hid
  rw [← nameOf_lookup hid, Hierarchy.isSubclass, h.chain_nameOf hlt, List.contains_iff_mem] at hsub
  obtain ⟨ancestor, hancestor, rfl⟩ := List.mem_map.mp hsub
  have hle := h.le_of_mem_ancestors hlt hancestor
  exact ⟨ancestor, hancestor, h.lookup_nameOf (Nat.lt_of_le_of_lt hle hlt)⟩

end Sound

theorem parent?_of_lookup_eq_none (hid : t.lookup name = none) :
    t.hierarchy.parent? name = none := by
  rw [Hierarchy.parent?, List.lookup_eq_none_iff.mpr]
  · rfl
  · intro p hp
    obtain ⟨c, hc, rfl⟩ := List.mem_map.mp hp
    rw [bne_iff_ne]
    rintro rfl
    have hdiffer := lastIdx?_eq_none hid c (List.mem_reverse.mp hc)
    rw [BEq.rfl] at hdiffer
    cases hdiffer

theorem chain_of_lookup_eq_none (hid : t.lookup name = none) : t.hierarchy.chain name = [name] := by
  rw [Hierarchy.chain]
  cases t.hierarchy.entries.length with
  | zero => rfl
  | succ n => rw [Hierarchy.climb, parent?_of_lookup_eq_none hid]

/-- A class that is not declared is on no chain but its own. -/
theorem eq_of_isSubclass {sub sup : String} (hid : t.lookup sub = none)
    (hsub : t.hierarchy.isSubclass sub sup = true) : sup = sub := by
  rw [Hierarchy.isSubclass, chain_of_lookup_eq_none hid, List.contains_iff_mem,
    List.mem_singleton] at hsub
  exact hsub

end ClassTable

end UnionTyping
