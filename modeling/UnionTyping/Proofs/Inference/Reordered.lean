/-
  UnionTyping/Proofs/Inference/Reordered.lean
  ===========================================
  **The declarations of a program whose methods were moved.**

  What a program declares is read off its items one kind at a time: its classes, its
  libraries, and its methods in a row (`declareMembers_eq_ok_iff`).  Methods with another
  owner or another name do not come into each other's way, so when two groups of such
  methods change places, each owner finds the same methods in the same order, under other
  numbers (`Methods.ownedBy_exchanged`).  Hence an exchange of neighbours leads to an
  environment that differs in its numbers only (`Env.renamed_of_swapped`).
-/
import UnionTyping.Proofs.Inference.Parallel
import UnionTyping.Proofs.Syntax.Rearrangement

namespace UnionTyping

/-! ### Methods in a row -/

def MethodEntry.isOwned (owner : Owner) (name : String) (e : MethodEntry) : Bool :=
  decide (e.method.owner = owner) && e.method.name == name

theorem Method.isOwned_of_clashes {e entry : MethodEntry} (h : e.method.clashes entry.method)
    (owner : Owner) (name : String) : e.isOwned owner name = entry.isOwned owner name := by
  simp only [Method.clashes, Bool.and_eq_true, decide_eq_true_eq, beq_iff_eq] at h
  simp only [MethodEntry.isOwned, h.1.1, h.1.2]

namespace Methods

def addAll (ms : Methods) : List Method → Methods
  | [] => ms
  | m :: rest => (ms.add m).2.addAll rest

theorem addAll_append (ms : Methods) (as bs : List Method) :
    ms.addAll (as ++ bs) = (ms.addAll as).addAll bs := by
  induction as generalizing ms with
  | nil => rfl
  | cons m as ih => exact ih _

theorem declared_addAll (ms : Methods) (methods : List Method) :
    (ms.addAll methods).declared = ms.declared ++ methods := by
  induction methods generalizing ms with
  | nil => exact (List.append_nil _).symm
  | cons m methods ih => rw [addAll, ih, add, List.append_assoc, List.singleton_append]

def entries (n : Nat) : List Method → List MethodEntry
  | [] => []
  | m :: rest => ⟨n, m⟩ :: entries (n + 1) rest

theorem entries_append (n : Nat) (as bs : List Method) :
    entries n (as ++ bs) = entries n as ++ entries (n + as.length) bs := by
  induction as generalizing n with
  | nil => rfl
  | cons m as ih =>
    rw [List.cons_append, entries, ih, List.length_cons, Nat.add_assoc, Nat.add_comm 1]
    rfl

theorem mem_of_mem_entries {n : Nat} {methods : List Method} {e : MethodEntry}
    (h : e ∈ entries n methods) : e.method ∈ methods := by
  induction methods generalizing n with
  | nil => cases h
  | cons m methods ih =>
    rcases List.mem_cons.mp h with rfl | h
    · exact List.mem_cons_self
    · exact List.mem_cons_of_mem _ (ih h)

theorem map_entries {ρ : Renaming} {n n' : Nat} {methods : List Method}
    (h : Shifts ρ.method n n' methods.length) :
    (entries n methods).map (·.rename ρ) = entries n' (methods.map (·.rename ρ.node)) := by
  induction methods generalizing n n' with
  | nil => rfl
  | cons m methods ih =>
    rw [List.length_cons, Nat.add_comm] at h
    rw [entries, List.map_cons, ih h.right, List.map_cons, entries]
    exact congrArg (· :: _) (congrArg (MethodEntry.mk · _) (h.head (by omega)))

/-- A method takes a place only among those with its owner and its name. -/
theorem filter_supersede (entry : MethodEntry) (es : List MethodEntry) (owner : Owner)
    (name : String) :
    (supersede entry es).filter (·.isOwned owner name) =
      if entry.isOwned owner name then supersede entry (es.filter (·.isOwned owner name))
      else es.filter (·.isOwned owner name) := by
  induction es with
  | nil =>
    rw [supersede, List.filter_cons]
    rfl
  | cons e es ih =>
    rw [supersede]
    by_cases hclash : e.method.clashes entry.method
    · have howned := Method.isOwned_of_clashes hclash owner name
      rw [if_pos hclash, List.filter_cons, List.filter_cons, howned]
      split
      · rw [supersede, if_pos hclash]
      · rfl
    · rw [if_neg hclash, List.filter_cons, List.filter_cons, ih]
      split
      · split
        · rw [supersede, if_neg hclash]
        · rfl
      · rfl

theorem ownedBy_addAll (ms : Methods) (methods : List Method) (owner : Owner) (name : String) :
    (ms.addAll methods).ownedBy owner name =
      ((entries ms.declared.length methods).filter (·.isOwned owner name)).foldl
        (fun es entry => supersede entry es) (ms.ownedBy owner name) := by
  induction methods generalizing ms with
  | nil => rfl
  | cons m methods ih =>
    have hlength : (ms.add m).2.declared.length = ms.declared.length + 1 :=
      List.length_append
    have hadd := filter_supersede ⟨ms.declared.length, m⟩ ms.live owner name
    rw [addAll, ih, hlength, entries, List.filter_cons]
    change List.foldl _ ((supersede ⟨ms.declared.length, m⟩ ms.live).filter
      (·.isOwned owner name)) _ = _
    rw [hadd]
    split <;> rfl

theorem supersede_rename (ρ : Renaming) (entry : MethodEntry) (es : List MethodEntry) :
    supersede (entry.rename ρ) (es.map (·.rename ρ)) = (supersede entry es).map (·.rename ρ) := by
  induction es with
  | nil => rfl
  | cons e es ih =>
    have hclash : (e.rename ρ).method.clashes (entry.rename ρ).method =
        e.method.clashes entry.method := rfl
    rw [List.map_cons, supersede, supersede, hclash, ih]
    split <;> rfl

theorem foldl_supersede_rename (ρ : Renaming) (entries es : List MethodEntry) :
    (entries.map (·.rename ρ)).foldl (fun es entry => supersede entry es) (es.map (·.rename ρ)) =
      (entries.foldl (fun es entry => supersede entry es) es).map (·.rename ρ) := by
  induction entries generalizing es with
  | nil => rfl
  | cons entry entries ih =>
    rw [List.map_cons, List.foldl_cons, List.foldl_cons, supersede_rename, ih]

section

variable {as bs : List Method} (front back : List Method) (f : NodeId → NodeId)

/-- Where two groups of methods have changed places, and the nodes have other numbers. -/
def exchanging (front as bs : List Method) (f : NodeId → NodeId) : Renaming :=
  ⟨f, exchange front.length as.length bs.length⟩

/-- When two groups of methods that have no owner with a name in common change places, every
    owner finds the same methods in the same order. -/
theorem ownedBy_exchanged
    (h : ∀ a ∈ as, ∀ b ∈ bs, a.owner = b.owner → a.name ≠ b.name) (owner : Owner) (name : String) :
    (empty.addAll ((front ++ (bs ++ (as ++ back))).map (·.rename f))).ownedBy owner name =
      ((empty.addAll (front ++ (as ++ (bs ++ back)))).ownedBy owner name).map
        (·.rename (exchanging front as bs f)) := by
  let ρ := exchanging front as bs f
  have hblocks : ∀ {m m' : Nat} (group : List Method), Shifts ρ.method m m' group.length →
      (entries m' (group.map (·.rename f))).filter (·.isOwned owner name) =
        ((entries m group).filter (·.isOwned owner name)).map (·.rename ρ) := by
    intro m m' group hshifts
    have hmap : _ = entries m' (group.map (·.rename f)) := map_entries hshifts
    rw [← hmap, List.filter_map]
    rfl
  have hnone : (entries front.length as).filter (·.isOwned owner name) = [] ∨
      (entries (front.length + as.length) bs).filter (·.isOwned owner name) = [] := by
    by_contra hboth
    obtain ⟨hsome, hsome'⟩ := not_or.mp hboth
    obtain ⟨a, ha⟩ := List.exists_mem_of_ne_nil _ hsome
    obtain ⟨b, hb⟩ := List.exists_mem_of_ne_nil _ hsome'
    rw [List.mem_filter, MethodEntry.isOwned, Bool.and_eq_true, decide_eq_true_eq,
      beq_iff_eq] at ha hb
    exact h _ (mem_of_mem_entries ha.1) _ (mem_of_mem_entries hb.1) (ha.2.1.trans hb.2.1.symm)
      (ha.2.2.trans hb.2.2.symm)
  rw [ownedBy_addAll, ownedBy_addAll]
  have hempty : empty.ownedBy owner name = ([] : List MethodEntry).map (·.rename ρ) := rfl
  rw [hempty, ← foldl_supersede_rename ρ]
  congr 1
  have hfront := hblocks front (shifts_before front.length as.length bs.length
    (show 0 + front.length ≤ front.length by omega))
  have has := hblocks as (shifts_first front.length as.length bs.length)
  have hbs := hblocks bs (shifts_second front.length as.length bs.length)
  have hback := hblocks back
    (shifts_after front.length as.length bs.length (Nat.le_refl _) _)
  have hzero : empty.declared.length = 0 := rfl
  simp only [List.map_append, entries_append, List.filter_append, List.length_map, hzero,
    Nat.zero_add]
  rw [hfront, hbs, has, Nat.add_right_comm front.length, hback]
  -- Of the two groups at most one has methods that matter here.
  rcases hnone with hnone | hnone
  · simp only [hnone, List.map_nil, List.nil_append]
  · simp only [hnone, List.map_nil, List.nil_append]

theorem getElem?_exchanged {α : Type} (front as bs back : List α) (i : Nat) :
    (front ++ (bs ++ (as ++ back)))[exchange front.length as.length bs.length i]? =
      (front ++ (as ++ (bs ++ back)))[i]? := by
  unfold exchange
  split
  · grind
  · split
    · grind
    · split
      · grind
      · grind

/-- The methods keep their definitions, under other numbers. -/
theorem get?_exchanged (id : MethodId) :
    (empty.addAll ((front ++ (bs ++ (as ++ back))).map (·.rename f))).get?
        ((exchanging front as bs f).method id) =
      ((empty.addAll (front ++ (as ++ (bs ++ back)))).get? id).map (·.rename f) := by
  rw [get?, get?, declared_addAll, declared_addAll]
  change (List.map _ _)[_]? = Option.map _ (_ : List Method)[id]?
  rw [List.getElem?_map]
  exact congrArg (Option.map _) (getElem?_exchanged front as bs back id)

end

end Methods

/-! ### What items declare -/

namespace Item

def owned (classes : ClassTable) : Item → List (Owner × Def)
  | .method d => [(.topLevel, d)]
  | .classDecl c =>
    match classes.lookup c.name with
    | none => []
    | some id => c.methods.map fun d => (.ofClass id, d)
  | .library _ => []
  | .expr _ => []

def library? : Item → Option LibraryDecl
  | .library l => some l
  | _ => none

def classHead? : Item → Option ClassDecl
  | .classDecl c => some { c with methods := [] }
  | _ => none

def expr? : Item → Option Expr
  | .expr e => some e
  | _ => none

theorem library?_rename (f : NodeId → NodeId) (i : Item) : (i.rename f).library? = i.library? := by
  cases i <;> rfl

theorem classHead?_rename (f : NodeId → NodeId) (i : Item) :
    (i.rename f).classHead? = i.classHead? := by
  cases i <;> rfl

theorem expr?_rename (f : NodeId → NodeId) (i : Item) :
    (i.rename f).expr? = i.expr?.map (·.rename f) := by
  cases i <;> rfl

theorem owned_rename (classes : ClassTable) (f : NodeId → NodeId) (i : Item) :
    (i.rename f).owned classes = (i.owned classes).map fun od => (od.1, od.2.rename f) := by
  cases i with
  | classDecl c =>
    simp only [rename, owned]
    cases classes.lookup c.name with
    | none => rfl
    | some id =>
      change List.map _ (List.map _ c.methods) = List.map _ (List.map _ c.methods)
      rw [List.map_map, List.map_map]
      rfl
  | _ => rfl

/-- Of two items, one of which is a method that does not share its name with the other, no
    owner gets methods of one name. -/
theorem owned_apart {classes : ClassTable} {a b : Item} (h : a.methodName? ≠ b.methodName?) :
    ∀ x ∈ a.owned classes, ∀ y ∈ b.owned classes, x.1 = y.1 → x.2.name ≠ y.2.name := by
  have hclass : ∀ {i : Item}, i.methodName? = none → ∀ x ∈ i.owned classes, x.1 ≠ .topLevel := by
    intro i hi x hx
    cases i with
    | method d => cases hi
    | classDecl c =>
      rw [owned] at hx
      split at hx
      · cases hx
      · obtain ⟨d, -, rfl⟩ := List.mem_map.mp hx
        exact fun howner => nomatch howner
    | library l => cases hx
    | expr e => cases hx
  intro x hx y hy howner hname
  cases a with
  | method d =>
    cases List.mem_singleton.mp hx
    cases b with
    | method d' =>
      cases List.mem_singleton.mp hy
      exact h (congrArg some hname)
    | _ => exact hclass rfl y hy howner.symm
  | _ =>
    cases b with
    | method d' =>
      cases List.mem_singleton.mp hy
      exact hclass rfl x hx howner
    | _ => exact h rfl

end Item

namespace Env

theorem declareClasses_eq (roots : Roots) (classes : ClassTable) (items : List Item) :
    declareClasses roots classes items =
      (items.filterMap Item.classHead?).foldlM (declareClass roots) classes := by
  induction items generalizing classes with
  | nil => rfl
  | cons i items ih =>
    cases i with
    | classDecl c => exact bind_congr fun classes => ih classes
    | _ => exact ih classes

def methodOf (classes : ClassTable) (od : Owner × Def) : Except Diagnostic Method :=
  (signatureOf classes od.2).map fun signature => ⟨od.1, signature, od.2⟩

theorem methodOf_rename (classes : ClassTable) (f : NodeId → NodeId) (od : Owner × Def) :
    methodOf classes (od.1, od.2.rename f) = (methodOf classes od).map (·.rename f) := by
  obtain ⟨owner, d⟩ := od
  have hrequired : (d.rename f).required = d.required := by
    unfold Def.required
    rw [Def.rename, List.countP_map]
    refine List.countP_congr fun p _ => ?_
    rw [Function.comp_apply, Param.rename, Option.isNone_map]
  have hsignature : signatureOf classes (d.rename f) = signatureOf classes d := by
    unfold signatureOf
    rw [hrequired, Def.rename, List.mapM_map]
    rfl
  rw [methodOf, methodOf, hsignature]
  cases signatureOf classes d <;> rfl

/-- Methods are declared one after the other. -/
theorem foldlM_declareMethod (classes : ClassTable) (owner : Owner) (ms : Methods) (ds : List Def) :
    ds.foldlM (declareMethod classes owner) ms =
      ((ds.map fun d => (owner, d)).mapM (methodOf classes)).map ms.addAll := by
  induction ds generalizing ms with
  | nil => rfl
  | cons d ds ih =>
    rw [List.foldlM_cons, List.map_cons, List.mapM_cons, declareMethod, methodOf]
    cases signatureOf classes d with
    | error err => rfl
    | ok signature =>
      change List.foldlM _ (ms.add ⟨owner, signature, d⟩).2 ds = _
      rw [ih]
      change _ = Except.map _ ((List.mapM (methodOf classes) (ds.map fun d => (owner, d))).map _)
      cases List.mapM (methodOf classes) (ds.map fun d => (owner, d)) <;> rfl

theorem declareItem_eq (classes : ClassTable) (ms : Methods) (t : LibraryTable) (i : Item) :
    declareItem classes ms t i = (do
      let methods ← (i.owned classes).mapM (methodOf classes)
      let t ← i.library?.toList.foldlM (declareLibrary classes) t
      return (ms.addAll methods, t)) := by
  cases i with
  | method d =>
    rw [declareItem, declareMethod, Item.owned, List.mapM_cons, methodOf]
    cases signatureOf classes d <;> rfl
  | classDecl c =>
    rw [declareItem, Item.owned]
    cases classes.lookup c.name with
    | none => rfl
    | some id =>
      simp only
      rw [foldlM_declareMethod]
      cases List.mapM (methodOf classes) (c.methods.map fun d => (Owner.ofClass id, d)) <;> rfl
  | library l =>
    rw [declareItem, Item.library?, Option.toList, List.foldlM_cons]
    cases declareLibrary classes t l <;> rfl
  | expr e => rfl

/-- Members are declared one kind at a time. -/
theorem declareMembers_eq_ok_iff {classes : ClassTable} {ms ms' : Methods} {t t' : LibraryTable}
    {items : List Item} : declareMembers classes ms t items = .ok (ms', t') ↔
      ∃ methods, (items.flatMap (·.owned classes)).mapM (methodOf classes) = .ok methods ∧
        ms' = ms.addAll methods ∧
        (items.filterMap Item.library?).foldlM (declareLibrary classes) t = .ok t' := by
  induction items generalizing ms t with
  | nil =>
    constructor
    · intro h
      cases h
      exact ⟨[], rfl, rfl, rfl⟩
    · rintro ⟨methods, hmethods, rfl, ht⟩
      cases hmethods
      cases ht
      rfl
  | cons i items ih =>
    rw [List.filterMap_eq_flatMap_toList] at ih ⊢
    rw [declareMembers, declareItem_eq, List.flatMap_cons, List.flatMap_cons, List.mapM_append,
      List.foldlM_append]
    constructor
    · intro h
      obtain ⟨⟨ms₁, t₁⟩, hitem, hrest⟩ := exists_of_bind_eq_ok h
      obtain ⟨methods, hmethods, hitem⟩ := exists_of_bind_eq_ok hitem
      obtain ⟨t₂, ht, hitem⟩ := exists_of_bind_eq_ok hitem
      cases hitem
      obtain ⟨others, hothers, rfl, ht'⟩ := ih.mp hrest
      refine ⟨methods ++ others, ?_, (Methods.addAll_append _ _ _).symm, ?_⟩
      · rw [hmethods, hothers]
        rfl
      · rw [ht]
        exact ht'
    · rintro ⟨all, hall, rfl, ht'⟩
      obtain ⟨methods, hmethods, hall⟩ := exists_of_bind_eq_ok hall
      obtain ⟨others, hothers, hall⟩ := exists_of_bind_eq_ok hall
      cases hall
      obtain ⟨t₁, ht, ht'⟩ := exists_of_bind_eq_ok ht'
      rw [hmethods, ht]
      exact ih.mpr ⟨others, hothers, Methods.addAll_append _ _ _, ht'⟩

theorem mapM_methodOf_rename (classes : ClassTable) (f : NodeId → NodeId)
    (ods : List (Owner × Def)) :
    (ods.map fun od => (od.1, od.2.rename f)).mapM (methodOf classes) =
      (ods.mapM (methodOf classes)).map (List.map (·.rename f)) := by
  induction ods with
  | nil => rfl
  | cons od ods ih =>
    rw [List.map_cons, List.mapM_cons, List.mapM_cons, methodOf_rename, ih]
    cases methodOf classes od with
    | error err => rfl
    | ok m => cases List.mapM (methodOf classes) ods <;> rfl

theorem mapM_append_eq_ok {ε α β : Type} {f : α → Except ε β} {as bs : List α} {cs : List β}
    (h : (as ++ bs).mapM f = .ok cs) :
    ∃ as' bs', as.mapM f = .ok as' ∧ bs.mapM f = .ok bs' ∧ cs = as' ++ bs' := by
  rw [List.mapM_append] at h
  obtain ⟨as', has, h⟩ := exists_of_bind_eq_ok h
  obtain ⟨bs', hbs, h⟩ := exists_of_bind_eq_ok h
  cases h
  exact ⟨as', bs', has, hbs, rfl⟩

theorem exists_owned {classes : ClassTable} {ods : List (Owner × Def)} {methods : List Method}
    (h : ods.mapM (methodOf classes) = .ok methods) :
    ∀ m ∈ methods, ∃ od ∈ ods, m.owner = od.1 ∧ m.name = od.2.name := by
  intro m hm
  obtain ⟨od, hod, hmethod⟩ := mem_of_mapM_eq_ok h m hm
  rw [methodOf] at hmethod
  cases hsignature : signatureOf classes od.2 with
  | error err =>
    rw [hsignature] at hmethod
    cases hmethod
  | ok signature =>
    rw [hsignature] at hmethod
    cases hmethod
    exact ⟨od, hod, rfl, rfl⟩

/-- Methods of two items that declare no method of one name do not meet. -/
theorem apart_of_owned {classes : ClassTable} {a b : Item} {as bs : List Method}
    (hname : a.methodName? ≠ b.methodName?)
    (has : (a.owned classes).mapM (methodOf classes) = .ok as)
    (hbs : (b.owned classes).mapM (methodOf classes) = .ok bs) :
    ∀ m ∈ as, ∀ m' ∈ bs, m.owner = m'.owner → m.name ≠ m'.name := by
  intro m hm m' hm' howner hsame
  obtain ⟨od, hod, ho, hn⟩ := exists_owned has m hm
  obtain ⟨od', hod', ho', hn'⟩ := exists_owned hbs m' hm'
  exact Item.owned_apart hname od hod od' hod' (ho.symm.trans (howner.trans ho'))
    (hn.symm.trans (hsame.trans hn'))

/-- Renamed items declare the renamed methods. -/
theorem mapM_owned_rename (classes : ClassTable) (f : NodeId → NodeId) (items : List Item) :
    ((items.map (·.rename f)).flatMap (·.owned classes)).mapM (methodOf classes) =
      ((items.flatMap (·.owned classes)).mapM (methodOf classes)).map (List.map (·.rename f)) := by
  rw [← mapM_methodOf_rename, List.flatMap_map, List.map_flatMap]
  exact congrArg _ (List.flatMap_congr fun i _ => i.owned_rename classes f)

theorem topLevel_eq (file : String) (items : List Item) :
    Program.topLevel ⟨file, items⟩ = items.filterMap Item.expr? := by
  refine List.filterMap_congr fun i _ => ?_
  cases i <;> rfl

theorem ofProgram_eq_ok {settings : Settings} {p : Program} {classes : ClassTable}
    {methods : Methods} {libraries : LibraryTable}
    (hclasses : declareClasses ClassTable.empty.addBuiltins.1 ClassTable.empty.addBuiltins.2
      p.items = .ok classes)
    (hmembers : declareMembers classes .empty .empty p.items = .ok (methods, libraries)) :
    ofProgram settings p =
      .ok ⟨settings, classes, classes.hierarchy, libraries, methods, p.topLevel⟩ := by
  have hbind : ∀ {α β : Type} {x : Except Diagnostic α} {f : α → Except Diagnostic β} {a : α},
      x = .ok a → (x >>= f) = f a := fun hx => by
    rw [hx]
    rfl
  exact (hbind hclasses).trans (hbind hmembers)

/-- When neighbours change places and the nodes get other numbers, the declarations are the
    same under other numbers. -/
theorem renamed_of_swapped {settings : Settings} {file : String} {items swapped : List Item}
    (h : Swapped items swapped) (f : NodeId → NodeId) {env : Env}
    (henv : ofProgram settings ⟨file, items⟩ = .ok env) :
    ∃ σ, Function.Injective σ ∧ ∃ env',
      ofProgram settings ⟨file, swapped.map (·.rename f)⟩ = .ok env' ∧
      env'.settings = env.settings ∧ env.Renamed ⟨f, σ⟩ env' := by
  obtain ⟨classes, methods, libraries, hclasses, hmembers, rfl⟩ := exists_of_ofProgram henv
  obtain ⟨declared, hdeclared, rfl, hlibraries⟩ := declareMembers_eq_ok_iff.mp hmembers
  -- Methods have no part in the other declarations, which are therefore read off as before.
  have hheads : (swapped.map (·.rename f)).filterMap Item.classHead? =
      items.filterMap Item.classHead? := by
    rw [List.filterMap_map, ← h.filterMap_eq fun _ => rfl]
    exact List.filterMap_congr fun i _ => i.classHead?_rename f
  have hlibraryDecls : (swapped.map (·.rename f)).filterMap Item.library? =
      items.filterMap Item.library? := by
    rw [List.filterMap_map, ← h.filterMap_eq fun _ => rfl]
    exact List.filterMap_congr fun i _ => i.library?_rename f
  have hexprs : (swapped.map (·.rename f)).filterMap Item.expr? =
      Expr.renameAll f (items.filterMap Item.expr?) := by
    rw [Expr.renameAll_eq_map, List.map_filterMap, List.filterMap_map]
    exact (List.filterMap_congr fun i _ => i.expr?_rename f).trans (h.filterMap_eq fun _ => rfl)
  have hclasses' : declareClasses ClassTable.empty.addBuiltins.1 ClassTable.empty.addBuiltins.2
      (swapped.map (·.rename f)) = .ok classes := by
    rw [declareClasses_eq, hheads, ← declareClasses_eq]
    exact hclasses
  cases h with
  | @intro front back a b hname =>
    rw [List.flatMap_append, List.flatMap_cons, List.flatMap_cons] at hdeclared
    obtain ⟨fronts, _, hfronts, hmiddle, rfl⟩ := mapM_append_eq_ok hdeclared
    obtain ⟨as, _, has, hlast, rfl⟩ := mapM_append_eq_ok hmiddle
    obtain ⟨bs, backs, hbs, hbacks, rfl⟩ := mapM_append_eq_ok hlast
    have hapart := apart_of_owned hname has hbs
    have hdeclared' : (((front ++ b :: a :: back).map (·.rename f)).flatMap
        (·.owned classes)).mapM (methodOf classes) =
          .ok ((fronts ++ (bs ++ (as ++ backs))).map (·.rename f)) := by
      rw [mapM_owned_rename, List.flatMap_append, List.flatMap_cons, List.flatMap_cons,
        List.mapM_append, List.mapM_append, List.mapM_append, hfronts, hbs, has, hbacks]
      rfl
    refine ⟨exchange fronts.length as.length bs.length, exchange_injective _ _ _, _,
      ofProgram_eq_ok hclasses' (declareMembers_eq_ok_iff.mpr
        ⟨_, hdeclared', rfl, hlibraryDecls ▸ hlibraries⟩), rfl, ?_⟩
    exact {
      classes := rfl
      hierarchy := rfl
      libraries := rfl
      ownedBy := Methods.ownedBy_exchanged fronts backs f hapart
      get? := Methods.get?_exchanged fronts backs f
      topLevel := by
        rw [topLevel_eq, topLevel_eq]
        exact hexprs }

end Env

end UnionTyping
