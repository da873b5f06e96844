/-
  UnionTyping/Proofs/Inference/Located.lean
  =========================================
  **Diagnostics point into the program.**

  The location of every diagnostic, and its related location, is one of those that the
  program consists of (`Program.check_located`), hence a line of its file.  What is wrong
  with a declaration is reported at the declaration or at a type written in it
  (`Env.misdeclared_of_ofProgram`).  The locations that come up in a run are those of checked
  nodes and methods: they are reported, handed on as the causes of assignments and new
  instances, and kept on the worklist, and nothing makes up a new one
  (`Engine.Located`).
-/
import UnionTyping.Inference.Outcome
import UnionTyping.Proofs.Classes
import UnionTyping.Proofs.Inference.Kept
import UnionTyping.Proofs.Inference.Stability
import UnionTyping.Proofs.Syntax.Enclosing

namespace UnionTyping

structure Diagnostic.Located (L : Location → Prop) (d : Diagnostic) : Prop where
  location : L d.location
  related : ∀ l, d.related = some l → L l

/-- The diagnostic names one place, and it satisfies `L`. -/
structure Diagnostic.StandsAt (L : Location → Prop) (d : Diagnostic) : Prop where
  location : L d.location
  unrelated : d.related = none

namespace Diagnostic.StandsAt

variable {L L' : Location → Prop} {d : Diagnostic}

theorem mono (hL : ∀ l, L l → L' l) (h : d.StandsAt L) : d.StandsAt L' :=
  ⟨hL _ h.location, h.unrelated⟩

theorem of {problem : Problem} {l : Location} (hl : L l) : (Diagnostic.of problem l).StandsAt L :=
  ⟨hl, rfl⟩

theorem located (h : d.StandsAt L) : d.Located L where
  location := h.location
  related := fun l hl => by
    rw [h.unrelated] at hl
    cases hl

end Diagnostic.StandsAt

/-- The diagnostic is about a declaration, at one place that satisfies `L`. -/
structure Diagnostic.Misdeclared (L : Location → Prop) (d : Diagnostic) : Prop
    extends d.StandsAt L where
  declarative : d.problem.isDeclarative = true

namespace Diagnostic.Misdeclared

variable {L L' : Location → Prop} {d : Diagnostic}

theorem mono (hL : ∀ l, L l → L' l) (h : d.Misdeclared L) : d.Misdeclared L' :=
  ⟨h.toStandsAt.mono hL, h.declarative⟩

theorem of {problem : Problem} {l : Location} (hl : L l) (h : problem.isDeclarative = true) :
    (Diagnostic.of problem l).Misdeclared L :=
  ⟨.of hl, h⟩

end Diagnostic.Misdeclared

/-! ### Declarations -/

section

variable {ε α β : Type}

theorem bind_eq_error {x : Except ε α} {f : α → Except ε β} {err : ε} (h : (x >>= f) = .error err) :
    x = .error err ∨ ∃ a, x = .ok a ∧ f a = .error err := by
  cases x with
  | error err' =>
    cases h
    exact Or.inl rfl
  | ok a => exact Or.inr ⟨a, rfl, h⟩

theorem exists_of_mapM_eq_error {f : α → Except ε β} {as : List α} {err : ε}
    (h : as.mapM f = .error err) : ∃ a ∈ as, f a = .error err := by
  induction as with
  | nil => cases h
  | cons a as ih =>
    rw [List.mapM_cons] at h
    rcases bind_eq_error h with h | ⟨b, _, h⟩
    · exact ⟨a, List.mem_cons_self, h⟩
    · rcases bind_eq_error h with h | ⟨bs, _, h⟩
      · obtain ⟨a', ha', h⟩ := ih h
        exact ⟨a', List.mem_cons_of_mem _ ha', h⟩
      · cases h

theorem exists_of_foldlM_eq_error {f : β → α → Except ε β} {as : List α} {b : β} {err : ε}
    (h : as.foldlM f b = .error err) : ∃ a ∈ as, ∃ b', f b' a = .error err := by
  induction as generalizing b with
  | nil => cases h
  | cons a as ih =>
    rw [List.foldlM_cons] at h
    rcases bind_eq_error h with h | ⟨b₁, _, h⟩
    · exact ⟨a, List.mem_cons_self, b, h⟩
    · obtain ⟨a', ha', b', h⟩ := ih h
      exact ⟨a', List.mem_cons_of_mem _ ha', b', h⟩

theorem exists_of_optionMapM_eq_error {f : α → Except ε β} {o : Option α} {err : ε}
    (h : o.mapM f = .error err) : ∃ a ∈ o, f a = .error err := by
  cases o with
  | none => cases h
  | some a =>
    rcases bind_eq_error h with h | ⟨b, _, h⟩
    · exact ⟨a, rfl, h⟩
    · cases h

end

theorem ClassTable.misdeclared_of_typeOf {classes : ClassTable} {ref : TypeRef} {d : Diagnostic}
    (h : classes.typeOf ref = .error d) : d.Misdeclared (· ∈ ref.locations) :=
  ⟨⟨(location_of_typeOf classes ref h).1, (location_of_typeOf classes ref h).2.1⟩,
    (location_of_typeOf classes ref h).2.2⟩

/-- A class is refused only for its superclass. -/
theorem ClassTable.isDeclarative_of_declare {classes : ClassTable} {name : String}
    {superclass : Option ClassId} {fallback : ClassId} {problem : Problem}
    (h : classes.declare name superclass fallback = .error problem) :
    problem.isDeclarative = true := by
  obtain ⟨classes', hopen⟩ := openClass_of_declare_error h
  cases openClass_cases hopen with
  | mismatch => rfl

namespace Env

theorem misdeclared_of_superclassId {classes : ClassTable} {ref : TypeRef} {d : Diagnostic}
    (h : superclassId classes ref = .error d) : d.Misdeclared (· ∈ ref.locations) := by
  unfold superclassId at h
  split at h
  · cases h
  · cases h
    exact .of ref.loc_mem_locations rfl

theorem misdeclared_of_declareClass {roots : Roots} {classes : ClassTable} {decl : ClassDecl}
    {d : Diagnostic} (h : declareClass roots classes decl = .error d) :
    d.Misdeclared (· ∈ (Item.classDecl decl).locations) := by
  rcases bind_eq_error h with h | ⟨superclass, _, h⟩
  · obtain ⟨ref, href, h⟩ := exists_of_optionMapM_eq_error h
    refine (misdeclared_of_superclassId h).mono fun l hl => ?_
    refine List.mem_append_left _
      (List.mem_cons_of_mem _ (TypeRef.mem_locationsOf.mpr ⟨ref, ?_, hl⟩))
    exact Option.mem_toList.mpr href
  · cases hdeclared : classes.declare decl.name superclass
      (if decl.isStruct then roots.value else roots.object) with
    | ok declared =>
      simp only [hdeclared] at h
      cases h
    | error problem =>
      simp only [hdeclared] at h
      cases h
      exact .of (List.mem_append_left _ List.mem_cons_self)
        (ClassTable.isDeclarative_of_declare hdeclared)

theorem misdeclared_of_declareClasses {roots : Roots} {classes : ClassTable} {items : List Item}
    {d : Diagnostic} (h : declareClasses roots classes items = .error d) :
    d.Misdeclared (· ∈ items.flatMap Item.locations) := by
  induction items generalizing classes with
  | nil => cases h
  | cons item rest ih =>
    have hlater : ∀ {classes}, declareClasses roots classes rest = .error d →
        d.Misdeclared (· ∈ (item :: rest).flatMap Item.locations) := fun h =>
      (ih h).mono fun l hl => List.mem_append_right _ hl
    cases item with
    | classDecl decl =>
      rcases bind_eq_error h with h | ⟨classes', _, h⟩
      · exact (misdeclared_of_declareClass h).mono fun l hl => List.mem_append_left _ hl
      · exact hlater h
    | method _ => exact hlater h
    | library _ => exact hlater h
    | expr _ => exact hlater h

theorem misdeclared_of_declareMethod {classes : ClassTable} {owner : Owner} {methods : Methods}
    {decl : Def} {d : Diagnostic} (h : declareMethod classes owner methods decl = .error d) :
    d.Misdeclared (· ∈ decl.locations) := by
  rcases bind_eq_error h with h | ⟨signature, _, h⟩
  · rcases bind_eq_error h with h | ⟨params, _, h⟩
    · obtain ⟨p, hp, h⟩ := exists_of_mapM_eq_error h
      obtain ⟨ref, href, h⟩ := exists_of_optionMapM_eq_error h
      refine (ClassTable.misdeclared_of_typeOf h).mono fun l hl => ?_
      refine Def.mem_locations.mpr
        (Or.inr (Or.inl ⟨p, hp, TypeRef.mem_locationsOf.mpr ⟨ref, ?_, hl⟩⟩))
      exact Option.mem_toList.mpr href
    · cases h
  · cases h

theorem misdeclared_of_nativeFunction {classes : ClassTable} {decl : FunctionDecl} {d : Diagnostic}
    (h : nativeFunction classes decl = .error d) : d.Misdeclared (· ∈ decl.locations) := by
  rcases bind_eq_error h with h | ⟨params, _, h⟩
  · obtain ⟨p, hp, h⟩ := exists_of_mapM_eq_error h
    rcases bind_eq_error h with h | ⟨ty, _, h⟩
    · refine (ClassTable.misdeclared_of_typeOf h).mono fun l hl => ?_
      refine List.mem_append_left _
        (List.mem_cons_of_mem _ (TypeRef.mem_locationsOf.mpr ⟨p.ty, ?_, hl⟩))
      exact List.mem_map_of_mem hp
    · cases h
  · rcases bind_eq_error h with h | ⟨ret, _, h⟩
    · obtain ⟨ref, href, h⟩ := exists_of_optionMapM_eq_error h
      refine (ClassTable.misdeclared_of_typeOf h).mono fun l hl => ?_
      refine List.mem_append_right _ (TypeRef.mem_locationsOf.mpr ⟨ref, ?_, hl⟩)
      exact Option.mem_toList.mpr href
    · cases h

theorem misdeclared_of_declareItem {classes : ClassTable} {methods : Methods}
    {libraries : LibraryTable}
    {item : Item} {d : Diagnostic} (h : declareItem classes methods libraries item = .error d) :
    d.Misdeclared (· ∈ item.locations) := by
  cases item with
  | method decl =>
    rcases bind_eq_error h with h | ⟨_, _, h⟩
    · exact misdeclared_of_declareMethod h
    · cases h
  | classDecl decl =>
    rw [declareItem] at h
    split at h
    · cases h
    · rcases bind_eq_error h with h | ⟨_, _, h⟩
      · obtain ⟨m, hm, _, h⟩ := exists_of_foldlM_eq_error h
        refine (misdeclared_of_declareMethod h).mono fun l hl => ?_
        exact List.mem_append_right _ (List.mem_flatMap.mpr ⟨m, hm, hl⟩)
      · cases h
  | library decl =>
    rcases bind_eq_error h with h | ⟨_, _, h⟩
    · obtain ⟨f, hf, _, h⟩ := exists_of_foldlM_eq_error h
      rcases bind_eq_error h with h | ⟨_, _, h⟩
      · refine (misdeclared_of_nativeFunction h).mono fun l hl => ?_
        exact List.mem_cons_of_mem _ (List.mem_flatMap.mpr ⟨f, hf, hl⟩)
      · cases h
    · cases h
  | expr _ => cases h

theorem misdeclared_of_declareMembers {classes : ClassTable} {methods : Methods}
    {libraries : LibraryTable} {items : List Item} {d : Diagnostic}
    (h : declareMembers classes methods libraries items = .error d) :
    d.Misdeclared (· ∈ items.flatMap Item.locations) := by
  induction items generalizing methods libraries with
  | nil => cases h
  | cons item rest ih =>
    rcases bind_eq_error h with h | ⟨_, _, h⟩
    · exact (misdeclared_of_declareItem h).mono fun l hl => List.mem_append_left _ hl
    · exact (ih h).mono fun l hl => List.mem_append_right _ hl

/-- What is wrong with a declaration is reported in it, as such. -/
theorem misdeclared_of_ofProgram {settings : Settings} {p : Program} {d : Diagnostic}
    (h : ofProgram settings p = .error d) : d.Misdeclared (· ∈ p.locations) := by
  rcases bind_eq_error h with h | ⟨classes, _, h⟩
  · exact misdeclared_of_declareClasses h
  · rcases bind_eq_error h with h | ⟨_, _, h⟩
    · exact misdeclared_of_declareMembers h
    · cases h

theorem standsAt_of_ofProgram {settings : Settings} {p : Program} {d : Diagnostic}
    (h : ofProgram settings p = .error d) : d.StandsAt (· ∈ p.locations) :=
  (misdeclared_of_ofProgram h).toStandsAt

/-- What is checked stands in the program. -/
theorem standAt_of_ofProgram {settings : Settings} {p : Program} {env : Env}
    (h : ofProgram settings p = .ok env) : env.StandAt (· ∈ p.locations) where
  topLevel := by
    intro n hn l hl
    rw [topLevel_of_ofProgram h] at hn
    obtain ⟨e, he, hn⟩ := Expr.mem_nodesOf_iff.mp hn
    refine List.mem_flatMap.mpr ⟨_, Program.mem_topLevel.mp he, ?_⟩
    exact Expr.mem_locationsOf.mpr
      ⟨n, Expr.mem_nodesOf_iff.mpr ⟨e, List.mem_singleton_self e, hn⟩, hl⟩
  methods := by
    intro m hm
    obtain ⟨id, hid⟩ := List.mem_iff_getElem?.mp hm
    obtain ⟨i, hi, hdef⟩ := exists_item_of_get? h hid
    have hmem : ∀ l ∈ m.definition.locations, l ∈ p.locations := by
      intro l hl
      refine List.mem_flatMap.mpr ⟨i, hi, ?_⟩
      cases i with
      | method d =>
        rw [List.mem_singleton.mp hdef] at hl
        exact hl
      | classDecl c => exact List.mem_append_right _ (List.mem_flatMap.mpr ⟨_, hdef, hl⟩)
      | library | expr => cases hdef
    refine ⟨hmem _ (Def.mem_locations.mpr (Or.inl rfl)), fun n hn l hl => hmem l ?_⟩
    exact Def.mem_locations.mpr (Or.inr (Or.inr (Expr.mem_locationsOf.mpr ⟨n, hn, hl⟩)))

end Env

/-! ### The state of a run -/

/-- The locations that a state goes back to satisfy `L`: the causes on the worklist and
    those in the diagnostics. -/
structure Engine.Located (L : Location → Prop) (e : Engine) : Prop where
  queue : ∀ i ∈ e.store.queue, ∀ l, i.cause = some l → L l
  reports : ∀ u ∈ e.units, ∀ d ∈ u.diagnostics, d.Located L

section

variable {env : Env} {L : Location → Prop}

theorem Worklist.forall_enqueue {P : Pending → Prop} {w : Worklist} (h : ∀ i ∈ w, P i)
    {unit : UnitId}
    {cause : Option Location} (hP : P ⟨unit, cause⟩) : ∀ i ∈ w.enqueue unit cause, P i := by
  unfold Worklist.enqueue
  split
  · exact h
  · exact List.forall_mem_append.mpr ⟨h, List.forall_mem_singleton.mpr hP⟩

theorem Worklist.forall_enqueueAll {P : Pending → Prop} {w : Worklist} (h : ∀ i ∈ w, P i)
    {cause : Option Location} {units : List UnitId} (hP : ∀ unit ∈ units, P ⟨unit, cause⟩) :
    ∀ i ∈ w.enqueueAll units cause, P i := by
  induction units generalizing w with
  | nil => exact h
  | cons unit units ih =>
    obtain ⟨hunit, hunits⟩ := List.forall_mem_cons.mp hP
    exact ih (forall_enqueue h hunit) hunits

namespace Engine.Located

variable {e : Engine}

theorem start : Engine.start.Located L where
  queue := List.forall_mem_nil _
  reports := List.forall_mem_singleton.mpr (List.forall_mem_nil _)

theorem count (h : e.Located L) : e.count.Located L := ⟨h.queue, h.reports⟩

theorem add (h : e.Located L) (key : Instantiation) : (e.add key).Located L where
  queue := h.queue
  reports := by
    exact List.forall_mem_append.mpr
      ⟨h.reports, List.forall_mem_singleton.mpr (List.forall_mem_nil _)⟩

theorem record (h : e.Located L) {walk : Walk} (hwalk : ∀ d ∈ walk.diagnostics, d.Located L)
    (unit : UnitId) (result : Ty) : (e.record unit walk result).Located L :=
  ⟨h.queue, Store.forall_mem_modify h.reports fun _ _ => hwalk⟩

theorem withQueue (h : e.Located L) {queue : Worklist}
    (hqueue : ∀ i ∈ queue, ∀ l, i.cause = some l → L l) : (e.withQueue queue).Located L :=
  ⟨hqueue, h.reports⟩

theorem sealed (h : e.Located L) : e.sealed.Located L :=
  ⟨Worklist.forall_enqueueAll h.queue nofun, h.reports⟩

end Engine.Located

/-! ### Checks and runs -/

def Engine.KeepsLocated (L : Location → Prop) (x : EngineM Unit) : Prop :=
  ∀ e e', e.Located L → runEngine x e = (.ok (), e') → e'.Located L

theorem keeping_located {c : Checking} (hcause : ∀ l, c.cause = some l → L l)
    (hbegin : ∀ unit loc, L loc → Engine.KeepsLocated L (c.begin unit loc)) :
    c.Keeping (fun _ => True) L fun w e => e.Located L ∧ ∀ d ∈ w.diagnostics, d.Located L where
  walk := fun hsame hI => ⟨hI.1, hsame ▸ hI.2⟩
  bindings := fun _ hI => ⟨⟨hI.1.queue, hI.1.reports⟩, hI.2⟩
  fail := fun hl hI => by
    refine ⟨hI.1, List.forall_mem_append.mpr ⟨hI.2, List.forall_mem_singleton.mpr ⟨hl, ?_⟩⟩⟩
    intro l hrelated
    dsimp only at hrelated
    split at hrelated
    · exact hcause l hrelated
    · cases hrelated
  assign := fun {_ _ site} hl hI readers => by
    refine ⟨hI.1.withQueue
      (Worklist.forall_enqueueAll hI.1.queue fun _ _ l hcaused => ?_), hI.2⟩
    cases hcaused
    cases hc : c.cause with
    | none => exact hl
    | some l => exact hcause l hc
  begin := fun {_ e site key r e'} hl hI hr => by
    refine ⟨fun _ _ => trivial, fun hok => ⟨?_, hI.2⟩⟩
    subst hok
    refine hbegin _ _ ?_ _ _ (hI.1.add key) hr
    cases hc : c.cause with
    | none => exact hl
    | some l => exact hcause l hc

theorem located_checkOnce (hv : env.StandAt L) {begin : Engine.Begin} {recheck : Bool}
    (hbegin : ∀ unit loc, L loc → Engine.KeepsLocated L (begin recheck unit loc)) (unit : UnitId)
    {cause : Option Location} (hcause : ∀ l, cause = some l → L l) :
    Engine.KeepsLocated L (Engine.checkOnce env begin unit cause recheck) := by
  intro e e' h hr
  obtain ⟨_, result, walk, e₁, hbody, rfl⟩ := exists_unitBody_of_checkOnce hr
  have hkeeping := keeping_located (c := e.checkingOf env begin unit cause recheck) hcause hbegin
  obtain ⟨hlocated, hwalk⟩ := (hkeeping.unitBody hv (e.keyOf unit)
    ⟨h.count, List.forall_mem_nil _⟩ hbody).2 result walk rfl
  exact hlocated.record hwalk unit result

theorem located_nestedBegin (hv : env.StandAt L) (depth : Nat) (recheck : Bool) (unit : UnitId)
    (loc : Location) (hl : L loc) :
    Engine.KeepsLocated L (Engine.nestedBegin env depth recheck unit loc) := by
  have hcause : ∀ l, some loc = some l → L l := fun l hsome => Option.some.inj hsome ▸ hl
  induction depth generalizing unit loc with
  | zero =>
    intro e e' h hr
    cases hr
    exact h.withQueue (Worklist.forall_enqueue h.queue hcause)
  | succ depth ih =>
    change Engine.KeepsLocated L (Engine.checkNested env depth unit (some loc) recheck)
    rw [Engine.checkNested_eq]
    refine located_checkOnce hv (fun unit loc hl => ?_) unit hcause
    exact ih unit loc hl fun l hsome => Option.some.inj hsome ▸ hl

theorem located_checkNested (hv : env.StandAt L) (depth : Nat) (unit : UnitId)
    {cause : Option Location} (hcause : ∀ l, cause = some l → L l) (recheck : Bool) :
    Engine.KeepsLocated L (Engine.checkNested env depth unit cause recheck) := by
  rw [Engine.checkNested_eq]
  exact located_checkOnce hv (located_nestedBegin hv depth recheck) unit hcause

theorem located_nextUnit {e e' : Engine} (h : e.Located L) {o : Option Pending}
    (hr : runEngine Engine.nextUnit e = (.ok o, e')) :
    e'.Located L ∧ ∀ i ∈ o, ∀ l, i.cause = some l → L l := by
  -- a unit that is taken off the worklist was on it
  have hpop : ∀ {e : Engine} {next : Pending} {rest : Worklist}, e.Located L →
      e.store.queue = next :: rest →
      (e.withQueue rest).Located L ∧ ∀ i ∈ some next, ∀ l, i.cause = some l → L l := by
    intro e next rest h hq
    obtain ⟨hnext, hrest⟩ := List.forall_mem_cons.mp (hq ▸ h.queue)
    exact ⟨h.withQueue hrest, fun i hi => Option.some.inj hi ▸ hnext⟩
  cases Engine.chooses_iff.mpr hr with
  | waiting hq => exact hpop h hq
  | problem => exact ⟨h, fun _ hi => nomatch hi⟩
  | woken _ _ hqs => exact hpop h.sealed hqs
  | fed => exact ⟨h.sealed, fun _ hi => nomatch hi⟩

theorem located_settle (hv : env.StandAt L) (rounds : Nat) :
    Engine.KeepsLocated L (Engine.settle env rounds) := by
  induction rounds with
  | zero =>
    intro e e' _ hr
    cases hr
  | succ rounds ih =>
    intro e e' h hr
    rcases settle_ok_cases hr with hnext | ⟨next, e₁, e₂, hnext, hcheck, hrest⟩
    · exact (located_nextUnit h hnext).1
    · obtain ⟨h₁, hcause⟩ := located_nextUnit h hnext
      exact ih _ _ (located_checkNested hv _ _ (hcause next rfl) _ _ _ h₁ hcheck) hrest

/-- All locations in the state at the end of a run are those of what is checked. -/
theorem located_final (hv : env.StandAt L) {e : Engine} (hr : Engine.final env = (.ok (), e)) :
    e.Located L := by
  obtain ⟨e₁, hcheck, hsettle⟩ := exists_settle_of_runAll hr
  have htop :=
    located_checkNested hv _ topUnit (fun _ hcause => by cases hcause) _ _ _ .start hcheck
  exact located_settle hv _ _ _ htop hsettle

end

/-! ### Answers -/

theorem Engine.firstFrom_mem (best : Diagnostic) (ds : List Diagnostic) :
    firstFrom best ds ∈ best :: ds := by
  induction ds generalizing best with
  | nil => exact List.mem_singleton_self best
  | cons d ds ih =>
    rw [firstFrom]
    rcases List.mem_cons.mp (ih (if (d.location.compare best.location).isLT then d else best))
      with hfirst | hrest
    · rw [hfirst]
      split
      · exact List.mem_cons_of_mem _ List.mem_cons_self
      · exact List.mem_cons_self
    · exact List.mem_cons_of_mem _ (List.mem_cons_of_mem _ hrest)

/-- The problem for which a program is rejected was found by a unit. -/
theorem Engine.exists_unit_of_firstDiagnostic? {e : Engine} {d : Diagnostic}
    (h : e.firstDiagnostic? = some d) : ∃ u ∈ e.units, d ∈ u.diagnostics := by
  unfold firstDiagnostic? at h
  split at h
  · cases h
  · rename_i first rest hall
    cases h
    have hmem := firstFrom_mem first rest
    rw [← hall] at hmem
    exact List.mem_flatMap.mp hmem

/-- Why a program is rejected: its declarations are wrong, or a unit reports a problem in the
    end. -/
theorem Program.check_eq_rejected {p : Program} {settings : Settings} {d : Diagnostic}
    (h : p.check settings = .error (.rejected d)) :
    Env.ofProgram settings p = .error d ∨ ∃ env e, Env.ofProgram settings p = .ok env ∧
      Engine.final env = (.ok (), e) ∧ e.firstDiagnostic? = some d := by
  cases answered_iff.mpr h with
  | misdeclared wrong => exact Or.inl wrong
  | rejected declared final first => exact Or.inr ⟨_, _, declared, final, first⟩

/-- The places that a diagnostic names stand in the program: each is the location of an item,
    a method, a native function, a written type or a node, with a line of the file. -/
theorem Program.check_located {file : String} {items : List Item} {settings : Settings}
    {d : Diagnostic}
    (h : (Program.ofItems file items).check settings = .error (.rejected d)) :
    ∀ l ∈ d.location :: d.related.toList, l ∈ (Program.ofItems file items).locations ∧
      l.StandsIn (Program.ofItems file items).file := by
  have hlocated : d.Located (· ∈ (Program.ofItems file items).locations) := by
    rcases check_eq_rejected h with hdeclared | ⟨env, e, henv, hfinal, hd⟩
    · exact (Env.standsAt_of_ofProgram hdeclared).located
    · obtain ⟨u, hu, hd⟩ := Engine.exists_unit_of_firstDiagnostic? hd
      exact (located_final (Env.standAt_of_ofProgram henv) hfinal).reports u hu d hd
  intro l hl
  have hmem : l ∈ (Program.ofItems file items).locations := by
    rcases List.mem_cons.mp hl with rfl | hl
    · exact hlocated.location
    · exact hlocated.related l (Option.mem_toList.mp hl)
  exact ⟨hmem, Program.locations_ofItems file items l hmem⟩

def CheckError.relatedOf : Except CheckError Report → Option Location
  | .error (.rejected d) => d.related
  | _ => none

theorem CheckError.exists_of_relatedOf {r : Except CheckError Report} {l : Location}
    (h : relatedOf r = some l) : ∃ d, r = .error (.rejected d) ∧ d.related = some l := by
  unfold relatedOf at h
  split at h
  · exact ⟨_, rfl, h⟩
  · cases h

/-- A call that an assignment after it brings down: `x = 1`, `x + 1`, `x = 'c'`. -/
def exposedProgram : Program :=
  let m : Mark := ⟨0, .unplaced⟩
  .ofItems "exposed.qz" [
    .expr (.assign m (.local "x") (.literal m .int)),
    .expr (.call m (some (.ident m "x")) "+" [.literal m .int] none true),
    .expr (.assign m (.local "x") (.literal m .char))]

theorem exposedProgram_located :
    ∃ d, exposedProgram.check {} = .error (.rejected d) ∧ d.related = some ⟨"exposed.qz", 3, 1⟩ ∧
      ∀ l ∈ d.location :: d.related.toList, l ∈ exposedProgram.locations ∧
        l.StandsIn exposedProgram.file := by
  have hrelated : CheckError.relatedOf (exposedProgram.check {}) = some ⟨"exposed.qz", 3, 1⟩ := by
    decide +kernel
  obtain ⟨d, hrejected, hd⟩ := CheckError.exists_of_relatedOf hrelated
  exact ⟨d, hrejected, hd, Program.check_located hrejected⟩

end UnionTyping
