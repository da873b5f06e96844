/-
  UnionTyping/Proofs/ClassDeclarations.lean
  =========================================
  **A class is fixed when it is first declared.**

  Of the three things that opening a class can do (`ClassTable.Opens`) only that of a new
  name changes the table, and it adds a class behind the others.  So a table only grows at
  its end (`Globals.Performs.prefix_classes`), and what is found under a name stays.

  The kind of a class is copied from its superclass when it is added and never looked at again.
  It still tells where the class stands: a class is one of values exactly when `Value` is among
  its ancestors (`ClassTable.Graded`), since the ancestors of a class do not change when others
  are added behind it (`Sound.ancestors_append`).
-/
import UnionTyping.Proofs.ClassTree

namespace UnionTyping

namespace ClassTable

variable {t : ClassTable} {name : String} {superclass : Option ClassId} {fallback id : ClassId}

/-! ### Growing at the end -/

theorem get?_of_grows {t' : ClassTable} (hgrows : t.classes <+: t'.classes)
    (hid : id < t.classes.length) : t'.get? id = t.get? id := by
  obtain ⟨added, happend⟩ := hgrows
  rw [get?, get?, ← happend, List.getElem?_append_left hid]

namespace Sound

/-- What is found under a name is still found when classes were added. -/
theorem lookup_of_grows {t' : ClassTable} (h' : t'.Sound) (hgrows : t.classes <+: t'.classes)
    (hid : t.lookup name = some id) : t'.lookup name = some id := by
  obtain ⟨c, hc, hname⟩ := exists_of_lookup hid
  have hc' : t'.classes[id]? = some c := (get?_of_grows hgrows (lookup_lt hid)).trans hc
  rw [← hname]
  exact h'.lookup_eq hc'

/-- The way up from a class does not lead to those that were added behind it. -/
theorem ancestors_append {t' : ClassTable} (h : t.Sound) (h' : t'.Sound)
    (hgrows : t.classes <+: t'.classes) (hid : id < t.classes.length) :
    t'.ancestors id = t.ancestors id := by
  have hwalk : Ascends t'.parent? id ((t.ancestors id).map fun ancestor => ancestor) := by
    apply (h.ascends_ancestors id).map
    intro ancestor hancestor
    have hbelow : ancestor < t.classes.length :=
      Nat.lt_of_le_of_lt (h.le_of_mem_ancestors hid hancestor) hid
    simp [parent?, get?_of_grows hgrows hbelow]
  rw [List.map_id'] at hwalk
  exact (h'.ascends_ancestors id).unique hwalk

end Sound

/-! ### Kinds -/

/-- The classes of values are those that have `value` among their ancestors. -/
def Graded (t : ClassTable) (value : ClassId) : Prop :=
  ∀ id c, t.get? id = some c → (c.kind = .value ↔ value ∈ t.ancestors id)

theorem Graded.kindOf_eq {value : ClassId} (hgraded : t.Graded value)
    (hid : id < t.classes.length) : t.kindOf id = .value ↔ value ∈ t.ancestors id := by
  have hget : t.get? id = some t.classes[id] := List.getElem?_eq_getElem hid
  rw [kindOf, hget]
  exact hgraded id _ hget

/-- A class that takes its kind from its superclass has `value` above it if that one has. -/
theorem Graded.insert {value parent : ClassId} {params : List String} (hgraded : t.Graded value)
    (h : t.Sound) (hvalue : value < t.classes.length) (hparent : parent < t.classes.length)
    (h' : (t.insert ⟨name, some parent, t.kindOf parent, params⟩).2.Sound) :
    (t.insert ⟨name, some parent, t.kindOf parent, params⟩).2.Graded value := by
  intro id c hc
  have hgrows := List.prefix_append t.classes [⟨name, some parent, t.kindOf parent, params⟩]
  rcases Nat.lt_or_ge id t.classes.length with hlt | hge
  · rw [h.ancestors_append h' hgrows hlt]
    exact hgraded id c ((get?_of_grows hgrows hlt).symm.trans hc)
  · -- The only other place is that of the class itself, which is not `value`.
    have hlast : id < t.classes.length + 1 := by
      simpa [ClassTable.insert] using (List.getElem?_eq_some_iff.mp hc).1
    obtain rfl : id = t.classes.length := Nat.le_antisymm (Nat.le_of_lt_succ hlast) hge
    obtain rfl : ⟨name, some parent, t.kindOf parent, params⟩ = c := by
      simpa [get?, ClassTable.insert] using hc
    have hup : (t.insert ⟨name, some parent, t.kindOf parent, params⟩).2.parent?
        t.classes.length = some parent := parent?_eq hc
    rw [h'.ancestors_of_parent (by simp [ClassTable.insert]) hup,
      h.ancestors_append h' hgrows hparent, List.mem_cons, hgraded.kindOf_eq hparent]
    exact (or_iff_right (Nat.ne_of_lt hvalue)).symm

theorem graded_builtins : ClassTable.empty.addBuiltins.2.Graded
    ClassTable.empty.addBuiltins.1.value := by
  have hall : ClassTable.empty.addBuiltins.2.classes.zipIdx.all (fun (c, id) =>
      decide (c.kind = .value ↔ ClassTable.empty.addBuiltins.1.value ∈
        ClassTable.empty.addBuiltins.2.ancestors id)) = true := by decide +kernel
  intro id c hc
  exact of_decide_eq_true
    (List.all_eq_true.mp hall (c, id) (List.mem_zipIdx_iff_getElem?.mpr hc))

end ClassTable

/-! ### Sequences of declarations -/

namespace Globals

variable {g g' : Globals} {d : Declaration} {reply : Reply} {declarations : List Declaration}
  {replies : List Reply}

/-- A declaration leaves the classes that are there as they are. -/
theorem Performs.prefix_classes (hstep : g.Performs d reply g') :
    g.classes.classes <+: g'.classes.classes := by
  cases hstep with
  | declared hallowed hopen =>
    cases ClassTable.openClass_cases hopen with
    | new => exact List.prefix_append _ _
    | reopened => exact List.prefix_rfl
  | failed hallowed hopen =>
    cases ClassTable.openClass_cases hopen with
    | mismatch => exact List.prefix_rfl
  | library => exact List.prefix_rfl
  | added => exact List.prefix_rfl

theorem prefix_of_performAll (hrun : g.performAll declarations = some (replies, g')) :
    g.classes.classes <+: g'.classes.classes :=
  performAll_keeps (I := fun next => g.classes.classes <+: next.classes.classes)
    (fun _ _ _ _ hgrows hstep => hgrows.trans hstep.prefix_classes) hrun List.prefix_rfl

/-- The classes are sound, and `Value` is found where the classes of values have it above
    them. -/
structure Kinded (g : Globals) (value : ClassId) : Prop where
  sound : g.classes.Sound
  found : g.classes.lookup "Value" = some value
  graded : g.classes.Graded value

theorem Performs.kinded {value : ClassId} (hstep : g.Performs d reply g')
    (h : g.Kinded value) : g'.Kinded value := by
  have hsound : g'.classes.Sound := hstep.sound h.sound
  have hfound := hsound.lookup_of_grows hstep.prefix_classes h.found
  cases hstep with
  | @declared name superclass fallback id classes hallowed hopen =>
    cases ClassTable.openClass_cases hopen with
    | new hunknown =>
      have hparent : superclass.getD fallback < g.classes.classes.length :=
        hallowed fun _ => hunknown
      exact ⟨hsound, hfound,
        h.graded.insert h.sound (ClassTable.lookup_lt h.found) hparent hsound⟩
    | reopened => exact h
  | failed hallowed hopen =>
    cases ClassTable.openClass_cases hopen with
    | mismatch => exact h
  | library => exact ⟨hsound, hfound, h.graded⟩
  | added => exact ⟨hsound, hfound, h.graded⟩

theorem kinded_of_performAll (hrun : initial.performAll declarations = some (replies, g)) :
    g.Kinded ClassTable.empty.addBuiltins.1.value := by
  apply performAll_keeps (fun _ _ _ _ h hstep => hstep.kinded h) hrun
  constructor
  · exact ClassTable.sound_builtins
  · decide +kernel
  · exact ClassTable.graded_builtins

structure Declared (g : Globals) (name : String) (superclass : Option ClassId)
    (reply : Reply) (g' : Globals) : Prop where
  /-- It fails exactly for a superclass that is not the one established under the name. -/
  fails_iff : (∃ problem, reply = .failed problem) ↔
    ∃ id given, g.classes.lookup name = some id ∧ superclass = some given ∧
      g.classes.parent? id ≠ some given
  /-- A failure leaves everything as it was. -/
  failed : (∃ problem, reply = .failed problem) → g' = g
  /-- Success on a name that is there answers its class and adds nothing. -/
  reopened : ∀ id, g.classes.lookup name = some id → (¬ ∃ problem, reply = .failed problem) →
    reply = .declared id ∧ g' = g

theorem declared_of_performs {name : String} {superclass : Option ClassId} {fallback : ClassId}
    (hstep : g.Performs (.declareClass name superclass fallback) reply g') :
    g.Declared name superclass reply g' := by
  cases hstep with
  | declared hallowed hopen =>
    cases ClassTable.openClass_cases hopen with
    | new hunknown =>
      constructor
      · simp [hunknown]
      · simp
      · simp [hunknown]
    | reopened hknown hsame =>
      constructor
      · simp only [hknown, Option.some.injEq, reduceCtorEq, exists_false, false_iff]
        rintro ⟨_, given, rfl, hgiven, hother⟩
        exact hother (hsame given hgiven)
      · simp
      · simp [hknown]
  | failed hallowed herror =>
    cases ClassTable.openClass_cases herror with
    | mismatch hknown hgiven hother =>
      constructor
      · exact iff_of_true ⟨_, rfl⟩ ⟨_, _, hknown, hgiven, hother⟩
      · exact fun _ => rfl
      · exact fun _ _ hsuccess => absurd ⟨_, rfl⟩ hsuccess

/-- Whatever is declared after the classes of the language, a class is fixed from then on: the
    same place, superclass and kind are found under its name after any further declarations.
    Declaring a class with a superclass and a fallback of the table fails exactly when the name
    is there with another superclass, which leaves the tables as they were, and when it succeeds
    on a name that is there it adds nothing.  A class is one of values exactly when the class
    `Value` is among its ancestors. -/
theorem classesFixed_of_performAll
    (hrun : initial.performAll declarations = some (replies, g)) :
    (∀ later replies' g', g.performAll later = some (replies', g') →
      ∀ name id, g.classes.lookup name = some id →
        g'.classes.lookup name = some id ∧ g'.classes.get? id = g.classes.get? id) ∧
      (∀ name superclass fallback, g.Knows (.declareClass name superclass fallback) →
        ∃ reply g', g.perform (.declareClass name superclass fallback) = some (reply, g') ∧
          g.Declared name superclass reply g') ∧
      ∃ value, g.classes.lookup "Value" = some value ∧
        ∀ id c, g.classes.get? id = some c →
          (c.kind = .value ↔ value ∈ g.classes.ancestors id) := by
  have hkinded := kinded_of_performAll hrun
  refine ⟨?_, ?_, _, hkinded.found, hkinded.graded⟩
  · intro later replies' g' hlater name id hid
    have hgrows := prefix_of_performAll hlater
    have hsound : g'.classes.Sound :=
      performAll_keeps (fun _ _ _ _ h hstep => hstep.sound h) hlater hkinded.sound
    constructor
    · exact hsound.lookup_of_grows hgrows hid
    · exact ClassTable.get?_of_grows hgrows (ClassTable.lookup_lt hid)
  · intro name superclass fallback hknown
    obtain ⟨reply, g', hperform⟩ := exists_perform hknown
    exact ⟨reply, g', hperform, declared_of_performs (perform_iff.mp hperform)⟩

/-- A point that is a value by its fallback, a pixel below it, and a shape that is to become
    one of the points and stays below `Object`. -/
def points : List Declaration :=
  [.declareClass "Point" none 1, .declareClass "Pixel" (some 10) 0, .declareClass "Shape" none 0,
    .declareClass "Shape" (some 10) 0, .declareClass "Point" none 0]

/-- The pixel is a value and the shape is not; opening the pixel below the shape fails. -/
theorem points_fixed :
    ∃ g : Globals, initial.performAll points = some ([.declared 10, .declared 11, .declared 12,
        .failed (.superclassMismatch "Shape" "Point" "Object"), .declared 10], g) ∧
      (g.classes.kindOf 11 = .value ∧ 1 ∈ g.classes.ancestors 11) ∧
      (g.classes.kindOf 12 = .reference ∧ 1 ∉ g.classes.ancestors 12) ∧
      g.perform (.declareClass "Pixel" (some 12) 0) =
        some (.failed (.superclassMismatch "Pixel" "Shape" "Point"), g) := by
  refine ⟨_, rfl, ?_⟩
  obtain ⟨_, hdeclare, value, hvalue, hkind⟩ := @classesFixed_of_performAll _ points _ rfl
  obtain rfl : 1 = value := Option.some.inj hvalue
  refine ⟨⟨rfl, (hkind 11 _ rfl).mp rfl⟩, ⟨rfl, ?_⟩, ?_⟩
  · intro habove
    cases (hkind 12 _ rfl).mpr habove
  · have hknown : 12 < 13 ∧ 0 < 13 := by decide
    obtain ⟨reply, g', hperform, hdeclared⟩ := hdeclare "Pixel" (some 12) 0
      ⟨fun given hgiven => Option.some.inj hgiven ▸ hknown.1, hknown.2⟩
    have hreply : reply = .failed (.superclassMismatch "Pixel" "Shape" "Point") :=
      (congrArg Prod.fst (Option.some.inj hperform)).symm
    rw [hperform, hreply, hdeclared.failed ⟨_, hreply⟩]

end Globals

end UnionTyping
