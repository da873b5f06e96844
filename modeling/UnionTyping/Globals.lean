/-
  UnionTyping/Globals.lean
  ========================
  **Any sequence of declarations of classes and libraries.**

  A program declares its classes first and then its libraries with their functions.  What the
  tables promise holds in whatever order they are filled, so here a declaration is a value
  (`Declaration`) and a list of them is performed one after the other, from the classes of the
  language.  A declaration can fail, which does not stop the ones behind it.  One that needs
  a class or a library outside of its table is refused, and then there is no result at all.
-/
import UnionTyping.Native.Function
import UnionTyping.Primitive

namespace UnionTyping

structure Globals where
  classes : ClassTable
  libraries : LibraryTable
deriving Repr, Inhabited

inductive Declaration where
  | declareClass (name : String) (superclass : Option ClassId) (fallback : ClassId)
  | declareLibrary (name : String)
  | addFunction (library : LibraryId) (function : NativeFunction)
deriving Repr

inductive Reply where
  | declared (id : ClassId)
  | failed (problem : Problem)
  | library (id : LibraryId)
  | added
deriving BEq, Repr

namespace Globals

def initial : Globals := ⟨ClassTable.empty.addBuiltins.2, .empty⟩

/-- The class that is looked at next to the declared one is in the table.  That is the
    superclass that is given, or the fallback for a new class without one. -/
def AllowsClass (g : Globals) (name : String) (superclass : Option ClassId) (fallback : ClassId) :
    Prop :=
  (superclass = none → g.classes.lookup name = none) →
    superclass.getD fallback < g.classes.classes.length

instance (g : Globals) (name : String) (superclass : Option ClassId) (fallback : ClassId) :
    Decidable (g.AllowsClass name superclass fallback) :=
  inferInstanceAs (Decidable (_ → _))

def perform (g : Globals) : Declaration → Option (Reply × Globals)
  | .declareClass name superclass fallback =>
    if g.AllowsClass name superclass fallback then
      match g.classes.openClass name superclass fallback with
      | (.ok id, classes) => some (.declared id, { g with classes })
      | (.error problem, classes) => some (.failed problem, { g with classes })
    else none
  | .declareLibrary name =>
    let (id, libraries) := g.libraries.declare name
    some (.library id, { g with libraries })
  | .addFunction library function =>
    if library < g.libraries.libraries.length then
      some (.added, { g with libraries := g.libraries.addFunction library function })
    else none

/-- What a declaration that is not refused answers and makes of the tables. -/
inductive Performs (g : Globals) : Declaration → Reply → Globals → Prop where
  | declared {name : String} {superclass : Option ClassId} {fallback id : ClassId}
      {classes : ClassTable} (allowed : g.AllowsClass name superclass fallback)
      (ok : g.classes.openClass name superclass fallback = (.ok id, classes)) :
    Performs g (.declareClass name superclass fallback) (.declared id) { g with classes }
  | failed {name : String} {superclass : Option ClassId} {fallback : ClassId} {problem : Problem}
      {classes : ClassTable} (allowed : g.AllowsClass name superclass fallback)
      (error : g.classes.openClass name superclass fallback = (.error problem, classes)) :
    Performs g (.declareClass name superclass fallback) (.failed problem) { g with classes }
  | library (name : String) :
    Performs g (.declareLibrary name) (.library (g.libraries.declare name).1)
      { g with libraries := (g.libraries.declare name).2 }
  | added {library : LibraryId} (function : NativeFunction)
      (known : library < g.libraries.libraries.length) :
    Performs g (.addFunction library function) .added
      { g with libraries := g.libraries.addFunction library function }

theorem perform_iff {g g' : Globals} {d : Declaration} {reply : Reply} :
    g.perform d = some (reply, g') ↔ g.Performs d reply g' := by
  constructor
  · intro hstep
    cases d with
    | declareClass name superclass fallback =>
      obtain ⟨hallowed, heq⟩ := Option.ite_none_right_eq_some.mp hstep
      rcases hopen : g.classes.openClass name superclass fallback with ⟨_ | _, classes⟩
      · rw [hopen] at heq
        cases heq
        exact .failed hallowed hopen
      · rw [hopen] at heq
        cases heq
        exact .declared hallowed hopen
    | declareLibrary name =>
      cases hstep
      exact .library name
    | addFunction library function =>
      obtain ⟨hknown, heq⟩ := Option.ite_none_right_eq_some.mp hstep
      cases heq
      exact .added function hknown
  · intro hstep
    cases hstep with
    | declared hallowed hopen => rw [perform, if_pos hallowed, hopen]
    | failed hallowed hopen => rw [perform, if_pos hallowed, hopen]
    | library name => rfl
    | added function hknown => rw [perform, if_pos hknown]

/-- The classes and the library to which a declaration refers are in the tables. -/
def Knows (g : Globals) : Declaration → Prop
  | .declareClass _ superclass fallback =>
    (∀ given, superclass = some given → given < g.classes.classes.length) ∧
      fallback < g.classes.classes.length
  | .declareLibrary _ => True
  | .addFunction library _ => library < g.libraries.libraries.length

/-- A declaration that refers to nothing else is not refused. -/
theorem exists_perform {g : Globals} {d : Declaration} (hknown : g.Knows d) :
    ∃ reply g', g.perform d = some (reply, g') := by
  simp only [perform_iff]
  cases d with
  | declareClass name superclass fallback =>
    obtain ⟨hsuper, hfallback⟩ := hknown
    have hallowed : g.AllowsClass name superclass fallback := by
      intro _
      cases superclass with
      | none => exact hfallback
      | some given => exact hsuper given rfl
    rcases hopen : g.classes.openClass name superclass fallback with ⟨_ | _, classes⟩
    · exact ⟨_, _, .failed hallowed hopen⟩
    · exact ⟨_, _, .declared hallowed hopen⟩
  | declareLibrary name => exact ⟨_, _, .library name⟩
  | addFunction library function => exact ⟨_, _, .added function hknown⟩

def performAll (g : Globals) : List Declaration → Option (List Reply × Globals)
  | [] => some ([], g)
  | d :: ds => do
    let (reply, next) ← g.perform d
    let (replies, last) ← next.performAll ds
    return (reply :: replies, last)

theorem performAll_cons_iff {g g' : Globals} {d : Declaration} {ds : List Declaration}
    {replies : List Reply} :
    g.performAll (d :: ds) = some (replies, g') ↔ ∃ reply next rest,
      g.perform d = some (reply, next) ∧ next.performAll ds = some (rest, g') ∧
        replies = reply :: rest := by
  simp only [performAll, Option.bind_eq_bind, Option.bind_eq_some_iff, Option.pure_def,
    Option.some.injEq, Prod.exists, Prod.mk.injEq]
  constructor
  · rintro ⟨reply, next, hperform, rest, last, hrest, rfl, rfl⟩
    exact ⟨reply, next, rest, hperform, hrest, rfl⟩
  · rintro ⟨reply, next, rest, hperform, hrest, rfl⟩
    exact ⟨reply, next, hperform, rest, g', hrest, rfl, rfl⟩

/-- What every declaration keeps holds after all of them. -/
theorem performAll_keeps {I : Globals → Prop}
    (hstep : ∀ (g g' : Globals) (d : Declaration) (reply : Reply), I g →
      g.Performs d reply g' → I g') {g g' : Globals} {ds : List Declaration}
    {replies : List Reply} (hrun : g.performAll ds = some (replies, g')) (hstart : I g) : I g' := by
  induction ds generalizing g replies with
  | nil =>
    cases hrun
    exact hstart
  | cons d ds ih =>
    obtain ⟨reply, next, rest, hperform, hrest, rfl⟩ := performAll_cons_iff.mp hrun
    exact ih hrest (hstep g next d reply hstart (perform_iff.mp hperform))

end Globals

end UnionTyping
