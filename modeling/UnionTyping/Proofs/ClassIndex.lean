/-
  UnionTyping/Proofs/ClassIndex.lean
  ==================================
  **The map of class names stays in step with the classes.**

  A `ClassTable` goes through its classes to find the one of a name.  Here a map of the names
  stands beside the classes.  It gets an entry with every class that is added, and it is what
  is asked for a name: by `openClass`, for the superclass of a class of the language, and at
  each step of the search up from a name (`superclassOf`).

  A table with the map gives the answers of one without, whatever is declared
  (`IndexedGlobals.InStep.performAll`).  So in the end each name is mapped to the class that
  has it, and both ways of walking up agree (`IndexedGlobals.classTree_of_performAll`).
-/
import Mathlib.Data.Finmap
import UnionTyping.Proofs.ClassTree

namespace UnionTyping

/-! ### Tables with a map -/

/-- A class table with a map from names to classes. -/
structure IndexedClasses extends ClassTable where
  names : Finmap fun _ : String => ClassId

namespace IndexedClasses

def empty : IndexedClasses := ⟨.empty, ∅⟩

def lookup (x : IndexedClasses) (name : String) : Option ClassId := x.names.lookup name

def insert (x : IndexedClasses) (info : ClassEntry) : ClassId × IndexedClasses :=
  let id := x.classes.length
  (id, { classes := x.classes ++ [info], names := x.names.insert info.name id })

def addBuiltin (x : IndexedClasses) (c : BuiltinClass) : ClassId × IndexedClasses :=
  x.insert ⟨c.name, c.superclass.bind x.lookup, c.kind, c.typeParams⟩

def addBuiltins (x : IndexedClasses) : IndexedClasses :=
  builtinClasses.foldl (fun x c => (x.addBuiltin c).2) x

def openClass (x : IndexedClasses) (name : String) (superclass : Option ClassId)
    (fallback : ClassId) : Except Problem ClassId × IndexedClasses :=
  match x.lookup name with
  | some existing =>
    let established := x.parent? existing
    match superclass with
    | none => (.ok existing, x)
    | some given =>
      if established = some given then (.ok existing, x)
      else
        (.error (.superclassMismatch name (x.nameOf given)
          ((established.map x.nameOf).getD "nothing")), x)
  | none =>
    let parent := superclass.getD fallback
    let (id, x) := x.insert ⟨name, some parent, x.kindOf parent, []⟩
    (.ok id, x)

def superclassOf (x : IndexedClasses) (name : String) : Option String :=
  (x.lookup name).bind fun id => (x.parent? id).map x.nameOf

end IndexedClasses

/-- Classes with a map of their names, and libraries. -/
structure IndexedGlobals where
  classes : IndexedClasses
  libraries : LibraryTable

namespace IndexedGlobals

/-- The tables without the map. -/
def plain (x : IndexedGlobals) : Globals := ⟨x.classes.toClassTable, x.libraries⟩

def initial : IndexedGlobals := ⟨IndexedClasses.empty.addBuiltins, .empty⟩

def AllowsClass (x : IndexedGlobals) (name : String) (superclass : Option ClassId)
    (fallback : ClassId) : Prop :=
  (superclass = none → x.classes.lookup name = none) →
    superclass.getD fallback < x.classes.classes.length

instance (x : IndexedGlobals) (name : String) (superclass : Option ClassId) (fallback : ClassId) :
    Decidable (x.AllowsClass name superclass fallback) :=
  inferInstanceAs (Decidable (_ → _))

def perform (x : IndexedGlobals) : Declaration → Option (Reply × IndexedGlobals)
  | .declareClass name superclass fallback =>
    if x.AllowsClass name superclass fallback then
      match x.classes.openClass name superclass fallback with
      | (.ok id, classes) => some (.declared id, { x with classes })
      | (.error problem, classes) => some (.failed problem, { x with classes })
    else none
  | .declareLibrary name =>
    let (id, libraries) := x.libraries.declare name
    some (.library id, { x with libraries })
  | .addFunction library function =>
    if library < x.libraries.libraries.length then
      some (.added, { x with libraries := x.libraries.addFunction library function })
    else none

def performAll (x : IndexedGlobals) : List Declaration → Option (List Reply × IndexedGlobals)
  | [] => some ([], x)
  | d :: ds => do
    let (reply, next) ← x.perform d
    let (replies, last) ← next.performAll ds
    return (reply :: replies, last)

end IndexedGlobals

/-! ### Staying in step -/

theorem lastIdx?_concat {α : Type} (p : α → Bool) (l : List α) (a : α) :
    lastIdx? p (l ++ [a]) = if p a then some l.length else lastIdx? p l := by
  induction l with
  | nil => rfl
  | cons b l ih =>
    rw [List.cons_append, lastIdx?, lastIdx?, ih]
    cases p a <;> rfl

namespace IndexedClasses

variable {x : IndexedClasses}

/-- The map gives the classes that a search finds. -/
def InStep (x : IndexedClasses) : Prop := ∀ name, x.lookup name = x.toClassTable.lookup name

/-- The same answer on both tables, which makes of them the same table, with a map in step. -/
structure Simulates {α : Type} (r : α × IndexedClasses) (r' : α × ClassTable) : Prop where
  answer : r.1 = r'.1
  table : r.2.toClassTable = r'.2
  inStep : r.2.InStep

namespace InStep

theorem insert (h : x.InStep) (info : ClassEntry) :
    Simulates (x.insert info) (x.toClassTable.insert info) := by
  refine ⟨rfl, rfl, fun name => ?_⟩
  have hsearch : ClassTable.lookup ⟨x.classes ++ [info]⟩ name =
      if info.name == name then some x.classes.length else x.toClassTable.lookup name :=
    lastIdx?_concat _ _ _
  have hmap : (x.names.insert info.name x.classes.length).lookup name =
      if info.name == name then some x.classes.length else x.lookup name := by
    by_cases hname : name = info.name
    · subst hname
      rw [BEq.rfl, if_pos rfl, Finmap.lookup_insert]
    · rw [beq_eq_false_iff_ne.mpr (Ne.symm hname)]
      exact Finmap.lookup_insert_of_ne _ hname
  rw [h name] at hmap
  exact hmap.trans hsearch.symm

theorem addBuiltin (h : x.InStep) (c : BuiltinClass) :
    Simulates (x.addBuiltin c)
      (x.toClassTable.addBuiltin c.name c.superclass c.kind c.typeParams) := by
  -- the superclass is given by its name, and both tables find the same one
  have hlookup : x.lookup = x.toClassTable.lookup := funext h
  rw [IndexedClasses.addBuiltin, ClassTable.addBuiltin, hlookup]
  exact h.insert _

theorem addBuiltins (h : x.InStep) :
    x.addBuiltins.toClassTable = x.toClassTable.addBuiltins.2 ∧ x.addBuiltins.InStep := by
  unfold IndexedClasses.addBuiltins ClassTable.addBuiltins
  generalize builtinClasses = cs
  induction cs generalizing x with
  | nil => exact ⟨rfl, h⟩
  | cons c cs ih =>
    obtain ⟨_, htable, hnext⟩ := h.addBuiltin c
    obtain ⟨hrest, hlast⟩ := ih hnext
    refine ⟨hrest.trans ?_, hlast⟩
    rw [htable]
    rfl

theorem openClass (h : x.InStep) (name : String) (superclass : Option ClassId)
    (fallback : ClassId) :
    Simulates (x.openClass name superclass fallback)
      (x.toClassTable.openClass name superclass fallback) := by
  unfold IndexedClasses.openClass ClassTable.openClass
  rw [h name]
  cases x.toClassTable.lookup name with
  | none =>
    obtain ⟨hid, htable, hnext⟩ := h.insert
      ⟨name, some (superclass.getD fallback), x.kindOf (superclass.getD fallback), []⟩
    exact ⟨congrArg Except.ok hid, htable, hnext⟩
  | some existing =>
    cases superclass with
    | none => exact ⟨rfl, rfl, h⟩
    | some given =>
      -- reopened or refused, the table stays as it is
      simp only
      split
      · exact ⟨rfl, rfl, h⟩
      · exact ⟨rfl, rfl, h⟩

theorem superclassOf (h : x.InStep) : x.superclassOf = x.toClassTable.superclassOf :=
  funext fun name => congrArg (Option.bind · _) (h name)

end InStep

theorem inStep_empty : empty.InStep := fun _ => Finmap.lookup_empty _

end IndexedClasses

namespace IndexedGlobals

variable {x x' : IndexedGlobals} {declarations : List Declaration} {replies : List Reply}

/-- The same reply on both tables, which makes of them the same table, with a map in step. -/
structure Simulates {α : Type} (r : α × IndexedGlobals) (r' : α × Globals) : Prop where
  reply : r.1 = r'.1
  plain : r.2.plain = r'.2
  inStep : r.2.classes.InStep

theorem InStep.perform (h : x.classes.InStep) (d : Declaration) :
    Option.Rel Simulates (x.perform d) (x.plain.perform d) := by
  cases d with
  | declareClass name superclass fallback =>
    have hopens : IndexedClasses.Simulates (x.classes.openClass name superclass fallback)
        (x.plain.classes.openClass name superclass fallback) :=
      h.openClass name superclass fallback
    have hallows : x.AllowsClass name superclass fallback ↔
        x.plain.AllowsClass name superclass fallback := by
      rw [AllowsClass, h name]
      rfl
    rw [IndexedGlobals.perform, Globals.perform]
    by_cases hallowed : x.AllowsClass name superclass fallback
    · rw [if_pos hallowed, if_pos (hallows.mp hallowed)]
      generalize x.plain.classes.openClass name superclass fallback = r' at hopens
      generalize x.classes.openClass name superclass fallback = r at hopens
      obtain ⟨outcome, classes⟩ := r
      obtain ⟨outcome', classes'⟩ := r'
      obtain ⟨rfl, rfl, hnext⟩ := hopens
      cases outcome with
      | error problem => exact .some ⟨rfl, rfl, hnext⟩
      | ok id => exact .some ⟨rfl, rfl, hnext⟩
    · rw [if_neg hallowed, if_neg (mt hallows.mpr hallowed)]
      exact .none
  | declareLibrary name => exact .some ⟨rfl, rfl, h⟩
  | addFunction library function =>
    simp only [IndexedGlobals.perform, Globals.perform]
    change Option.Rel _ (if library < x.libraries.libraries.length then _ else _)
      (if library < x.libraries.libraries.length then _ else _)
    split
    · exact .some ⟨rfl, rfl, h⟩
    · exact .none

/-- Whatever is declared, both tables refuse the same and give the same replies. -/
theorem InStep.performAll (h : x.classes.InStep) (declarations : List Declaration) :
    Option.Rel Simulates (x.performAll declarations) (x.plain.performAll declarations) := by
  induction declarations generalizing x with
  | nil => exact .some ⟨rfl, rfl, h⟩
  | cons d ds ih =>
    have hstep := InStep.perform h d
    simp only [IndexedGlobals.performAll, Globals.performAll]
    generalize x.plain.perform d = r' at hstep
    generalize x.perform d = r at hstep
    cases hstep with
    | none => exact .none
    | @some r r' hsame =>
      obtain ⟨reply, next⟩ := r
      obtain ⟨reply', next'⟩ := r'
      obtain ⟨rfl, rfl, hnext⟩ := hsame
      have hrest := ih hnext
      simp only [Option.bind_eq_bind, Option.bind_some]
      generalize next.plain.performAll ds = last' at hrest
      generalize next.performAll ds = last at hrest
      cases hrest with
      | none => exact .none
      | some hlast => exact .some ⟨congrArg _ hlast.reply, hlast.plain, hlast.inStep⟩

theorem inStep_initial : initial.plain = Globals.initial ∧ initial.classes.InStep := by
  obtain ⟨htable, hstep⟩ := IndexedClasses.inStep_empty.addBuiltins
  refine ⟨?_, hstep⟩
  rw [plain, initial, htable]
  rfl

/-- What is declared with the map can be declared without it, and the other way round. -/
theorem rel_performAll (declarations : List Declaration) :
    Option.Rel Simulates (initial.performAll declarations)
      (Globals.initial.performAll declarations) := by
  obtain ⟨hplain, hstep⟩ := inStep_initial
  exact hplain ▸ InStep.performAll hstep declarations

theorem exists_performAll {g : Globals}
    (hrun : Globals.initial.performAll declarations = some (replies, g)) :
    ∃ x, initial.performAll declarations = some (replies, x) ∧ x.plain = g := by
  have hsame := rel_performAll declarations
  rw [hrun] at hsame
  generalize initial.performAll declarations = r at hsame
  cases hsame with
  | @some r _ hsame =>
    obtain ⟨replies', x⟩ := r
    obtain ⟨rfl, rfl, _⟩ := hsame
    exact ⟨x, rfl, rfl⟩

theorem plain_of_performAll (hrun : initial.performAll declarations = some (replies, x)) :
    Globals.initial.performAll declarations = some (replies, x.plain) ∧ x.classes.InStep := by
  have hsame := rel_performAll declarations
  rw [hrun] at hsame
  generalize Globals.initial.performAll declarations = r' at hsame
  cases hsame with
  | @some _ r' hsame =>
    obtain ⟨replies', g⟩ := r'
    obtain ⟨rfl, rfl, hstep⟩ := hsame
    exact ⟨rfl, hstep⟩

/-! ### The tree of classes -/

/-- The classes form a tree, in which one can walk up by place and by name. -/
structure ClassTree (x : IndexedClasses) : Prop where
  distinct : (x.classes.map ClassEntry.name).Nodup
  /-- A name is mapped to a class exactly when the class has it. -/
  index : ∀ name id, x.names.lookup name = some id ↔
    ∃ c, x.classes[id]? = some c ∧ c.name = name
  /-- A superclass comes before its classes. -/
  older : ∀ id parent, x.parent? id = some parent → parent < id
  acyclic : x.hierarchy.Acyclic
  /-- Going up from a class comes to an end, and its ancestors are what is visited. -/
  ascends : ∀ id walk, Ascends x.parent? id walk ↔ walk = x.ancestors id
  /-- The search up from a name comes to an end, with the answer of the hierarchy. -/
  search : ∀ sub sup answer, Search x.superclassOf sup sub answer ↔
    x.hierarchy.isSubclass sub sup = answer
  /-- Between declared classes it finds the ancestors. -/
  agree : ∀ sub sup id ancestor, x.names.lookup sub = some id → x.names.lookup sup = some ancestor →
    (Search x.superclassOf sup sub true ↔ ancestor ∈ x.ancestors id)

/-- Whatever is declared after the classes of the language, the classes form a tree, and the map
    of the names gives the classes that have them.  The replies are those of tables without
    the map. -/
theorem classTree_of_performAll (hrun : initial.performAll declarations = some (replies, x)) :
    ClassTree x.classes ∧ Globals.initial.performAll declarations = some (replies, x.plain) := by
  obtain ⟨hplain, hstep⟩ := plain_of_performAll hrun
  have h : x.classes.Sound := Globals.sound_of_performAll hplain
  have hindex : ∀ name, x.classes.names.lookup name = x.classes.toClassTable.lookup name := hstep
  refine ⟨?_, hplain⟩
  exact {
    distinct := h.names
    index := fun name id => by
      rw [hindex]
      exact h.lookup_iff
    older := fun _ _ => h.parent_lt
    acyclic := h.acyclic
    ascends := fun id walk => by
      have hwalk := h.ascends_ancestors id
      constructor
      · exact fun hwalk' => hwalk'.unique hwalk
      · rintro rfl
        exact hwalk
    search := fun sub sup answer => by
      rw [hstep.superclassOf]
      exact h.search_iff
    agree := fun sub sup id ancestor hsub hsup => by
      rw [hindex] at hsub hsup
      rw [hstep.superclassOf, h.search_iff]
      exact h.isSubclass_iff_ancestor hsub hsup }

/-- A shape, a square below it, the shape again below the square, which fails, and the square
    again without a superclass, with a library in between. -/
def shapes : List Declaration :=
  [.declareClass "Shape" none 0, .declareLibrary "Draw", .declareClass "Square" (some 10) 0,
    .declareClass "Shape" (some 11) 0, .addFunction 0 ⟨"fill", [], .nil⟩,
    .declareClass "Square" none 0]

/-- The shape stays where it was declared first, so the square is below it and not above. -/
theorem shapes_classTree :
    ∃ x : IndexedGlobals, initial.performAll shapes =
        some ([.declared 10, .library 0, .declared 11,
          .failed (.superclassMismatch "Shape" "Square" "Object"), .added, .declared 11], x) ∧
      x.classes.names.lookup "Shape" = some 10 ∧
      x.classes.hierarchy.Acyclic ∧
      Ascends x.classes.parent? 11 [11, 10, 0] ∧
      Search x.classes.superclassOf "Shape" "Square" true ∧
      Search x.classes.superclassOf "Square" "Shape" false := by
  obtain ⟨x, hrun, hplain⟩ := exists_performAll
    (show Globals.initial.performAll shapes = _ from rfl)
  obtain ⟨htree, _⟩ := classTree_of_performAll hrun
  have htable : x.classes.toClassTable = _ := congrArg Globals.classes hplain
  refine ⟨x, hrun, (htree.index _ _).mpr ?_, htree.acyclic, (htree.ascends _ _).mpr ?_,
    (htree.search _ _ _).mpr ?_, (htree.search _ _ _).mpr ?_⟩
  all_goals
    rw [htable]
    decide +kernel

end IndexedGlobals

end UnionTyping
