/-
  UnionTyping/Proofs/Typing/Outline.lean
  ======================================
  **The names that are visible, without their bindings.**

  Which names are visible at an expression, and in which scope each of them was declared,
  depends on the program alone (`Outline`).  The scopes of a check have an outline, and
  each operation on scopes is one on outlines.  A check looks a name up in its scopes to
  find a binding; when the scopes are `Named`, that is the binding of the local which was
  declared in the scope that the outline gives (`Scopes.Named.lookup`).
-/
import UnionTyping.Proofs.Binding.Growth

namespace UnionTyping

/-! ### Outlines -/

/-- The names that are visible, without their bindings: for each open block its names, and
    those of the body. -/
structure Outline where
  inner : List (Scope × List String)
  body : List String

namespace Outline

def empty : Outline := ⟨[], []⟩

def owner (sc : Outline) : Scope :=
  match sc.inner with
  | [] => .body
  | frame :: _ => frame.1

def enter (sc : Outline) (owner : Scope) : Outline := { sc with inner := (owner, []) :: sc.inner }

def leave (sc : Outline) : Outline := { sc with inner := sc.inner.tail }

def declare (sc : Outline) (name : String) : Outline :=
  match sc.inner with
  | [] => { sc with body := name :: sc.body }
  | frame :: outer => { sc with inner := (frame.1, name :: frame.2) :: outer }

def ownerOf (name : String) (frame : Scope × List String) : Option Scope :=
  if name ∈ frame.2 then some frame.1 else none

def lookupIn (name : String) : List (Scope × List String) → Option Scope
  | [] => none
  | frame :: outer => ownerOf name frame <|> lookupIn name outer

def lookup (sc : Outline) (name : String) : Option Scope :=
  lookupIn name sc.inner <|> ownerOf name (.body, sc.body)

def declareAll (sc : Outline) (names : List String) : Outline := names.foldl declare sc

theorem leave_declare (sc : Outline) (name : String) (h : sc.inner ≠ []) :
    (sc.declare name).leave = sc.leave ∧ (sc.declare name).inner ≠ [] := by
  unfold declare leave
  cases hinner : sc.inner with
  | nil => exact absurd hinner h
  | cons frame outer => exact ⟨rfl, List.cons_ne_nil _ _⟩

theorem leave_declareAll (sc : Outline) (names : List String) (h : sc.inner ≠ []) :
    (sc.declareAll names).leave = sc.leave := by
  induction names generalizing sc with
  | nil => rfl
  | cons name names ih =>
    obtain ⟨hleave, hinner⟩ := sc.leave_declare name h
    exact (ih _ hinner).trans hleave

theorem declareAll_append (sc : Outline) (names names' : List String) :
    sc.declareAll (names ++ names') = (sc.declareAll names).declareAll names' := List.foldl_append

/-- In the second outline more names are visible, in the innermost frame. -/
def Grows (sc sc' : Outline) : Prop := ∃ names, sc' = sc.declareAll names

namespace Grows

variable {sc sc₁ sc' : Outline}

theorem refl (sc : Outline) : sc.Grows sc := ⟨[], rfl⟩

theorem declare (sc : Outline) (name : String) : sc.Grows (sc.declare name) := ⟨[name], rfl⟩

theorem trans (h : sc.Grows sc₁) (h' : sc₁.Grows sc') : sc.Grows sc' := by
  obtain ⟨names, rfl⟩ := h
  obtain ⟨names', rfl⟩ := h'
  exact ⟨names ++ names', (sc.declareAll_append names names').symm⟩

/-- Leaving a frame forgets what was declared in it. -/
theorem leave_eq (h : sc.Grows sc') {outer : Outline} {owner : Scope}
    (hsc : (outer.enter owner).Grows sc) : sc'.leave = outer := by
  obtain ⟨names, hnames⟩ := hsc.trans h
  rw [hnames, leave_declareAll _ _ (List.cons_ne_nil _ _)]
  rfl

end Grows

end Outline

/-! ### Scopes -/

/-- Of two pairs of results that are related the first ones that are there are related. -/
theorem Option.Rel.orElse {α β : Type} {r : α → β → Prop} {a a' : Option α} {b b' : Option β}
    (h : Option.Rel r a b) (h' : Option.Rel r a' b') : Option.Rel r (a <|> a') (b <|> b') := by
  cases h with
  | some hab => exact .some hab
  | none => exact h'

def Frame.outline (frame : Frame) : Scope × List String := (frame.owner, frame.names.map Prod.fst)

namespace Scopes

variable (sc : Scopes)

def outline : Outline := ⟨sc.inner.map Frame.outline, sc.body.map Prod.fst⟩

theorem outline_enter (owner : Scope) : (sc.enter owner).outline = sc.outline.enter owner := rfl

theorem outline_leave : sc.leave.outline = sc.outline.leave := by
  rw [leave, outline, outline, Outline.leave, List.map_tail]

theorem owner_outline : sc.outline.owner = sc.owner := by
  unfold Outline.owner owner outline
  cases sc.inner <;> rfl

theorem outline_declare (name : String) (i : BindingId) :
    (sc.declare name i).outline = sc.outline.declare name := by
  unfold declare Outline.declare outline
  cases sc.inner <;> rfl

/-- Each visible name means the binding of the local of that name which the unit declared
    in the scope of the frame. -/
structure Named (st : Store) (unit : UnitId) (sc : Scopes) : Prop where
  inner : ∀ f ∈ sc.inner, ∀ p ∈ f.names, st.find (.local unit f.owner p.1) = some p.2
  body : ∀ p ∈ sc.body, st.find (.local unit .body p.1) = some p.2

namespace Named

variable {sc : Scopes} {st st' : Store} {unit : UnitId}

theorem empty : Scopes.empty.Named st unit where
  inner := List.forall_mem_nil _
  body := List.forall_mem_nil _

theorem mono (h : sc.Named st unit) (hext : st.Extends st') : sc.Named st' unit :=
  ⟨fun f hf p hp => hext.find (h.inner f hf p hp), fun p hp => hext.find (h.body p hp)⟩

theorem enter (h : sc.Named st unit) (owner : Scope) : (sc.enter owner).Named st unit where
  inner := List.forall_mem_cons.mpr ⟨fun _ hp => (List.not_mem_nil hp).elim, h.inner⟩
  body := h.body

theorem leave (h : sc.Named st unit) : sc.leave.Named st unit :=
  ⟨fun f hf => h.inner f (List.mem_of_mem_tail hf), h.body⟩

theorem declare (h : sc.Named st unit) {name : String} {i : BindingId}
    (hi : st.find (.local unit sc.owner name) = some i) : (sc.declare name i).Named st unit := by
  obtain ⟨inner, body⟩ := sc
  cases inner with
  | nil => exact ⟨List.forall_mem_nil _, List.forall_mem_cons.mpr ⟨hi, h.body⟩⟩
  | cons frame outer =>
    obtain ⟨hframe, houter⟩ := List.forall_mem_cons.mp h.inner
    exact ⟨List.forall_mem_cons.mpr ⟨List.forall_mem_cons.mpr ⟨hi, hframe⟩, houter⟩, h.body⟩

end Named

/-- What a name means among the names of one frame. -/
theorem lookup_names {st : Store} {unit : UnitId} {owner : Scope} {names : Names}
    (h : ∀ p ∈ names, st.find (.local unit owner p.1) = some p.2) (name : String) :
    Option.Rel (fun i scope => st.find (.local unit scope name) = some i) (names.lookup name)
      (Outline.ownerOf name (owner, names.map Prod.fst)) := by
  rw [Outline.ownerOf]
  induction names with
  | nil => exact .none
  | cons p names ih =>
    obtain ⟨hp, hnames⟩ := List.forall_mem_cons.mp h
    have hrest := ih hnames
    rw [List.lookup_cons]
    by_cases hname : name = p.1
    · rw [hname, beq_self_eq_true, List.map_cons, if_pos List.mem_cons_self]
      exact .some hp
    · rw [beq_eq_false_iff_ne.mpr hname]
      simp only [List.map_cons, List.mem_cons, hname, false_or]
      exact hrest

/-- A name means the binding of the local in the scope where it was declared, and it means
    nothing where it was not declared. -/
theorem Named.lookup {sc : Scopes} {st : Store} {unit : UnitId} (h : sc.Named st unit)
    (name : String) :
    Option.Rel (fun i scope => st.find (.local unit scope name) = some i) (sc.lookup name)
      (sc.outline.lookup name) := by
  obtain ⟨inner, body⟩ := sc
  refine Option.Rel.orElse ?_ (lookup_names h.body name)
  have hinner := h.inner
  clear h
  induction inner with
  | nil => exact .none
  | cons f outer ih =>
    obtain ⟨hf, houter⟩ := List.forall_mem_cons.mp hinner
    exact Option.Rel.orElse (lookup_names hf name) (ih houter)

theorem Named.exists_scope {sc : Scopes} {st : Store} {unit : UnitId} (h : sc.Named st unit)
    {name : String} {i : BindingId} (hi : sc.lookup name = some i) :
    ∃ scope, sc.outline.lookup name = some scope ∧ st.find (.local unit scope name) = some i := by
  have hlookup := h.lookup name
  rw [hi] at hlookup
  cases hscope : sc.outline.lookup name with
  | none => rw [hscope] at hlookup; cases hlookup
  | some scope =>
    rw [hscope] at hlookup
    cases hlookup with
    | some hfind => exact ⟨scope, rfl, hfind⟩

theorem Named.lookup_eq_none {sc : Scopes} {st : Store} {unit : UnitId} (h : sc.Named st unit)
    {name : String} (hi : sc.lookup name = none) : sc.outline.lookup name = none := by
  have hlookup := h.lookup name
  rw [hi] at hlookup
  cases hscope : sc.outline.lookup name with
  | none => rfl
  | some scope => rw [hscope] at hlookup; cases hlookup

end Scopes

end UnionTyping
