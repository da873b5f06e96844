/-
  UnionTyping/Proofs/Scopes.lean
  ==============================
  **Scopes are lexical.**

  Frames are entered and left and names are declared in any order.  Which frames are open at the
  end can be told from the steps alone: a frame stays open as long as what came after it was
  opened leaves no frame but those that it entered (`level`).  What a name means is the binding that
  was last declared for it in the innermost open frame in which it was declared
  (`lookup_eq_some_iff`).  Steps that enter and leave in pairs do to any scopes what the
  declarations among them do that stand in no pair (`performAll_of_balanced`), and leaving more
  frames than are open leaves the names of the body (`performAll_leaves`).

  All of it comes from one simulation (`performAll_under`): however the steps go on above a frame
  that stays open, the frame gets the declarations that are made directly in it and nothing else
  below changes.  The frame of the body stays open whatever the steps.
-/
import Mathlib.Data.List.Basic
import Mathlib.Data.List.Induction
import UnionTyping.Scopes

namespace UnionTyping.Scopes

/-! ### Steps -/

inductive Step where
  | enter (owner : Scope)
  | leave
  | declare (name : String) (binding : BindingId)
deriving DecidableEq, Repr

def perform (s : Scopes) : Step → Scopes
  | .enter owner => s.enter owner
  | .leave => s.leave
  | .declare name binding => s.declare name binding

def performAll (s : Scopes) (steps : List Step) : Scopes := steps.foldl perform s

/-- How many frames are open above a frame after the steps, when `above` are before them; none if
    the steps leave the frame itself. -/
def level (above : Nat) : List Step → Option Nat
  | [] => some above
  | .enter _ :: steps => level (above + 1) steps
  | .leave :: steps => if above = 0 then none else level (above - 1) steps
  | .declare _ _ :: steps => level above steps

/-- How many frames are open above that of the body after the steps.  Leaving it does nothing. -/
def depth (above : Nat) : List Step → Nat
  | [] => above
  | .enter _ :: steps => depth (above + 1) steps
  | .leave :: steps => depth (above - 1) steps
  | .declare _ _ :: steps => depth above steps

/-- The names that the steps declare directly in a frame above which `above` frames are open before
    them, in order. -/
def declared (above : Nat) : List Step → Names
  | [] => []
  | .enter _ :: steps => declared (above + 1) steps
  | .leave :: steps => declared (above - 1) steps
  | .declare name binding :: steps =>
    if above = 0 then (name, binding) :: declared above steps else declared above steps

def lastDeclared (name : String) (steps : List Step) : Option BindingId :=
  (declared 0 steps).reverse.lookup name

/-- Each frame that is entered is left again, and no other. -/
def Balanced (steps : List Step) : Prop := level 0 steps = some 0

instance : DecidablePred Balanced := fun steps =>
  inferInstanceAs (Decidable (level 0 steps = some 0))

/-- A frame is open after the steps, and `since` are the steps since it was opened: for the frame of
    the body all of them. -/
inductive OpenSince (steps : List Step) : List Step → Prop where
  | body : OpenSince steps steps
  | block {before since : List Step} {owner : Scope} {above : Nat}
      (split : steps = before ++ .enter owner :: since) (stays : level 0 since = some above) :
      OpenSince steps since

def declareAll (s : Scopes) (names : Names) : Scopes :=
  names.foldl (fun s p => s.declare p.1 p.2) s

variable {s : Scopes} {steps steps' before since : List Step} {above above' : Nat} {name : String}
  {binding : BindingId} {owner : Scope}

theorem performAll_append (s : Scopes) (steps steps' : List Step) :
    s.performAll (steps ++ steps') = (s.performAll steps).performAll steps' := List.foldl_append

/-! ### Levels -/

theorem level_append (above : Nat) (steps steps' : List Step) :
    level above (steps ++ steps') = (level above steps).bind (level · steps') := by
  induction steps generalizing above with
  | nil => rfl
  | cons step steps ih =>
    cases step with
    | enter | declare => exact ih _
    | leave =>
      simp only [List.cons_append, level]
      split
      · rfl
      · exact ih _

theorem depth_append (above : Nat) (steps steps' : List Step) :
    depth above (steps ++ steps') = depth (depth above steps) steps' := by
  induction steps generalizing above with
  | nil => rfl
  | cons step steps ih => cases step <;> exact ih _

theorem declared_append (above : Nat) (steps steps' : List Step) :
    declared above (steps ++ steps') =
      declared above steps ++ declared (depth above steps) steps' := by
  induction steps generalizing above with
  | nil => rfl
  | cons step steps ih =>
    cases step with
    | enter | leave => exact ih _
    | declare name binding =>
      simp only [List.cons_append, declared, depth, ih]
      split <;> rfl

/-- Seen from further below, more frames are above. -/
theorem level_add (h : level above steps = some above') (more : Nat) :
    level (above + more) steps = some (above' + more) := by
  induction steps generalizing above with
  | nil =>
    cases h
    rfl
  | cons step steps ih =>
    cases step with
    | enter owner =>
      rw [level] at h ⊢
      rw [Nat.add_right_comm]
      exact ih h
    | declare => exact ih h
    | leave =>
      simp only [level] at h ⊢
      split at h
      · cases h
      · rename_i hpos
        rw [if_neg (by omega), Nat.sub_add_comm (Nat.pos_of_ne_zero hpos)]
        exact ih h

/-- A frame that stays open is above those around it. -/
theorem level_enter (h : level 0 since = some above) (owner : Scope) (below : Nat) :
    level below (.enter owner :: since) = some (above + (below + 1)) := by
  have hadded := level_add h (below + 1)
  rw [Nat.zero_add] at hadded
  exact hadded

theorem depth_of_level (h : level above steps = some above') : depth above steps = above' := by
  induction steps generalizing above with
  | nil => exact Option.some.inj h
  | cons step steps ih =>
    cases step with
    | enter | declare => exact ih h
    | leave =>
      simp only [level] at h
      split at h
      · cases h
      · exact ih h

/-- What stays above a frame that is open declares nothing directly in a frame below. -/
theorem declared_of_level (h : level above steps = some above') (more : Nat) :
    declared (above + more + 1) steps = [] := by
  induction steps generalizing above with
  | nil => rfl
  | cons step steps ih =>
    cases step with
    | enter owner =>
      have hrest := ih h
      rwa [Nat.add_right_comm above 1 more] at hrest
    | declare name binding =>
      rw [declared, if_neg (Nat.succ_ne_zero _)]
      exact ih h
    | leave =>
      simp only [level] at h
      split at h
      · cases h
      · rename_i hpos
        have hrest := ih h
        rw [declared]
        rwa [show above + more + 1 - 1 = above - 1 + more + 1 by omega]

namespace Balanced

theorem nil : Balanced [] := rfl

theorem append (h : Balanced steps) (h' : Balanced steps') : Balanced (steps ++ steps') := by
  rw [Balanced, level_append, h]
  exact h'

theorem declare (name : String) (binding : BindingId) : Balanced [.declare name binding] := rfl

theorem block (h : Balanced steps) (owner : Scope) :
    Balanced (.enter owner :: steps ++ [.leave]) := by
  rw [Balanced, level_append, level_enter h owner 0]
  rfl

/-- A frame that was entered in between has been left. -/
theorem level_ne (h : Balanced (before ++ .enter owner :: since)) (above : Nat) :
    level 0 since ≠ some above := by
  intro hstays
  rw [Balanced, level_append] at h
  obtain ⟨below, -, hbelow⟩ := Option.bind_eq_some_iff.mp h
  rw [level_enter hstays] at hbelow
  cases hbelow

end Balanced

/-- Either no frame is open but that of the body, or the innermost one was opened by a step after
    which everything is balanced.  The induction is on the length, since a block that is left is
    taken together with what came before it. -/
theorem exists_innermost (steps : List Step) : depth 0 steps = 0 ∨
    ∃ before owner since, steps = before ++ .enter owner :: since ∧ Balanced since := by
  rcases List.eq_nil_or_concat' steps with rfl | ⟨init, last, rfl⟩
  · exact .inl rfl
  · cases last with
    | enter owner => exact .inr ⟨init, owner, [], rfl, .nil⟩
    | declare name binding =>
      rcases exists_innermost init with hzero | ⟨before, owner, since, rfl, hsince⟩
      · exact .inl (by rw [depth_append, hzero]; rfl)
      · exact .inr
          ⟨before, owner, _, List.append_assoc _ _ _, hsince.append (.declare name binding)⟩
    | leave =>
      rcases exists_innermost init with hzero | ⟨before, owner, since, rfl, hsince⟩
      · exact .inl (by rw [depth_append, hzero]; rfl)
      -- the frame that is left and what was done in it count for the frame around it
      · have hblock := hsince.block owner
        rcases exists_innermost before with hzero | ⟨before, owner', since', rfl, hsince'⟩
        · refine .inl ?_
          rw [List.append_assoc, depth_append, hzero]
          exact depth_of_level hblock
        · refine .inr ⟨before, owner', _, ?_, hsince'.append hblock⟩
          simp
termination_by steps.length

/-! ### What the steps do to scopes -/

def under (s : Scopes) (top : List Frame) : Scopes := { s with inner := top ++ s.inner }

theorem inner_declare_eq_nil (h : s.inner = []) (name : String) (binding : BindingId) :
    (s.declare name binding).inner = [] := by
  simp [declare, h]

theorem inner_declareAll_eq_nil (h : s.inner = []) (names : Names) :
    (s.declareAll names).inner = [] :=
  List.foldlRecOn (motive := fun s : Scopes => s.inner = []) names _ h
    fun _ hs p _ => inner_declare_eq_nil hs p.1 p.2

/-- As long as the innermost frame of `s` is not left, steps that begin with other frames above it
    declare in it what they declare directly in it, and leave some frames above it. -/
theorem performAll_under (s : Scopes) (top : List Frame)
    (h : s.inner = [] ∨ ∃ above, level top.length steps = some above) :
    ∃ top', top'.length = depth top.length steps ∧
      (s.under top).performAll steps = (s.declareAll (declared top.length steps)).under top' := by
  induction steps generalizing s top with
  | nil => exact ⟨top, rfl, rfl⟩
  | cons step steps ih =>
    cases step with
    | enter owner => exact ih s (⟨owner, []⟩ :: top) h
    | leave =>
      cases top with
      | nil =>
        -- the frame is not left, so it is that of the body
        have hbody : s.inner = [] := h.resolve_right (by simp [level])
        have hstays : (s.under []).leave = s.under [] := by simp [leave, under, hbody]
        obtain ⟨top', hlength, hperform⟩ := ih s [] (.inl hbody)
        refine ⟨top', hlength, ?_⟩
        rw [performAll, List.foldl_cons, perform, hstays]
        exact hperform
      | cons frame top => exact ih s top h
    | declare name binding =>
      cases top with
      | nil =>
        exact ih (s.declare name binding) []
          (h.imp_left fun hbody => inner_declare_eq_nil hbody name binding)
      | cons frame top =>
        exact ih s ({ frame with names := (name, binding) :: frame.names } :: top) h

/-- Balanced steps do what the declarations do that are made in no frame which they enter. -/
theorem performAll_of_balanced (s : Scopes) (h : Balanced steps) :
    s.performAll steps = s.declareAll (declared 0 steps) := by
  obtain ⟨top, hlength, hperform⟩ := performAll_under s [] (.inr ⟨0, h⟩)
  have htop : top = [] := List.eq_nil_of_length_eq_zero (hlength.trans (depth_of_level h))
  rw [htop] at hperform
  exact hperform

/-- Whatever the steps, the names of the body are those that are declared directly in it. -/
theorem performAll_empty (steps : List Step) :
    ∃ top, top.length = depth 0 steps ∧
      empty.performAll steps = (empty.declareAll (declared 0 steps)).under top :=
  performAll_under empty [] (.inl rfl)

theorem performAll_leaves (s : Scopes) (n : Nat) :
    s.performAll (List.replicate n .leave) = { s with inner := s.inner.drop n } := by
  induction n generalizing s with
  | zero => rfl
  | succ n ih =>
    rw [List.replicate_succ, performAll, List.foldl_cons]
    refine (ih s.leave).trans ?_
    simp [leave, List.drop_tail]

/-- Leaving all frames and more leaves the names of the body. -/
theorem performAll_under_leaves {top : List Frame} {n : Nat} (hbody : s.inner = [])
    (hn : top.length ≤ n) : (s.under top).performAll (List.replicate n .leave) = s := by
  rw [performAll_leaves, under, hbody, List.append_nil, List.drop_eq_nil_of_le hn, ← hbody]

/-! ### What names mean -/

theorem lookup_declare (s : Scopes) (name other : String) (binding : BindingId) :
    (s.declare name binding).lookup other =
      if other = name then some binding else s.lookup other := by
  obtain ⟨inner, body⟩ := s
  by_cases hother : other = name
  · cases inner <;> simp [declare, lookup, lookupIn, hother]
  · have hne : (other == name) = false := beq_false_of_ne hother
    cases inner <;> simp [declare, lookup, lookupIn, List.lookup_cons, hne, hother]

theorem lookup_declareAll (s : Scopes) (names : Names) (name : String) :
    (s.declareAll names).lookup name = (names.reverse.lookup name <|> s.lookup name) := by
  induction names using List.reverseRecOn with
  | nil => rfl
  | append_singleton names p ih =>
    obtain ⟨other, binding⟩ := p
    rw [declareAll, List.foldl_append, List.foldl_cons, List.foldl_nil, lookup_declare,
      List.reverse_append, List.reverse_singleton, List.singleton_append, List.lookup_cons]
    by_cases hname : name = other
    · simp [hname]
    · rw [if_neg hname, beq_false_of_ne hname]
      exact ih

/-- After a block was entered and everything in it was balanced, a name that was not declared
    directly in it means what it meant before. -/
theorem lookup_performAll_block (s : Scopes) (owner : Scope) (h : Balanced since) (name : String) :
    (s.performAll (.enter owner :: since)).lookup name =
      (lastDeclared name since <|> s.lookup name) := by
  calc (s.performAll (.enter owner :: since)).lookup name
    _ = ((s.enter owner).declareAll (declared 0 since)).lookup name := by
      rw [← performAll_of_balanced _ h]
      rfl
    _ = (lastDeclared name since <|> (s.enter owner).lookup name) := lookup_declareAll _ _ _
    _ = (lastDeclared name since <|> s.lookup name) := rfl

/-- The binding was the last to be declared for the name in the innermost open frame in which the
    name was declared. -/
def Means (steps : List Step) (name : String) (binding : BindingId) : Prop :=
  ∃ since, OpenSince steps since ∧ lastDeclared name since = some binding ∧
    ∀ inner, OpenSince steps inner → inner.length < since.length → lastDeclared name inner = none

theorem openSince_iff_of_depth (h : depth 0 steps = 0) : OpenSince steps since ↔ since = steps := by
  constructor
  · intro hopen
    cases hopen with
    | body => rfl
    | @block before _ owner above split stays =>
      have hdepth := depth_of_level (level_enter stays owner (depth 0 before))
      rw [split, depth_append, hdepth] at h
      omega
  · rintro rfl
    exact .body

/-- The frames that are open when a block is being checked: its own and those that were open when
    it was entered. -/
theorem openSince_block_iff (h : Balanced since) {part : List Step} :
    OpenSince (before ++ .enter owner :: since) part ↔
      part = since ∨ ∃ outer, OpenSince before outer ∧ part = outer ++ .enter owner :: since := by
  constructor
  · intro hopen
    cases hopen with
    | body => exact .inr ⟨before, .body, rfl⟩
    | @block before' _ owner' above split stays =>
      -- the frame was entered by the step that entered the block, in the block or before it
      rcases List.append_eq_append_iff.mp split with ⟨mid, rfl, heq⟩ | ⟨mid, rfl, heq⟩
      · cases mid with
        | nil =>
          cases heq
          exact .inl rfl
        | cons step mid =>
          obtain ⟨rfl, rfl⟩ := List.cons.inj (heq.trans (List.cons_append ..))
          -- what was entered in the block has been left
          exact absurd stays (h.level_ne above)
      · cases mid with
        | nil =>
          cases heq
          exact .inl rfl
        | cons step mid =>
          obtain ⟨rfl, rfl⟩ := List.cons.inj (heq.trans (List.cons_append ..))
          rw [level_append] at stays
          obtain ⟨above, hmid, -⟩ := Option.bind_eq_some_iff.mp stays
          exact .inr ⟨mid, .block rfl hmid, rfl⟩
  · rintro (rfl | ⟨outer, hopen, rfl⟩)
    · exact .block rfl h
    · cases hopen with
      | body => exact .body
      | block split stays =>
        have hlevel := level_append 0 outer (.enter owner :: since)
        rw [stays, Option.bind_some, level_enter h] at hlevel
        exact .block (by rw [split, List.append_assoc]; rfl) hlevel

/-- What was done in a block that is open does not count for a frame around it. -/
theorem lastDeclared_append_block (h : Balanced since) (before : List Step) (owner : Scope)
    (name : String) :
    lastDeclared name (before ++ .enter owner :: since) = lastDeclared name before := by
  have hinside := declared_of_level h (depth 0 before)
  rw [Nat.zero_add] at hinside
  rw [lastDeclared, declared_append, declared, hinside, List.append_nil, lastDeclared]

/-- In a block that is being checked a name means what was declared last directly in the block, or
    what it meant when the block was entered. -/
theorem means_block_iff (h : Balanced since) :
    Means (before ++ .enter owner :: since) name binding ↔
      lastDeclared name since = some binding ∨
        lastDeclared name since = none ∧ Means before name binding := by
  have hshort : ∀ outer, since.length < (outer ++ Step.enter owner :: since).length := by
    intro outer
    rw [List.length_append, List.length_cons]
    omega
  constructor
  · rintro ⟨part, hopen, hlast, hinner⟩
    rcases (openSince_block_iff h).mp hopen with rfl | ⟨outer, houter, rfl⟩
    · exact .inl hlast
    · rw [lastDeclared_append_block h] at hlast
      refine .inr ⟨hinner since (.block rfl h) (hshort outer), outer, houter, hlast, ?_⟩
      intro inner hopen' hlt
      rw [← lastDeclared_append_block h inner owner]
      exact hinner _ ((openSince_block_iff h).mpr (.inr ⟨inner, hopen', rfl⟩)) (by simpa using hlt)
  · rintro (hlast | ⟨hnone, outer, houter, hlast, hinner⟩)
    · refine ⟨since, .block rfl h, hlast, fun inner hopen hlt => ?_⟩
      rcases (openSince_block_iff h).mp hopen with rfl | ⟨outer, -, rfl⟩
      · exact absurd hlt (Nat.lt_irrefl _)
      · exact absurd (hshort outer) (Nat.lt_asymm hlt)
    · refine ⟨_, (openSince_block_iff h).mpr (.inr ⟨outer, houter, rfl⟩),
        (lastDeclared_append_block h _ _ _).trans hlast, fun inner hopen hlt => ?_⟩
      rcases (openSince_block_iff h).mp hopen with rfl | ⟨outer', houter', rfl⟩
      · exact hnone
      · rw [lastDeclared_append_block h]
        exact hinner outer' houter' (by simpa using hlt)

theorem means_iff_of_depth (h : depth 0 steps = 0) :
    Means steps name binding ↔ lastDeclared name steps = some binding := by
  constructor
  · rintro ⟨since, hopen, hlast, -⟩
    rwa [(openSince_iff_of_depth h).mp hopen] at hlast
  · intro hlast
    refine ⟨steps, .body, hlast, fun inner hopen hlt => ?_⟩
    rw [(openSince_iff_of_depth h).mp hopen] at hlt
    exact absurd hlt (Nat.lt_irrefl _)

theorem lookup_empty_declareAll (names : Names) (name : String) :
    (empty.declareAll names).lookup name = names.reverse.lookup name := by
  rw [lookup_declareAll]
  cases names.reverse.lookup name <;> rfl

/-- A name means the binding that was last declared for it in the innermost open frame in which it
    was declared. -/
theorem lookup_eq_some_iff (steps : List Step) :
    (empty.performAll steps).lookup name = some binding ↔ Means steps name binding := by
  rcases exists_innermost steps with hzero | ⟨before, owner, since, rfl, hsince⟩
  · obtain ⟨top, hlength, hperform⟩ := performAll_empty steps
    have htop : top = [] := List.eq_nil_of_length_eq_zero (hlength.trans hzero)
    rw [means_iff_of_depth hzero, hperform, htop, lastDeclared, ← lookup_empty_declareAll]
    rfl
  · rw [performAll_append, lookup_performAll_block _ _ hsince, means_block_iff hsince,
      ← lookup_eq_some_iff before]
    cases lastDeclared name since <;> simp
termination_by steps.length

/-- Scopes are lexical.  After any steps a name means the binding that was last declared for it in
    the innermost open frame in which it was declared.  Balanced steps change any scopes in the
    way in which the declarations do that are made directly in the innermost frame, so nothing
    that is declared in a frame that they enter counts afterwards.  Leaving frames often enough,
    and more often than that, leaves the names of the body: those that were declared directly in
    it. -/
theorem performAll_lexical :
    (∀ steps name binding,
      (empty.performAll steps).lookup name = some binding ↔ Means steps name binding) ∧
    (∀ (s : Scopes) steps, Balanced steps →
      s.performAll steps = s.declareAll (declared 0 steps) ∧
      ∀ name, (s.performAll steps).lookup name = (lastDeclared name steps <|> s.lookup name)) ∧
    (∀ (s : Scopes) n, s.inner.length ≤ n →
      s.performAll (List.replicate n .leave) = ⟨[], s.body⟩) ∧
    ∀ steps n, depth 0 steps ≤ n → ∀ name,
      (empty.performAll (steps ++ List.replicate n .leave)).lookup name =
        lastDeclared name steps := by
  refine ⟨fun steps _ _ => lookup_eq_some_iff steps, fun s steps h => ?_, fun s n hn => ?_,
    fun steps n hn name => ?_⟩
  · refine ⟨performAll_of_balanced s h, fun name => ?_⟩
    rw [performAll_of_balanced s h, lookup_declareAll, lastDeclared]
  · rw [performAll_leaves, List.drop_eq_nil_of_le hn]
  · obtain ⟨top, hlength, hperform⟩ := performAll_empty steps
    have hbody := inner_declareAll_eq_nil (s := empty) rfl (declared 0 steps)
    rw [performAll_append, hperform, performAll_under_leaves hbody (hlength.symm ▸ hn),
      lookup_empty_declareAll, lastDeclared]

/-- The body declares a name, and a block another one of that name.  A block inside has declared it
    twice and been left; one more is open.  Before all this the body was left in vain. -/
def shadowing : List Step :=
  [.leave, .declare "x" 0, .enter (.block 1), .declare "x" 1, .enter (.block 2), .declare "x" 2,
    .declare "x" 3, .leave, .enter (.block 3)]

def balancing : List Step :=
  [.enter (.block 4), .declare "x" 4, .enter .body, .declare "y" 5, .leave, .leave, .declare "z" 6]

/-- The name means the one of the block that is open, with more blocks entered and left as well, and
    that of the body once all have been left. -/
theorem shadowing_lexical :
    Means shadowing "x" 1 ∧ (empty.performAll shadowing).lookup "x" = some 1 ∧
      Balanced balancing ∧ declared 0 balancing = [("z", 6)] ∧
      ((empty.performAll shadowing).performAll balancing).lookup "x" = some 1 ∧
      ((empty.performAll shadowing).performAll balancing).lookup "y" = none ∧
      ((empty.performAll shadowing).performAll balancing).lookup "z" = some 6 ∧
      depth 0 shadowing = 2 ∧
      (empty.performAll shadowing).performAll (List.replicate 4 .leave) = ⟨[], [("x", 0)]⟩ ∧
      (empty.performAll (shadowing ++ List.replicate 4 .leave)).lookup "x" = some 0 := by
  obtain ⟨hmeans, hbalanced, hbody, hleft⟩ := performAll_lexical
  have hlookup : (empty.performAll shadowing).lookup "x" = some 1 := rfl
  have hbalancing : Balanced balancing := by decide
  obtain ⟨-, hafter⟩ := hbalanced (empty.performAll shadowing) balancing hbalancing
  refine ⟨(hmeans _ _ _).mp hlookup, hlookup, hbalancing, rfl, ?_, ?_, ?_, rfl, ?_, ?_⟩
  · exact (hafter "x").trans hlookup
  · exact hafter "y"
  · exact hafter "z"
  · exact hbody _ 4 (by decide)
  · exact hleft shadowing 4 (by decide) "x"

end UnionTyping.Scopes
