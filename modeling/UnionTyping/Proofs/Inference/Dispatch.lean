/-
  UnionTyping/Proofs/Inference/Dispatch.lean
  ==========================================
  **Calls in the last check of a unit.**

  When a call is frozen and its receiver and arguments have types, it does not wait
  any more: it is resolved for each member of the receiver and each choice of
  members of the arguments, and each of these ways is noted once, in order
  (`Frozen.choicesAt_callOn`).  The call itself has a type then.  A call without receiver
  and one on a class are read as what they found (`Frozen.of_callTopLevel`,
  `Frozen.of_callOnSelf`, `Frozen.of_callOnClass`).  Making a new instance and taking an
  address end with noting the one call that they are (`Frozen.of_callNew`,
  `Frozen.of_takePointer`).
-/
import UnionTyping.Proofs.Inference.Frozen

namespace UnionTyping

open Ty (Over Proper Known)

/-! ### Candidates whose values have types -/

theorem SameType.mono {T T' : Ty → Prop} (hTT' : ∀ t, T t → T' t) :
    ∀ t t', SameType T t t' → SameType T' t t' :=
  fun _ _ h => ⟨h.1, hTT' _ h.2⟩

/-- What is called on a value gives a value. -/
theorem Ty.Over.offered {env : Env} {t : Ty} (h : t.Over Proper) (name : String) :
    ∀ k ∈ env.candidates t name, k.Offered env (SameType Known) := by
  intro k hk
  rcases Env.mem_candidates hk with ⟨id, _, hk⟩ | ⟨className, args, p, rfl, hp, rfl⟩
  · exact Candidate.offered_of_mem_lookup hk
  · have ht : Proper (.con className args) := h.all _ List.mem_cons_self
    refine SameType.self ?_
    rcases Primitive.mem_on_cases hp with ⟨l, hl⟩ | hself | hhead
    · rw [hl]
      exact l.plain.proper.known
    · rw [hself]
      exact ht.known
    · exact ht.known_arg (List.mem_of_head? hhead)

theorem Candidate.offered_of_malloc {env : Env} {className : String} {params : List Ty}
    {p : Primitive} (h : Proper (.con className params))
    (hp : Primitive.malloc className params = .ok p) :
    ∀ k ∈ [Candidate.primitive p], k.Offered env (SameType Known) := by
  intro k hk
  rw [List.mem_singleton.mp hk]
  exact SameType.self (Primitive.known_malloc h hp)

/-! ### The ways noted for a node -/

/-- The receiver and the argument types of one way of carrying out a call. -/
def Resolution.choice (call : Resolution) : Option Ty × List Ty := (call.receiver, call.args)

def Apart (choices : List (Option Ty × List Ty)) : Prop :=
  choices.Pairwise fun p q => (p == q) = false

theorem Resolution.beq_iff {call call' : Resolution} : (call == call') = true ↔
    (call.receiver == call'.receiver) = true ∧ call.callee = call'.callee ∧
      (call.args == call'.args) = true ∧ (call.ret == call'.ret) = true := by
  have hsplit : (call == call') = (call.receiver == call'.receiver &&
      (call.callee == call'.callee && (call.args == call'.args && call.ret == call'.ret))) := rfl
  rw [hsplit, Bool.and_eq_true_iff, Bool.and_eq_true_iff, Bool.and_eq_true_iff,
    beq_iff_eq (a := call.callee)]

theorem Resolution.choice_beq {call call' : Resolution} (h : (call == call') = true) :
    (call.choice == call'.choice) = true := by
  obtain ⟨hreceiver, _, hargs, _⟩ := beq_iff.mp h
  exact Bool.and_eq_true_iff.mpr ⟨hreceiver, hargs⟩

def Walk.choicesAt (walk : Walk) (node : NodeId) : List (Option Ty × List Ty) :=
  ((walk.calls.find? node).getD []).map Resolution.choice

theorem Walk.choicesAt_eq {walk walk' : Walk} {node : NodeId}
    (h : walk'.found node = walk.found node) : walk'.choicesAt node = walk.choicesAt node := by
  have hcalls : walk'.calls.find? node = walk.calls.find? node := congrArg Prod.snd h
  rw [choicesAt, choicesAt, hcalls]

/-- Distinct receivers and arguments with distinct members are chosen from in distinct
    ways. -/
theorem apart_choices {receivers args : List Ty} (hreceivers : Ty.Distinct receivers)
    (hargs : ∀ a ∈ args, Ty.Distinct a.members) :
    Apart (receivers.flatMap fun r => (Overload.choices args).map fun as => (some r, as)) := by
  have hsplit : ∀ (r r' : Ty) (as bs : List Ty),
      ((some r, as) == (some r', bs)) = (r == r' && as == bs) := fun _ _ _ _ => rfl
  rw [Apart, List.pairwise_flatMap]
  constructor
  · intro r _
    refine List.pairwise_map.mpr ((Overload.pairwise_choices hargs).imp fun hne => ?_)
    rw [hsplit, hne, Bool.and_false]
  · refine hreceivers.imp fun hne p hp q hq => ?_
    obtain ⟨as, _, rfl⟩ := List.mem_map.mp hp
    obtain ⟨bs, _, rfl⟩ := List.mem_map.mp hq
    rw [hsplit, hne, Bool.false_and]

theorem Walk.choicesAt_noted {walk : Walk} (hwalk : walk.calls.Ascending) {node : NodeId}
    {call : Resolution} (happart : ∀ p ∈ walk.choicesAt node, (p == call.choice) = false) :
    (walk.noted node call).choicesAt node = walk.choicesAt node ++ [call.choice] := by
  have hnew : ((walk.calls.find? node).getD []).any (· == call) = false := by
    rw [List.any_eq_false]
    intro known hknown hsame
    have hne := happart known.choice (List.mem_map.mpr ⟨known, hknown, rfl⟩)
    rw [Resolution.choice_beq hsame] at hne
    cases hne
  rw [choicesAt, noted, NodeMap.find?_alter hwalk, if_pos rfl, Option.getD_some]
  simp only [hnew, Bool.false_eq_true, if_false]
  rw [List.map_append]
  rfl

/-- What is invoked when a candidate is entered, and what it returns: a method as the unit of
    the same instance. -/
def Candidate.EnteredAs (s : Engine) (self : Option Ty) (args : List Ty) :
    Candidate → Callee → Ty → Prop
  | .method entry, callee, ret => ∃ unit key, callee = .method entry.id unit ∧
      s.keyOf unit = some key ∧ ((⟨entry.id, self, args⟩ : Instantiation) == key) = true ∧
      s.returnedType unit = ret
  | .primitive p, callee, ret => (∃ name, callee = .primitive name) ∧ ret = p.ret

variable {c : Checking} {s : Engine} {w w' : Walk}

namespace Frozen

/-! ### Instances -/

/-- What a unit returns is read from its binding. -/
theorem of_readReturn (hstill : Still c s) {unit : UnitId} {p : UnitId × Ty}
    (hunit : unit < s.units.length) (h : Frozen s (c.readReturn unit) w p w') :
    ∃ i, s.store.find (.returned unit) = some i ∧ i < s.store.bindings.length ∧ p.1 = unit ∧
      Frozen s (c.read i) w p.2 w' := by
  have hstable := stable_true c.env Proper .full
  obtain ⟨i, w₁, ⟨_, hi⟩, hbinding, hread⟩ :=
    h.bind_at (S := fun _ (a b : UnitId × Ty) => a = b) hstill
      (Replay.At.bindingOf hstable (h.situation hstill) hunit) fun n i i' w₁ e₁ _ hij hs₁ _ => by
      obtain ⟨rfl, hi⟩ := hij
      refine Replay.At.bind hs₁ (Replay.At.read hstable rfl hs₁ hi)
        fun n₂ t t' w₂ e₂ _ ht hs₂ _ => ?_
      obtain ⟨rfl, _⟩ := ht
      exact Replay.At.pure hs₂ rfl
  obtain ⟨hfind, rfl⟩ := hbinding.of_bindingOf
  obtain ⟨t, rfl, ht⟩ := hread.of_map
  exact ⟨i, hfind, hi, rfl, ht⟩

/-- Every instance that a frozen call enters has its unit. -/
theorem of_instanceOf (hstill : Still c s) {site : Location} {method : MethodId}
    {self : Option Ty} {args : List Ty} {p : UnitId × Ty}
    (hkey : Instantiation.Ok c.env (Over Proper) ⟨method, self, args⟩)
    (h : Frozen s (c.instanceOf site method self args) w p w') :
    ∃ unit, s.unitOf ⟨method, self, args⟩ = some unit ∧ Frozen s (c.readReturn unit) w p w' := by
  have hstable := stable_true c.env Proper .full
  rcases instanceOf_cases h.run with
    ⟨unit, hunit, hread⟩ | ⟨hunit, ⟨_, hstop, _⟩ | ⟨e₁, hbegun, hread⟩⟩
  · exact ⟨unit, hunit, h.start, hread, h.silent⟩
  · cases hstop
  · -- a new instance would have its unit in the end
    obtain ⟨hok₁, hgrows₁, hkeys, _⟩ := hstill.begins .full _ _ _ _ _ hstill.ok hunit hkey hbegun
    have hadded := Engine.unitOf_of_prefix hkeys (Engine.unitOf_add hunit)
    have hs₁ : Replay.Situation c Proper .full s.store.bindings.length w e₁ :=
      ⟨hgrows₁.extends.bindings_le, h.start.mono hgrows₁.extends.bindings_le, hok₁,
        Nat.lt_of_lt_of_le hstill.unit hgrows₁.extends.units_le⟩
    obtain ⟨_, hgrows₂, _⟩ :=
      Replay.At.readReturn hstable rfl hs₁ (Engine.unitOf_lt hadded) _ _ hread
    rw [Engine.unitOf_of_prefix hgrows₂.keys hadded] at hunit
    cases hunit

/-- An instance that is entered returns a value. -/
theorem known_instanceOf (hrest : Rest c s) {site : Location} {method : MethodId}
    {self : Option Ty} {args : List Ty} {p : UnitId × Ty}
    (hkey : Instantiation.Ok c.env (Over Proper) ⟨method, self, args⟩)
    (h : Frozen s (c.instanceOf site method self args) w p w') :
    p.2.Known ∧ s.returnedType p.1 = p.2 ∧
      ∃ key, s.keyOf p.1 = some key ∧ ((⟨method, self, args⟩ : Instantiation) == key) = true := by
  obtain ⟨unit, hunit, hreturn⟩ := h.of_instanceOf hrest hkey
  obtain ⟨i, hfind, hi, hsame, hread⟩ := hreturn.of_readReturn hrest (Engine.unitOf_lt hunit)
  obtain ⟨b, hget, _, hcurrent, _, _⟩ := hread.of_read hrest hi
  rw [hsame]
  refine ⟨hread.known_read hrest hi, ?_, Engine.exists_key_of_unitOf hunit⟩
  rw [Engine.returnedType, hfind, hcurrent]
  exact Store.typeOf_eq hget

/-- A candidate that is entered gives a value, and nothing is noted on the way. -/
theorem of_enter (hrest : Rest c s) {site : Location} {self : Option Ty} {name : String}
    {args : List Ty} {k : Candidate} {p : Ty × Callee}
    (hself : ∀ t, self = some t → t.Over Proper) (hk : k.Offered c.env (SameType Known))
    (htakes : k.signature.takes args.length = true) (hargs : ∀ a ∈ args, a.Over Proper)
    (h : Frozen s (c.enter site self name args k) w p w') :
    p.1.Known ∧ k.EnteredAs s self args p.2 p.1 ∧ ∀ node, w'.found node = w.found node := by
  rw [← and_assoc]
  constructor
  · cases k with
    | method entry =>
      obtain ⟨q, rfl, hq⟩ := h.of_map
      obtain ⟨hknown, hret, key, hkey, hsame⟩ :=
        hq.known_instanceOf hrest ⟨⟨entry, hk, rfl, htakes⟩, hself, hargs⟩
      exact ⟨hknown, q.1, key, rfl, hkey, hsame, hret⟩
    | primitive prim =>
      obtain ⟨rfl, _⟩ := h.of_pure
      exact ⟨hk.2, ⟨name, rfl⟩, rfl⟩
  · intro node
    have U := hrest.uniform (.only fun _ => False)
    exact h.untouched hrest
      (U.enterOne hself (hk.mono (SameType.mono fun _ ht => ht.isOver)) htakes hargs) id

/-! ### Matches -/

def Fitting (candidates : List Candidate) (found : List Overload.Match) : Prop :=
  ∀ m ∈ found, (∀ a ∈ m.args, a.Over Proper) ∧
    ∃ k, candidates[m.candidate]? = some k ∧ k.signature.takes m.args.length = true

theorem fitting_of_resolve {h : Hierarchy} {candidates : List Candidate} {args : List Ty}
    {found : List Overload.Match}
    (hr : Overload.resolve h (candidates.map Candidate.signature) args = .ok found)
    (hargs : ∀ a ∈ args, a.Over Proper) : Fitting candidates found := by
  intro m hm
  obtain ⟨hchoice, signature, hget, htakes, _⟩ := Overload.exists_signature_of_resolve hr hm
  constructor
  · intro a ha
    obtain ⟨t, ht, hat⟩ := Overload.exists_members_of_mem_choices hchoice ha
    exact ((hargs t ht).all a hat).isOver
  · rw [List.getElem?_map] at hget
    obtain ⟨k, hk, rfl⟩ := Option.map_eq_some_iff.mp hget
    rw [Overload.length_of_mem_choices hchoice]
    exact ⟨k, hk, htakes⟩

/-- The first match of a call is entered, and then the others are. -/
theorem enter_of_enterAll (hstill : Still c s) {mark : Mark} {self : Option Ty} {name : String}
    {candidates : List Candidate} (hself : ∀ t, self = some t → t.Over Proper)
    (hcandidates : ∀ k ∈ candidates, k.Offered c.env (SameType (Over Proper)))
    {result t : Ty} {found : Overload.Match} {rest : List Overload.Match}
    (hfound : Fitting candidates (found :: rest)) (hresult : result.Over Proper)
    (h : Frozen s (c.enterAll mark self name candidates result (found :: rest)) w t w') :
    ∃ k p w₁, candidates[found.candidate]? = some k ∧
      k.signature.takes found.args.length = true ∧ p.1.Over Proper ∧
      w₁.Ok (Over Proper) .full s.store.bindings.length ∧
      Frozen s (c.enter mark.loc self name found.args k) w p w₁ ∧
      Frozen s (c.enterAll mark self name candidates (result.union p.1) rest)
        (w₁.noted mark.id ⟨self, p.2, found.args, p.1⟩) t w' := by
  have U := hstill.uniform .full
  obtain ⟨⟨hargs, k, hget, htakes⟩, hfit⟩ := List.forall_mem_cons.mp hfound
  rw [Checking.enterAll, hget] at h
  obtain ⟨⟨ty, target⟩, w₁, ⟨_, hty⟩, henter, h⟩ := h.bind (S := fun _ => SameType (Over Proper))
    hstill (U.enterOne hself (hcandidates k (List.mem_of_getElem? hget)) htakes hargs)
    fun n p p' _ hp => by
      obtain ⟨rfl, hty⟩ := hp
      refine U.seq (U.noteCall trivial (SameType.option_iff.mpr ⟨rfl, hself⟩)
        (SameType.forall₂_iff.mpr ⟨rfl, hargs⟩) (.self hty)) fun _ _ _ _ _ => ?_
      refine U.enterAll trivial hself hcandidates (fun m hm => ?_)
        (U.types.union (.self hresult) (.self hty)).2
      obtain ⟨hm, k', hk', htakes'⟩ := hfit m hm
      exact ⟨hm, fun _ h => Option.some.inj (hk'.symm.trans h) ▸ htakes'⟩
  have hnote : runWalk (Checking.noteCall mark.id ⟨self, target, found.args, ty⟩) w₁ s =
      (.ok ((), w₁.noted mark.id ⟨self, target, found.args, ty⟩), s) := rfl
  have hrun := h.run
  rw [runWalk_bind_ok hnote] at hrun
  exact ⟨k, (ty, target), w₁, hget, htakes, hty, h.start, henter,
    h.start.noteCall ⟨hself, hargs, hty⟩, hrun, h.silent⟩

section

variable (hrest : Rest c s) {mark : Mark} {self : Option Ty} {name : String}
  {candidates : List Candidate} (hself : ∀ t, self = some t → t.Over Proper)
  (hcandidates : ∀ k ∈ candidates, k.Offered c.env (SameType Known))
include hrest hself hcandidates

/-- What comes after the first match of a call was entered. -/
theorem of_enterAll_cons {result t : Ty} {found : Overload.Match} {rest : List Overload.Match}
    (hfound : Fitting candidates (found :: rest)) (hresult : result.Over Proper)
    (h : Frozen s (c.enterAll mark self name candidates result (found :: rest)) w t w') :
    ∃ (call : Resolution) (w₁ : Walk), call.choice = (self, found.args) ∧ call.ret.Known ∧
      (∃ k, candidates[found.candidate]? = some k ∧
        k.EnteredAs s self found.args call.callee call.ret) ∧
      (∀ node, w₁.found node = w.found node) ∧
      w₁.Ok (Over Proper) .full s.store.bindings.length ∧
      Frozen s (c.enterAll mark self name candidates (result.union call.ret) rest)
        (w₁.noted mark.id call) t w' := by
  obtain ⟨k, p, w₁, hget, htakes, _, hok, henter, hothers⟩ := h.enter_of_enterAll hrest hself
    (fun k hk => (hcandidates k hk).mono (SameType.mono fun _ ht => ht.isOver)) hfound hresult
  obtain ⟨hty, hentered, hsame⟩ := henter.of_enter hrest hself
    (hcandidates k (List.mem_of_getElem? hget)) htakes (hfound found List.mem_cons_self).1
  exact ⟨⟨self, p.2, found.args, p.1⟩, w₁, rfl, hty, ⟨k, hget, hentered⟩, hsame, hok, hothers⟩

/-- A call with a match has a type. -/
theorem known_enterAll {result t : Ty} {found : List Overload.Match}
    (hfound : Fitting candidates found) (hresult : result.Over Proper)
    (hsome : result.Known ∨ found ≠ [])
    (h : Frozen s (c.enterAll mark self name candidates result found) w t w') : t.Known := by
  induction found generalizing w result with
  | nil =>
    obtain ⟨rfl, _⟩ := h.of_pure
    exact hsome.resolve_right fun hne => hne rfl
  | cons m rest ih =>
    obtain ⟨call, w₁, _, hret, _, _, _, hrun⟩ :=
      h.of_enterAll_cons hrest hself hcandidates hfound hresult
    have hknown := Known.union hresult hret.isOver (Or.inr hret)
    exact ih (List.forall_mem_cons.mp hfound).2 hknown.isOver (Or.inl hknown) hrun

/-- Each match is noted. -/
theorem choicesAt_enterAll {result t : Ty} {found : List Overload.Match}
    (hfound : Fitting candidates found) (hresult : result.Over Proper)
    (happart : Apart (w.choicesAt mark.id ++ found.map fun m => (self, m.args)))
    (h : Frozen s (c.enterAll mark self name candidates result found) w t w') :
    w'.choicesAt mark.id = w.choicesAt mark.id ++ found.map fun m => (self, m.args) := by
  induction found generalizing w result with
  | nil =>
    obtain ⟨_, rfl⟩ := h.of_pure
    exact (List.append_nil _).symm
  | cons m rest ih =>
    obtain ⟨call, w₁, hchoice, hret, _, hsame, hok, hrun⟩ :=
      h.of_enterAll_cons hrest hself hcandidates hfound hresult
    have hchoices := Walk.choicesAt_eq (hsame mark.id)
    have hnoted : (w₁.noted mark.id call).choicesAt mark.id =
        w.choicesAt mark.id ++ [(self, m.args)] := by
      rw [Walk.choicesAt_noted hok.callsAscending, hchoices, hchoice]
      intro p hp
      rw [hchoices] at hp
      rw [hchoice]
      exact (List.pairwise_append.mp happart).2.2 p hp _ List.mem_cons_self
    have hnext : (w₁.noted mark.id call).choicesAt mark.id ++ rest.map (fun m => (self, m.args)) =
        w.choicesAt mark.id ++ (m :: rest).map fun m => (self, m.args) := by
      rw [hnoted, List.append_assoc]
      rfl
    have hknown := Known.union hresult hret.isOver (Or.inr hret)
    rw [ih (List.forall_mem_cons.mp hfound).2 hknown.isOver (by rw [hnext]; exact happart) hrun,
      hnext]

omit hrest hself hcandidates in
/-- A frozen call does not fail. -/
theorem some_of_callAmong {args : List Ty} {o : Option Ty}
    (h : Frozen s (c.callAmong mark self name candidates args) w o w') : ∃ t, o = some t := by
  unfold Checking.callAmong at h
  simp only at h
  split at h
  · exact absurd h not_fail_map
  · split at h
    · exact ⟨.unresolved, h.of_pure.1⟩
    · split at h
      · exact absurd h not_fail_map
      · obtain ⟨t, rfl, _⟩ := h.of_map
        exact ⟨t, rfl⟩

omit hrest hself hcandidates in
/-- A frozen call does not wait: it is resolved and carried out. -/
theorem of_callAmong {args : List Ty} {o : Option Ty} (hargs : ∀ a ∈ args, a.Known)
    (h : Frozen s (c.callAmong mark self name candidates args) w o w') :
    ∃ t found, o = some t ∧
      Overload.resolve c.env.hierarchy (candidates.map Candidate.signature) args = .ok found ∧
      Frozen s (c.enterAll mark self name candidates .unresolved found) w t w' := by
  unfold Checking.callAmong at h
  simp only at h
  split at h
  · exact absurd h not_fail_map
  · split at h
    · rename_i hwaits
      obtain ⟨a, ha, hu⟩ := List.any_eq_true.mp hwaits
      rw [(hargs a ha).isUnresolved_eq_false] at hu
      cases hu
    · split at h
      · exact absurd h not_fail_map
      · rename_i found hr
        obtain ⟨t, rfl, hall⟩ := h.of_map
        exact ⟨t, found, rfl, hr, hall⟩

theorem known_callAmong {args : List Ty} {o : Option Ty} (hargs : ∀ a ∈ args, a.Known)
    (h : Frozen s (c.callAmong mark self name candidates args) w o w') :
    ∃ t, o = some t ∧ t.Known := by
  obtain ⟨t, found, rfl, hr, h⟩ := h.of_callAmong hargs
  have hover : ∀ a ∈ args, a.Over Proper := fun a ha => (hargs a ha).isOver
  have hsome : found ≠ [] := by
    rintro rfl
    have hnil := Overload.map_args_of_resolve hr fun a ha => (hover a ha).distinct
    exact Overload.choices_ne_nil (fun a ha => (hargs a ha).inhabited) hnil.symm
  exact ⟨t, rfl, h.known_enterAll hrest hself hcandidates (fitting_of_resolve hr hover)
    Over.unresolved (Or.inr hsome)⟩

/-- A call is carried out once for each choice of members of its arguments. -/
theorem choicesAt_callAmong {args : List Ty} {o : Option Ty} (hargs : ∀ a ∈ args, a.Known)
    (happart : Apart (w.choicesAt mark.id ++ (Overload.choices args).map fun as => (self, as)))
    (h : Frozen s (c.callAmong mark self name candidates args) w o w') :
    w'.choicesAt mark.id =
      w.choicesAt mark.id ++ (Overload.choices args).map fun as => (self, as) := by
  obtain ⟨t, found, rfl, hr, h⟩ := h.of_callAmong hargs
  have hover : ∀ a ∈ args, a.Over Proper := fun a ha => (hargs a ha).isOver
  have hmap : (found.map fun m => (self, m.args)) =
      (Overload.choices args).map fun as => (self, as) := by
    rw [← Overload.map_args_of_resolve hr fun a ha => (hover a ha).distinct, List.map_map]
    rfl
  rw [← hmap] at happart ⊢
  exact h.choicesAt_enterAll hrest hself hcandidates (fitting_of_resolve hr hover) Over.unresolved
    happart

end

/-! ### What a call comes down to -/

/-- At the top level a call is made among the methods that are found there. -/
theorem of_callTopLevel {mark : Mark} {name : String} {args : List Ty} {bare : Bool} {t : Ty}
    (h : Frozen s (c.callTopLevel mark name args bare) w t w') :
    c.env.methods.topLevel name ≠ [] ∧
      Frozen s (do
        let o ← c.callAmong mark none name ((c.env.methods.topLevel name).map .method) args
        return o.getD .unresolved) w t w' := by
  unfold Checking.callTopLevel at h
  simp only [List.isEmpty_iff, List.map_eq_nil_iff] at h
  split at h
  · exact absurd h not_fail
  · rename_i hne
    exact ⟨hne, h⟩

/-- A call without receiver is made on the object itself if that has the method, and at the top
    level otherwise. -/
theorem of_callOnSelf {mark : Mark} {name : String} {args : List Ty} {bare : Bool} {t : Ty}
    (h : Frozen s (c.callOnSelf mark name args bare) w t w') :
    (∃ self, c.self = some self ∧ c.env.candidates self name ≠ [] ∧
      Frozen s (do
        let o ← c.callAmong mark (some self) name (c.env.candidates self name) args
        return o.getD .unresolved) w t w') ∨
      ((∀ self, c.self = some self → c.env.candidates self name = []) ∧
        Frozen s (c.callTopLevel mark name args bare) w t w') := by
  unfold Checking.callOnSelf at h
  cases hself : c.self with
  | none =>
    rw [hself] at h
    exact Or.inr ⟨(fun _ heq => nomatch heq), h⟩
  | some self =>
    rw [hself] at h
    simp only [List.isEmpty_iff] at h
    split at h
    · rename_i hempty
      exact Or.inr ⟨fun _ heq => Option.some.inj heq ▸ hempty, h⟩
    · rename_i hne
      exact Or.inl ⟨self, rfl, hne, h⟩

/-- Allocating is a call of the primitive for the type. -/
theorem of_callMalloc {mark : Mark} {args : List Ty} {ty t : Ty} (hty : ty.IsCon)
    (h : Frozen s (c.callMalloc mark ty args) w t w') :
    ∃ className params p, ty = .con className params ∧
      Primitive.malloc className params = .ok p ∧
      Frozen s (do
        let o ← c.callAmong mark (some ty) "malloc" [.primitive p] args
        return o.getD .unresolved) w t w' := by
  obtain ⟨className, params, rfl⟩ := hty
  unfold Checking.callMalloc at h
  simp only at h
  split at h
  · exact absurd h not_fail
  · rename_i p hp
    exact ⟨className, params, p, rfl, hp, h⟩

/-- A class is asked for a new instance or, if it is that of pointers, for memory. -/
theorem of_callOnClass {mark : Mark} {className name : String} {args : List Ty} {ty t : Ty}
    (h : Frozen s (c.callOnClass mark className ty name args) w t w') :
    (name = "new" ∧ Frozen s (c.callNew mark ty args) w t w') ∨
      (name = "malloc" ∧ className = "Pointer" ∧ Frozen s (c.callMalloc mark ty args) w t w') := by
  unfold Checking.callOnClass at h
  split at h
  · rename_i hnew
    exact Or.inl ⟨hnew, h⟩
  · split at h
    · rename_i hmalloc
      exact Or.inr ⟨hmalloc.1, hmalloc.2, h⟩
    · exact absurd h not_fail

/-! ### Receivers -/

/-- What comes after a call was noted. -/
theorem of_noteCall {node : NodeId} {call : Resolution} {ty t : Ty}
    (h : Frozen s (do Checking.noteCall node call; return ty) w t w') :
    t = ty ∧ w' = w.noted node call := by
  have hnote : runWalk (Checking.noteCall node call) w s = (.ok ((), w.noted node call), s) := rfl
  have hrun := h.run
  rw [runWalk_bind_ok hnote, runWalk_pure] at hrun
  cases hrun
  exact ⟨rfl, rfl⟩

section

variable (hrest : Rest c s) {mark : Mark} {name : String} {args : List Ty}
  (hargs : ∀ a ∈ args, a.Known)
include hrest hargs

/-- What comes after the call was made on the first of several receivers. -/
theorem of_callOnEach_cons {result t r : Ty} {rest : List Ty}
    (hr : ∀ m ∈ r :: rest, Proper m) (hresult : result.Over Proper)
    (h : Frozen s (c.callOnEach mark name args result (r :: rest)) w t w') :
    ∃ ty w₁, ty.Known ∧
      Frozen s (c.callAmong mark (some r) name (c.env.candidates r name) args) w (some ty) w₁ ∧
      Frozen s (c.callOnEach mark name args (result.union ty) rest) w₁ t w' := by
  have U := hrest.uniform .full
  obtain ⟨hhead, htail⟩ := List.forall_mem_cons.mp hr
  have hself : ∀ t, some r = some t → t.Over Proper := by
    rintro t ⟨⟩
    exact hhead.isOver
  rw [Checking.callOnEach] at h
  split at h
  · exact absurd h not_fail
  · obtain ⟨o, w₁, _, hone, hrun⟩ := h.bind hrest
      (U.lockstep.callAmong trivial (.some (.self hhead.isOver))
        (fun t ht => Option.some.inj ht ▸ hhead.isCon)
        (fun k hk => (hhead.isOver.offered name k hk).mono (SameType.mono fun _ ht => ht.isOver))
        (SameType.forall₂_iff.mpr ⟨rfl, fun a ha => (hargs a ha).isOver⟩)) fun n o o' _ ho => by
        cases ho with
        | none => exact U.ret U.types.unresolved
        | some ht =>
          obtain ⟨rfl, ht⟩ := ht
          exact U.callOnEach trivial (fun a ha => (hargs a ha).isOver)
            (fun m hm => (htail m hm).isOver)
            (U.types.union (.self hresult) (.self ht)).2
    obtain ⟨ty, rfl, hty⟩ := hone.known_callAmong hrest hself (hhead.isOver.offered name) hargs
    exact ⟨ty, w₁, hty, hone, hrun⟩

theorem known_callOnEach {result t : Ty} {receivers : List Ty} (hr : ∀ m ∈ receivers, Proper m)
    (hresult : result.Over Proper) (hsome : result.Known ∨ receivers ≠ [])
    (h : Frozen s (c.callOnEach mark name args result receivers) w t w') : t.Known := by
  induction receivers generalizing w result with
  | nil =>
    obtain ⟨rfl, _⟩ := h.of_pure
    exact hsome.resolve_right fun hne => hne rfl
  | cons r rest ih =>
    obtain ⟨ty, w₁, hty, _, hrun⟩ := h.of_callOnEach_cons hrest hargs hr hresult
    have hknown := Known.union hresult hty.isOver (Or.inr hty)
    exact ih (List.forall_mem_cons.mp hr).2 hknown.isOver (Or.inl hknown) hrun

theorem choicesAt_callOnEach {result t : Ty} {receivers : List Ty}
    (hr : ∀ m ∈ receivers, Proper m) (hresult : result.Over Proper)
    (happart : Apart (w.choicesAt mark.id ++
      receivers.flatMap fun r => (Overload.choices args).map fun as => (some r, as)))
    (h : Frozen s (c.callOnEach mark name args result receivers) w t w') :
    w'.choicesAt mark.id = w.choicesAt mark.id ++
      receivers.flatMap fun r => (Overload.choices args).map fun as => (some r, as) := by
  induction receivers generalizing w result with
  | nil =>
    obtain ⟨_, rfl⟩ := h.of_pure
    exact (List.append_nil _).symm
  | cons r rest ih =>
    obtain ⟨ty, w₁, hty, hone, hrun⟩ := h.of_callOnEach_cons hrest hargs hr hresult
    obtain ⟨hhead, htail⟩ := List.forall_mem_cons.mp hr
    rw [List.flatMap_cons, ← List.append_assoc] at happart ⊢
    have hself : ∀ t, some r = some t → t.Over Proper := by
      rintro t ⟨⟩
      exact hhead.isOver
    have hchoices := hone.choicesAt_callAmong hrest hself (hhead.isOver.offered name) hargs
      (List.pairwise_append.mp happart).1
    have hknown := Known.union hresult hty.isOver (Or.inr hty)
    rw [ih htail hknown.isOver (by rw [hchoices]; exact happart) hrun, hchoices]

/-- A call on a value gives a value. -/
theorem known_callOn {receiver t : Ty} (hreceiver : receiver.Known)
    (h : Frozen s (c.callOn mark receiver name args) w t w') : t.Known :=
  h.known_callOnEach hrest hargs hreceiver.isOver.all Over.unresolved (Or.inr hreceiver.inhabited)

/-- A call on a value is carried out once for each member of its receiver and each choice
    of members of its arguments. -/
theorem choicesAt_callOn {receiver t : Ty} (hreceiver : receiver.Known)
    (hnew : w.choicesAt mark.id = [])
    (h : Frozen s (c.callOn mark receiver name args) w t w') :
    w'.choicesAt mark.id =
      receiver.members.flatMap fun r => (Overload.choices args).map fun as => (some r, as) := by
  have happart : Apart
      (receiver.members.flatMap fun r => (Overload.choices args).map fun as => (some r, as)) :=
    apart_choices hreceiver.isOver.distinct fun a ha => (hargs a ha).isOver.distinct
  have hchoices := h.choicesAt_callOnEach hrest hargs hreceiver.isOver.all Over.unresolved
    (by rw [hnew]; exact happart)
  rw [hchoices, hnew, List.nil_append]

/-! ### Other calls -/

theorem known_getD {self : Option Ty} {candidates : List Candidate} {t : Ty}
    (hself : ∀ t, self = some t → t.Over Proper)
    (hcandidates : ∀ k ∈ candidates, k.Offered c.env (SameType Known))
    (h : Frozen s (do return (← c.callAmong mark self name candidates args).getD .unresolved)
      w t w') :
    t.Known := by
  obtain ⟨o, rfl, hcall⟩ := h.of_map
  obtain ⟨ty, rfl, hty⟩ := hcall.known_callAmong hrest hself hcandidates hargs
  exact hty

theorem known_callTopLevel {bare : Bool} {t : Ty}
    (h : Frozen s (c.callTopLevel mark name args bare) w t w') : t.Known := by
  obtain ⟨_, hcall⟩ := h.of_callTopLevel
  have hself : ∀ t, (none : Option Ty) = some t → t.Over Proper := fun _ ht => nomatch ht
  exact hcall.known_getD hrest hargs hself fun _ => Candidate.offered_of_mem_topLevel

theorem known_callOnSelf {bare : Bool} {t : Ty}
    (h : Frozen s (c.callOnSelf mark name args bare) w t w') : t.Known := by
  rcases h.of_callOnSelf with ⟨self, hself, _, hcall⟩ | ⟨_, hcall⟩
  · have hover := hrest.self self hself
    exact hcall.known_getD hrest hargs (fun _ ht => Option.some.inj ht ▸ hover) (hover.offered name)
  · exact hcall.known_callTopLevel hrest hargs

omit hrest hargs in
/-- A new instance of a declared class is noted after `initialize` was called, if there is one. -/
theorem of_callNew (hstill : Still c s) (hargs : ∀ a ∈ args, a.Over Proper) {ref : TypeRef}
    {ty t : Ty} (hty : c.env.classes.typeOf ref = .ok ty)
    (h : Frozen s (c.callNew mark ty args) w t w') :
    t = ty ∧ ∃ id w₁, c.env.classes.classOf ty = some id ∧
      w₁.Ok (Over Proper) .full s.store.bindings.length ∧
      w' = w₁.noted mark.id ⟨none, .allocate (c.env.classes.nameOf id), args, ty⟩ ∧
      ((c.env.methods.lookup c.env.classes id "initialize" = [] ∧ args = [] ∧ w₁ = w) ∨
        c.env.methods.lookup c.env.classes id "initialize" ≠ [] ∧
          ∃ u, Frozen s (c.callAmong mark (some ty) "initialize"
            ((c.env.methods.lookup c.env.classes id "initialize").map .method) args) w (some u)
              w₁) := by
  have L := hstill.lockstep .full
  have hover : ty.Over Proper := (c.env.classes.plain_typeOf ref hty).proper.isOver
  obtain ⟨id, hid⟩ := c.env.classes.exists_classOf_of_typeOf ref hty
  unfold Checking.callNew at h
  simp only [hid] at h
  split at h
  · exact absurd h not_fail
  · rename_i hgiven
    split at h
    · rename_i hempty
      have hrun : Frozen s (do
          Checking.noteCall mark.id ⟨none, .allocate (c.env.classes.nameOf id), args, ty⟩
          return ty) w t w' := ⟨h.start, h.run, h.silent⟩
      obtain ⟨rfl, hnoted⟩ := hrun.of_noteCall
      rw [hempty, Bool.true_and, Bool.not_eq_true, Bool.not_eq_false'] at hgiven
      rw [List.isEmpty_iff, List.map_eq_nil_iff] at hempty
      exact ⟨rfl, id, w, hid, h.start, hnoted, .inl ⟨hempty, List.isEmpty_iff.mp hgiven, rfl⟩⟩
    · rename_i hne
      have hargsOver := SameType.forall₂_iff.mpr ⟨rfl, hargs⟩
      obtain ⟨o, w₁, _, hcall, h⟩ := h.bind (S := fun _ => SameType (Over Proper)) hstill
        (L.callAmong trivial (.some (.self hover))
          (fun t ht => Option.some.inj ht ▸ ClassTable.isCon_of_classOf hid)
          (fun _ => Candidate.offered_of_mem_lookup) hargsOver) fun n o o' _ ho => by
          cases ho with
          | none => exact L.ret L.types.unresolved
          | some _ =>
            refine L.seq (L.noteCall trivial .none hargsOver (.self hover)) fun _ _ _ _ _ => ?_
            exact L.ret (.self hover)
      obtain ⟨u, rfl⟩ := hcall.some_of_callAmong
      obtain ⟨rfl, hnoted⟩ := h.of_noteCall
      refine ⟨rfl, id, w₁, hid, h.start, hnoted, .inr ⟨fun hnil => hne ?_, u, hcall⟩⟩
      rw [hnil]
      rfl

theorem known_callMalloc {ref : TypeRef} {ty t : Ty} (hty : c.env.classes.typeOf ref = .ok ty)
    (h : Frozen s (c.callMalloc mark ty args) w t w') : t.Known := by
  have hproper : Proper ty := (c.env.classes.plain_typeOf ref hty).proper
  obtain ⟨className, params, p, rfl, hp, hcall⟩ := h.of_callMalloc hproper.isCon
  exact hcall.known_getD hrest hargs (fun _ ht => Option.some.inj ht ▸ hproper.isOver)
    (Candidate.offered_of_malloc hproper hp)

theorem known_callOnClass {className : String} {ref : TypeRef} {ty t : Ty}
    (hty : c.env.classes.typeOf ref = .ok ty)
    (h : Frozen s (c.callOnClass mark className ty name args) w t w') : t.Known := by
  rcases h.of_callOnClass with ⟨_, hcall⟩ | ⟨_, _, hcall⟩
  · obtain ⟨rfl, _⟩ := hcall.of_callNew hrest (fun a ha => (hargs a ha).isOver) hty
    exact (c.env.classes.plain_typeOf ref hty).proper.known
  · exact hcall.known_callMalloc hrest hargs hty

end

/-- A native function whose parameters the arguments fit assigns its variables, and the call
    is noted. -/
theorem of_callNative {mark : Mark} {lib : String} {f : NativeFunction} {args : List Expr}
    {given : List NativeArg} {t : Ty} (h : Frozen s (c.callNative mark lib f args given) w t w') :
    ∃ verdict w₁, f.check c.env.hierarchy lib given = .ok verdict ∧ t = f.ret ∧
      Frozen s (c.assignOuts (args.zip f.params)) w () w₁ ∧
      w' = w₁.noted mark.id ⟨none, .native lib f.name, given.map NativeArg.ty, f.ret⟩ := by
  unfold Checking.callNative at h
  split at h
  · exact absurd h not_fail
  · rename_i verdict hcheck
    obtain ⟨_, w₁, e₁, houts, hrun⟩ := runWalk_bind_eq_ok h.run
    let call : Resolution := ⟨none, .native lib f.name, given.map NativeArg.ty, f.ret⟩
    have hnote : runWalk (Checking.noteCall mark.id call >>= fun _ => pure f.ret) w₁ e₁ =
        (.ok (f.ret, w₁.noted mark.id call), e₁) := rfl
    rw [hnote] at hrun
    cases hrun
    exact ⟨verdict, w₁, hcheck, rfl, ⟨h.start, houts, h.silent⟩, rfl⟩

/-- A native call gives what its function returns. -/
theorem known_callNative (hrest : Rest c s) {mark : Mark} {library : Library} {f : NativeFunction}
    {args : List Expr} {given : List NativeArg} {t : Ty}
    (hl : library ∈ c.env.libraries.libraries) (hf : f ∈ library.functions)
    (h : Frozen s (c.callNative mark library.name f args given) w t w') : t.Known := by
  obtain ⟨_, _, _, rfl, _⟩ := h.of_callNative
  exact (hrest.libraries library hl f hf).2.proper.known

/-! ### Addresses of variables -/

/-- The address of a binding is taken without arguments and without a block.  The type of the
    variable is noted, and once there is one so is the call. -/
theorem of_pointerTo {mark : Mark} {receiver : NodeId} {given : Nat} {hasBlock : Bool}
    {i : BindingId} {t : Ty} (h : Frozen s (c.pointerTo mark receiver given hasBlock i) w t w') :
    given = 0 ∧ hasBlock = false ∧ ∃ (element : Ty) (typed : Walk),
      Frozen s (c.read i) w element w ∧
      typed = { w with types := w.types.insert receiver element } ∧
      ((element.isUnresolved = true ∧ t = .unresolved ∧ w' = typed) ∨
        element.isUnresolved = false ∧ t = .pointer element ∧
          w' = typed.noted mark.id ⟨some element, .pointer, [], .pointer element⟩) := by
  unfold Checking.pointerTo at h
  split at h
  · exact absurd h not_fail
  · rename_i hgiven
    split at h
    · exact absurd h not_fail
    · rename_i hblock
      obtain ⟨element, w₁, e₁, hread, hrun⟩ := runWalk_bind_eq_ok h.run
      have hsame : w₁ = w := (Leaves.read i : Leaves id (c.read i)) _ _ _ _ _ hread
      subst hsame
      have hnote : runWalk (Checking.noteType receiver element) w₁ e₁ =
          (.ok ((), { w₁ with types := w₁.types.insert receiver element }), e₁) := rfl
      rw [runWalk_bind_ok hnote] at hrun
      cases hu : element.isUnresolved with
      | true =>
        rw [hu] at hrun
        cases hrun
        exact ⟨Decidable.not_not.mp hgiven, Bool.eq_false_iff.mpr hblock, element, _,
          ⟨h.start, hread, h.silent⟩, rfl, .inl ⟨hu, rfl, rfl⟩⟩
      | false =>
        rw [hu] at hrun
        cases hrun
        exact ⟨Decidable.not_not.mp hgiven, Bool.eq_false_iff.mpr hblock, element, _,
          ⟨h.start, hread, h.silent⟩, rfl, .inr ⟨hu, rfl, rfl⟩⟩

/-- The address is that of a local that is visible or of a variable of the object. -/
theorem takePointer_cases (hstill : Still c s) {mark : Mark} {receiver : Expr} {given : Nat}
    {hasBlock : Bool} {t : Ty} (h : Frozen s (c.takePointer mark receiver given hasBlock) w t w') :
    (∃ m name i, receiver = .ident m name ∧ w.scopes.lookup name = some i ∧
      Frozen s (c.pointerTo mark m.id given hasBlock i) w t w') ∨
    ∃ m name i w₁, receiver = .ivar m name ∧ i < s.store.bindings.length ∧
      Frozen s (c.ivarOf name m.loc) w (some i) w₁ ∧
      Frozen s (c.pointerTo mark m.id given hasBlock i) w₁ t w' := by
  have U := hstill.uniform .full
  cases hvariable : receiver.isVariable with
  | false =>
    rw [Checking.takePointer_other _ _ _ _ _ hvariable] at h
    exact absurd h not_fail_map
  | true =>
    cases receiver with
    | ident m name =>
      rw [Checking.takePointer_ident] at h
      obtain ⟨i, hi, hpointer⟩ := h.exists_of_lookup not_fail_map
      exact Or.inl ⟨m, name, i, rfl, hi, hpointer⟩
    | ivar m name =>
      rw [Checking.takePointer_ivar] at h
      obtain ⟨o, w₁, _, hivar, hpointer⟩ := h.bind hstill (U.ivarOf trivial) fun n o o' _ ho => by
        cases ho with
        | none => exact U.ret U.types.unresolved
        | some hij => exact U.pointerTo trivial trivial trivial hij
      obtain ⟨i, rfl, hi⟩ := hivar.exists_of_ivarOf hstill
      exact Or.inr ⟨m, name, i, w₁, rfl, hi, hivar, hpointer⟩
    | _ => cases hvariable

/-- The address is that of a variable. -/
theorem exists_of_takePointer (hstill : Still c s) {mark : Mark} {receiver : Expr} {given : Nat}
    {hasBlock : Bool} {t : Ty} (h : Frozen s (c.takePointer mark receiver given hasBlock) w t w') :
    receiver.isVariable = true ∧ ∃ i w₁, i < s.store.bindings.length ∧ w₁.calls = w.calls ∧
      Frozen s (c.pointerTo mark receiver.id given hasBlock i) w₁ t w' := by
  rcases h.takePointer_cases hstill with
    ⟨m, name, i, rfl, hi, hpointer⟩ | ⟨m, name, i, w₁, rfl, hi, hivar, hpointer⟩
  · exact ⟨rfl, i, w, h.lookup_lt hi, rfl, hpointer⟩
  · exact ⟨rfl, i, w₁, hi, hivar.keeps (p := Walk.calls) (.ivarOf (fun _ _ => rfl) _ _), hpointer⟩

/-- The address of a variable is taken without arguments and without a block, and the call is
    noted with the type that the variable has. -/
theorem of_takePointer (hrest : Rest c s) {mark : Mark} {receiver : Expr} {given : Nat}
    {hasBlock : Bool} {t : Ty}
    (h : Frozen s (c.takePointer mark receiver given hasBlock) w t w') :
    receiver.isVariable = true ∧ given = 0 ∧ hasBlock = false ∧ ∃ (element : Ty) (typed : Walk),
      element.Known ∧ t = .pointer element ∧ typed.calls = w.calls ∧
      typed.Ok (Over Proper) .full s.store.bindings.length ∧
      w' = typed.noted mark.id ⟨some element, .pointer, [], .pointer element⟩ := by
  obtain ⟨hvariable, i, w₁, hi, hcalls, h⟩ := h.exists_of_takePointer hrest
  obtain ⟨hgiven, hblock, element, typed, hread, rfl, hdone⟩ := h.of_pointerTo
  have hknown := hread.known_read hrest hi
  obtain ⟨_, rfl, rfl⟩ := hdone.resolve_left fun ⟨hu, _⟩ => by
    rw [hknown.isUnresolved_eq_false] at hu
    cases hu
  exact ⟨hvariable, hgiven, hblock, element,
    { w₁ with types := w₁.types.insert receiver.id element },
    hknown, rfl, hcalls, h.start.noteType hknown.isOver, rfl⟩

end Frozen

end UnionTyping
