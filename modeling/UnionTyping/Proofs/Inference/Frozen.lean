/-
  UnionTyping/Proofs/Inference/Frozen.lean
  ========================================
  **The last check of a unit, taken apart.**

  A state is at `Rest` for the check of a unit when the unit is not waiting there
  and nothing that was read is without a type.  A part of the check is `Frozen`
  when it begins and ends in one such state and no problem is reported.  When a
  part is made of two steps, the state between them is that same state: the first
  step can be repeated where the second one ends (`Replay`), and there it changes
  nothing.  So both steps are frozen (`Frozen.bind`), and what is true of the
  whole check is found out by going through its parts.

  What a frozen step reads has a type, since the unit is among the readers of the
  binding by then (`Frozen.known_read`).
-/
import UnionTyping.Proofs.Inference.Declarations
import UnionTyping.Proofs.Inference.Leaves

namespace UnionTyping

open Ty (Over Proper Known)

/-- A state in which a unit can be checked and is not waiting. -/
structure Still (c : Checking) (s : Engine) : Prop where
  libraries : c.env.libraries.Plain
  ok : s.Ok c.env Proper .full
  unit : c.unit < s.units.length
  self : ∀ t, c.self = some t → t.Over Proper
  idle : ¬ s.store.queue.holds c.unit = true
  begins : ∀ v, Begins c.env Proper v (fun _ => True) c.begin

/-- A still state in which nothing that was read is without a type. -/
structure Rest (c : Checking) (s : Engine) : Prop extends Still c s where
  fed : ∀ b ∈ s.store.bindings, b.isStarved = false

instance {c : Checking} {s : Engine} : Coe (Rest c s) (Still c s) := ⟨Rest.toStill⟩

/-- The step gives `a` and changes the findings from `w` to `w'`; it leaves the state as
    it is and reports no problem. -/
structure Frozen (s : Engine) {α : Type} (x : WalkM α) (w : Walk) (a : α) (w' : Walk) : Prop where
  start : w.Ok (Over Proper) .full s.store.bindings.length
  run : runWalk x w s = (.ok (a, w'), s)
  silent : w'.diagnostics = []

abbrev Checking.Keeps (c : Checking) (v : Vocabulary) {α β : Type} (n : Nat)
    (Q : Nat → α → β → Prop) (x : WalkM α) (y : WalkM β) : Prop :=
  Replay.Step c Proper v (fun _ => True) n Q x y

variable {c : Checking} {s : Engine} {w w' : Walk} {α β : Type} {a : α} {b : β} {x : WalkM α}
  {f : α → WalkM β}

theorem stable_true (env : Env) (C : Ty → Prop) (v : Vocabulary) : Stable env C v fun _ => True :=
  fun _ _ _ _ _ _ _ => trivial

theorem Still.uniform (h : Still c s) (v : Vocabulary) :
    Uniform c c v (Over Proper) (Over Proper) (· ≤ ·) Replay.SameBinding (c.Keeps v) :=
  Replay.uniform (stable_true _ _ _) ⟨.refl _, rfl, rfl⟩ (fun _ hm => hm.isCon)
    (Env.closed_proper h.libraries v).domain h.self (h.begins v)

theorem Still.lockstep (h : Still c s) (v : Vocabulary) :
    Lockstep c c v (SameType (Over Proper)) (· ≤ ·) Replay.SameBinding (c.Keeps v) :=
  (h.uniform v).lockstep

/-- What keeps to all nodes keeps to some. -/
theorem Walk.Ok.only {T : Ty → Prop} {n : Nat} (h : w.Ok T .full n) (ids : NodeId → Prop) :
    w.Ok T (.only ids) n :=
  ⟨⟨h.scopes.owners, h.scopes.inner, h.scopes.body⟩, h.typesAscending, h.callsAscending, h.types,
    h.calls⟩

theorem Engine.Ok.only {env : Env} {C : Ty → Prop} (h : s.Ok env C .full) (ids : NodeId → Prop) :
    s.Ok env C (.only ids) :=
  ⟨h.store, h.keys, h.distinct⟩

namespace Frozen

/-! ### Steps one after the other -/

/-- What a step achieves that is frozen. -/
theorem achieves {ids : NodeId → Prop} {Q : Nat → α → α → Prop} (hrest : Still c s)
    (hx : c.Keeps (.only ids) s.store.bindings.length Q x x) (h : Frozen s x w a w') :
    Replay.Achieves c Proper (.only ids) (fun _ => True) s.store.bindings.length Q x w s a w' s :=
  (hx w s ⟨Nat.le_refl _, h.start.only ids, hrest.ok.only ids, hrest.unit⟩ _ _ h.run).2.2 a w' rfl

/-- A frozen step touches only the nodes of its vocabulary. -/
theorem untouched {ids : NodeId → Prop} {Q : Nat → α → α → Prop} (hrest : Still c s)
    (hx : c.Keeps (.only ids) s.store.bindings.length Q x x) (h : Frozen s x w a w')
    {node : NodeId} (hnode : ¬ ids node) : w'.found node = w.found node :=
  (h.achieves hrest hx).untouched node hnode

/-- The situation in which a frozen step begins. -/
theorem situation (hrest : Still c s) (h : Frozen s x w a w') :
    Replay.Situation c Proper .full s.store.bindings.length w s :=
  ⟨Nat.le_refl _, h.start, hrest.ok, hrest.unit⟩

theorem bind_at {Q : Nat → α → α → Prop} {S : Nat → β → β → Prop} (hrest : Still c s)
    (h : Frozen s (x >>= f) w b w')
    (hx : Replay.At c Proper .full (fun _ => True) s.store.bindings.length Q x x w s)
    (hf : ∀ n a a' w₁ e₁, s.store.bindings.length ≤ n → Q n a a' →
      Replay.Situation c Proper .full n w₁ e₁ → s.Grows e₁ →
      Replay.At c Proper .full (fun _ => True) n S (f a) (f a') w₁ e₁) :
    ∃ a w₁, Q s.store.bindings.length a a ∧ Frozen s x w a w₁ ∧ Frozen s (f a) w₁ b w' := by
  obtain ⟨a, w₁, e₁, hrx, hrf⟩ := runWalk_bind_eq_ok h.run
  obtain ⟨hok₁, hgrows₁, hach⟩ := hx _ _ hrx
  obtain ⟨hwalk₁, _, _, _, n, a', hle, hsize, hQ, hrepeat⟩ := hach a w₁ rfl
  obtain ⟨_, hgrows₂, hach₂⟩ := hf n a a' w₁ e₁ hle hQ
    ⟨hsize, hwalk₁, hok₁, Nat.lt_of_lt_of_le hrest.unit hgrows₁.extends.units_le⟩ hgrows₁ _ _ hrf
  have hsilent : w₁.diagnostics = [] :=
    List.prefix_nil.mp (h.silent ▸ (hach₂ b w' rfl).reported)
  -- the second step leads back to the state, so the first can be repeated there
  have hagain := hrepeat hsilent (Engine.idle_of_idle hgrows₂.store hrest.idle) s hrest.ok
    hgrows₂.extends (Engine.holds_of_idle hgrows₂.store hrest.idle)
  rw [hrx] at hagain
  cases hagain
  cases Nat.le_antisymm hle hsize
  exact ⟨a, w₁, hQ, ⟨h.start, hrx, hsilent⟩, hwalk₁, hrf, h.silent⟩

/-- Of two steps that are frozen together each is frozen. -/
theorem bind {Q : Nat → α → α → Prop} {S : Nat → β → β → Prop} (hrest : Still c s)
    (h : Frozen s (x >>= f) w b w') (hx : c.Keeps .full s.store.bindings.length Q x x)
    (hf : ∀ n a a', s.store.bindings.length ≤ n → Q n a a' → c.Keeps .full n S (f a) (f a')) :
    ∃ a w₁, Q s.store.bindings.length a a ∧ Frozen s x w a w₁ ∧ Frozen s (f a) w₁ b w' := by
  exact h.bind_at hrest (hx w s (h.situation hrest))
    fun n a a' w₁ e₁ hle hQ hs₁ _ => hf n a a' hle hQ w₁ e₁ hs₁

theorem of_pure {a' : α} (h : Frozen s (pure a') w a w') : a = a' ∧ w' = w := by
  have hrun := h.run
  rw [runWalk_pure] at hrun
  cases hrun
  exact ⟨rfl, rfl⟩

/-- A frozen step leaves what each of its runs leaves as it is. -/
theorem keeps {γ : Type} {p : Walk → γ} (h : Frozen s x w a w') (hx : Leaves p x) : p w' = p w :=
  hx _ _ _ _ _ h.run

/-- A frozen step that is followed by one that only gives its result another form. -/
theorem of_map {g : α → β} (h : Frozen s (x >>= fun a => pure (g a)) w b w') :
    ∃ a, b = g a ∧ Frozen s x w a w' := by
  obtain ⟨a, w₁, e₁, hrx, hrf⟩ := runWalk_bind_eq_ok h.run
  rw [runWalk_pure] at hrf
  cases hrf
  exact ⟨a, rfl, h.start, hrx, h.silent⟩

/-- A frozen step whose result is noted for a node. -/
theorem of_typed {node : NodeId} {x : WalkM Ty} {t : Ty}
    (h : Frozen s (Checking.typed node x) w t w') :
    ∃ w₁, Frozen s x w t w₁ ∧ w' = { w₁ with types := w₁.types.insert node t } := by
  obtain ⟨t', w₁, e₁, hrx, hrf⟩ := runWalk_bind_eq_ok h.run
  have hnote : runWalk (Checking.noteType node t' >>= fun _ => pure t') w₁ e₁ =
      (.ok (t', { w₁ with types := w₁.types.insert node t' }), e₁) := rfl
  rw [hnote] at hrf
  cases hrf
  exact ⟨w₁, ⟨h.start, hrx, h.silent⟩, rfl⟩

/-- The frozen steps of a body, with the count of loops raised and lowered around them. -/
theorem of_inLoop {x : WalkM Ty} {t : Ty} (h : Frozen s (Checking.inLoop x) w t w') :
    ∃ w₁, Frozen s x { w with loopDepth := w.loopDepth + 1 } t w₁ ∧
      w' = { w₁ with loopDepth := w₁.loopDepth - 1 } := by
  have hrun := h.run
  unfold Checking.inLoop at hrun
  rw [runWalk_bind_ok (runWalk_change _ w s)] at hrun
  obtain ⟨t', w₁, e₁, hrx, hlast⟩ := runWalk_bind_eq_ok hrun
  rw [runWalk_bind_ok (runWalk_change _ w₁ e₁), runWalk_pure] at hlast
  cases hlast
  exact ⟨w₁, ⟨h.start.withLoopDepth _, hrx, h.silent⟩, rfl⟩

/-- What comes after noting the type of a node. -/
theorem of_noteType {node : NodeId} {t : Ty} {y : WalkM β} (ht : t.Over Proper)
    (h : Frozen s (Checking.noteType node t >>= fun _ => y) w b w') :
    Frozen s y { w with types := w.types.insert node t } b w' := by
  have hnote : runWalk (Checking.noteType node t) w s =
      (.ok ((), { w with types := w.types.insert node t }), s) := rfl
  have hrun := h.run
  rw [runWalk_bind_ok hnote] at hrun
  exact ⟨h.start.noteType ht, hrun, h.silent⟩

/-- A frozen step finds the binding of a slot; it is there already. -/
theorem of_bindingOf {slot : Slot} {i : BindingId} (h : Frozen s (Checking.bindingOf slot) w i w') :
    s.store.find slot = some i ∧ w' = w := by
  have hrun := h.run
  rw [Checking.bindingOf, runWalk_onStore] at hrun
  injection hrun with hresult hstate
  cases hresult
  have hfind := Store.find_intern s.store slot
  have hstore : (s.store.intern slot).2 = s.store := congrArg Engine.store hstate
  rw [hstore] at hfind
  exact ⟨hfind, rfl⟩

/-- What comes after looking a name up. -/
theorem of_lookup {name : String} {g : Option BindingId → WalkM β}
    (h : Frozen s (Checking.lookup name >>= g) w b w') :
    Frozen s (g (w.scopes.lookup name)) w b w' := by
  have hrun := h.run
  rw [runWalk_bind_ok (runWalk_lookup name w s)] at hrun
  exact ⟨h.start, hrun, h.silent⟩

/-- A name has a binding where the step without one is not frozen. -/
theorem exists_of_lookup {name : String} {g : Option BindingId → WalkM β}
    (h : Frozen s (Checking.lookup name >>= g) w b w') (hnone : ¬ Frozen s (g none) w b w') :
    ∃ i, w.scopes.lookup name = some i ∧ Frozen s (g (some i)) w b w' := by
  have hfound := h.of_lookup
  cases hi : w.scopes.lookup name with
  | none =>
    rw [hi] at hfound
    exact absurd hfound hnone
  | some i =>
    rw [hi] at hfound
    exact ⟨i, rfl, hfound⟩

theorem lookup_lt {name : String} {i : BindingId} (h : Frozen s x w a w')
    (hi : w.scopes.lookup name = some i) : i < s.store.bindings.length :=
  h.start.scopes.lookup_lt hi

/-! ### No problem is reported -/

theorem not_fail {problem : Problem} {loc : Location} {t : Ty} :
    ¬ Frozen s (c.fail problem loc) w t w' := by
  intro h
  have hrun := h.run
  rw [Checking.fail, runWalk_bind_ok (runWalk_change _ w s), runWalk_pure] at hrun
  have hnil := h.silent
  cases hrun
  split at hnil
  · rename_i hany
    rw [hnil] at hany
    cases hany
  · exact List.append_ne_nil_of_right_ne_nil _ (List.cons_ne_nil _ _) hnil

/-- A frozen `break` or `next` stands inside a body. -/
theorem of_loopControl {keyword : LoopControl} {loc : Location} {t : Ty}
    (h : Frozen s (c.loopControl keyword loc) w t w') : w.loopDepth ≠ 0 ∧ t = .nil ∧ w' = w := by
  have hrun := h.run
  rw [Checking.loopControl, runWalk_bind_ok (runWalk_loopDepth w s)] at hrun
  by_cases hdepth : w.loopDepth = 0
  · rw [if_pos hdepth] at hrun
    exact absurd ⟨h.start, hrun, h.silent⟩ not_fail
  · rw [if_neg hdepth, runWalk_pure] at hrun
    cases hrun
    exact ⟨hdepth, rfl, rfl⟩

theorem not_fail_map {problem : Problem} {loc : Location} {g : Ty → β} :
    ¬ Frozen s (c.fail problem loc >>= fun t => pure (g t)) w b w' := by
  intro h
  obtain ⟨_, _, hfail⟩ := h.of_map
  exact not_fail hfail

/-! ### Reading -/

/-- A frozen step reads what the binding holds, and the unit is among its readers. -/
theorem of_read (hstill : Still c s) {i : BindingId} {t : Ty} (hi : i < s.store.bindings.length)
    (h : Frozen s (c.read i) w t w') :
    ∃ b, s.store.bindings[i]? = some b ∧ b.Ok Proper (Slot.Fits c.env .full s.units.length)
      s.units.length ∧ t = b.current ∧ c.unit ∈ b.readers ∧ w' = w := by
  have hget : s.store.bindings[i]? = some s.store.bindings[i] := List.getElem?_eq_getElem hi
  have hrun := h.run
  rw [Checking.read, runWalk_onStore] at hrun
  injection hrun with hresult hstate
  injection hresult with hpair
  injection hpair with ht hw
  -- the binding has its reader already, since reading it changed nothing
  have hread : s.store.bindings[i].readBy c.unit = s.store.bindings[i] := by
    have hmod := Store.getElem?_modify_eq_some (f := fun b => b.readBy c.unit) (i := i) hget
    have hsame : s.store.bindings.modify i (fun b => b.readBy c.unit) = s.store.bindings :=
      congrArg (fun e => e.store.bindings) hstate
    rw [hsame, hget, if_pos rfl] at hmod
    exact (Option.some.inj hmod).symm
  refine ⟨_, hget, hstill.ok.store.getElem? hget, ?_, ?_, hw.symm⟩
  · rw [← ht, Store.read, Store.typeOf_eq hget]
  · rw [← hread]
    exact Binding.mem_insertUnit.mpr (Or.inl rfl)

/-- What a frozen step reads has a type. -/
theorem known_read (hrest : Rest c s) {i : BindingId} {t : Ty} (hi : i < s.store.bindings.length)
    (h : Frozen s (c.read i) w t w') : t.Known := by
  obtain ⟨b, hget, hb, rfl, hmem, _⟩ := h.of_read hrest hi
  refine hb.isOver.known ?_
  rw [← Bool.not_eq_true]
  intro hu
  have hstarved := Store.isStarved_iff.mpr ⟨hu, List.ne_nil_of_mem hmem⟩
  rw [hrest.fed _ (List.mem_of_getElem? hget)] at hstarved
  cases hstarved

theorem exists_of_ivarOf (hrest : Still c s) {name : String} {loc : Location}
    {o : Option BindingId} (h : Frozen s (c.ivarOf name loc) w o w') :
    ∃ i, o = some i ∧ i < s.store.bindings.length := by
  have hach := h.achieves hrest ((hrest.lockstep (.only fun _ => True)).ivarOf trivial)
  obtain ⟨n, o', _, hsize, ho, _⟩ := hach.repeats
  cases ho with
  | some hij => exact ⟨_, rfl, Nat.lt_of_lt_of_le hij.2 hsize⟩
  | none =>
    -- without a binding a problem was reported
    unfold Checking.ivarOf at h
    split at h
    · exact absurd h not_fail_map
    · split at h
      · exact absurd h not_fail_map
      · obtain ⟨_, hne, _⟩ := h.of_map
        cases hne

theorem known_readIvar (hrest : Rest c s) {name : String} {loc : Location} {t : Ty}
    (h : Frozen s (c.readIvar name loc) w t w') : t.Known := by
  have L := hrest.lockstep .full
  obtain ⟨o, w₁, _, hivar, h⟩ := h.bind hrest (L.ivarOf trivial) fun n o o' _ ho => by
    cases ho with
    | none => exact L.ret L.types.unresolved
    | some hij => exact L.read hij
  obtain ⟨i, rfl, hi⟩ := hivar.exists_of_ivarOf hrest
  exact h.known_read hrest hi

theorem known_outType (hrest : Rest c s) {target : Target} {loc : Location} {t : Ty}
    (h : Frozen s (c.outType target loc) w t w') : t.Known := by
  cases target with
  | «local» name =>
    obtain ⟨i, hi, hfound⟩ := h.exists_of_lookup not_fail
    exact hfound.known_read hrest (h.lookup_lt hi)
  | ivar name => exact h.known_readIvar hrest

end Frozen

end UnionTyping
