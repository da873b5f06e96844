/-
  UnionTyping/Proofs/Typing/Quiet.lean
  ====================================
  **The model of a state in which nothing is waiting.**

  A state is `Idle` when no unit is waiting, and `Quiet` when moreover none has a problem.
  A unit without a problem then has its type by the rules, in the context of the state and
  with what the unit has noted; so a quiet state gives a model (`Engine.model`,
  `Quiet.closed`), and so does an idle one in a context that enters only units without a
  problem (`Idle.closedIn`).

  Runs stay below models.  Work that starts below one ends below it (`Below.works`), and
  sealing leads below it when the model lets the starved places hold nil
  (`Below.sealed`), so a whole run ends below it (`Engine.below_final`).  A state that is
  below the model of a quiet state is below those of later ones (`Below.later`).
-/
import UnionTyping.Proofs.Inference.Stages
import UnionTyping.Proofs.Typing.StaysBelow

namespace UnionTyping

open Ty (Over Proper Plain)

/-! ### Programs without addresses -/

/-- No expression takes an address, and the nodes of each unit have different numbers. -/
structure Env.Simple (env : Env) : Prop where
  libraries : env.libraries.Plain
  addressFree : env.AddressFree
  nodup : ∀ key, (Expr.ids (env.exprsOf key)).Nodup

namespace Env

variable {env : Env}

theorem Simple.keepsTo (h : env.Simple) : env.KeepsTo Plain .addressFree :=
  keepsTo_plain h.libraries h.addressFree

theorem simple_of_ofProgram {file : String} {items : List Item} {settings : Settings}
    (h : Env.ofProgram settings (Program.ofItems file items) = .ok env)
    (hfree : ∀ n ∈ (Program.ofItems file items).nodes, n.takesAddress = false) : env.Simple where
  libraries := plain_libraries h
  addressFree := fun n hn => hfree n (nodes_subset h hn)
  nodup := nodup_exprsOf h (Program.nodup_ids file items)

end Env

/-! ### States in which nothing is waiting -/

structure Idle (env : Env) (q : Engine) : Prop extends Between env Plain .addressFree q where
  idle : q.store.queue = []

structure Quiet (env : Env) (q : Engine) : Prop extends Idle env q where
  silent : ∀ u ∈ q.units, u.diagnostics = []

namespace Engine

def recordAt (e : Engine) (key : Option Instantiation) : Option UnitRecord :=
  ((e.unitAt key).bind fun unit => e.units[unit]?).filter (·.diagnostics.isEmpty)

def modelIn (env : Env) (Γ : Context) (e : Engine) : Model where
  env := env
  context := Γ
  noted key node := (e.recordAt key).bind fun u => u.types.find? node
  called key node call :=
    call ∈ (((e.recordAt key).bind fun u => u.calls.find? node).getD [])

def model (env : Env) (e : Engine) : Model := e.modelIn env e.context

theorem typing_modelIn {env : Env} {Γ : Context} {e : Engine} {u : UnitRecord}
    (h : e.recordAt u.key = some u) : (e.modelIn env Γ).typing u.key = u.typing env Γ := by
  simp only [Model.typing, modelIn, h, UnitRecord.typing, Option.bind_some]

end Engine

namespace Idle

variable {env : Env} {q : Engine} {unit : UnitId} {u : UnitRecord}

theorem still (h : Idle env q) (henv : env.Simple) (hu : q.units[unit]? = some u) :
    Still (repeatedCheck env unit u) q := by
  refine h.ok.proper.still henv.libraries hu ?_
  rw [h.idle]
  exact fun hold => nomatch hold

/-- A unit without a problem stands. -/
theorem stands (h : Idle env q) (hu : q.units[unit]? = some u) (hsilent : u.diagnostics = []) :
    Stands env q unit u := by
  refine h.settled unit u hu (fun hmem => nomatch hmem) ?_ hsilent
  rw [h.idle]
  exact fun hold => nomatch hold

theorem unitAt (h : Idle env q) (hu : q.units[unit]? = some u) : q.unitAt u.key = some unit := by
  rw [← Engine.keyOf_of_getElem? hu]
  exact h.ok.unitAt_keyOf h.top (List.getElem?_eq_some_iff.mp hu).1

theorem recordAt (h : Idle env q) (hu : q.units[unit]? = some u) (hsilent : u.diagnostics = []) :
    q.recordAt u.key = some u := by
  rw [Engine.recordAt, h.unitAt hu, Option.bind_some, hu, Option.filter_some, hsilent]
  rfl

/-- What is entered has a unit. -/
theorem exists_record (h : Idle env q) {key : Option Instantiation}
    (hkey : ∀ k, key = some k → k.Plain ∧ q.context.entered k) :
    ∃ (unit : UnitId) (u : UnitRecord), q.units[unit]? = some u ∧ u.key = key := by
  cases key with
  | none =>
    obtain ⟨rest, hkeys⟩ := h.top
    have hfirst : q.keys[topUnit]? = some none := by
      rw [← hkeys]
      rfl
    rw [Engine.keys, List.getElem?_map] at hfirst
    obtain ⟨u, hu, hnone⟩ := Option.map_eq_some_iff.mp hfirst
    exact ⟨topUnit, u, hu, hnone⟩
  | some k =>
    obtain ⟨hplain, unit, hunit⟩ := hkey k rfl
    obtain ⟨k', hk', hsame⟩ := Engine.exists_key_of_unitOf hunit
    obtain ⟨u, hu, hukey⟩ := Option.bind_eq_some_iff.mp hk'
    exact ⟨unit, u, hu, by rw [hukey, hplain.eq_of_beq_left hsame]⟩

/-- A context that lets places hold no more than the state, and in which the units that it
    enters have types, gives a model. -/
theorem closedIn (h : Idle env q) (henv : env.Simple) {Γ : Context}
    (hentered : ∀ k, Γ.entered k → q.context.entered k)
    (hholds : ∀ p m, Γ.holds p m → q.context.holds p m) (hreads : Γ.reads = q.context.reads)
    (htyped : ∀ (unit : UnitId) u, q.units[unit]? = some u → (∀ k, u.key = some k → Γ.entered k) →
      u.diagnostics = [] ∧ ∃ t, (u.typing env Γ).TypesUnit t) : (q.modelIn env Γ).Closed where
  libraries := henv.libraries
  reads := by
    intro p t ht
    change Γ.reads p t at ht
    rw [hreads] at ht
    obtain ⟨_, b, hb, _, rfl⟩ := ht
    obtain ⟨i, _, hget⟩ := Option.bind_eq_some_iff.mp hb
    exact (h.ok.store.getElem? hget).isOver
  covers := by
    intro p t m ht hm
    change Γ.reads p t at ht
    rw [hreads] at ht
    obtain ⟨_, b, hb, _, rfl⟩ := ht
    obtain ⟨_, b', hb', hhas⟩ := hholds p m hm
    rw [hb] at hb'
    cases hb'
    obtain ⟨i, _, hget⟩ := Option.bind_eq_some_iff.mp hb
    exact (h.ok.store.getElem? hget).isOver.mem_of_any hhas
  noted := by
    intro key node t ht
    obtain ⟨u, hrecord, hfind⟩ := Option.bind_eq_some_iff.mp ht
    obtain ⟨hrecord, hsilent⟩ := Option.filter_eq_some_iff.mp hrecord
    obtain ⟨unit, _, hu⟩ := Option.bind_eq_some_iff.mp hrecord
    exact (h.stands hu (List.isEmpty_iff.mp hsilent)).over_noted henv.keepsTo h.ok hu hfind
  typed := by
    intro key hkey
    obtain ⟨unit, u, hu, rfl⟩ := h.exists_record fun k hk =>
      ⟨(hkey k hk).1, hentered k (hkey k hk).2⟩
    obtain ⟨hsilent, t, ht⟩ := htyped unit u hu fun k hk => (hkey k hk).2
    refine ⟨t, ?_⟩
    rw [Engine.typing_modelIn (h.recordAt hu hsilent)]
    exact ht

/-- A unit without a problem has its type by the rules, in each context that suits it. -/
theorem typesUnit (h : Idle env q) (henv : env.Simple) (hu : q.units[unit]? = some u)
    (hsilent : u.diagnostics = []) {Γ : Context} (hΓ : u.Suits Γ q) :
    (u.typing env Γ).TypesUnit u.result :=
  (h.stands hu hsilent).typesUnit (h.still henv hu) hu (h.unitAt hu) (henv.nodup u.key) hΓ

end Idle

namespace Quiet

variable {env : Env} {q : Engine} {unit : UnitId} {u : UnitRecord}

/-- Every unit stands. -/
theorem stands (h : Quiet env q) (hu : q.units[unit]? = some u) : Stands env q unit u :=
  h.toIdle.stands hu (h.silent u (List.mem_of_getElem? hu))

theorem recordAt (h : Quiet env q) (hu : q.units[unit]? = some u) : q.recordAt u.key = some u :=
  h.toIdle.recordAt hu (h.silent u (List.mem_of_getElem? hu))

/-- Each unit has its type by the rules. -/
theorem typesUnit (h : Quiet env q) (henv : env.Simple) (hu : q.units[unit]? = some u) :
    (u.typing env q.context).TypesUnit u.result :=
  h.toIdle.typesUnit henv hu (h.silent u (List.mem_of_getElem? hu)) (u.suits q)

/-- Hence the state gives a model. -/
theorem closed (h : Quiet env q) (henv : env.Simple) : (q.model env).Closed :=
  h.toIdle.closedIn henv (fun _ hk => hk) (fun _ _ hm => hm) rfl fun _ u hu _ =>
    ⟨h.silent u (List.mem_of_getElem? hu), u.result, h.typesUnit henv hu⟩

end Quiet

/-! ### Runs below a model -/

namespace Engine

variable {M : Model} {env : Env} {e e' q q' : Engine}

theorem below_start (M : Model) : Engine.start.Below M where
  top := List.prefix_rfl
  keys := fun _ hkey => nomatch List.mem_singleton.mp hkey
  bindings := fun _ hb => nomatch hb
  silent := List.forall_mem_singleton.mpr rfl

section

variable (hM : M.Closed) (henv : M.env.SameDeclarations env)
  (hkeeps : env.KeepsTo Plain .addressFree)
include hM henv hkeeps

theorem below_first (hr : runEngine (checkNested env env.settings.maxNesting topUnit none false)
    .start = (.ok (), e)) : e.Below M :=
  below_checkNested hM henv hkeeps ok_start (below_start M) Nat.one_pos hr

/-- Work that starts below a model ends below it. -/
theorem Below.works (h : e.Below M) (hbetween : Between env Plain .addressFree e)
    (hworks : Works env e e') : e'.Below M := by
  induction hworks with
  | idle => exact h
  | check queue checked _ ih =>
    have hok := hbetween.ok.withQueue queue
    have hlt := hbetween.ok.store.queued _ (by rw [queue]; exact List.mem_cons_self)
    refine ih ?_ (hbetween.recheck hkeeps queue checked).1
    exact below_checkNested hM henv hkeeps hok (h.of_eq rfl rfl h.silent) hlt checked

end

/-- A model in which what is starved may hold nil is still above the state after sealing. -/
theorem Below.sealed (h : e.Below M) (hnil : ∀ p b, b ∈ e.store.bindings →
    e.slotAt p = some b.slot → b.isStarved = true → M.context.holds p .nil) :
    e.sealed.Below M := by
  refine h.of_store (Store.forall_sealStarved h.bindings fun b hb hstarved => ?_)
  obtain ⟨p, hslot, hadmits⟩ := h.bindings b hb
  refine ⟨p, hslot, fun m hm => ?_, hadmits.reads⟩
  rw [List.mem_singleton.mp hm]
  exact hnil p b hb hslot hstarved

section

variable (hM : M.Closed) (henv : M.env.SameDeclarations env)
  (hkeeps : env.KeepsTo Plain .addressFree)
include hM henv hkeeps

/-- A run that seals what the model lets hold nil ends below the model. -/
theorem Below.seals (h : q.Below M) (hbetween : Between env Plain .addressFree q)
    (hidle : q.store.queue = []) (hpauses : Pauses env q) (hseals : Seals env q e)
    (hnil : ∀ q, Pauses env q → q.sealed.Extends e → ∀ p b, b ∈ q.store.bindings →
      q.slotAt p = some b.slot → b.isStarved = true → M.context.holds p .nil) : e.Below M := by
  induction hseals with
  | done => exact h
  | @again q q₁ e silent starved works later ih =>
    have hsealed := hbetween.sealed hkeeps
    obtain ⟨hbetween₁, hidle₁, hext₁⟩ := hsealed.works hkeeps works
    have hext := (hbetween₁.seals hkeeps hidle₁ later).2.2
    have hbelow := h.sealed (hnil q hpauses (hext₁.trans hext))
    exact ih (hbelow.works hM henv hkeeps hsealed works) hbetween₁ hidle₁
      (.again hpauses silent starved works) hnil

/-- The same for a whole run. -/
theorem below_final (hfinal : Engine.final env = (.ok (), e))
    (hnil : ∀ q, Pauses env q → q.sealed.Extends e → ∀ p b, b ∈ q.store.bindings →
      q.slotAt p = some b.slot → b.isStarved = true → M.context.holds p .nil) : e.Below M := by
  obtain ⟨e₀, q, hfirst, hworks, hseals⟩ := exists_stages hfinal
  have hbetween₀ := between_start hkeeps hfirst
  obtain ⟨hbetween, hidle, _⟩ := hbetween₀.works hkeeps hworks
  exact ((below_first hM henv hkeeps hfirst).works hM henv hkeeps hbetween₀ hworks).seals hM henv
    hkeeps hbetween hidle (.first hfirst hworks) hseals hnil

end

/-! ### Quiet states below each other's models -/

theorem bindingAt_eq_some {p : Place} {b : Binding} :
    e.bindingAt p = some b ↔ ∃ i, e.idAt p = some i ∧ e.store.bindings[i]? = some b :=
  Option.bind_eq_some_iff

/-- What a place holds, it holds later on. -/
theorem Extends.bindingAt (h : e.Extends e') {p : Place} {b : Binding}
    (hb : e.bindingAt p = some b) : ∃ b', e'.bindingAt p = some b' ∧ b.Grows b' := by
  obtain ⟨i, hid, hget⟩ := bindingAt_eq_some.mp hb
  obtain ⟨b', hget', hgrows⟩ := h.bindings i b hget
  exact ⟨b', bindingAt_eq_some.mpr ⟨i, h.idAt hid, hget'⟩, hgrows⟩

section

variable {C : Ty → Prop} {v : Vocabulary}

/-- A binding is that of the place of its slot. -/
theorem Ok.bindingAt_of_mem (h : e.Ok env C v) {b : Binding} (hb : b ∈ e.store.bindings)
    {p : Place} (hslot : e.slotAt p = some b.slot) : e.bindingAt p = some b := by
  obtain ⟨i, hi⟩ := List.getElem?_of_mem hb
  refine bindingAt_eq_some.mpr ⟨i, ?_, hi⟩
  rw [Engine.idAt, hslot, Option.bind_some]
  obtain ⟨hlt, rfl⟩ := List.getElem?_eq_some_iff.mp hi
  refine List.findIdx?_eq_some_iff_getElem.mpr ⟨hlt, decide_eq_true rfl, fun j hj => ?_⟩
  rw [decide_eq_true_iff]
  intro heq
  have hlt' : j < e.store.bindings.length := Nat.lt_trans hj hlt
  have hslots : (e.store.bindings.map Binding.slot)[j]? =
      (e.store.bindings.map Binding.slot)[i]? := by
    rw [List.getElem?_map, List.getElem?_map, List.getElem?_eq_getElem hlt',
      List.getElem?_eq_getElem hlt, Option.map_some, Option.map_some, heq]
  have hsame := (List.getElem?_inj (by rw [List.length_map]; exact hlt') h.store.slots).mp hslots
  exact Nat.ne_of_lt hj hsame

/-- After sealing a starved place holds nil. -/
theorem Ok.bindingAt_sealed (h : e.Ok env C v) {p : Place} {b : Binding}
    (hb : e.bindingAt p = some b) (hstarved : b.isStarved = true) :
    ∃ b', e.sealed.bindingAt p = some b' ∧ b'.current = .nil := by
  obtain ⟨i, hid, hget⟩ := bindingAt_eq_some.mp hb
  refine ⟨{ b with current := .nil }, bindingAt_eq_some.mpr ⟨i, h.extends_sealed.idAt hid, ?_⟩, rfl⟩
  change (e.store.bindings.map _)[i]? = _
  rw [List.getElem?_map, hget, Option.map_some, if_pos hstarved]

/-- What was sealed holds nil later on. -/
theorem Ok.holds_nil (h : q.Ok env C v) {p : Place} {b : Binding} (hb : q.bindingAt p = some b)
    (hstarved : b.isStarved = true) (hext : q.sealed.Extends e) : e.context.holds p .nil := by
  obtain ⟨b₁, hb₁, hnil⟩ := h.bindingAt_sealed hb hstarved
  obtain ⟨b₂, hb₂, hgrows⟩ := hext.bindingAt hb₁
  have hmem : Ty.nil ∈ b₂.current.members :=
    hgrows.members.mem (by rw [hnil]; exact List.mem_singleton_self _)
  exact ⟨(Ty.plain_atom "Nil").proper, b₂, hb₂, .of_mem hmem⟩

end

/-- What is below the model of a state is below that of a later one. -/
theorem Below.later (h : e.Below (q.model env)) (hext : q.Extends q')
    (hok : q'.Ok env Plain .addressFree) : e.Below (q'.model env) where
  top := h.top
  keys := fun key hkey => by
    obtain ⟨hplain, unit, hunit⟩ := h.keys key hkey
    exact ⟨hplain, unit, unitOf_of_prefix hext.keys hunit⟩
  bindings := fun b hb => by
    obtain ⟨p, hslot, hadmits⟩ := h.bindings b hb
    refine ⟨p, hslot, fun m hm => ?_, fun hne => ?_⟩
    · obtain ⟨hproper, b₁, hb₁, hhas⟩ := hadmits.holds m hm
      obtain ⟨b₂, hb₂, hgrows⟩ := hext.bindingAt hb₁
      obtain ⟨a, ha, hsame⟩ := List.any_eq_true.mp hhas
      exact ⟨hproper, b₂, hb₂, List.any_eq_true.mpr ⟨a, hgrows.members.mem ha, hsame⟩⟩
    · obtain ⟨t, _, b₁, hb₁, hreaders, _⟩ := hadmits.reads hne
      obtain ⟨b₂, hb₂, hgrows⟩ := hext.bindingAt hb₁
      obtain ⟨i, _, hget⟩ := bindingAt_eq_some.mp hb₂
      refine ⟨b₂.current, (hok.proper.store.getElem? hget).isOver, b₂, hb₂, fun hnil => ?_, rfl⟩
      obtain ⟨r, hr⟩ := List.exists_mem_of_ne_nil _ hreaders
      have hmem := hgrows.readers hr
      rw [hnil] at hmem
      cases hmem
  silent := h.silent

end Engine

end UnionTyping
