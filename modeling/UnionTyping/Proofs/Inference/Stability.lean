/-
  UnionTyping/Proofs/Inference/Stability.lean
  ===========================================
  **Units that are not waiting are settled.**

  A unit `Stands` in a state when checking it again there finds what it found last
  and leaves the state as it is.  A state is `Settled` when every unit stands in it
  that is not waiting, is not being checked at the moment and has no problem.
  That is the invariant of a run: a check settles its unit, the widening of a
  binding puts whoever has read it on the worklist, and a new unit is checked or
  put there (`checkOnce_settled`, `begins_nested`, `settle_finished`).  When the
  run has come to its end nothing is waiting, so every unit stands
  (`final_finished`).
-/
import UnionTyping.Proofs.Binding.Sealing
import UnionTyping.Proofs.Inference.Replay

namespace UnionTyping

/-- The types of a program are made of the instances in `C`, and its expressions keep
    to the vocabulary. -/
structure Env.KeepsTo (env : Env) (C : Ty → Prop) (v : Vocabulary) : Prop where
  con : ∀ m, C m → m.IsCon
  domain : TypeDomain env v (Ty.Over C)
  speaks : ∀ key, v.speaksUnit env key

namespace Engine

theorem keyOf_eq (e : Engine) (unit : UnitId) : e.keyOf unit = (e.keys[unit]?).join := by
  rw [keyOf, keys, List.getElem?_map]
  cases e.units[unit]? <;> rfl

theorem keyOf_of_prefix {e e' : Engine} (h : e.keys <+: e'.keys) {unit : UnitId}
    (hlt : unit < e.units.length) : e'.keyOf unit = e.keyOf unit := by
  obtain ⟨rest, heq⟩ := h
  rw [keyOf_eq, keyOf_eq, ← heq, List.getElem?_append_left (by rw [length_keys]; exact hlt)]

theorem keyOf_of_getElem? {e : Engine} {unit : UnitId} {u : UnitRecord}
    (h : e.units[unit]? = some u) : e.keyOf unit = u.key := by
  rw [keyOf, h]
  rfl

theorem mem_keys {e : Engine} {unit : UnitId} {key : Instantiation}
    (h : e.keyOf unit = some key) : some key ∈ e.keys := by
  rw [keyOf_eq] at h
  cases hk : e.keys[unit]? with
  | none => rw [hk] at h; cases h
  | some k =>
    rw [hk] at h
    change k = some key at h
    rw [← h]
    exact List.mem_of_getElem? hk

theorem keys_record (e : Engine) (unit : UnitId) (walk : Walk) (result : Ty) :
    (e.record unit walk result).keys = e.keys :=
  keys_modify fun _ => rfl

theorem lt_length_add (e : Engine) (key : Instantiation) :
    e.units.length < (e.add key).units.length := by
  rw [add, List.length_append, List.length_singleton]
  exact Nat.lt_succ_self _

theorem length_record (e : Engine) (unit : UnitId) (walk : Walk) (result : Ty) :
    (e.record unit walk result).units.length = e.units.length :=
  List.length_modify ..

/-- A recorded check leaves the other units as they are. -/
theorem record_cases {e : Engine} {unit other : UnitId} {walk : Walk} {result : Ty}
    {u : UnitRecord} (h : (e.record unit walk result).units[other]? = some u) :
    (other = unit ∧ ∃ before, e.units[other]? = some before ∧ u = before.found walk result) ∨
      other ≠ unit ∧ e.units[other]? = some u := by
  simp only [record, List.getElem?_modify] at h
  obtain ⟨before, hbefore, rfl⟩ := Option.map_eq_some_iff.mp h
  by_cases hsame : unit = other
  · rw [if_pos hsame]
    exact .inl ⟨hsame.symm, before, hbefore, rfl⟩
  · rw [if_neg hsame]
    exact .inr ⟨Ne.symm hsame, hbefore⟩

theorem grows_record (e : Engine) (unit : UnitId) (walk : Walk) (result : Ty) :
    e.Grows (e.record unit walk result) where
  store := .refl _
  keys := (keys_record e unit walk result).symm ▸ List.prefix_rfl
  checks := Nat.le_refl _
  checked := by
    rw [length_record]
    exact Nat.le_refl _
  woken := Or.inl rfl

theorem Holds.of_store {unit : UnitId} {e e' : Engine}
    (h : e'.store.bindings = e.store.bindings) : Holds unit e e' := by
  intro i b b' hb hb' _
  rw [h, hb] at hb'
  cases hb'
  rfl

variable {env : Env} {C : Ty → Prop} {v : Vocabulary} {e e' : Engine}

/-- A unit is that of its instance. -/
theorem Ok.unitOf_of_keyOf (h : e.Ok env C v) {unit : UnitId} {key : Instantiation}
    (hkey : e.keyOf unit = some key) : e.unitOf key = some unit := by
  obtain ⟨u, hu, hsome⟩ := Option.bind_eq_some_iff.mp hkey
  have hget : e.keys[unit]? = some (some key) := by
    rw [Engine.keys, List.getElem?_map, hu, Option.map_some, hsome]
  obtain ⟨hlt, hat⟩ := List.getElem?_eq_some_iff.mp hget
  rw [unitOf_eq]
  refine List.findIdx?_eq_some_iff_getElem.mpr ⟨hlt, by rw [hat]; exact BEq.rfl, fun j hj => ?_⟩
  have hlt' : j < e.keys.length := Nat.lt_trans hj hlt
  have hdiffer := List.pairwise_iff_getElem.mp h.distinct j unit hlt' hlt hj
  rw [hat] at hdiffer
  cases hkj : e.keys[j] with
  | none => exact Bool.false_ne_true
  | some k =>
    rw [hkj] at hdiffer
    exact Bool.eq_false_iff.mp hdiffer

theorem Ok.record (h : e.Ok env C v) (unit : UnitId) (walk : Walk) (result : Ty) :
    (e.record unit walk result).Ok env C v where
  store := by
    rw [length_record]
    exact h.store
  keys := by
    rw [keys_record]
    exact h.keys
  distinct := by
    rw [keys_record]
    exact h.distinct

end Engine

/-! ### Standing -/

/-- Checking the unit again finds what was found last and changes nothing, for whatever
    reason and with whatever limits it is checked. -/
def Stands (env : Env) (e : Engine) (unit : UnitId) (u : UnitRecord) : Prop :=
  ∀ c : Checking, env.SameDeclarations c.env → c.unit = unit →
    c.self = u.key.bind Instantiation.self →
    ∃ scopes depth, runWalk (c.unitBody u.key) .start e =
      (.ok (u.result, ⟨scopes, depth, [], u.types, u.calls⟩), e)

/-- Every unit without a problem stands that is neither waiting nor among those that are
    being checked. -/
def Settled (env : Env) (active : List UnitId) (e : Engine) : Prop :=
  ∀ unit u, e.units[unit]? = some u → unit ∉ active → ¬ e.store.queue.holds unit = true →
    u.diagnostics = [] → Stands env e unit u

section

variable {env : Env} {C : Ty → Prop} {v : Vocabulary} {e e' : Engine} {active : List UnitId}

/-- A new instance that is put on the worklist. -/
theorem enqueue_new (hok : e.Ok env C v) {key : Instantiation} (hnew : e.unitOf key = none)
    (hkey : key.Ok env (Ty.Over C)) (cause : Option Location)
    (he' : e' = { e.add key with store := e.store.enqueue e.units.length cause }) :
    e'.Ok env C v ∧ e.Grows e' ∧ (e.add key).keys <+: e'.keys := by
  have hadd := hok.add hkey hnew
  have hlt := e.lt_length_add key
  rw [he']
  refine ⟨hadd.of_store (hadd.store.enqueue hlt cause), ?_, List.prefix_rfl⟩
  refine ⟨e.store.grows_enqueue _ _, ?_, Nat.le_refl _, ?_, Or.inr (Or.inl ?_)⟩
  · exact (Engine.keys_add e key) ▸ List.prefix_append _ _
  · change e.checks + e.units.length ≤ e.checks + (e.add key).units.length
    exact Nat.add_le_add_left (Nat.le_of_lt hlt) _
  · exact hlt

/-- A check that puts new instances on the worklist, in order to repeat another one. -/
def idleCheck (env : Env) (unit : UnitId) (self : Option Ty) : Checking :=
  ⟨env, unit, self, none, false, fun unit loc => Engine.enqueue unit (some loc)⟩

theorem begins_idleCheck (unit : UnitId) (self : Option Ty) :
    Begins env C v (fun _ => True) (idleCheck env unit self).begin := by
  intro e key loc r e' hok hnew hkey hr
  cases hr
  obtain ⟨hok', hgrows, hkeys⟩ := enqueue_new hok hnew hkey (some loc) rfl
  exact ⟨hok', hgrows, hkeys, fun _ _ => trivial⟩

/-- A unit goes on standing as long as nothing that it has read changes. -/
theorem Stands.later (hkeeps : env.KeepsTo C v) {unit : UnitId} {u : UnitRecord}
    (h : Stands env e unit u) (hu : e.units[unit]? = some u) (hok : e.Ok env C v)
    (hidle : ¬ e.store.queue.holds unit = true) (hok' : e'.Ok env C v) (hext : e.Extends e')
    (hholds : Engine.Holds unit e e') : Stands env e' unit u := by
  intro c' henv hunit hself
  let c := idleCheck env unit (u.key.bind Instantiation.self)
  obtain ⟨scopes, depth, hrun⟩ := h c (.refl env) rfl rfl
  have hlt : unit < e.units.length := (List.getElem?_eq_some_iff.mp hu).1
  have hkey := Engine.keyOf_of_getElem? hu
  have hkeyOk : ∀ k, u.key = some k → k.Ok env (Ty.Over C) := fun k hk =>
    hok.keys k (Engine.mem_keys (hkey.trans hk))
  have hsame : Replay.Same c c' := ⟨henv, hunit, hself⟩
  have hselfOk : ∀ s, c.self = some s → s.Over C := by
    intro s hs
    obtain ⟨k, hk, hks⟩ := Option.bind_eq_some_iff.mp hs
    exact (hkeyOk k hk).self s hks
  obtain ⟨_, _, hach⟩ := Replay.unitBody (I := fun _ => True) (fun _ _ _ _ _ _ _ => trivial) hsame
    hkeeps.con hkeeps.domain hselfOk (begins_idleCheck unit _)
    (fun k hk => (hkeyOk k hk).args) (hkeeps.speaks u.key) hok hlt _ _ hrun
  obtain ⟨_, _, _, _, _, b, _, _, hb, hrepeat⟩ := hach _ _ rfl
  refine ⟨scopes, depth, ?_⟩
  rw [hrepeat rfl hidle e' hok' hext hholds, hb.1]

/-- The invariant is kept when the state grows and every other unit is waiting or is
    being checked. -/
theorem Settled.of_grows (hkeeps : env.KeepsTo C v) {active' : List UnitId}
    (h : Settled env active e) (hok : e.Ok env C v) (hok' : e'.Ok env C v)
    (hstore : e.store.Grows e'.store) (hkeys : e.keys <+: e'.keys)
    (hunits : ∀ unit u, e'.units[unit]? = some u → unit ∉ active' →
      ¬ e'.store.queue.holds unit = true → e.units[unit]? = some u ∧ unit ∉ active) :
    Settled env active' e' := by
  intro unit u hu hnot hidle hnil
  obtain ⟨hu₀, hnot₀⟩ := hunits unit u hu hnot hidle
  have hidle₀ := Engine.idle_of_idle hstore hidle
  exact (h unit u hu₀ hnot₀ hidle₀ hnil).later hkeeps hu₀ hok hidle₀ hok'
    ⟨hstore.bindings, hkeys⟩ (Engine.holds_of_idle hstore hidle)

theorem stable_settled (hkeeps : env.KeepsTo C v) : Stable env C v (Settled env active) := by
  intro e e' hok hok' hgrows hunits h
  refine h.of_grows hkeeps hok hok' hgrows.store hgrows.keys fun unit u hu hnot _ => ⟨?_, hnot⟩
  rw [← hunits]
  exact hu

/-! ### Checking a unit -/

/-- What a check of a unit does, whatever invariant `I` it keeps on the way. -/
theorem checkOnce_spec (hkeeps : env.KeepsTo C v) {I : Engine → Prop} (hI : Stable env C v I)
    {begin : Engine.Begin} {recheck : Bool} (hbegin : Begins env C v I (begin recheck))
    {unit : UnitId} {cause : Option Location} (hok : e.Ok env C v) (hunit : unit < e.units.length)
    {r : Except IterationLimit Unit}
    (hr : runEngine (Engine.checkOnce env begin unit cause recheck) e = (r, e')) :
    e'.Ok env C v ∧ e.count.Grows e' ∧ (r = .ok () → ∃ e₂ walk result,
      e' = e₂.record unit walk result ∧ e₂.Ok env C v ∧ e.count.Grows e₂ ∧
      (I e.count → I e₂) ∧ walk.Ok (Ty.Over C) v e₂.store.bindings.length ∧ result.Over C ∧
      (walk.diagnostics = [] → ¬ e₂.store.queue.holds unit = true →
        ∀ c : Checking, env.SameDeclarations c.env → c.unit = unit →
        c.self = (e.keyOf unit).bind Instantiation.self → ∀ t, Engine.Ok env C v t →
        e₂.Extends t → Engine.Holds unit e₂ t →
        runWalk (c.unitBody (e.keyOf unit)) .start t = (.ok (result, walk), t))) := by
  rcases checkOnce_cases hr with ⟨_, rfl, rfl⟩ | hran
  · exact ⟨hok.count, .refl _, fun hne => nomatch hne⟩
  · have hkeyOk : ∀ k, e.keyOf unit = some k → k.Ok env (Ty.Over C) := fun k hk =>
      hok.keys k (Engine.mem_keys hk)
    have hbody : ∀ c', Replay.Same (e.checkingOf env begin unit cause recheck) c' →
        Replay.At (e.checkingOf env begin unit cause recheck) C v I 0
          (fun _ => SameType (Ty.Over C))
          ((e.checkingOf env begin unit cause recheck).unitBody (e.keyOf unit))
          (c'.unitBody (e.keyOf unit)) .start e.count := by
      intro c' hsame
      refine Replay.unitBody hI hsame hkeeps.con hkeeps.domain (fun s hs => ?_) hbegin
        (fun k hk => (hkeyOk k hk).args) (hkeeps.speaks _) hok.count hunit
      obtain ⟨k, hk, hks⟩ := Option.bind_eq_some_iff.mp hs
      exact (hkeyOk k hk).self s hks
    rcases hran with ⟨stop, rfl, hrun⟩ | ⟨_, rfl, result, walk, e₂, hrun, rfl⟩
    · obtain ⟨hok', hgrows, _⟩ := hbody (e.checkingOf env begin unit cause recheck)
        ⟨.refl env, rfl, rfl⟩ _ _ hrun
      exact ⟨hok', hgrows, fun hne => nomatch hne⟩
    · obtain ⟨hok₂, hgrows₂, hach⟩ := hbody (e.checkingOf env begin unit cause recheck)
        ⟨.refl env, rfl, rfl⟩ _ _ hrun
      obtain ⟨hwalk, _, _, hkeepsI, _, b, _, _, hb, _⟩ := hach _ _ rfl
      refine ⟨hok₂.record unit walk result, hgrows₂.trans (e₂.grows_record unit walk result),
        fun _ => ⟨e₂, walk, result, rfl, hok₂, hgrows₂, hkeepsI, hwalk, hb.2, ?_⟩⟩
      intro hnil hidle c' henv hcunit hcself t ht hext hholds
      obtain ⟨_, _, hach'⟩ := hbody c' ⟨henv, hcunit, hcself⟩ _ _ hrun
      obtain ⟨_, _, _, _, _, b', _, _, hb', hrepeat⟩ := hach' _ _ rfl
      rw [hrepeat hnil hidle t ht hext hholds, hb'.1]

/-- A check settles its unit. -/
theorem checkOnce_settled (hkeeps : env.KeepsTo C v) {begin : Engine.Begin} {recheck : Bool}
    {unit : UnitId} (hbegin : Begins env C v (Settled env (unit :: active)) (begin recheck))
    {cause : Option Location} (hok : e.Ok env C v) (hunit : unit < e.units.length)
    (hr : runEngine (Engine.checkOnce env begin unit cause recheck) e = (.ok (), e'))
    (h : Settled env (unit :: active) e) : Settled env active e' := by
  obtain ⟨hok', _, hspec⟩ := checkOnce_spec hkeeps (stable_settled hkeeps) hbegin hok hunit hr
  obtain ⟨e₂, walk, result, rfl, hok₂, hgrows₂, hI, _, _, hrepeat⟩ := hspec rfl
  have hcount : Settled env (unit :: active) e.count :=
    h.of_grows hkeeps hok hok.count (.refl _) List.prefix_rfl fun _ _ hu hnot _ => ⟨hu, hnot⟩
  have h₂ := hI hcount
  have hgrows := e₂.grows_record unit walk result
  intro w u hu hnot hidle hnil
  rcases Engine.record_cases hu with ⟨rfl, u₂, hu₂, rfl⟩ | ⟨hw, hu₂⟩
  · -- the unit that was checked
    have hkey : (u₂.found walk result).key = e.keyOf w := by
      exact (Engine.keyOf_of_getElem? hu₂).symm.trans
        (Engine.keyOf_of_prefix (e := e.count) hgrows₂.keys hunit)
    intro c henv hcunit hcself
    rw [hkey] at hcself ⊢
    refine ⟨walk.scopes, walk.loopDepth, ?_⟩
    rw [hrepeat hnil hidle c henv hcunit hcself _ hok' hgrows.extends (.of_store rfl)]
    have hwalk : walk = ⟨walk.scopes, walk.loopDepth, [], walk.types, walk.calls⟩ := by
      rw [← show walk.diagnostics = [] from hnil]
    rw [hwalk]
    rfl
  · -- any other unit
    have hnot₂ : w ∉ unit :: active := fun hmem =>
      (List.mem_cons.mp hmem).elim hw hnot
    exact (h₂ w u hu₂ hnot₂ hidle hnil).later hkeeps hu₂ hok₂ hidle hok' hgrows.extends
      (.of_store rfl)

/-! ### Nested checks -/

def Engine.nestedBegin (env : Env) : (depth : Nat) → Engine.Begin
  | 0 => fun _ unit cause => Engine.enqueue unit (some cause)
  | depth + 1 => fun recheck unit cause => Engine.checkNested env depth unit (some cause) recheck

theorem Engine.checkNested_eq (env : Env) (depth : Nat) :
    Engine.checkNested env depth = Engine.checkOnce env (Engine.nestedBegin env depth) := by
  cases depth <;> rfl

theorem begins_enqueue (hkeeps : env.KeepsTo C v) (active : List UnitId) :
    Begins env C v (Settled env active) fun unit cause => Engine.enqueue unit (some cause) := by
  intro e key loc r e' hok hnew hkey hr
  cases hr
  obtain ⟨hok', hgrows, hkeys⟩ := enqueue_new hok hnew hkey (some loc) rfl
  refine ⟨hok', hgrows, hkeys, fun _ h => ?_⟩
  refine h.of_grows hkeeps hok hok' hgrows.store hgrows.keys fun unit u hu hnot hidle => ⟨?_, hnot⟩
  change (e.units ++ [UnitRecord.fresh (some key)])[unit]? = some u at hu
  rcases Nat.lt_or_ge unit e.units.length with hlt | hge
  · rw [List.getElem?_append_left hlt] at hu
    exact hu
  · -- the new unit is waiting
    have hlt := (List.getElem?_eq_some_iff.mp hu).1
    rw [List.length_append, List.length_singleton] at hlt
    have heq : unit = e.units.length := Nat.le_antisymm (Nat.lt_succ_iff.mp hlt) hge
    rw [heq] at hidle
    exact absurd (Worklist.holds_enqueue _ _ _) hidle

theorem begins_checkOnce (hkeeps : env.KeepsTo C v) {begin : Engine.Begin} {recheck : Bool}
    (hbegin : ∀ active, Begins env C v (Settled env active) (begin recheck))
    (active : List UnitId) :
    Begins env C v (Settled env active) fun unit cause =>
      Engine.checkOnce env begin unit (some cause) recheck := by
  intro e key loc r e' hok hnew hkey hr
  have hadd := hok.add hkey hnew
  have hlt := e.lt_length_add key
  have hkeys : e.keys <+: (e.add key).keys := by
    rw [Engine.keys_add]
    exact List.prefix_append _ _
  obtain ⟨hok', hgrows, _⟩ :=
    checkOnce_spec hkeeps (stable_settled hkeeps) (hbegin (e.units.length :: active)) hadd hlt hr
  refine ⟨hok', ⟨hgrows.store, hkeys.trans hgrows.keys, ?_, ?_, ?_⟩, hgrows.keys, fun hr' h => ?_⟩
  · exact Nat.le_trans (Nat.le_succ _) hgrows.checks
  · have hchecked := hgrows.checked
    change e'.checks + (e.add key).units.length ≤ e.checks + 1 + e'.units.length at hchecked
    omega
  · refine Or.inr (Or.inl ?_)
    have hle := hgrows.extends.units_le
    change (e.add key).units.length ≤ e'.units.length at hle
    omega
  · subst hr'
    refine checkOnce_settled hkeeps (hbegin _) hadd hlt hr ?_
    refine h.of_grows hkeeps hok hadd (.refl _) hkeys fun unit u hu hnot _ => ?_
    obtain ⟨hne, hnot⟩ := not_or.mp (mt List.mem_cons.mpr hnot)
    refine ⟨?_, hnot⟩
    change (e.units ++ [UnitRecord.fresh (some key)])[unit]? = some u at hu
    have hlt' := (List.getElem?_eq_some_iff.mp hu).1
    rw [List.length_append, List.length_singleton] at hlt'
    rw [List.getElem?_append_left
      (Nat.lt_of_le_of_ne (Nat.lt_succ_iff.mp hlt') hne)] at hu
    exact hu

/-- New instances are settled at every level of nesting. -/
theorem begins_nested (hkeeps : env.KeepsTo C v) (depth : Nat) (recheck : Bool)
    (active : List UnitId) :
    Begins env C v (Settled env active) (Engine.nestedBegin env depth recheck) := by
  induction depth generalizing recheck active with
  | zero => exact begins_enqueue hkeeps active
  | succ depth ih =>
    have h := begins_checkOnce hkeeps (ih recheck) active
    rw [← Engine.checkNested_eq] at h
    exact h

theorem checkNested_grows (hkeeps : env.KeepsTo C v) {depth : Nat} {unit : UnitId}
    {cause : Option Location} {recheck : Bool} (hok : e.Ok env C v) (hunit : unit < e.units.length)
    {r : Except IterationLimit Unit}
    (hr : runEngine (Engine.checkNested env depth unit cause recheck) e = (r, e')) :
    e'.Ok env C v ∧ e.count.Grows e' := by
  rw [Engine.checkNested_eq] at hr
  have hstable : Stable env C v (Settled env []) := stable_settled hkeeps
  obtain ⟨hok', hgrows, _⟩ :=
    checkOnce_spec hkeeps hstable (begins_nested hkeeps depth recheck []) hok hunit hr
  exact ⟨hok', hgrows⟩

theorem checkNested_settled (hkeeps : env.KeepsTo C v) {depth : Nat} {unit : UnitId}
    {cause : Option Location} {recheck : Bool} (hok : e.Ok env C v) (hunit : unit < e.units.length)
    (hr : runEngine (Engine.checkNested env depth unit cause recheck) e = (.ok (), e'))
    (h : Settled env (unit :: active) e) : Settled env active e' := by
  rw [Engine.checkNested_eq] at hr
  exact checkOnce_settled hkeeps (begins_nested hkeeps depth recheck _) hok hunit hr h

/-! ### The worklist -/

theorem Engine.Ok.withQueue (hok : e.Ok env C v) {next : Pending} {rest : Worklist}
    (hq : e.store.queue = next :: rest) : (e.withQueue rest).Ok env C v where
  store := hok.store.withQueue hq
  keys := hok.keys
  distinct := hok.distinct

theorem Engine.Ok.sealed (hok : e.Ok env C v) (hkeeps : env.KeepsTo C v) : e.sealed.Ok env C v :=
  hok.of_store (hok.store.sealStarved (hkeeps.domain.literal .nil).2)

theorem Engine.Ok.extends_sealed (hok : e.Ok env C v) : e.Extends e.sealed :=
  ⟨(Store.grows_sealStarved hok.store .nil).bindings, List.prefix_rfl⟩

/-- Taking a unit off the worklist makes it the one that has to be settled. -/
theorem Settled.withQueue (hkeeps : env.KeepsTo C v) (hok : e.Ok env C v) (h : Settled env [] e)
    {next : Pending} {rest : Worklist} (hq : e.store.queue = next :: rest) :
    Settled env [next.unit] (e.withQueue rest) := by
  intro unit u hu hnot hidle hnil
  have hidle₀ : ¬ e.store.queue.holds unit = true := by
    rw [hq]
    intro hold
    rcases List.mem_cons.mp (Worklist.holds_iff.mp hold) with heq | hmem
    · exact hnot (List.mem_singleton.mpr heq)
    · exact hidle (Worklist.holds_iff.mpr hmem)
  exact (h unit u hu (fun hmem => nomatch hmem) hidle₀ hnil).later hkeeps hu hok hidle₀
    (hok.withQueue hq) ⟨.refl _, List.prefix_rfl⟩ (.of_store rfl)

theorem Settled.sealed (hkeeps : env.KeepsTo C v) (hok : e.Ok env C v)
    (h : Settled env active e) : Settled env active e.sealed :=
  h.of_grows hkeeps hok (hok.sealed hkeeps) (Store.grows_sealStarved hok.store .nil)
    List.prefix_rfl fun _ _ hu hnot _ => ⟨hu, hnot⟩

/-- When sealing puts no unit on the worklist, nothing was starved and nothing has
    changed. -/
theorem sealed_eq_self (hq : e.sealed.store.queue = []) :
    e.sealed = e ∧ ∀ b ∈ e.store.bindings, b.isStarved = false := by
  have hfed : e.store.Fed := by
    rw [← Store.starvedReaders_eq_nil_iff, List.eq_nil_iff_forall_not_mem]
    intro u hu
    have hold := Worklist.holds_enqueueAll e.store.queue none hu
    change e.store.queue.enqueueAll (Store.starvedReaders e.store.bindings) none = [] at hq
    rw [hq] at hold
    cases hold
  refine ⟨?_, hfed⟩
  rw [Engine.sealed, hfed.sealStarved_eq]

structure Between (env : Env) (C : Ty → Prop) (v : Vocabulary) (e : Engine) : Prop where
  ok : e.Ok env C v
  settled : Settled env [] e
  /-- The first unit is the top level. -/
  top : [none] <+: e.keys

structure Finished (env : Env) (C : Ty → Prop) (v : Vocabulary) (e : Engine) : Prop
    extends Between env C v e where
  idle : e.store.queue = []
  fed : e.knowsProblem = false → ∀ b ∈ e.store.bindings, b.isStarved = false

/-- Choosing the next unit. -/
theorem nextUnit_spec (hkeeps : env.KeepsTo C v) (h : Between env C v e) {o : Option Pending}
    (hr : runEngine Engine.nextUnit e = (.ok o, e')) :
    (∃ next, o = some next ∧ e'.Ok env C v ∧ Settled env [next.unit] e' ∧
        next.unit < e'.units.length ∧ e.Extends e') ∨
      (o = none ∧ e' = e ∧ Finished env C v e) := by
  have hpop : ∀ {e : Engine} {next : Pending} {rest : Worklist}, e.Ok env C v →
      Settled env [] e → e.store.queue = next :: rest →
      (e.withQueue rest).Ok env C v ∧ Settled env [next.unit] (e.withQueue rest) ∧
        next.unit < (e.withQueue rest).units.length ∧ e.Extends (e.withQueue rest) := by
    intro e next rest hok hsettled hq
    refine ⟨hok.withQueue hq, hsettled.withQueue hkeeps hok hq, ?_, ⟨.refl _, List.prefix_rfl⟩⟩
    exact hok.store.queued next (by rw [hq]; exact List.mem_cons_self)
  cases Engine.chooses_iff.mpr hr with
  | waiting hq => exact Or.inl ⟨_, rfl, hpop h.ok h.settled hq⟩
  | problem hq hproblem =>
    refine Or.inr ⟨rfl, rfl, h, hq, fun hsilent => ?_⟩
    rw [hproblem] at hsilent
    cases hsilent
  | woken _ _ hqs =>
    obtain ⟨hok, hsettled, hlt, hext⟩ :=
      hpop (h.ok.sealed hkeeps) (h.settled.sealed hkeeps h.ok) hqs
    exact Or.inl ⟨_, rfl, hok, hsettled, hlt, h.ok.extends_sealed.trans hext⟩
  | fed hq _ hqs =>
    obtain ⟨hself, hstarved⟩ := sealed_eq_self hqs
    exact Or.inr ⟨rfl, hself, h, hq, fun _ => hstarved⟩

/-- A round that comes to its end leads from one state between checks to another. -/
theorem between_round (hkeeps : env.KeepsTo C v) (h : Between env C v e) {next : Pending}
    (hnext : runEngine Engine.nextUnit e = (.ok (some next), e₁))
    (hcheck : runEngine (Engine.recheck env next) e₁ = (.ok (), e₂)) : Between env C v e₂ := by
  obtain ⟨p, hp, hok, hsettled, hlt, hext⟩ :=
    (nextUnit_spec hkeeps h hnext).resolve_right fun hnone => nomatch hnone.1
  cases hp
  have hgrows := checkNested_grows hkeeps hok hlt hcheck
  exact ⟨hgrows.1, checkNested_settled hkeeps hok hlt hcheck hsettled,
    h.top.trans (hext.keys.trans hgrows.2.keys)⟩

theorem settle_finished (hkeeps : env.KeepsTo C v) (rounds : Nat) (h : Between env C v e)
    (hr : runEngine (Engine.settle env rounds) e = (.ok (), e')) : Finished env C v e' := by
  induction rounds generalizing e with
  | zero =>
    rw [runEngine_settle_zero] at hr
    cases hr
  | succ rounds ih =>
    rcases settle_ok_cases hr with hnext | ⟨next, e₁, e₂, hnext, hcheck, hrest⟩
    · obtain ⟨_, rfl, hfinished⟩ := (nextUnit_spec hkeeps h hnext).resolve_left
        fun ⟨_, hne, _⟩ => nomatch hne
      exact hfinished
    · exact ih (between_round hkeeps h hnext hcheck) hrest

theorem ok_start : Engine.start.Ok env C v where
  store :=
    { bindings := fun _ hb => nomatch hb
      slots := List.Pairwise.nil
      queued := fun _ hp => nomatch hp
      distinct := List.Pairwise.nil }
  keys := by
    intro key hkey
    cases List.mem_singleton.mp hkey
  distinct := List.pairwise_singleton _ _

theorem settled_start : Settled env [topUnit] Engine.start := by
  intro unit u hu hnot
  have hlt : unit < 1 := (List.getElem?_eq_some_iff.mp hu).1
  exact absurd (List.mem_singleton.mpr (Nat.lt_one_iff.mp hlt)) hnot

/-- After the check of the top level the run is between two checks. -/
theorem between_start (hkeeps : env.KeepsTo C v) {depth : Nat}
    (hcheck : runEngine (Engine.checkNested env depth topUnit none false) .start = (.ok (), e)) :
    Between env C v e := by
  have hlt : topUnit < Engine.start.units.length := Nat.one_pos
  have hgrows := checkNested_grows hkeeps ok_start hlt hcheck
  exact ⟨hgrows.1, checkNested_settled hkeeps ok_start hlt hcheck settled_start, hgrows.2.keys⟩

/-- A run that comes to its end leaves nothing waiting and every unit settled. -/
theorem final_finished (hkeeps : env.KeepsTo C v) (hr : Engine.final env = (.ok (), e)) :
    Finished env C v e := by
  obtain ⟨e₁, hcheck, hsettle⟩ := exists_settle_of_runAll hr
  exact settle_finished hkeeps _ (between_start hkeeps hcheck) hsettle

end

end UnionTyping
