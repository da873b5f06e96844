/-
  UnionTyping/Proofs/Inference/Growth.lean
  ========================================
  **What the state of a run keeps, and what is true of every state.**

  The state of a run grows as its store does, and units are only added
  (`Engine.Grows`).  `Engine.Ok` and `Walk.Ok` collect what is true of every state
  of a run and of the findings of every check: types keep to a set of instances,
  slots and node numbers to a vocabulary, and no instance has two units.

  A unit `Holds` what it has read from one state to another when none of the
  bindings that it has read changed between them.
-/
import UnionTyping.Proofs.Binding.Growth
import UnionTyping.Proofs.Inference.Runs
import UnionTyping.Proofs.Inference.Uniform
import UnionTyping.Proofs.NodeMap

namespace UnionTyping

/-! ### Slots and instances -/

def Slot.Fits (env : Env) (v : Vocabulary) (n : Nat) : Slot → Prop
  | .local unit scope name =>
    unit < n ∧ v.names name ∧ ∀ call, scope = .block call → v.blocks call
  | .ivar owner name => (∃ self, env.classes.classOf self = some owner) ∧ v.names name
  | .returned unit => unit < n

theorem Slot.Fits.mono {env : Env} {v : Vocabulary} {n n' : Nat} (h : n ≤ n') {slot : Slot}
    (hslot : slot.Fits env v n) : slot.Fits env v n' := by
  cases slot with
  | «local» unit scope name => exact ⟨Nat.lt_of_lt_of_le hslot.1 h, hslot.2⟩
  | ivar owner name => exact hslot
  | returned unit => exact Nat.lt_of_lt_of_le hslot h

instance : ReflBEq Instantiation where
  rfl {key} := by
    have hsplit : (key == key) =
        (key.method == key.method && (key.self == key.self && key.args == key.args)) := rfl
    rw [hsplit, BEq.rfl, BEq.rfl, BEq.rfl, Bool.and_self, Bool.and_self]

/-- An instance of a method that can be found, for types that satisfy `T`. -/
structure Instantiation.Ok (env : Env) (T : Ty → Prop) (key : Instantiation) : Prop where
  method : ∃ entry ∈ env.methods.live, entry.id = key.method ∧
    entry.method.signature.takes key.args.length = true
  self : ∀ s, key.self = some s → T s
  args : ∀ a ∈ key.args, T a

theorem Store.Ok.mono {C : Ty → Prop} {env : Env} {v : Vocabulary} {n n' : Nat} {s : Store}
    (h : s.Ok C (Slot.Fits env v n) n) (hle : n ≤ n') : s.Ok C (Slot.Fits env v n') n' :=
  h.weaken (fun _ hm => hm) (fun _ hslot => hslot.mono hle) hle

/-! ### States -/

namespace Engine

def keys (e : Engine) : List (Option Instantiation) := e.units.map UnitRecord.key

theorem length_keys (e : Engine) : e.keys.length = e.units.length := List.length_map _

theorem keys_add (e : Engine) (key : Instantiation) : (e.add key).keys = e.keys ++ [some key] := by
  rw [keys, add, List.map_append]
  rfl

theorem unitOf_eq (e : Engine) (key : Instantiation) :
    e.unitOf key = e.keys.findIdx? fun k => k.any (key == ·) := by
  rw [keys, List.findIdx?_map]
  rfl

/-- An instance that has a unit has the same one for good. -/
theorem unitOf_of_prefix {e e' : Engine} (h : e.keys <+: e'.keys) {key : Instantiation}
    {unit : UnitId} (hunit : e.unitOf key = some unit) : e'.unitOf key = some unit := by
  rw [unitOf_eq] at hunit ⊢
  exact h.findIdx?_eq_some hunit

/-- The unit of an instance has the same instance. -/
theorem exists_key_of_unitOf {e : Engine} {key : Instantiation} {unit : UnitId}
    (h : e.unitOf key = some unit) : ∃ k, e.keyOf unit = some k ∧ (key == k) = true := by
  obtain ⟨hlt, hany, _⟩ := List.findIdx?_eq_some_iff_getElem.mp h
  rw [keyOf, List.getElem?_eq_getElem hlt, Option.bind_some]
  cases hk : (e.units[unit]).key with
  | none =>
    rw [hk] at hany
    cases hany
  | some k =>
    rw [hk] at hany
    exact ⟨k, rfl, hany⟩

theorem unitOf_lt {e : Engine} {key : Instantiation} {unit : UnitId}
    (h : e.unitOf key = some unit) : unit < e.units.length :=
  (List.findIdx?_eq_some_iff_getElem.mp h).1

theorem unitOf_add_eq (e : Engine) (key k : Instantiation) :
    (e.add key).unitOf k = (e.unitOf k).or (if k == key then some e.units.length else none) := by
  rw [unitOf_eq, unitOf_eq, keys_add, List.findIdx?_append]
  congr 1
  cases hk : k == key <;> simp [List.findIdx?_cons, hk, length_keys]

theorem unitOf_add {e : Engine} {key : Instantiation} (h : e.unitOf key = none) :
    (e.add key).unitOf key = some e.units.length := by
  rw [unitOf_eq] at h ⊢
  rw [keys_add, List.findIdx?_append, h, Option.none_or, List.findIdx?_cons, Option.any_some,
    BEq.rfl, if_pos rfl, Option.map_some, Nat.zero_add, length_keys]

/-- An instance without a unit is not the same as that of any unit. -/
theorem ne_of_mem_keys {e : Engine} {key : Instantiation} (h : e.unitOf key = none)
    {k : Option Instantiation} (hk : k ∈ e.keys) : (some key == k) = false := by
  rw [unitOf_eq] at h
  cases k with
  | none => rfl
  | some k => exact List.findIdx?_eq_none_iff.mp h _ hk

structure Extends (e e' : Engine) : Prop where
  bindings : e.store.Extends e'.store
  keys : e.keys <+: e'.keys

/-- The second state is the first one some time later in the check of a unit.  Each
    check that was made in between is that of a new unit, and the worklist is longer only
    when there are more units or some binding has more members. -/
structure Grows (e e' : Engine) : Prop where
  store : e.store.Grows e'.store
  keys : e.keys <+: e'.keys
  checks : e.checks ≤ e'.checks
  checked : e'.checks + e.units.length ≤ e.checks + e'.units.length
  woken : e'.store.queue = e.store.queue ∨ e.units.length < e'.units.length ∨
    e.store.Widens e'.store

theorem Extends.refl (e : Engine) : e.Extends e := ⟨.refl _, List.prefix_rfl⟩

theorem Extends.trans {e₁ e₂ e₃ : Engine} (h : e₁.Extends e₂) (h' : e₂.Extends e₃) :
    e₁.Extends e₃ :=
  ⟨h.bindings.trans h'.bindings, h.keys.trans h'.keys⟩

theorem Grows.refl (e : Engine) : e.Grows e :=
  ⟨.refl _, List.prefix_rfl, Nat.le_refl _, Nat.le_refl _, Or.inl rfl⟩

theorem units_le_of_prefix {e e' : Engine} (h : e.keys <+: e'.keys) :
    e.units.length ≤ e'.units.length := by
  rw [← length_keys, ← length_keys]
  exact h.length_le

theorem Grows.trans {e₁ e₂ e₃ : Engine} (h : e₁.Grows e₂) (h' : e₂.Grows e₃) : e₁.Grows e₃ where
  store := h.store.trans h'.store
  keys := h.keys.trans h'.keys
  checks := Nat.le_trans h.checks h'.checks
  checked := by
    have h₁ := h.checked
    have h₂ := h'.checked
    omega
  woken := by
    have hle := units_le_of_prefix h.keys
    have hle' := units_le_of_prefix h'.keys
    rcases h'.woken with hsame | hunits | hwidens
    · rcases h.woken with hsame' | hunits | hwidens
      · exact Or.inl (hsame.trans hsame')
      · exact Or.inr (Or.inl (Nat.lt_of_lt_of_le hunits hle'))
      · exact Or.inr (Or.inr (hwidens.later h'.store.bindings))
    · exact Or.inr (Or.inl (Nat.lt_of_le_of_lt hle hunits))
    · exact Or.inr (Or.inr (hwidens.earlier h.store.bindings))

theorem Grows.extends {e e' : Engine} (h : e.Grows e') : e.Extends e' := ⟨h.store.bindings, h.keys⟩

theorem Extends.units_le {e e' : Engine} (h : e.Extends e') : e.units.length ≤ e'.units.length :=
  units_le_of_prefix h.keys

theorem Extends.bindings_le {e e' : Engine} (h : e.Extends e') :
    e.store.bindings.length ≤ e'.store.bindings.length :=
  h.bindings.length_le

/-- A step on the store alone. -/
theorem Grows.of_store {e : Engine} {s : Store} (h : e.store.Grows s)
    (hwoken : s.queue = e.store.queue ∨ e.store.Widens s) : e.Grows { e with store := s } :=
  ⟨h, List.prefix_rfl, Nat.le_refl _, Nat.le_refl _, hwoken.imp_right Or.inr⟩

/-- What is true of every state of a run. -/
structure Ok (env : Env) (C : Ty → Prop) (v : Vocabulary) (e : Engine) : Prop where
  store : e.store.Ok C (Slot.Fits env v e.units.length) e.units.length
  keys : ∀ key, some key ∈ e.keys → key.Ok env (Ty.Over C)
  /-- No two units have the same instance. -/
  distinct : e.keys.Pairwise fun k k' => (k' == k) = false

variable {env : Env} {C : Ty → Prop} {v : Vocabulary} {e e' : Engine}

/-- What is true of states with certain instances and slots is true with more of them. -/
theorem Ok.mono {env' : Env} {C' : Ty → Prop} {v' : Vocabulary} (h : e.Ok env C v)
    (hmethods : env'.methods = env.methods) (hC : ∀ m, C m → C' m)
    (hslot : ∀ (n : Nat) (slot : Slot), slot.Fits env v n → slot.Fits env' v' n) :
    e.Ok env' C' v' where
  store := h.store.weaken hC (hslot _) (Nat.le_refl _)
  keys := fun key hkey =>
    { method := hmethods ▸ (h.keys key hkey).method
      self := fun s hs => ((h.keys key hkey).self s hs).mono hC
      args := fun a ha => ((h.keys key hkey).args a ha).mono hC }
  distinct := h.distinct

theorem Ok.nodup (h : e.Ok env C v) : e.keys.Nodup := by
  refine h.distinct.imp fun {k k'} hne heq => ?_
  rw [heq, BEq.rfl] at hne
  cases hne

theorem Ok.of_store (h : e.Ok env C v) {s : Store}
    (hs : s.Ok C (Slot.Fits env v e.units.length) e.units.length) :
    Ok env C v { e with store := s } :=
  ⟨hs, h.keys, h.distinct⟩

theorem Ok.count (h : e.Ok env C v) : e.count.Ok env C v := ⟨h.store, h.keys, h.distinct⟩

theorem Ok.add (h : e.Ok env C v) {key : Instantiation} (hkey : key.Ok env (Ty.Over C))
    (hnew : e.unitOf key = none) : (e.add key).Ok env C v where
  store := by
    refine h.store.mono ?_
    rw [Engine.add, List.length_append]
    exact Nat.le_add_right _ _
  keys := by
    intro k hk
    rw [keys_add] at hk
    rcases List.mem_append.mp hk with hk | hk
    · exact h.keys k hk
    · cases List.mem_singleton.mp hk
      exact hkey
  distinct := by
    rw [keys_add]
    refine List.pairwise_append.mpr ⟨h.distinct, List.pairwise_singleton _ _, fun k hk k' hk' => ?_⟩
    rw [List.mem_singleton.mp hk']
    exact ne_of_mem_keys hnew hk

theorem keys_modify {units : List UnitRecord} {unit : UnitId} {f : UnitRecord → UnitRecord}
    (hf : ∀ u, (f u).key = u.key) :
    (units.modify unit f).map UnitRecord.key = units.map UnitRecord.key :=
  Store.map_modify_eq hf units unit

/-! ### Units that hold what they have read -/

/-- None of the bindings that the unit has read changed between the two states. -/
def Holds (unit : UnitId) (e e' : Engine) : Prop :=
  ∀ (i : BindingId) (b b' : Binding), e.store.bindings[i]? = some b →
    e'.store.bindings[i]? = some b' → unit ∈ b.readers → b'.current = b.current

/-- A unit that is not waiting holds what it has read. -/
theorem holds_of_idle (h : e.store.Grows e'.store) {unit : UnitId}
    (hidle : ¬ e'.store.queue.holds unit = true) : Holds unit e e' := by
  intro i b b' hb hb' hu
  by_cases heq : b'.current = b.current
  · exact heq
  · exact absurd (h.queued i b b' hb hb' heq unit hu) hidle

theorem idle_of_idle (h : e.store.Grows e'.store) {unit : UnitId}
    (hidle : ¬ e'.store.queue.holds unit = true) : ¬ e.store.queue.holds unit = true :=
  fun hold => hidle (Worklist.holds_of_prefix h.queue hold)

theorem Holds.of_grows {t : Engine} {unit : UnitId} (h : e.Grows e') (ht : Holds unit e' t)
    (hidle : ¬ e'.store.queue.holds unit = true) : Holds unit e t := by
  intro i b c hb hc hu
  obtain ⟨b', hb', hgrows⟩ := h.store.bindings i b hb
  rw [ht i b' c hb' hc (hgrows.readers hu)]
  exact holds_of_idle h.store hidle i b b' hb hb' hu

end Engine

/-! ### The findings of a check -/

/-- The frames are those of blocks of the vocabulary, and the names in them mean
    bindings that there are. -/
structure Scopes.Ok (v : Vocabulary) (n : Nat) (s : Scopes) : Prop where
  owners : ∀ frame ∈ s.inner, ∃ call, frame.owner = .block call ∧ v.blocks call
  inner : ∀ frame ∈ s.inner, ∀ p ∈ frame.names, p.2 < n
  body : ∀ p ∈ s.body, p.2 < n

namespace Scopes

variable {v : Vocabulary} {n : Nat} {s : Scopes}

theorem mem_of_lookup {names : Names} {name : String} {i : BindingId}
    (h : names.lookup name = some i) : (name, i) ∈ names := by
  obtain ⟨l₁, l₂, heq, _⟩ := List.lookup_eq_some_iff.mp h
  rw [heq]
  exact List.mem_append_right _ List.mem_cons_self

theorem mem_of_lookupIn {frames : List Frame} {name : String} {i : BindingId}
    (h : lookupIn name frames = some i) : ∃ frame ∈ frames, (name, i) ∈ frame.names := by
  induction frames with
  | nil => cases h
  | cons frame outer ih =>
    rw [lookupIn] at h
    cases hhead : frame.names.lookup name with
    | some j =>
      rw [hhead] at h
      cases h
      exact ⟨frame, List.mem_cons_self, mem_of_lookup hhead⟩
    | none =>
      rw [hhead] at h
      obtain ⟨f, hf, hmem⟩ := ih h
      exact ⟨f, List.mem_cons_of_mem _ hf, hmem⟩

theorem Ok.lookup_lt (h : s.Ok v n) {name : String} {i : BindingId} (hi : s.lookup name = some i) :
    i < n := by
  rw [lookup] at hi
  cases hin : lookupIn name s.inner with
  | some j =>
    rw [hin] at hi
    cases hi
    obtain ⟨frame, hframe, hmem⟩ := mem_of_lookupIn hin
    exact h.inner frame hframe _ hmem
  | none =>
    rw [hin] at hi
    exact h.body _ (mem_of_lookup hi)

theorem Ok.mono {n' : Nat} (h : s.Ok v n) (hle : n ≤ n') : s.Ok v n' where
  owners := h.owners
  inner := fun frame hframe p hp => Nat.lt_of_lt_of_le (h.inner frame hframe p hp) hle
  body := fun p hp => Nat.lt_of_lt_of_le (h.body p hp) hle

theorem ok_empty : Scopes.empty.Ok v n :=
  ⟨(fun _ hf => nomatch hf), (fun _ hf => nomatch hf), fun _ hp => nomatch hp⟩

theorem Ok.enter (h : s.Ok v n) {call : NodeId} (hcall : v.blocks call) :
    (s.enter (.block call)).Ok v n where
  owners := List.forall_mem_cons.mpr ⟨⟨call, rfl, hcall⟩, h.owners⟩
  inner := List.forall_mem_cons.mpr ⟨(fun _ hp => nomatch hp), h.inner⟩
  body := h.body

theorem Ok.leave (h : s.Ok v n) : s.leave.Ok v n where
  owners := fun frame hframe => h.owners frame (List.mem_of_mem_tail hframe)
  inner := fun frame hframe => h.inner frame (List.mem_of_mem_tail hframe)
  body := h.body

theorem Ok.declare (h : s.Ok v n) {name : String} {i : BindingId} (hi : i < n) :
    (s.declare name i).Ok v n := by
  obtain ⟨inner, body⟩ := s
  cases inner with
  | nil => exact ⟨h.owners, h.inner, List.forall_mem_cons.mpr ⟨hi, h.body⟩⟩
  | cons frame outer =>
    obtain ⟨hframe, houter⟩ := List.forall_mem_cons.mp h.inner
    obtain ⟨howner, howners⟩ := List.forall_mem_cons.mp h.owners
    refine ⟨List.forall_mem_cons.mpr ⟨howner, howners⟩, ?_, h.body⟩
    exact List.forall_mem_cons.mpr ⟨List.forall_mem_cons.mpr ⟨hi, hframe⟩, houter⟩

theorem Ok.owner (h : s.Ok v n) {call : NodeId} (hcall : s.owner = .block call) :
    v.blocks call := by
  obtain ⟨inner, body⟩ := s
  cases inner with
  | nil => cases hcall
  | cons frame outer =>
    obtain ⟨call', howner, hblocks⟩ := h.owners frame List.mem_cons_self
    have heq : frame.owner = .block call := hcall
    rw [howner] at heq
    cases heq
    exact hblocks

end Scopes

structure Resolution.Ok (T : Ty → Prop) (call : Resolution) : Prop where
  receiver : ∀ r, call.receiver = some r → T r
  args : ∀ a ∈ call.args, T a
  ret : T call.ret

/-- What is true of the findings of every check at any time. -/
structure Walk.Ok (T : Ty → Prop) (v : Vocabulary) (n : Nat) (walk : Walk) : Prop where
  scopes : walk.scopes.Ok v n
  typesAscending : walk.types.Ascending
  callsAscending : walk.calls.Ascending
  types : ∀ p ∈ walk.types.entries, T p.2
  calls : ∀ p ∈ walk.calls.entries, ∀ call ∈ p.2, call.Ok T

namespace Walk

variable {T : Ty → Prop} {v : Vocabulary} {n : Nat} {walk : Walk}

def found (walk : Walk) (node : NodeId) : Option Ty × Option (List Resolution) :=
  (walk.types.find? node, walk.calls.find? node)

theorem ok_start : Walk.start.Ok T v n :=
  ⟨Scopes.ok_empty, NodeMap.ascending_empty, NodeMap.ascending_empty,
    (fun _ hp => nomatch hp), fun _ hp => nomatch hp⟩

theorem Ok.withScopes (h : walk.Ok T v n) {n' : Nat} {s : Scopes} (hs : s.Ok v n') :
    Walk.Ok T v n' { walk with scopes := s } :=
  ⟨hs, h.typesAscending, h.callsAscending, h.types, h.calls⟩

theorem Ok.withLoopDepth (h : walk.Ok T v n) (depth : Nat) :
    Walk.Ok T v n { walk with loopDepth := depth } :=
  ⟨h.scopes, h.typesAscending, h.callsAscending, h.types, h.calls⟩

theorem Ok.mono {n' : Nat} (h : walk.Ok T v n) (hle : n ≤ n') : walk.Ok T v n' :=
  ⟨h.scopes.mono hle, h.typesAscending, h.callsAscending, h.types, h.calls⟩

theorem Ok.withDiagnostics (h : walk.Ok T v n) (ds : List Diagnostic) :
    Walk.Ok T v n { walk with diagnostics := ds } :=
  ⟨h.scopes, h.typesAscending, h.callsAscending, h.types, h.calls⟩

theorem Ok.noteType (h : walk.Ok T v n) {node : NodeId} {ty : Ty} (hty : T ty) :
    Walk.Ok T v n { walk with types := walk.types.insert node ty } where
  scopes := h.scopes
  typesAscending := h.typesAscending.insert node ty
  callsAscending := h.callsAscending
  types := by
    intro p hp
    rcases NodeMap.mem_alterEntries hp with hp | rfl | ⟨_, _, rfl⟩
    · exact h.types p hp
    · exact hty
    · exact hty
  calls := h.calls

theorem Ok.noteCall (h : walk.Ok T v n) {node : NodeId} {call : Resolution}
    (hcall : call.Ok T) :
    Walk.Ok T v n { walk with
      calls := walk.calls.alter node fun known =>
        let calls := known.getD []
        if calls.any (· == call) then calls else calls ++ [call] } where
  scopes := h.scopes
  typesAscending := h.typesAscending
  callsAscending := h.callsAscending.alter node _
  types := h.types
  calls := by
    intro p hp
    have hadd : ∀ known : Option (List Resolution), (∀ c ∈ known.getD [], c.Ok T) →
        ∀ c ∈ (let calls := known.getD []
          if calls.any (· == call) then calls else calls ++ [call]), c.Ok T := by
      intro known hknown c hc
      simp only at hc
      split at hc
      · exact hknown c hc
      · rcases List.mem_append.mp hc with hc | hc
        · exact hknown c hc
        · rw [List.mem_singleton.mp hc]
          exact hcall
    rcases NodeMap.mem_alterEntries hp with hp | rfl | ⟨known, hknown, rfl⟩
    · exact h.calls p hp
    · exact hadd none fun _ hc => nomatch hc
    · exact hadd (some known) (h.calls _ hknown)

/-- Noting something for a node changes nothing for nodes outside the vocabulary. -/
theorem Ok.found_noteType (h : walk.Ok T v n) {node other : NodeId} {ty : Ty} (hid : v.ids node)
    (hother : ¬ v.ids other) :
    Walk.found { walk with types := walk.types.insert node ty } other = walk.found other := by
  have hne : other ≠ node := fun heq => hother (heq ▸ hid)
  rw [found, NodeMap.find?_insert h.typesAscending, if_neg hne]
  rfl

theorem Ok.found_noteCall (h : walk.Ok T v n) {node other : NodeId}
    {f : Option (List Resolution) → List Resolution} (hid : v.ids node) (hother : ¬ v.ids other) :
    Walk.found { walk with calls := walk.calls.alter node f } other = walk.found other := by
  have hne : other ≠ node := fun heq => hother (heq ▸ hid)
  rw [found, NodeMap.find?_alter h.callsAscending, if_neg hne]
  rfl

end Walk

end UnionTyping
