/-
  UnionTyping/Proofs/Inference/NormalForm.lean
  ============================================
  **All types that a run stores are in normal form.**

  At every moment of every run, the type of each binding, what units have found, what
  the checks under way have found, and the types of instances are in normal form, and
  a type is unresolved as a whole or not at all.  Methods are entered with instances of
  classes.  The map of instances gives an instance a unit exactly when that unit has the
  same instance, and no two units do (`Program.run_in_normalForm`).

  Sameness of types is an equivalence relation only on types in normal form, so without
  this an instance could miss its unit.
-/
import UnionTyping.Proofs.Inference.Execution
import UnionTyping.Proofs.Inference.LegalCalls
import UnionTyping.Proofs.Inference.Moments
import UnionTyping.Proofs.Inference.Termination

namespace UnionTyping

open Ty (Over Proper)

/-! ### Types that are stored -/

namespace Ty

/-- Nothing in the type is unresolved, at any depth. -/
inductive Determined : Ty → Prop where
  | con (name : String) (args : List Ty) (all : ∀ a ∈ args, Determined a) :
      Determined (con name args)
  | oneOf (ms : List Ty) (all : ∀ m ∈ ms, Determined m) : Determined (oneOf ms)

/-- A type as it is stored: in normal form, and unresolved as a whole or not at all. -/
structure Storable (t : Ty) : Prop where
  normal : t.Normal
  whole : t = .unresolved ∨ t.Determined

/-- A type is determined when it has members and all of them are. -/
theorem determined_of_members {t : Ty} (hne : t.members ≠ [])
    (h : ∀ m ∈ t.members, m.Determined) : t.Determined := by
  cases t with
  | unresolved => exact absurd rfl hne
  | con name args => exact h _ (by simp [members])
  | oneOf ms => exact .oneOf ms h

theorem Proper.determined {m : Ty} (h : Proper m) : m.Determined := by
  induction h with
  | con name args shape members ih =>
    apply Determined.con
    intro a ha
    exact determined_of_members (shape a ha).2.2 (ih a ha)

theorem Over.storable {t : Ty} (h : t.Over Proper) : t.Storable where
  normal := h.normal_of_proper
  whole := by
    by_cases hnil : t.members = []
    · exact Or.inl (h.eq_unresolved hnil)
    · exact Or.inr (determined_of_members hnil fun m hm => (h.all m hm).determined)

end Ty

/-! ### Units and their instances -/

namespace Engine

variable {env : Env} {v : Vocabulary} {e : Engine}

/-- Instances that are the same have the same unit. -/
theorem unitOf_congr {key k : Instantiation} (hkey : key.Normal) (hk : k.Normal)
    (h : (key == k) = true) : e.unitOf key = e.unitOf k := by
  have hsame : ∀ k' : Instantiation, (key == k') = (k == k') := by
    intro k'
    rw [Bool.eq_iff_iff]
    constructor
    · exact Instantiation.beq_trans (hkey.beq_symm hk h)
    · exact Instantiation.beq_trans h
  simp only [unitOf, hsame]

theorem Ok.normal_of_keyOf (h : e.Ok env Proper v) {unit : UnitId} {k : Instantiation}
    (hk : e.keyOf unit = some k) : k.Normal :=
  (h.keys k (mem_keys hk)).normal

/-- An instance has a unit exactly when the unit has the same instance. -/
theorem Ok.unitOf_iff (h : e.Ok env Proper v) {key : Instantiation} (hkey : key.Normal)
    {unit : UnitId} :
    e.unitOf key = some unit ↔ ∃ k, e.keyOf unit = some k ∧ (key == k) = true := by
  constructor
  · exact exists_key_of_unitOf
  · rintro ⟨k, hk, hsame⟩
    rw [unitOf_congr hkey (h.normal_of_keyOf hk) hsame]
    exact h.unitOf_of_keyOf hk

/-- No two units have the same instance. -/
theorem Ok.unit_unique (h : e.Ok env Proper v) {unit unit' : UnitId} {k k' : Instantiation}
    (hk : e.keyOf unit = some k) (hk' : e.keyOf unit' = some k') (hsame : (k == k') = true) :
    unit = unit' := by
  have hunit := h.unitOf_of_keyOf hk
  rw [unitOf_congr (h.normal_of_keyOf hk) (h.normal_of_keyOf hk') hsame,
    h.unitOf_of_keyOf hk'] at hunit
  exact (Option.some.inj hunit).symm

end Engine

/-! ### Moments -/

/-- What the types and the instances of a moment are like. -/
structure Moment.InNormalForm (m : Moment) : Prop where
  types : m.Holds Ty.Storable
  concrete : ∀ key, some key ∈ m.engine.keys → key.Concrete
  /-- The map gives the unit that a search through the units finds. -/
  inStep : ∀ key, m.instances.lookup key = m.engine.unitOf key
  /-- The map gives a unit for an instance exactly when the unit has the same instance. -/
  found : ∀ key : Instantiation, key.Normal → ∀ unit, m.instances.lookup key = some unit ↔
    ∃ k, m.engine.keyOf unit = some k ∧ (key == k) = true
  /-- One unit for each instance. -/
  single : ∀ unit unit' k k', m.engine.keyOf unit = some k → m.engine.keyOf unit' = some k' →
    (k == k') = true → unit = unit'

theorem Moment.Ok.inNormalForm {env : Env} {v : Vocabulary} {m : Moment} (h : m.Ok env Proper v) :
    m.InNormalForm where
  types := h.holds.mono fun _ ht => ht.storable
  concrete := h.concrete
  inStep := h.instances
  found := fun key hkey _ => by
    rw [h.instances key]
    exact h.engine.unitOf_iff hkey
  single := fun _ _ _ _ hk hk' hsame => h.engine.unit_unique hk hk' hsame

/-- The run of a program goes only through moments in normal form, whatever the program is
    and whatever limits the settings give, from the beginning to the state in which it ends
    or gives up.  The moments are told by the journal, which leaves out no step. -/
theorem Program.run_in_normalForm {p : Program} {settings : Settings} {env : Env}
    (h : Env.ofProgram settings p = .ok env) :
    Execution (Engine.journal env) ∧
      (∀ past, past <+: Engine.journal env → (Moment.after past).InNormalForm) ∧
      (Moment.after (Engine.journal env)).engine = (Engine.final env).2 := by
  have hruns := runsThrough_runAll (Env.keepsTo_proper (Env.plain_libraries h))
  exact ⟨Engine.execution_journal env, fun past hpast => (hruns.meets past hpast).inNormalForm,
    Engine.after_journal env⟩

/-- Pointers to a union that grows with every check, in a run that is given up. -/
theorem growingProgram_in_normalForm :
    ∃ env, Env.ofProgram {} growingProgram = .ok env ∧ Execution (Engine.journal env) ∧
      (∀ past, past <+: Engine.journal env → (Moment.after past).InNormalForm) ∧
      (Moment.after (Engine.journal env)).engine = (Engine.final env).2 := by
  have hdeclared : (Env.ofProgram {} growingProgram).toBool = true := by decide +kernel
  obtain ⟨env, h⟩ := exists_of_toBool hdeclared
  exact ⟨env, h, Program.run_in_normalForm h⟩

end UnionTyping
