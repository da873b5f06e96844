/-
  UnionTyping/Proofs/Inference/Progress.lean
  ==========================================
  **How many checks a run can make.**

  The size of a state counts its units and the members of all its bindings.  It
  never gets smaller.  As long as it stays the same every check takes one unit off
  the worklist and puts none there, so between two sizes there are at most as many
  checks as there are units (`settle_checks`).  A run whose states stay below a
  size makes a bounded number of checks (`final_checks`).
-/
import Mathlib.Algebra.GroupWithZero.Nat
import Mathlib.Algebra.Order.BigOperators.Group.List
import Mathlib.Algebra.Order.Group.Nat
import Mathlib.Data.List.Perm.Subperm
import UnionTyping.Proofs.Inference.Stability

namespace UnionTyping

/-! ### The size of a state -/

/-- The number of members of all bindings together. -/
def Store.weight (s : Store) : Nat := (s.bindings.map fun b => b.current.members.length).sum

def Engine.size (e : Engine) : Nat := e.units.length + e.store.weight

namespace Store

variable {s t : Store}

/-- A list of bindings that goes on with bindings that have at least as many members. -/
theorem sum_le_sum {bs cs : List Binding}
    (h : ∀ (i : BindingId) b, bs[i]? = some b → ∃ c, cs[i]? = some c ∧
      b.current.members.length ≤ c.current.members.length) :
    (bs.map fun b => b.current.members.length).sum ≤
        (cs.map fun b => b.current.members.length).sum ∧
      ∀ i : BindingId, ((bs[i]?.map Binding.current).getD .unresolved).members.length <
          ((cs[i]?.map Binding.current).getD .unresolved).members.length →
        (bs.map fun b => b.current.members.length).sum <
          (cs.map fun b => b.current.members.length).sum := by
  induction bs generalizing cs with
  | nil =>
    refine ⟨Nat.zero_le _, fun i hlt => ?_⟩
    cases hc : cs[i]? with
    | none =>
      rw [hc] at hlt
      exact absurd hlt (Nat.not_lt_zero _)
    | some c =>
      rw [hc] at hlt
      have hmem : c.current.members.length ∈ cs.map fun b => b.current.members.length :=
        List.mem_map_of_mem (List.mem_of_getElem? hc)
      exact Nat.lt_of_lt_of_le hlt (List.le_sum_of_mem hmem)
  | cons b bs ih =>
    obtain ⟨c, hc, hle⟩ := h 0 b rfl
    cases cs with
    | nil => cases hc
    | cons c' cs =>
      cases hc
      obtain ⟨hsum, hstrict⟩ := @ih cs fun i b hb => h (i + 1) b hb
      simp only [List.map_cons, List.sum_cons]
      refine ⟨Nat.add_le_add hle hsum, fun i hlt => ?_⟩
      cases i with
      | zero => exact Nat.add_lt_add_of_lt_of_le hlt hsum
      | succ i => exact Nat.add_lt_add_of_le_of_lt hle (hstrict i hlt)

theorem Extends.sum_hypothesis (h : s.Extends t) : ∀ (i : BindingId) b, s.bindings[i]? = some b →
    ∃ c, t.bindings[i]? = some c ∧ b.current.members.length ≤ c.current.members.length := by
  intro i b hb
  obtain ⟨c, hc, hgrows⟩ := h i b hb
  exact ⟨c, hc, hgrows.members.length_le⟩

theorem Extends.weight_le (h : s.Extends t) : s.weight ≤ t.weight :=
  (sum_le_sum h.sum_hypothesis).1

theorem Widens.weight_lt (h : s.Widens t) (hext : s.Extends t) : s.weight < t.weight := by
  obtain ⟨i, hlt⟩ := h
  exact (sum_le_sum hext.sum_hypothesis).2 i hlt

/-- No unit is waiting twice. -/
theorem Ok.length_queue_le {C : Ty → Prop} {slotOk : Slot → Prop} {n : Nat} (h : s.Ok C slotOk n) :
    s.queue.length ≤ n := by
  have hsub : s.queue.map Pending.unit ⊆ List.range n := by
    intro unit hunit
    obtain ⟨p, hp, rfl⟩ := List.mem_map.mp hunit
    exact List.mem_range.mpr (h.queued p hp)
  have hle := (List.Nodup.subperm h.distinct hsub).length_le
  rw [List.length_map, List.length_range] at hle
  exact hle

end Store

namespace Engine

variable {env : Env} {C : Ty → Prop} {v : Vocabulary} {e e' : Engine}

theorem Extends.size_le (h : e.Extends e') : e.size ≤ e'.size :=
  Nat.add_le_add h.units_le h.bindings.weight_le

theorem Extends.size_lt (h : e.Extends e')
    (hmore : e.units.length < e'.units.length ∨ e.store.Widens e'.store) : e.size < e'.size := by
  rcases hmore with hunits | hwidens
  · exact Nat.add_lt_add_of_lt_of_le hunits h.bindings.weight_le
  · exact Nat.add_lt_add_of_le_of_lt h.units_le (hwidens.weight_lt h.bindings)

/-- A bound on the checks that are still to come while the size stays below a bound. -/
def potential (bound : Nat) (e : Engine) : Nat :=
  (bound - e.size) * (bound + 2) + e.store.queue.length

/-- The potential gets smaller when the worklist does, and also when the state gets larger,
    however many units have to wait then. -/
theorem potential_lt {bound : Nat} (hsize : e'.size ≤ bound) (hle : e.size ≤ e'.size)
    (hqueue : e'.store.queue.length ≤ bound)
    (h : e.size < e'.size ∨ e'.store.queue.length < e.store.queue.length) :
    e'.potential bound < e.potential bound := by
  unfold potential
  rcases h with hlt | hshorter
  · have hleft : bound - e'.size + 1 ≤ bound - e.size := by omega
    have hmul := Nat.mul_le_mul_right (bound + 2) hleft
    rw [Nat.add_mul, Nat.one_mul] at hmul
    omega
  · have hleft : bound - e'.size ≤ bound - e.size := by omega
    have hmul := Nat.mul_le_mul_right (bound + 2) hleft
    omega

end Engine

/-! ### Rounds -/

section

variable {env : Env} {C : Ty → Prop} {v : Vocabulary} {e e₁ e₂ e' : Engine}

/-- Choosing the next unit takes it off the worklist, or else it was put there since a
    binding was sealed. -/
theorem nextUnit_progress (hok : e.Ok env C v) {next : Pending}
    (h : runEngine Engine.nextUnit e = (.ok (some next), e₁)) :
    e₁.checks = e.checks ∧ e₁.units = e.units ∧
      (e₁.store.queue.length < e.store.queue.length ∨ e.store.Widens e₁.store) := by
  cases Engine.chooses_iff.mpr h with
  | waiting hq =>
    rw [hq]
    exact ⟨rfl, rfl, Or.inl (Nat.lt_succ_self _)⟩
  | woken hq _ hqs =>
    refine ⟨rfl, rfl, Or.inr ?_⟩
    have hnil : Ty.nil.members ≠ [] := List.cons_ne_nil _ _
    refine (Store.widens_sealStarved hok.store hnil).resolve_left fun hsame => ?_
    change e.sealed.store.queue = e.store.queue at hsame
    rw [hqs, hq] at hsame
    cases hsame

/-- What one round does, however it ends. -/
theorem round_progress (hkeeps : env.KeepsTo C v) (h : Between env C v e) {next : Pending}
    (hnext : runEngine Engine.nextUnit e = (.ok (some next), e₁)) {r : Except IterationLimit Unit}
    (hcheck : runEngine (Engine.recheck env next) e₁ = (r, e₂)) :
    e₂.Ok env C v ∧ e.Extends e₂ ∧ e₂.checks + e.units.length ≤ e.checks + 1 + e₂.units.length ∧
      e.checks < e₂.checks ∧
      ∀ bound, e₂.size ≤ bound → e₂.potential bound < e.potential bound := by
  obtain ⟨p, hp, hok, _, hlt, hext⟩ :=
    (nextUnit_spec hkeeps h hnext).resolve_right fun hnone => nomatch hnone.1
  cases hp
  obtain ⟨hchecks, hunits, hprogress⟩ := nextUnit_progress h.ok hnext
  obtain ⟨hok₂, hgrows⟩ := checkNested_grows hkeeps hok hlt hcheck
  have hext₂ : e₁.Extends e₂ := ⟨hgrows.store.bindings, hgrows.keys⟩
  have hext' := hext.trans hext₂
  have hchecked := hgrows.checked
  have hgrown := hgrows.checks
  change e₂.checks + e₁.units.length ≤ e₁.checks + 1 + e₂.units.length at hchecked
  change e₁.checks + 1 ≤ e₂.checks at hgrown
  refine ⟨hok₂, hext', by rw [← hchecks, ← hunits]; exact hchecked, by omega,
    fun bound hbound => ?_⟩
  refine Engine.potential_lt hbound hext'.size_le ?_ ?_
  · have hqueue := hok₂.store.length_queue_le
    unfold Engine.size at hbound
    omega
  · rcases hprogress with hshorter | hwidens
    · rcases hgrows.woken with hsame | hmore
      · have hlen : e₂.store.queue.length = e₁.store.queue.length := congrArg List.length hsame
        exact Or.inr (by omega)
      · have hlarger : e₁.size < e₂.size := hext₂.size_lt hmore
        exact Or.inl (Nat.lt_of_le_of_lt hext.size_le hlarger)
    · exact Or.inl (hext'.size_lt (Or.inr (hwidens.later hext₂.bindings)))

/-- The rounds of a run that stays below a size. -/
theorem settle_checks (hkeeps : env.KeepsTo C v) (rounds : Nat) (h : Between env C v e)
    {r : Except IterationLimit Unit} (hr : runEngine (Engine.settle env rounds) e = (r, e')) :
    e'.Ok env C v ∧ e.Extends e' ∧ ∀ bound, e'.size ≤ bound →
      e'.checks + e.units.length ≤ e.checks + e'.units.length + e.potential bound := by
  induction rounds generalizing e with
  | zero =>
    rw [runEngine_settle_zero] at hr
    cases hr
    exact ⟨h.ok, .refl _, fun _ _ => Nat.le_add_right _ _⟩
  | succ rounds ih =>
    rcases settle_cases hr with
      ⟨_, hnext⟩ | ⟨next, e₁, hnext, ⟨stop, _, hcheck⟩ | ⟨e₂, hcheck, hrest⟩⟩
    · obtain ⟨_, hself, _⟩ := (nextUnit_spec hkeeps h hnext).resolve_left
        fun ⟨_, hne, _⟩ => nomatch hne
      rw [hself]
      exact ⟨h.ok, .refl _, fun _ _ => Nat.le_add_right _ _⟩
    · obtain ⟨hok, hext, hchecks, _, hless⟩ := round_progress hkeeps h hnext hcheck
      refine ⟨hok, hext, fun bound hbound => ?_⟩
      have hpotential := hless bound hbound
      omega
    · obtain ⟨_, hext, hchecks, _, hless⟩ := round_progress hkeeps h hnext hcheck
      obtain ⟨hok, hext', hall⟩ := ih (between_round hkeeps h hnext hcheck) hrest
      refine ⟨hok, hext.trans hext', fun bound hbound => ?_⟩
      have hmade := hall bound hbound
      have hpotential := hless bound (Nat.le_trans hext'.size_le hbound)
      omega

/-- A run that stays below a size makes a bounded number of checks, however it ends. -/
theorem final_checks (hkeeps : env.KeepsTo C v) {r : Except IterationLimit Unit}
    (hr : Engine.final env = (r, e)) :
    e.Ok env C v ∧ ∀ bound, e.size ≤ bound → e.checks ≤ bound * (bound + 4) := by
  have hlt : topUnit < Engine.start.units.length := Nat.one_pos
  rcases runAll_cases hr with ⟨stop, _, hcheck⟩ | ⟨e₁, hcheck, hsettle⟩
  · obtain ⟨hok, hgrows⟩ := checkNested_grows hkeeps ok_start hlt hcheck
    refine ⟨hok, fun bound hbound => ?_⟩
    have hchecked : e.checks + 1 ≤ 1 + e.units.length := hgrows.checked
    have hunits : e.units.length ≤ bound := Nat.le_trans (Nat.le_add_right _ _) hbound
    have hmul : bound ≤ bound * (bound + 4) := Nat.le_mul_of_pos_right bound (Nat.succ_pos _)
    omega
  · have hgrows := (checkNested_grows hkeeps ok_start hlt hcheck).2
    have hbetween := between_start hkeeps hcheck
    obtain ⟨hok, hext, hall⟩ := settle_checks hkeeps _ hbetween hsettle
    refine ⟨hok, fun bound hbound => ?_⟩
    have hchecks := hall bound hbound
    have hchecked : e₁.checks + 1 ≤ 1 + e₁.units.length := hgrows.checked
    have hunits : e.units.length ≤ bound := Nat.le_trans (Nat.le_add_right _ _) hbound
    have hqueue : e₁.store.queue.length ≤ bound :=
      Nat.le_trans hbetween.ok.store.length_queue_le (Nat.le_trans hext.units_le hunits)
    have hpotential : e₁.potential bound ≤ bound * (bound + 2) + bound :=
      Nat.add_le_add (Nat.mul_le_mul_right _ (Nat.sub_le _ _)) hqueue
    simp only [Nat.mul_add] at hpotential ⊢
    omega

end

end UnionTyping
