/-
  UnionTyping/Proofs/Inference/Stages.lean
  ========================================
  **A run, stage by stage.**

  A run works until no unit is waiting (`Engine.Works`).  Then it seals what was read and
  has no type, and works again, as often as there is something to seal
  (`Engine.Seals`).  Every run that comes to its end is made of such stages
  (`Engine.exists_stages`), and what is true between two checks is true after each stage.
  A run `Pauses` in a state when no unit is waiting there.
-/
import UnionTyping.Proofs.Inference.Stability

namespace UnionTyping

/-! ### Stages -/

inductive Engine.Works (env : Env) : Engine → Engine → Prop where
  | idle {e : Engine} (queue : e.store.queue = []) : Works env e e
  | check {e e₁ e' : Engine} {next : Pending} {rest : Worklist}
      (queue : e.store.queue = next :: rest)
      (checked : runEngine (Engine.recheck env next) (e.withQueue rest) = (.ok (), e₁))
      (later : Works env e₁ e') : Works env e e'

/-- What was read and has no type is sealed and waiting units are checked, until a problem
    is known or there is nothing to seal. -/
inductive Engine.Seals (env : Env) : Engine → Engine → Prop where
  | done {e : Engine} (finished : e.knowsProblem = true ∨ e.sealed.store.queue = []) :
      Seals env e e
  | again {e e₁ e' : Engine} (silent : e.knowsProblem = false)
      (starved : e.sealed.store.queue ≠ []) (works : Works env e.sealed e₁)
      (later : Seals env e₁ e') : Seals env e e'

inductive Engine.Pauses (env : Env) : Engine → Prop where
  | first {e q : Engine} (started : runEngine
      (Engine.checkNested env env.settings.maxNesting topUnit none false) .start = (.ok (), e))
      (works : Works env e q) : Pauses env q
  | again {q q' : Engine} (paused : Pauses env q) (silent : q.knowsProblem = false)
      (starved : q.sealed.store.queue ≠ []) (works : Works env q.sealed q') : Pauses env q'

namespace Engine

variable {env : Env} {C : Ty → Prop} {v : Vocabulary} {e e' : Engine}

theorem exists_stages_settle {rounds : Nat}
    (hr : runEngine (settle env rounds) e = (.ok (), e')) :
    ∃ q, Works env e q ∧ Seals env q e' := by
  induction rounds generalizing e with
  | zero =>
    rw [runEngine_settle_zero] at hr
    cases hr
  | succ rounds ih =>
    rcases settle_ok_cases hr with hnext | ⟨next, e₁, e₂, hnext, hchecked, hrest⟩
    · cases chooses_iff.mpr hnext with
      | problem hq hproblem => exact ⟨_, .idle hq, .done (.inl hproblem)⟩
      | fed hq _ hqs =>
        rw [(sealed_eq_self hqs).1]
        exact ⟨e, .idle hq, .done (.inr hqs)⟩
    · obtain ⟨q, hworks, hseals⟩ := ih hrest
      cases chooses_iff.mpr hnext with
      | waiting hq => exact ⟨q, .check hq hchecked hworks, hseals⟩
      | woken hq hsilent hqs =>
        refine ⟨e, .idle hq, .again hsilent ?_ (.check hqs hchecked hworks) hseals⟩
        rw [hqs]
        exact List.cons_ne_nil _ _

/-- A run that comes to its end is made of stages, after the first check of the top level. -/
theorem exists_stages (hr : Engine.final env = (.ok (), e')) :
    ∃ e q, runEngine (checkNested env env.settings.maxNesting topUnit none false) .start =
      (.ok (), e) ∧ Works env e q ∧ Seals env q e' := by
  obtain ⟨e, hcheck, hsettle⟩ := exists_settle_of_runAll hr
  obtain ⟨q, hworks, hseals⟩ := exists_stages_settle hsettle
  exact ⟨e, q, hcheck, hworks, hseals⟩

end Engine

/-! ### What is true between two checks -/

section

variable {env : Env} {C : Ty → Prop} {v : Vocabulary} {e e' : Engine} (hkeeps : env.KeepsTo C v)
include hkeeps

theorem Between.sealed (h : Between env C v e) : Between env C v e.sealed :=
  ⟨h.ok.sealed hkeeps, h.settled.sealed hkeeps h.ok, h.top⟩

theorem Between.recheck (h : Between env C v e) {next : Pending} {rest : Worklist}
    (hq : e.store.queue = next :: rest)
    (hr : runEngine (Engine.recheck env next) (e.withQueue rest) = (.ok (), e')) :
    Between env C v e' ∧ e.Extends e' := by
  have hok := h.ok.withQueue hq
  have hlt : next.unit < (e.withQueue rest).units.length :=
    h.ok.store.queued next (by rw [hq]; exact List.mem_cons_self)
  obtain ⟨hok', hgrows⟩ := checkNested_grows hkeeps hok hlt hr
  have hsettled := checkNested_settled hkeeps hok hlt hr (h.settled.withQueue hkeeps h.ok hq)
  exact ⟨⟨hok', hsettled, h.top.trans hgrows.keys⟩, ⟨hgrows.store.bindings, hgrows.keys⟩⟩

/-- Work leads to a state in which nothing is waiting. -/
theorem Between.works (h : Between env C v e) (hworks : Engine.Works env e e') :
    Between env C v e' ∧ e'.store.queue = [] ∧ e.Extends e' := by
  induction hworks with
  | idle queue => exact ⟨h, queue, .refl _⟩
  | check queue checked _ ih =>
    obtain ⟨h₁, hext⟩ := h.recheck hkeeps queue checked
    obtain ⟨h', hidle, hext'⟩ := ih h₁
    exact ⟨h', hidle, hext.trans hext'⟩

theorem Engine.Pauses.between (h : Engine.Pauses env e) :
    Between env C v e ∧ e.store.queue = [] := by
  induction h with
  | first started works =>
    obtain ⟨hbetween, hidle, _⟩ := (between_start hkeeps started).works hkeeps works
    exact ⟨hbetween, hidle⟩
  | again _ _ _ works ih =>
    obtain ⟨hbetween, hidle, _⟩ := (ih.1.sealed hkeeps).works hkeeps works
    exact ⟨hbetween, hidle⟩

/-- Sealing leads to a state in which nothing is waiting. -/
theorem Between.seals (h : Between env C v e) (hidle : e.store.queue = [])
    (hseals : Engine.Seals env e e') :
    Between env C v e' ∧ e'.store.queue = [] ∧ e.Extends e' := by
  induction hseals with
  | done => exact ⟨h, hidle, .refl _⟩
  | again _ _ works _ ih =>
    obtain ⟨h₁, hidle₁, hext₁⟩ := (h.sealed hkeeps).works hkeeps works
    obtain ⟨h', hidle', hext'⟩ := ih h₁ hidle₁
    exact ⟨h', hidle', (h.ok.extends_sealed.trans hext₁).trans hext'⟩

end

end UnionTyping
