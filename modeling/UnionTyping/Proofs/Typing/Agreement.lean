/-
  UnionTyping/Proofs/Typing/Agreement.lean
  ========================================
  **In what order instances are checked does not matter, as long as no address is taken.**

  Two runs of one program `Agree` when each ends below the model of the other: then what a
  place holds in one run it holds in the other, and units find the same types
  (`Agree.exists_found`).  Runs agree after every stage.  After the first one, since the
  model of a quiet state is above all runs before anything is sealed; and sealing keeps
  runs in agreement, because the same places are starved in both (`Agree.starved`).

  So the settings, which say how deep new instances are nested, have no influence on
  whether a program is accepted nor on the types that are reported
  (`Program.check_settings_irrelevant`).  With addresses this is false: a pointer type that
  was made before its variable was widened stays in the variables that hold it
  (`nesting_matters`).
-/
import UnionTyping.Proofs.Inference.Merging
import UnionTyping.Proofs.Typing.Quiet

namespace UnionTyping

open Ty (Over Proper Plain)

/-! ### States in agreement -/

/-- Two quiet states, each below the model of the other. -/
structure Agree (env env' : Env) (q q' : Engine) : Prop where
  left : Quiet env q
  right : Quiet env' q'
  leftBelow : q.Below (q'.model env')
  rightBelow : q'.Below (q.model env)

theorem Env.SameDeclarations.symm {env env' : Env} (h : env.SameDeclarations env') :
    env'.SameDeclarations env :=
  ⟨h.classes.symm, h.hierarchy.symm, h.libraries.symm, h.methods.symm, h.topLevel.symm⟩

namespace Agree

variable {env env' : Env} {q q' : Engine}

theorem symm (h : Agree env env' q q') : Agree env' env q' q :=
  ⟨h.right, h.left, h.rightBelow, h.leftBelow⟩

/-- What is starved in one of the states is starved in the other. -/
theorem starved (h : Agree env env' q q') {b : Binding} (hb : b ∈ q.store.bindings) {p : Place}
    (hslot : q.slotAt p = some b.slot) (hstarved : b.isStarved = true) :
    ∃ b', q'.bindingAt p = some b' ∧ b'.isStarved = true := by
  obtain ⟨hunresolved, hreaders⟩ := Store.isStarved_iff.mp hstarved
  obtain ⟨p', hslot', hadmits⟩ := h.leftBelow.bindings b hb
  obtain rfl := h.leftBelow.slotAt_inj hslot hslot'
  obtain ⟨t, _, b', hb', hreaders', _⟩ := hadmits.reads hreaders
  obtain ⟨i, hid, hget⟩ := Engine.bindingAt_eq_some.mp hb'
  have hover := (h.right.ok.store.getElem? hget).isOver
  refine ⟨b', hb', Store.isStarved_iff.mpr ⟨hover.isUnresolved_iff.mpr ?_, hreaders'⟩⟩
  -- what the second state holds there the first one would hold too
  apply List.eq_nil_iff_forall_not_mem.mpr
  intro m hm
  obtain ⟨_, b₁, hb₁, hhas⟩ := (h.rightBelow.admits hid hget).2.holds m hm
  rw [h.left.ok.bindingAt_of_mem hb hslot] at hb₁
  cases hb₁
  have hnone := (h.left.ok.store.bindings b hb).isOver.isUnresolved_iff.mp hunresolved
  rw [Ty.Has, hnone] at hhas
  cases hhas

/-- When there is nothing to seal in one of the states, there is nothing in the other. -/
theorem fed (h : Agree env env' q q') (hq : q'.sealed.store.queue = []) :
    q.sealed.store.queue = [] := by
  have hfed := (sealed_eq_self hq).2
  have hreaders : Store.starvedReaders q.store.bindings = [] := by
    apply List.eq_nil_iff_forall_not_mem.mpr
    intro u hu
    obtain ⟨b, hb, hstarved, _⟩ := Store.mem_starvedReaders.mp hu
    obtain ⟨p, hslot, _⟩ := h.leftBelow.bindings b hb
    obtain ⟨b', hb', hstarved'⟩ := h.starved hb hslot hstarved
    obtain ⟨i, _, hget⟩ := Engine.bindingAt_eq_some.mp hb'
    rw [hfed b' (List.mem_of_getElem? hget)] at hstarved'
    cases hstarved'
  change q.store.queue.enqueueAll (Store.starvedReaders q.store.bindings) none = []
  rw [hreaders, h.left.idle]
  rfl

/-- The second state after sealing is below the model of what the first one leads to after
    sealing. -/
theorem sealed_below (h : Agree env env' q q') {q₁ : Engine} (hq₁ : Quiet env q₁)
    (hext : q.sealed.Extends q₁) : q'.sealed.Below (q₁.model env) := by
  have hall := h.left.ok.extends_sealed.trans hext
  refine (h.rightBelow.later hall hq₁.ok).sealed fun p b hb hslot hstarved => ?_
  obtain ⟨b₁, hb₁, hstarved₁⟩ := h.symm.starved hb hslot hstarved
  exact h.left.ok.holds_nil hb₁ hstarved₁ hext

end Agree

/-! ### Stages in agreement -/

namespace Engine

theorem diagnostics_eq_nil {e : Engine} (h : e.knowsProblem = false) :
    ∀ u ∈ e.units, u.diagnostics = [] := by
  intro u hu
  have hnone := List.any_eq_false.mp h u hu
  rwa [Bool.not_eq_true, Bool.not_eq_false', List.isEmpty_iff] at hnone

/-- When there is no problem in the end, there was none before a seal. -/
theorem Seals.silent {env : Env} {q e : Engine} (h : Seals env q e)
    (hsilent : ∀ u ∈ e.units, u.diagnostics = []) : ∀ u ∈ q.units, u.diagnostics = [] := by
  cases h with
  | done => exact hsilent
  | again silent => exact diagnostics_eq_nil silent

end Engine

section

variable {env env' : Env} {q q' e e' : Engine} (henv : env.Simple) (henv' : env'.Simple)
  (hsame : env.SameDeclarations env')
include henv henv' hsame

/-- Runs that agree before sealing agree in the end. -/
theorem Agree.seals (h : Agree env env' q q') (hseals : Engine.Seals env q e)
    (hseals' : Engine.Seals env' q' e') (hsilent : ∀ u ∈ e.units, u.diagnostics = []) :
    Agree env env' e e' := by
  induction hseals generalizing q' with
  | @done q finished =>
    have hqueue : q.sealed.store.queue = [] := finished.resolve_left fun hproblem => by
      rw [Engine.knowsProblem_eq_false h.left.silent] at hproblem
      cases hproblem
    cases hseals' with
    | done => exact h
    | again _ starved => exact absurd (h.symm.fed hqueue) starved
  | @again q q₁ e silent starved works later ih =>
    have hsilent₁ := later.silent hsilent
    obtain ⟨hbetween₁, hidle₁, hext₁⟩ :=
      (h.left.toBetween.sealed henv.keepsTo).works henv.keepsTo works
    have hq₁ : Quiet env q₁ := ⟨⟨hbetween₁, hidle₁⟩, hsilent₁⟩
    cases hseals' with
    | done finished =>
      have hqueue := finished.resolve_left fun hproblem => by
        rw [Engine.knowsProblem_eq_false h.right.silent] at hproblem
        cases hproblem
      exact absurd (h.fed hqueue) starved
    | @again _ q₁' _ silent' starved' works' later' =>
      obtain ⟨hbetween₁', hidle₁', hext₁'⟩ :=
        (h.right.toBetween.sealed henv'.keepsTo).works henv'.keepsTo works'
      have hbelow' : q₁'.Below (q₁.model env) :=
        (h.sealed_below hq₁ hext₁).works (hq₁.closed henv) hsame henv'.keepsTo
          (h.right.toBetween.sealed henv'.keepsTo) works'
      have hq₁' : Quiet env' q₁' := ⟨⟨hbetween₁', hidle₁'⟩, hbelow'.silent⟩
      have hbelow : q₁.Below (q₁'.model env') :=
        (h.symm.sealed_below hq₁' hext₁').works (hq₁'.closed henv') hsame.symm henv.keepsTo
          (h.left.toBetween.sealed henv.keepsTo) works
      exact ih ⟨hq₁, hq₁', hbelow, hbelow'⟩ later' hsilent

/-- When one run comes to its end without a problem and the other comes to its end, they
    agree. -/
theorem agree_final (hfinal : Engine.final env = (.ok (), e))
    (hfinal' : Engine.final env' = (.ok (), e')) (hsilent : ∀ u ∈ e.units, u.diagnostics = []) :
    Agree env env' e e' := by
  obtain ⟨e₀, q, hfirst, hworks, hseals⟩ := Engine.exists_stages hfinal
  obtain ⟨e₀', q', hfirst', hworks', hseals'⟩ := Engine.exists_stages hfinal'
  have hbetween₀ := between_start henv.keepsTo hfirst
  have hbetween₀' := between_start henv'.keepsTo hfirst'
  obtain ⟨hbetween, hidle, _⟩ := hbetween₀.works henv.keepsTo hworks
  obtain ⟨hbetween', hidle', _⟩ := hbetween₀'.works henv'.keepsTo hworks'
  have hq : Quiet env q := ⟨⟨hbetween, hidle⟩, hseals.silent hsilent⟩
  have hbelow' : q'.Below (q.model env) :=
    (Engine.below_first (hq.closed henv) hsame henv'.keepsTo hfirst').works (hq.closed henv) hsame
      henv'.keepsTo hbetween₀' hworks'
  have hq' : Quiet env' q' := ⟨⟨hbetween', hidle'⟩, hbelow'.silent⟩
  have hbelow : q.Below (q'.model env') :=
    (Engine.below_first (hq'.closed henv') hsame.symm henv.keepsTo hfirst).works
      (hq'.closed henv') hsame.symm henv.keepsTo hbetween₀ hworks
  exact Agree.seals henv henv' hsame ⟨hq, hq', hbelow, hbelow'⟩ hseals hseals' hsilent

/-! ### What is found in the end -/

omit henv' hsame in
/-- A unit of a quiet state below a model has found part of what the model says. -/
theorem Quiet.partOf (h : Quiet env q) {M : Model} (hM : M.Closed)
    (hdeclarations : M.env.SameDeclarations env) (hbelow : q.Below M) {unit : UnitId}
    {u : UnitRecord} (hu : q.units[unit]? = some u) {t : Ty} (ht : (M.typing u.key).TypesUnit t) :
    u.result.PartOf t ∧ ∀ node a, u.types.find? node = some a →
      ∃ t', M.noted u.key node = some t' ∧ a.PartOf t' := by
  obtain ⟨scopes, loopDepth, hrun⟩ := h.stands hu (repeatedCheck env unit u) (.refl env) rfl rfl
  have hruns : M.Runs u.key (repeatedCheck env unit u) :=
    { closed := hM
      env := hdeclarations
      self := rfl
      plain := fun k hk =>
        (hbelow.keys k (Engine.mem_keys ((Engine.keyOf_of_getElem? hu).trans hk))).1
      begins := begins_idleCheck unit _
      handles := Engine.handles_nested hM hdeclarations henv.keepsTo 0 false }
  obtain ⟨sc, hstays⟩ := ht.stays hruns (henv.keepsTo.speaks u.key) (h.unitAt hu)
  have hstart : Situated M u.key (repeatedCheck env unit u) 0 [] .empty .start q :=
    { engine := h.ok
      findings := Walk.ok_start
      below := hbelow
      own := h.unitAt hu
      unit := (List.getElem?_eq_some_iff.mp hu).1
      named := .empty
      outline := rfl
      loopDepth := rfl
      silent := rfl
      noted := fun _ _ hnone => nomatch hnone }
  obtain ⟨hend, _, hresult⟩ := hstays .start q (.refl q) hstart _ _ _ hrun
  exact ⟨hresult, fun node a ha => (hend.noted node a ha).resolve_left List.not_mem_nil⟩

/-- What a unit has found is part of what the unit of the same instance has found in the other
    state. -/
theorem Agree.exists_found (h : Agree env env' q q') {unit : UnitId} {u : UnitRecord}
    (hu : q.units[unit]? = some u) :
    ∃ (unit' : UnitId) (u' : UnitRecord), q'.units[unit']? = some u' ∧ u'.key = u.key ∧
      u.result.PartOf u'.result ∧ ∀ node a, u.types.find? node = some a →
        ∃ a', u'.types.find? node = some a' ∧ a.PartOf a' := by
  have hclosed := h.right.closed henv'
  obtain ⟨unit', u', hu', hkey⟩ := h.right.exists_record fun k (hk : u.key = some k) =>
    h.leftBelow.keys k (Engine.mem_keys ((Engine.keyOf_of_getElem? hu).trans hk))
  have htyped : ((q'.model env').typing u.key).TypesUnit u'.result := by
    rw [← hkey, Engine.model, Engine.typing_modelIn (h.right.recordAt hu')]
    exact h.right.typesUnit henv' hu'
  obtain ⟨hresult, hnoted⟩ := h.left.partOf henv hclosed hsame.symm h.leftBelow hu htyped
  refine ⟨unit', u', hu', hkey, hresult, fun node a ha => ?_⟩
  obtain ⟨a', ha', hpart⟩ := hnoted node a ha
  obtain ⟨u'', hrecord, hfind⟩ := Option.bind_eq_some_iff.mp ha'
  rw [← hkey, h.right.recordAt hu'] at hrecord
  cases hrecord
  exact ⟨a', hfind, hpart⟩

end

/-! ### What is reported -/

namespace Quiet

variable {env : Env} {q : Engine}

theorem over_noted (h : Quiet env q) (henv : env.Simple) {u : UnitRecord} (hu : u ∈ q.units)
    {node : NodeId} {t : Ty} (ht : u.types.find? node = some t) : t.Over Proper := by
  obtain ⟨unit, hget⟩ := List.getElem?_of_mem hu
  exact ((h.stands hget).over_noted henv.keepsTo h.ok hget ht).mono fun _ hm => hm.proper

theorem over_notedTypes (h : Quiet env q) (henv : env.Simple) (node : NodeId) :
    ∀ t ∈ q.notedTypes node, t.Over Proper := by
  intro t ht
  obtain ⟨u, hu, hnoted⟩ := List.mem_filterMap.mp ht
  exact h.over_noted henv hu hnoted

theorem typesAscending (h : Quiet env q) (henv : env.Simple) :
    ∀ u ∈ q.units, u.types.Ascending := by
  intro u hu
  obtain ⟨unit, hget⟩ := List.getElem?_of_mem hu
  exact ((h.stands hget).noted henv.libraries h.ok.proper hget
    (Vocabulary.speaksUnit_any env u.key)).1

end Quiet

namespace Agree

variable {env env' : Env} {e e' : Engine} (henv : env.Simple) (henv' : env'.Simple)
  (hsame : env.SameDeclarations env') (h : Agree env env' e e')
include henv henv' hsame h

theorem exists_notedTypes {node : NodeId} {t : Ty} (ht : t ∈ e.notedTypes node) :
    ∃ t' ∈ e'.notedTypes node, t.PartOf t' := by
  obtain ⟨u, hu, hnoted⟩ := List.mem_filterMap.mp ht
  obtain ⟨unit, hget⟩ := List.getElem?_of_mem hu
  obtain ⟨unit', u', hu', _, _, hfound⟩ := exists_found henv henv' hsame h hget
  obtain ⟨t', ht', hpart⟩ := hfound node t hnoted
  exact ⟨t', List.mem_filterMap.mpr ⟨u', List.mem_of_getElem? hu', ht'⟩, hpart⟩

/-- The same types are reported. -/
theorem types_beq (node : NodeId) :
    ((e.report env).types.find? node == (e'.report env').types.find? node) = true := by
  have hover := h.left.over_notedTypes henv node
  have hover' := h.right.over_notedTypes henv' node
  have hforth := fun t (ht : t ∈ e.notedTypes node) => exists_notedTypes henv henv' hsame h ht
  have hback := fun t (ht : t ∈ e'.notedTypes node) =>
    exists_notedTypes henv' henv hsame.symm h.symm ht
  rw [Engine.find?_types (h.left.typesAscending henv),
    Engine.find?_types (h.right.typesAscending henv')]
  have hnone : e.notedTypes node = [] ↔ e'.notedTypes node = [] := by
    simp only [List.eq_nil_iff_forall_not_mem]
    exact ⟨fun hnil t ht => (hback t ht).elim fun _ hk => hnil _ hk.1,
      fun hnil t ht => (hforth t ht).elim fun _ hk => hnil _ hk.1⟩
  by_cases hnil : e.notedTypes node = []
  · rw [if_pos hnil, if_pos (hnone.mp hnil)]
    rfl
  · rw [if_neg hnil, if_neg fun hnil' => hnil (hnone.mpr hnil')]
    refine (Ty.over_unionAll hover).settled_beq (Ty.over_unionAll hover') ?_
    refine (Ty.over_unionAll hover).beq_of_has_iff (Ty.over_unionAll hover') fun m _ => ?_
    rw [Ty.has_unionAll_iff hover, Ty.has_unionAll_iff hover']
    constructor
    · rintro ⟨t, ht, hhas⟩
      obtain ⟨t', ht', hpart⟩ := hforth t ht
      exact ⟨t', ht', hhas.mono fun k hk => .of_mem (hpart.mem k hk)⟩
    · rintro ⟨t, ht, hhas⟩
      obtain ⟨t', ht', hpart⟩ := hback t ht
      exact ⟨t', ht', hhas.mono fun k hk => .of_mem (hpart.mem k hk)⟩

/-- The top level has the same type. -/
theorem result_beq : ((e.report env).result == (e'.report env').result) = true := by
  obtain ⟨unit, u, hu, hkey⟩ := h.left.exists_record fun k (hk : none = some k) => nomatch hk
  have htop : unit = topUnit := by
    have hunit := h.left.unitAt hu
    rw [hkey] at hunit
    exact (Option.some.inj hunit).symm
  obtain ⟨unit', u', hu', hkey', hpart, _⟩ := exists_found henv henv' hsame h hu
  obtain ⟨unit₂, u₂, hu₂, hkey₂, hpart', _⟩ := exists_found henv' henv hsame.symm h.symm hu'
  have htop' : unit' = topUnit := by
    have hunit := h.right.unitAt hu'
    rw [hkey', hkey] at hunit
    exact (Option.some.inj hunit).symm
  have hback : u₂ = u := by
    have hunit := h.left.unitAt hu₂
    rw [hkey₂, hkey', h.left.unitAt hu] at hunit
    cases hunit
    exact Option.some.inj (hu₂.symm.trans hu)
  rw [hback] at hpart'
  have hhead : e.units.head? = some u := by rw [← hu, htop, List.head?_eq_getElem?]; rfl
  have hhead' : e'.units.head? = some u' := by rw [← hu', htop', List.head?_eq_getElem?]; rfl
  have hsettled : (u.result.settled == u'.result.settled) = true := by
    have hproper := hpart.isOver.mono fun _ (hm : Plain _) => hm.proper
    have hproper' := hpart'.isOver.mono fun _ (hm : Plain _) => hm.proper
    refine hproper.settled_beq hproper' ?_
    exact hpart.isOver.beq_of_mem_iff hpart'.isOver fun m => ⟨hpart.mem m, hpart'.mem m⟩
  change ((if env.topLevel.isEmpty then none else e.units.head?.map fun u => u.result.settled) ==
    (if env'.topLevel.isEmpty then none else e'.units.head?.map fun u => u.result.settled)) = true
  rw [hsame.topLevel, hhead, hhead']
  split
  · rfl
  · exact hsettled

end Agree

/-! ### Settings -/

theorem Env.check_of_final {env : Env} {e : Engine} (hfinal : Engine.final env = (.ok (), e)) :
    ((∀ u ∈ e.units, u.diagnostics = []) ∧ env.check = .ok (e.report env)) ∨
      (¬ (∀ u ∈ e.units, u.diagnostics = []) ∧ ∃ d, env.check = .error (.rejected d)) := by
  rw [← Engine.firstDiagnostic?_eq_none]
  simp only [Env.check, hfinal]
  cases hd : e.firstDiagnostic? with
  | none => exact .inl ⟨rfl, rfl⟩
  | some d => exact .inr ⟨Option.some_ne_none d, d, rfl⟩

/-- A program that takes no address is answered in the same way whatever the settings are, as
    long as the run is not given up: it is accepted with the same type for each node and the
    same result, or it is rejected; and when a declaration is wrong, it is rejected for
    that. -/
theorem Program.check_settings_irrelevant {file : String} {items : List Item}
    {settings settings' : Settings}
    (hfree : ∀ n ∈ (Program.ofItems file items).nodes, n.takesAddress = false)
    (hends : ∀ stop, (Program.ofItems file items).check settings ≠ .error (.iterationLimit stop))
    (hends' : ∀ stop,
      (Program.ofItems file items).check settings' ≠ .error (.iterationLimit stop)) :
    (∃ report report', (Program.ofItems file items).check settings = .ok report ∧
      (Program.ofItems file items).check settings' = .ok report' ∧
      (∀ node, (report.types.find? node == report'.types.find? node) = true) ∧
      (report.result == report'.result) = true) ∨
    ∃ d d', (Program.ofItems file items).check settings = .error (.rejected d) ∧
      (Program.ofItems file items).check settings' = .error (.rejected d') ∧
      ∀ wrong, Env.ofProgram settings (Program.ofItems file items) = .error wrong →
        d = wrong ∧ d' = wrong := by
  have hdeclared' := Env.ofProgram_eq_map settings settings' (Program.ofItems file items)
  cases hdeclared : Env.ofProgram settings (Program.ofItems file items) with
  | error wrong =>
    rw [hdeclared] at hdeclared'
    refine .inr ⟨wrong, wrong, ?_, ?_, fun _ h => ⟨Except.error.inj h, Except.error.inj h⟩⟩
    · rw [Program.check, hdeclared]
    · rw [Program.check, hdeclared']
      rfl
  | ok env =>
    rw [hdeclared] at hdeclared'
    have henv := Env.simple_of_ofProgram hdeclared hfree
    have henv' := Env.simple_of_ofProgram hdeclared' hfree
    have hsame := env.sameDeclarations_withSettings settings'
    have hfinal : ∃ e, Engine.final env = (.ok (), e) := by
      rcases h : Engine.final env with ⟨stop | _, e⟩
      · exact absurd (Program.check_eq_iterationLimit.mpr ⟨env, hdeclared, by rw [h]⟩)
          (hends stop.limit)
      · exact ⟨e, rfl⟩
    have hfinal' : ∃ e, Engine.final (env.withSettings settings') = (.ok (), e) := by
      rcases h : Engine.final (env.withSettings settings') with ⟨stop | _, e⟩
      · exact absurd (Program.check_eq_iterationLimit.mpr ⟨_, hdeclared', by rw [h]⟩)
          (hends' stop.limit)
      · exact ⟨e, rfl⟩
    obtain ⟨e, hfinal⟩ := hfinal
    obtain ⟨e', hfinal'⟩ := hfinal'
    have hcheck : (Program.ofItems file items).check settings = env.check := by
      rw [Program.check, hdeclared]
    have hcheck' : (Program.ofItems file items).check settings' =
        (env.withSettings settings').check := by
      rw [Program.check, hdeclared']
      rfl
    rw [hcheck, hcheck']
    rcases Env.check_of_final hfinal with ⟨hsilent, hok⟩ | ⟨hproblem, d, hd⟩
    · have hagree := agree_final henv henv' hsame hfinal hfinal' hsilent
      have hok' := ((Env.check_of_final hfinal').resolve_right fun h => h.1 hagree.right.silent).2
      exact .inl ⟨_, _, hok, hok', hagree.types_beq henv henv' hsame,
        hagree.result_beq henv henv' hsame⟩
    · rcases Env.check_of_final hfinal' with ⟨hsilent', _⟩ | ⟨_, d', hd'⟩
      · exact absurd (agree_final henv' henv hsame.symm hfinal' hfinal hsilent').right.silent
          hproblem
      · exact .inr ⟨d, d', hd, hd', fun _ h => nomatch h⟩

theorem wideningProgram_settings_irrelevant :
    ∃ report report', wideningProgram.check {} = .ok report ∧
      wideningProgram.check { maxNesting := 0 } = .ok report' ∧
      (∀ node, (report.types.find? node == report'.types.find? node) = true) ∧
      (report.result == report'.result) = true := by
  have hok : (wideningProgram.check {}).toBool = true := by decide +kernel
  have hok' : (wideningProgram.check { maxNesting := 0 }).toBool = true := by decide +kernel
  have hanswer := @Program.check_settings_irrelevant _ _ {} { maxNesting := 0 }
    (show ∀ n ∈ wideningProgram.nodes, n.takesAddress = false by decide +kernel)
    (fun stop (h : wideningProgram.check {} = _) => by rw [h] at hok; cases hok)
    (fun stop (h : wideningProgram.check { maxNesting := 0 } = _) => by rw [h] at hok'; cases hok')
  rcases hanswer with haccepted | ⟨d, _, hrejected, _⟩
  · exact haccepted
  · have hrejected : wideningProgram.check {} = .error (.rejected d) := hrejected
    rw [hrejected] at hok
    cases hok

/-- A method that returns more than its first check finds when nested instances wait, and the
    address of what it returns: `def h; 'c'; end; def g; if 0 then 1 else h() end; end;
    x = g(); q = x.ptr; q`. -/
def addressProgram : Program :=
  let m : Mark := ⟨0, .unplaced⟩
  .ofItems "address.qz" [
    .method ⟨"h", [], [.literal m .char], .unplaced⟩,
    .method ⟨"g", [], [.ite m (.literal m .int) [.literal m .int] [.call m none "h" [] none true]],
      .unplaced⟩,
    .expr (.assign m (.local "x") (.call m none "g" [] none true)),
    .expr (.assign m (.local "q") (.call m (some (.ident m "x")) "ptr" [] none false)),
    .expr (.ident m "q")]

/-- A program with two mistakes and no address: `def k(a) a.foo; end; def h; 'c'; end;
    def g; if 0 then 1 else h() end; end; x = g(); y = x + 1; k(y)`. -/
def mistakenProgram : Program :=
  let m : Mark := ⟨0, .unplaced⟩
  .ofItems "mistaken.qz" [
    .method ⟨"k", [⟨"a", none, none⟩], [.call m (some (.ident m "a")) "foo" [] none false],
      .unplaced⟩,
    .method ⟨"h", [], [.literal m .char], .unplaced⟩,
    .method ⟨"g", [], [.ite m (.literal m .int) [.literal m .int] [.call m none "h" [] none true]],
      .unplaced⟩,
    .expr (.assign m (.local "x") (.call m none "g" [] none true)),
    .expr (.assign m (.local "y") (.call m (some (.ident m "x")) "+" [.literal m .int] none false)),
    .expr (.call m none "k" [.ident m "y"] none true)]

def resultsDiffer : Except CheckError Report → Except CheckError Report → Bool
  | .ok report, .ok report' => !(report.result == report'.result)
  | _, _ => false

theorem exists_of_resultsDiffer {r r' : Except CheckError Report}
    (h : resultsDiffer r r' = true) : ∃ report report', r = .ok report ∧ r' = .ok report' ∧
      (report.result == report'.result) = false := by
  unfold resultsDiffer at h
  split at h
  · exact ⟨_, _, rfl, rfl, Bool.not_eq_eq_eq_not.mp h⟩
  · cases h

def problemsDiffer : Except CheckError Report → Except CheckError Report → Bool
  | .error (.rejected d), .error (.rejected d') =>
    !(d.problem == d'.problem) && !decide (d.location = d'.location)
  | _, _ => false

theorem exists_of_problemsDiffer {r r' : Except CheckError Report}
    (h : problemsDiffer r r' = true) : ∃ d d', r = .error (.rejected d) ∧
      r' = .error (.rejected d') ∧ (d.problem == d'.problem) = false ∧
      d.location ≠ d'.location := by
  unfold problemsDiffer at h
  split at h
  · obtain ⟨hproblem, hlocation⟩ := Bool.and_eq_true_iff.mp h
    exact ⟨_, _, rfl, rfl, Bool.not_eq_eq_eq_not.mp hproblem,
      of_decide_eq_false (Bool.not_eq_eq_eq_not.mp hlocation)⟩
  · cases h

/-- With an address the depth of nesting shows in the result, since a pointer type that was
    made too early stays; and a program without addresses may be rejected for another of its
    problems. -/
theorem nesting_matters :
    (∃ report report', addressProgram.check { maxNesting := 0 } = .ok report ∧
      addressProgram.check {} = .ok report' ∧ (report.result == report'.result) = false) ∧
    (∀ n ∈ mistakenProgram.nodes, n.takesAddress = false) ∧
    ∃ d d', mistakenProgram.check { maxNesting := 0 } = .error (.rejected d) ∧
      mistakenProgram.check {} = .error (.rejected d') ∧ (d.problem == d'.problem) = false ∧
      d.location ≠ d'.location := by
  refine ⟨exists_of_resultsDiffer ?_, ?_, exists_of_problemsDiffer ?_⟩
  all_goals decide +kernel

end UnionTyping
