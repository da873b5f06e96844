/-
  UnionTyping/Proofs/Inference/TotalDispatch.lean
  ===============================================
  **Every call on a value is carried out in every way.**

  In an accepted program a call on a value has one recorded way of carrying it out
  for each member of the type of its receiver and each choice of members of the
  types of its arguments, and no other (`Program.check_dispatches`).  None of these
  types is empty, so no call is left waiting for one.

  The top level is checked last in a state at rest, and there the call is dispatched
  (`Frozen.dispatched`).  The other units have other nodes, so the report takes over
  what the top level found.
-/
import UnionTyping.Proofs.Inference.FixedPoint
import UnionTyping.Proofs.Inference.Reached

namespace UnionTyping

open Ty (Over Proper Known)

/-! ### The units in the end -/

/-- A unit that is not waiting can be checked again. -/
theorem Engine.Ok.still {env : Env} {e : Engine} (h : e.Ok env Proper .full)
    (hlibraries : env.libraries.Plain) {unit : UnitId} {u : UnitRecord}
    (hu : e.units[unit]? = some u) (hidle : ¬ e.store.queue.holds unit = true) :
    Still (idleCheck env unit (u.key.bind Instantiation.self)) e where
  libraries := hlibraries
  ok := h
  unit := (List.getElem?_eq_some_iff.mp hu).1
  self := by
    intro t ht
    obtain ⟨k, hk, hkt⟩ := Option.bind_eq_some_iff.mp ht
    have hkey := h.keys k (Engine.mem_keys ((Engine.keyOf_of_getElem? hu).trans hk))
    exact hkey.self t hkt
  idle := hidle
  begins := fun _ => begins_idleCheck unit _

/-- The state in which a run ends is at rest for every unit. -/
theorem Finished.rest {env : Env} {e : Engine} (hlibraries : env.libraries.Plain)
    (h : Finished env Proper .full e) (hnone : ∀ u ∈ e.units, u.diagnostics = []) {unit : UnitId}
    {u : UnitRecord} (hu : e.units[unit]? = some u) :
    Rest (idleCheck env unit (u.key.bind Instantiation.self)) e := by
  refine ⟨h.ok.still hlibraries hu ?_, h.fed (Engine.knowsProblem_eq_false hnone)⟩
  rw [h.idle]
  exact fun hold => nomatch hold

/-- What a unit that stands has found out is in order, consists of instances that the program
    keeps to, and is about nodes of which the unit speaks. -/
theorem Stands.findings {env : Env} {C : Ty → Prop} {v : Vocabulary} {e : Engine} {unit : UnitId}
    {u : UnitRecord} (h : Stands env e unit u) (hC : ∀ m, C m → m.IsCon)
    (hdomain : TypeDomain env v (Ty.Over C)) (hspeaks : v.speaksUnit env u.key)
    (hok : e.Ok env C v) (hu : e.units[unit]? = some u) :
    ∃ scopes depth,
      Walk.Ok (Ty.Over C) v e.store.bindings.length ⟨scopes, depth, [], u.types, u.calls⟩ ∧
      ∀ node, ¬ v.ids node → u.types.find? node = none ∧ u.calls.find? node = none := by
  let c := idleCheck env unit (u.key.bind Instantiation.self)
  obtain ⟨scopes, depth, hrun⟩ := h c (.refl env) rfl rfl
  have hkey : ∀ k, u.key = some k → k.Ok env (Over C) := fun k hk =>
    hok.keys k (Engine.mem_keys ((Engine.keyOf_of_getElem? hu).trans hk))
  have hself : ∀ t, c.self = some t → t.Over C := by
    intro t ht
    obtain ⟨k, hk, hkt⟩ := Option.bind_eq_some_iff.mp ht
    exact (hkey k hk).self t hkt
  obtain ⟨_, _, hach⟩ := Replay.unitBody (I := fun _ => True) (stable_true _ _ _)
    ⟨.refl env, rfl, rfl⟩ hC hdomain hself (begins_idleCheck unit _)
    (fun k hk => (hkey k hk).args) hspeaks hok (List.getElem?_eq_some_iff.mp hu).1 _ _ hrun
  have hach := hach _ _ rfl
  refine ⟨scopes, depth, hach.findings, fun node hnode => ?_⟩
  have hfound := hach.untouched node hnode
  exact ⟨congrArg Prod.fst hfound, congrArg Prod.snd hfound⟩

/-- The tables of a unit that stands are in order, and they hold only nodes that the check of
    the unit goes through. -/
theorem Stands.noted {env : Env} {e : Engine} (hlibraries : env.libraries.Plain)
    (hok : e.Ok env Proper .full) {unit : UnitId} {u : UnitRecord} (hu : e.units[unit]? = some u)
    (h : Stands env e unit u) {ids : NodeId → Prop}
    (hspeaks : (Vocabulary.only ids).speaksUnit env u.key) :
    u.types.Ascending ∧ u.calls.Ascending ∧
      ∀ node, ¬ ids node → u.types.find? node = none ∧ u.calls.find? node = none := by
  obtain ⟨_, _, hfindings, hothers⟩ := h.findings (fun _ hm => hm.isCon)
    (Env.closed_proper hlibraries (.only ids)).domain hspeaks (hok.only ids) hu
  exact ⟨hfindings.typesAscending, hfindings.callsAscending, hothers⟩

/-- In the end every unit stands. -/
theorem Finished.stands {env : Env} {e : Engine} (h : Finished env Proper .full e)
    (hnone : ∀ u ∈ e.units, u.diagnostics = []) {unit : UnitId} {u : UnitRecord}
    (hu : e.units[unit]? = some u) : Stands env e unit u := by
  refine h.settled unit u hu (fun hmem => nomatch hmem) ?_ (hnone u (List.mem_of_getElem? hu))
  rw [h.idle]
  exact fun hold => nomatch hold

/-- The first unit is the top level, and the others are instances of methods. -/
theorem Finished.units_eq {env : Env} {e : Engine} (h : Finished env Proper .full e) :
    ∃ u us, e.units = u :: us ∧ u.key = none ∧ ∀ u' ∈ us, ∃ k, u'.key = some k := by
  obtain ⟨keys, hkeys⟩ := h.top
  have hdistinct := h.ok.nodup
  rw [← hkeys, List.singleton_append] at hdistinct
  change [none] ++ keys = e.units.map UnitRecord.key at hkeys
  cases hunits : e.units with
  | nil =>
    rw [hunits] at hkeys
    cases hkeys
  | cons u us =>
    rw [hunits, List.map_cons, List.singleton_append] at hkeys
    obtain ⟨htop, hothers⟩ := List.cons.inj hkeys
    refine ⟨u, us, rfl, htop.symm, fun u' hu' => ?_⟩
    cases hkey : u'.key with
    | some k => exact ⟨k, rfl⟩
    | none =>
      -- no other unit is the top level
      refine absurd ?_ (List.nodup_cons.mp hdistinct).1
      rw [hothers]
      exact List.mem_map.mpr ⟨u', hu', hkey⟩

/-- Methods have no nodes in common with the top level. -/
theorem Env.speaksUnit_method {settings : Settings} {p : Program} {env : Env}
    (henv : Env.ofProgram settings p = .ok env) (hids : (p.nodes.map Expr.id).Nodup)
    (k : Instantiation) :
    (Vocabulary.only fun node => ∀ n ∈ Expr.nodesOf p.topLevel, node ≠ n.id).speaksUnit env
      (some k) := by
  intro m hm
  obtain ⟨i, hi, hdef⟩ := Env.exists_item_of_get? henv hm
  refine ⟨fun _ _ => trivial, Vocabulary.speaks_only fun n hn n' hn' => ?_⟩
  exact Program.ne_of_mem_defs hids hi hdef hn hn'

/-! ### Putting the findings together -/

theorem addCalls_eq_append {known found : List Resolution}
    (h : Apart ((known ++ found).map Resolution.choice)) :
    Engine.addCalls known found = known ++ found := by
  induction found generalizing known with
  | nil => rw [Engine.addCalls, List.append_nil]
  | cons call found ih =>
    have hnew : known.any (· == call) = false := by
      rw [List.any_eq_false]
      intro k hk hsame
      rw [List.map_append] at h
      have hne := (List.pairwise_append.mp h).2.2 k.choice (List.mem_map_of_mem hk) call.choice
        (List.mem_map_of_mem List.mem_cons_self)
      rw [Resolution.choice_beq hsame] at hne
      cases hne
    rw [List.append_cons] at h ⊢
    rw [Engine.addCalls, hnew, if_neg Bool.false_ne_true, ih h]

/-- What the report takes over from the top level for a node that no other unit has. -/
theorem Engine.find?_report {env : Env} {e : Engine} {u : UnitRecord} {us : List UnitRecord}
    (hunits : e.units = u :: us) (htypes : u.types.Ascending) (hcalls : u.calls.Ascending)
    {node : NodeId}
    (hus : ∀ u ∈ us, (u.types.Ascending ∧ u.types.find? node = none) ∧
      (u.calls.Ascending ∧ u.calls.find? node = none)) :
    (e.report env).types.find? node =
        (u.types.find? node).map (fun t => (Ty.unresolved.union t).settled) ∧
      (e.report env).calls.find? node =
        (u.calls.find? node).map fun calls => addCalls [] (calls.map e.finalCall) := by
  constructor
  · have hmerged := NodeMap.find?_merged (n := node) UnitRecord.types
      (fun ty (known : Option Ty) => (known.getD .unresolved).union ty) htypes
      fun u hu => (hus u hu).1
    change (NodeMap.map Ty.settled (e.units.foldl mergeTypes .empty)).find? node = _
    rw [hunits, NodeMap.find?_map]
    refine (congrArg (Option.map Ty.settled) hmerged).trans ?_
    rw [Option.map_map]
    rfl
  · have hmerged := NodeMap.find?_merged (n := node) UnitRecord.calls
      (fun found (known : Option (List Resolution)) =>
        addCalls (known.getD []) (found.map e.finalCall)) hcalls fun u hu => (hus u hu).2
    change (e.units.foldl e.mergeCalls .empty).find? node = _
    rw [hunits]
    exact hmerged

/-- Choices among members that are distinct are compared in either order with the same
    result. -/
theorem choice_beq_comm {r r' : Ty} {as bs : List Ty} (hr : Proper r) (hr' : Proper r')
    (has : ∀ a ∈ as, Proper a) (hbs : ∀ b ∈ bs, Proper b) :
    ((some r, as) == (some r', bs)) = ((some r', bs) == (some r, as)) := by
  have hlist : ∀ {as bs : List Ty}, (∀ a ∈ as, Proper a) → (∀ b ∈ bs, Proper b) →
      (as == bs) = true → (bs == as) = true := by
    intro as bs has hbs h
    rw [Ty.beq_list_iff] at h ⊢
    rw [List.forall₂_iff_get] at h ⊢
    refine ⟨h.1.symm, fun i hi hi' => ?_⟩
    exact (has _ (List.get_mem _ _)).isOver.beq_symm (hbs _ (List.get_mem _ _)).isOver
      (h.2 i hi' hi)
  have hlists : (as == bs) = (bs == as) := Bool.eq_iff_iff.mpr ⟨hlist has hbs, hlist hbs has⟩
  change (r == r' && as == bs) = (r' == r && bs == as)
  rw [hr.isOver.beq_comm hr'.isOver, hlists]

/-- An entry of a list of choices that are apart is there once. -/
theorem Apart.countP_eq_one {choices : List (Option Ty × List Ty)} (h : Apart choices)
    {p : Option Ty × List Ty} (hp : p ∈ choices) (hcomm : ∀ q ∈ choices, (q == p) = (p == q))
    (hself : (p == p) = true) : choices.countP (· == p) = 1 := by
  induction choices with
  | nil => cases hp
  | cons q qs ih =>
    obtain ⟨hq, hqs⟩ := List.pairwise_cons.mp h
    obtain ⟨hcommq, hcommqs⟩ := List.forall_mem_cons.mp hcomm
    rcases List.mem_cons.mp hp with rfl | hp
    · have hnone : qs.countP (· == p) = 0 := by
        rw [List.countP_eq_zero]
        intro q hmem hsame
        rw [hcommqs q hmem, hq q hmem] at hsame
        cases hsame
      rw [List.countP_cons, hnone, hself, if_pos rfl]
    · rw [List.countP_cons, ih hqs hp hcommqs, hq p hp, if_neg Bool.false_ne_true]

namespace Dispatched

variable {types : NodeMap Ty} {calls : NodeMap (List Resolution)} {call receiver : NodeId}
  {args : List Expr} {base : Ty} {given : List Ty}

theorem apart (h : Dispatched types calls call receiver args base given) :
    Apart (((calls.find? call).getD []).map Resolution.choice) := by
  rw [h.choices]
  exact apart_choices h.baseKnown.isOver.distinct fun a ha => (h.givenKnown a ha).isOver.distinct

theorem mem_iff (h : Dispatched types calls call receiver args base given)
    {p : Option Ty × List Ty} :
    p ∈ ((calls.find? call).getD []).map Resolution.choice ↔ ∃ r ∈ base.members, ∃ as,
      List.Forall₂ (fun a t => a ∈ t.members) as given ∧ p = (some r, as) := by
  rw [h.choices, List.mem_flatMap]
  constructor
  · rintro ⟨r, hr, hp⟩
    obtain ⟨as, has, rfl⟩ := List.mem_map.mp hp
    exact ⟨r, hr, as, Overload.mem_choices.mp has, rfl⟩
  · rintro ⟨r, hr, as, has, rfl⟩
    exact ⟨r, hr, List.mem_map.mpr ⟨as, Overload.mem_choices.mpr has, rfl⟩⟩

/-- Each way is there once. -/
theorem countP_eq_one (h : Dispatched types calls call receiver args base given) {r : Ty}
    (hr : r ∈ base.members) {as : List Ty}
    (has : List.Forall₂ (fun a t => a ∈ t.members) as given) :
    ((calls.find? call).getD []).countP (fun k => k.receiver == some r && k.args == as) = 1 := by
  have hproper : ∀ {bs : List Ty}, List.Forall₂ (fun a t => a ∈ t.members) bs given →
      ∀ b ∈ bs, Proper b := by
    intro bs hbs b hb
    obtain ⟨t, ht, hbt⟩ := Overload.exists_members_of_mem_choices (Overload.mem_choices.mpr hbs) hb
    exact (h.givenKnown t ht).isOver.all b hbt
  have hbase := h.baseKnown.isOver.all
  have hcount := h.apart.countP_eq_one (h.mem_iff.mpr ⟨r, hr, as, has, rfl⟩) ?_ BEq.rfl
  · rw [List.countP_map] at hcount
    exact hcount
  · intro q hq
    obtain ⟨r', hr', bs, hbs, rfl⟩ := h.mem_iff.mp hq
    exact choice_beq_comm (hbase r' hr') (hbase r hr) (hproper hbs) (hproper has)

theorem exists_calls (h : Dispatched types calls call receiver args base given) :
    ∃ found, calls.find? call = some found := by
  cases hfound : calls.find? call with
  | some found => exact ⟨found, rfl⟩
  | none =>
    -- there is a member of the receiver and a choice of arguments
    obtain ⟨r, hr⟩ := List.exists_mem_of_ne_nil _ h.baseKnown.inhabited
    obtain ⟨as, has⟩ := List.exists_mem_of_ne_nil _
      (Overload.choices_ne_nil fun t ht => (h.givenKnown t ht).inhabited)
    have hmem := h.mem_iff.mpr ⟨r, hr, as, Overload.mem_choices.mp has, rfl⟩
    rw [hfound] at hmem
    cases hmem

/-- The report takes over what the top level found out about a call. -/
theorem report {env : Env} {e : Engine} {u : UnitRecord}
    (h : Dispatched u.types u.calls call receiver args base given)
    (htypes : ∀ node, node = receiver ∨ node ∈ args.map Expr.id → (e.report env).types.find? node =
      (u.types.find? node).map fun t => (Ty.unresolved.union t).settled)
    (hcalls : (e.report env).calls.find? call =
      (u.calls.find? call).map fun calls => Engine.addCalls [] (calls.map e.finalCall)) :
    Dispatched (e.report env).types (e.report env).calls call receiver args base given := by
  have hfinal : ∀ {t : Ty}, t.Known → (Ty.unresolved.union t).settled = t := fun ht => by
    rw [ht.isOver.unresolved_union, ht.settled_eq]
  refine ⟨?_, ?_, h.baseKnown, h.givenKnown, ?_⟩
  · rw [htypes receiver (Or.inl rfl), h.baseNoted, Option.map_some, hfinal h.baseKnown]
  · have hnoted := h.givenNoted
    rw [List.forall₂_iff_get] at hnoted ⊢
    refine ⟨hnoted.1, fun i hi hi' => ?_⟩
    rw [htypes _ (Or.inr (List.mem_map_of_mem (List.get_mem _ _))), hnoted.2 i hi hi',
      Option.map_some, hfinal (h.givenKnown _ (List.get_mem _ _))]
  · -- nothing is left to settle in the arguments, and no call is there twice
    rw [← h.choices, hcalls]
    have hmem := fun p => h.mem_iff (p := p)
    have hapart := h.apart
    cases hfound : u.calls.find? call with
    | none => rfl
    | some found =>
      rw [hfound] at hmem hapart
      simp only [Option.getD_some] at hmem hapart
      have hkept : (found.map e.finalCall).map Resolution.choice = found.map Resolution.choice := by
        rw [List.map_map]
        refine List.map_congr_left fun k hk => ?_
        obtain ⟨r, hr, as, has, hchoice⟩ := (hmem k.choice).mp (List.mem_map_of_mem hk)
        have hargs : k.args = as := congrArg Prod.snd hchoice
        have hsettled : ∀ a ∈ k.args, a.settled = a := by
          intro a ha
          rw [hargs] at ha
          obtain ⟨t, ht, hat⟩ :=
            Overload.exists_members_of_mem_choices (Overload.mem_choices.mpr has) ha
          exact ((h.givenKnown t ht).isOver.all a hat).settled_eq
        change (k.receiver, k.args.map Ty.settled) = (k.receiver, k.args)
        rw [(List.map_congr_left hsettled).trans (List.map_id _)]
      rw [Option.map_some, Option.getD_some, Option.getD_some,
        addCalls_eq_append (by rw [List.nil_append, hkept]; exact hapart), List.nil_append, hkept]

end Dispatched

/-! ### The report of an accepted program -/

/-- What is reported for a node outside of declarations is what the top level has found out
    about it, since no other unit has the node. -/
theorem Finished.find?_report_top {p : Program} {settings : Settings} {env : Env} {e : Engine}
    (h : Finished env Proper .full e) (hnone : ∀ u ∈ e.units, u.diagnostics = [])
    (henv : Env.ofProgram settings p = .ok env) (hids : (p.nodes.map Expr.id).Nodup)
    {u : UnitRecord} {us : List UnitRecord} (hunits : e.units = u :: us)
    (hothers : ∀ u' ∈ us, ∃ k, u'.key = some k) {n : Expr} (hn : n ∈ Expr.nodesOf p.topLevel) :
    (e.report env).types.find? n.id =
        (u.types.find? n.id).map (fun t => (Ty.unresolved.union t).settled) ∧
      (e.report env).calls.find? n.id =
        (u.calls.find? n.id).map fun calls => Engine.addCalls [] (calls.map e.finalCall) := by
  have hlibraries := Env.plain_libraries henv
  have hu : e.units[topUnit]? = some u := by rw [hunits]; rfl
  obtain ⟨htypes, hcalls, _⟩ :=
    (h.stands hnone hu).noted hlibraries h.ok hu (Vocabulary.speaksUnit_any env u.key)
  refine Engine.find?_report hunits htypes hcalls fun u' hu' => ?_
  obtain ⟨i, hi⟩ := List.getElem?_of_mem hu'
  have hget : e.units[i + 1]? = some u' := by rw [hunits]; exact hi
  obtain ⟨k, hk⟩ := hothers u' hu'
  obtain ⟨htypes', hcalls', hothersNone⟩ := (h.stands hnone hget).noted hlibraries h.ok hget
    (by rw [hk]; exact Env.speaksUnit_method henv hids k)
  obtain ⟨hnoType, hnoCall⟩ := hothersNone n.id fun hall => hall n hn rfl
  exact ⟨⟨htypes', hnoType⟩, hcalls', hnoCall⟩

/-- In an accepted program every call outside of declarations that has a receiver, which is
    not the name of a class and not asked for its address, is carried out: the report holds
    types `R` of the receiver and `As` of the arguments, none of them empty, and exactly
    one way of carrying out the call for each member of `R` and each choice of members
    of `As`, and no other way. -/
theorem Program.check_dispatches {file : String} {items : List Item} {settings : Settings}
    {report : Report} (h : (Program.ofItems file items).check settings = .ok report) {m : Mark}
    {receiver : Expr} {name : String} {args : List Expr} {block : Option Block} {parens : Bool}
    (hcall : .call m (some receiver) name args block parens ∈
      Expr.nodesOf (Program.ofItems file items).topLevel)
    (hpath : ∀ m' ref, receiver ≠ .path m' ref) (hptr : name ≠ "ptr") :
    ∃ R As calls, report.types.find? receiver.id = some R ∧
      List.Forall₂ (fun arg A => report.types.find? arg.id = some A) args As ∧
      report.calls.find? m.id = some calls ∧ R.members ≠ [] ∧ (∀ A ∈ As, A.members ≠ []) ∧
      (∀ r ∈ R.members, ∀ as, List.Forall₂ (fun a A => a ∈ A.members) as As →
        calls.countP (fun call => call.receiver == some r && call.args == as) = 1) ∧
      ∀ call ∈ calls, ∃ r ∈ R.members, call.receiver = some r ∧
        List.Forall₂ (fun a A => a ∈ A.members) call.args As := by
  obtain ⟨env, e, henv, hfinal, hnone, rfl⟩ := Program.check_eq_ok.mp h
  have hlibraries := Env.plain_libraries henv
  have hfin := final_finished (Env.keepsTo_proper hlibraries) hfinal
  have hids := Program.nodup_ids file items
  have htop := Env.topLevel_of_ofProgram henv
  obtain ⟨u, us, hunits, hkey, hothers⟩ := hfin.units_eq
  have hu : e.units[topUnit]? = some u := by rw [hunits]; rfl
  -- the last check of the top level dispatched the call
  have hstands := hfin.stands hnone hu
  obtain ⟨scopes, depth, hrun⟩ :=
    hstands (idleCheck env topUnit none) (.refl env) rfl (by rw [hkey]; rfl)
  have hrest := hfin.rest hlibraries hnone hu
  rw [hkey] at hrun hrest
  have hfrozen : Frozen e ((idleCheck env topUnit none).inferBody .nil env.topLevel) .start
      u.result ⟨scopes, depth, [], u.types, u.calls⟩ := ⟨Walk.ok_start, hrun, rfl⟩
  rw [htop] at hfrozen
  have hnodup := Program.nodup_topLevel hids
  have hpasses : Passes (idleCheck env topUnit none) e (fun _ => False) (fun _ _ => False) .start
      (Program.ofItems file items).topLevel ⟨scopes, depth, [], u.types, u.calls⟩ :=
    (hfrozen.of_inferBody hrest (fun e _ => hrest.valued e) (Ty.proper_plain "Nil").known).1
  have hvisited := hpasses.visited_below hrest hnodup hcall fun k _ _ hover => by
    cases hover.children_eq_nil
  have hkind : env.receiverKind receiver = .value := by
    cases receiver with
    | path m' ref => exact absurd rfl (hpath m' ref)
    | _ => rfl
  obtain ⟨R, As, hdispatched⟩ := hvisited.dispatched hrest hptr hkind
    (Expr.nodup_nodes hnodup hcall) rfl
  have hreported : ∀ n ∈ Expr.nodesOf (Program.ofItems file items).topLevel,
      (e.report env).types.find? n.id =
          (u.types.find? n.id).map (fun t => (Ty.unresolved.union t).settled) ∧
        (e.report env).calls.find? n.id =
          (u.calls.find? n.id).map fun calls => Engine.addCalls [] (calls.map e.finalCall) :=
    fun _ hn => hfin.find?_report_top hnone henv hids hunits hothers hn
  have hparts : ∀ n ∈ receiver :: args, n ∈ Expr.nodesOf (Program.ofItems file items).topLevel := by
    intro n hn
    obtain ⟨top, htop, hbelow⟩ := Expr.mem_nodesOf_iff.mp hcall
    refine Expr.mem_nodesOf_iff.mpr ⟨top, htop, Expr.mem_nodes_trans hbelow ?_⟩
    rw [Expr.nodes_eq]
    exact List.mem_cons_of_mem _ (Expr.mem_nodesOf (List.mem_append_left _ hn))
  have hfinally :
      Dispatched (e.report env).types (e.report env).calls m.id receiver.id args R As := by
    refine hdispatched.report (fun node hnode => ?_) (hreported _ hcall).2
    rcases hnode with rfl | hnode
    · exact (hreported _ (hparts _ List.mem_cons_self)).1
    · obtain ⟨arg, harg, rfl⟩ := List.mem_map.mp hnode
      exact (hreported _ (hparts _ (List.mem_cons_of_mem _ harg))).1
  obtain ⟨calls, hcalls⟩ := hfinally.exists_calls
  refine ⟨R, As, calls, hfinally.baseNoted, hfinally.givenNoted, hcalls,
    hfinally.baseKnown.inhabited, fun A hA => (hfinally.givenKnown A hA).inhabited, ?_, ?_⟩
  · intro r hr as has
    have hcount := hfinally.countP_eq_one hr has
    rw [hcalls] at hcount
    exact hcount
  · intro call hmem
    obtain ⟨r, hr, as, has, heq⟩ :=
      hfinally.mem_iff.mp (by rw [hcalls]; exact List.mem_map_of_mem hmem)
    obtain ⟨hreceiver, hargs⟩ := Prod.mk.inj heq
    exact ⟨r, hr, hreceiver, hargs ▸ has⟩

/-- A variable that is widened after it was used: `x = 1; while true { x + x; x = 2.0 }`. -/
def loopingProgram : Program :=
  let m : Mark := ⟨0, .unplaced⟩
  .ofItems "looping.qz" [
    .expr (.assign m (.local "x") (.literal m .int)),
    .expr (.loop m (.literal m .bool) [
      .call m (some (.ident m "x")) "+" [.ident m "x"] none false,
      .assign m (.local "x") (.literal m .double)])]

theorem loopingProgram_dispatches :
    ∃ report m receiver arg, loopingProgram.check {} = .ok report ∧
      .call m (some receiver) "+" [arg] none false ∈ Expr.nodesOf loopingProgram.topLevel ∧
      (∀ m' ref, receiver ≠ .path m' ref) ∧ "+" ≠ "ptr" ∧
      ∃ R As calls, report.types.find? receiver.id = some R ∧
        List.Forall₂ (fun arg A => report.types.find? arg.id = some A) [arg] As ∧
        report.calls.find? m.id = some calls ∧ R.members ≠ [] ∧ (∀ A ∈ As, A.members ≠ []) ∧
        (∀ r ∈ R.members, ∀ as, List.Forall₂ (fun a A => a ∈ A.members) as As →
          calls.countP (fun call => call.receiver == some r && call.args == as) = 1) ∧
        ∀ call ∈ calls, ∃ r ∈ R.members, call.receiver = some r ∧
          List.Forall₂ (fun a A => a ∈ A.members) call.args As := by
  let loc : Location := ⟨"looping.qz", 2, 1⟩
  have hok : (loopingProgram.check {}).toBool = true := by decide +kernel
  have hcall : .call ⟨4, loc⟩ (some (.ident ⟨5, loc⟩ "x")) "+" [.ident ⟨6, loc⟩ "x"] none false ∈
      Expr.nodesOf loopingProgram.topLevel := List.mem_of_getElem? (i := 4) rfl
  have hpath : ∀ m' ref, Expr.ident ⟨5, loc⟩ "x" ≠ .path m' ref := fun _ _ h => nomatch h
  have hname : "+" ≠ "ptr" := by decide
  obtain ⟨report, h⟩ := exists_of_toBool hok
  exact ⟨report, _, _, _, h, hcall, hpath, hname,
    Program.check_dispatches h hcall hpath hname⟩

end UnionTyping
