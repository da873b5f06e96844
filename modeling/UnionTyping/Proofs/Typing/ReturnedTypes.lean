/-
  UnionTyping/Proofs/Typing/ReturnedTypes.lean
  ============================================
  **The types and the calls of a report agree.**

  A node that is carried out as a call has the type of what is returned to it: each unit
  notes for it the union of what its own calls return (`Accepted.summed`), and the report
  puts types and calls together in the same way, so it holds the union of what all calls
  return (`Program.check_types_returned`).  Only those calls count that make a new instance,
  if there are any (`Resolution.counted`).

  A name is carried out as a call only where it is not visible as a variable, and this can
  be one thing in one instance and another in the next: then the type of the variable is
  part of the union, too (`Engine.readAt`), and the calls alone do not account for it
  (`visitedName_exceeds_calls`).
-/
import UnionTyping.Proofs.Inference.LegalCalls
import UnionTyping.Proofs.Inference.Merging
import UnionTyping.Proofs.Inference.Returns
import UnionTyping.Proofs.Typing.FinalTyping

namespace UnionTyping

open Ty (Over Proper Known)

/-- The calls that give a node its type: those that make a new instance if there are any. -/
def Resolution.counted (calls : List Resolution) : List Resolution :=
  if calls.any Resolution.allocates then calls.filter Resolution.allocates else calls

theorem Resolution.mem_counted {calls : List Resolution} {call : Resolution} :
    call ∈ counted calls ↔ call ∈ calls ∧ call.allocates = calls.any Resolution.allocates := by
  unfold counted
  split
  · rename_i hany
    rw [List.mem_filter, hany]
  · rename_i hnone
    refine ⟨fun hcall => ⟨hcall, ?_⟩, And.left⟩
    rw [Bool.eq_false_iff.mpr hnone, Bool.eq_false_iff]
    exact fun hallocates => hnone (List.any_eq_true.mpr ⟨call, hcall, hallocates⟩)

/-- The types that a node has where it is read as a variable: those that units have noted for it
    without a call. -/
def Engine.readAt (e : Engine) (node : NodeId) : List Ty :=
  e.units.filterMap fun u =>
    if ((u.calls.find? node).getD []).isEmpty then u.types.find? node else none

theorem Engine.mem_readAt {e : Engine} {node : NodeId} {t : Ty} : t ∈ e.readAt node ↔
    ∃ u ∈ e.units, (u.calls.find? node).getD [] = [] ∧ u.types.find? node = some t := by
  unfold readAt
  rw [List.mem_filterMap]
  refine exists_congr fun u => and_congr_right fun _ => ?_
  split
  · rename_i hnone
    exact (and_iff_right (List.isEmpty_iff.mp hnone)).symm
  · rename_i hsome
    exact ⟨(nomatch ·), fun h => absurd (List.isEmpty_iff.mpr h.1) hsome⟩

theorem Summed.exists_call {s : Engine} {allocates : Bool} {calls : List Resolution} {t : Ty}
    (h : Summed s allocates calls t) : ∃ call ∈ calls, call.allocates = allocates := by
  obtain ⟨m, hm⟩ := List.exists_mem_of_ne_nil _ h.known.inhabited
  obtain ⟨call, hcall, hallocates, _⟩ := (h.has_iff m (h.known.isOver.all m hm)).mp (.of_mem hm)
  exact ⟨call, hcall, hallocates⟩

namespace Accepted

variable {p : Program} {settings : Settings} {env : Env} {e : Engine}
  (h : Accepted p settings env e) (hids : (p.nodes.map Expr.id).Nodup)
include h hids

/-! ### The calls of one unit -/

/-- A unit that has found out something about a node that is carried out as a call has noted the
    type of what is returned, unless it has read a variable there. -/
theorem summed {n : Expr} (hn : n ∈ p.nodes) (hmay : n.mayCall = true) {unit : UnitId}
    {u : UnitRecord} (hu : e.units[unit]? = some u)
    (hnoted : u.types.find? n.id ≠ none ∨ (u.calls.find? n.id).getD [] ≠ [])
    (hcalled : (∀ m name, n ≠ .ident m name) ∨ (u.calls.find? n.id).getD [] ≠ []) :
    ∃ t, u.types.find? n.id = some t ∧
      Summed e (n.allocates env) ((u.calls.find? n.id).getD []) t := by
  obtain ⟨scopes, depth, hpasses⟩ := h.passes hu
  have hnodes := Expr.nodesOf_sublist (env.checkedOf_sublist u.key)
  have hnodup : (Expr.ids (env.checkedOf u.key)).Nodup :=
    (hnodes.map Expr.id).nodup (Env.nodup_exprsOf h.declared hids u.key)
  have hbelow : n ∈ Expr.nodesOf (env.checkedOf u.key) := by
    -- nothing is found out about the nodes that are not gone through
    apply Classical.byContradiction
    intro hnot
    have hnode : n.id ∉ Expr.ids (env.checkedOf u.key) := fun hmem => by
      obtain ⟨k, hk, hid⟩ := List.mem_map.mp hmem
      have hkn := List.inj_on_of_nodup_map hids (h.nodes_subset u.key (hnodes.subset hk)) hn hid
      exact hnot (hkn ▸ hk)
    have hsame := hpasses.found (h.rest hu) id hnode
    have hcalls : u.calls.find? n.id = none := congrArg Prod.snd hsame
    rcases hnoted with htype | hcalled
    · exact htype (congrArg Prod.fst hsame)
    · rw [hcalls] at hcalled
      exact hcalled rfl
  exact hpasses.summed (h.rest hu) hnodup hbelow rfl hmay hcalled

/-! ### The calls of all units -/

section

variable {n : Expr} (hn : n ∈ p.nodes) (hmay : n.mayCall = true)
include hn hmay

/-- A reported call was noted by a unit, and it returns there what it returns in the end. -/
theorem exists_summed {call : Resolution}
    (hcall : call ∈ ((e.report env).calls.find? n.id).getD []) :
    ∃ u ∈ e.units, ∃ t, u.types.find? n.id = some t ∧
      Summed e (n.allocates env) ((u.calls.find? n.id).getD []) t ∧
      ∃ k ∈ (u.calls.find? n.id).getD [], call.allocates = k.allocates ∧ call.ret = k.ret := by
  obtain ⟨unit, u, hu, k, hk, rfl⟩ := h.exists_of_reported hcall
  have hcalled := List.ne_nil_of_mem hk
  obtain ⟨t, ht, hsummed⟩ := h.summed hids hn hmay hu (.inr hcalled) (.inr hcalled)
  exact ⟨u, List.mem_of_getElem? hu, t, ht, hsummed, k, hk, rfl, hsummed.confirmed k hk⟩

theorem over_reported {call : Resolution}
    (hcall : call ∈ ((e.report env).calls.find? n.id).getD []) : call.ret.Over Proper := by
  obtain ⟨u, _, t, _, hsummed, k, hk, _, hret⟩ := h.exists_summed hids hn hmay hcall
  rw [hret]
  exact hsummed.returns k hk

/-- A call that a unit has noted is reported. -/
theorem exists_counterpart {u : UnitRecord} (hu : u ∈ e.units) {t : Ty}
    (hsummed : Summed e (n.allocates env) ((u.calls.find? n.id).getD []) t) {k : Resolution}
    (hk : k ∈ (u.calls.find? n.id).getD []) :
    ∃ call ∈ ((e.report env).calls.find? n.id).getD [], call.allocates = k.allocates ∧
      k.ret.Within call.ret := by
  obtain ⟨call, hcall, hsame⟩ := Engine.exists_reported h.callsAscending hu hk
  refine ⟨call, hcall, ?_⟩
  have hconfirmed : (e.finalCall k).ret = k.ret := hsummed.confirmed k hk
  rcases hsame with rfl | hsame
  · exact ⟨rfl, by rw [hconfirmed]; exact .refl _⟩
  · obtain ⟨_, hcallee, _, hret⟩ := Resolution.beq_iff.mp hsame
    rw [hconfirmed] at hret
    have hover := h.over_reported hids hn hmay hcall
    have hk' := hsummed.returns k hk
    refine ⟨?_, hk'.within_of_beq hover (hover.beq_symm hk' hret)⟩
    rw [Resolution.allocates, hcallee]
    rfl

/-- Whether a node has calls that make an instance depends on the expression alone. -/
theorem any_allocates {call : Resolution}
    (hcall : call ∈ ((e.report env).calls.find? n.id).getD []) :
    (((e.report env).calls.find? n.id).getD []).any Resolution.allocates = n.allocates env := by
  cases hallocates : n.allocates env with
  | true =>
    obtain ⟨u, hu, t, _, hsummed, _⟩ := h.exists_summed hids hn hmay hcall
    obtain ⟨k, hk, hmakes⟩ := hsummed.exists_call
    obtain ⟨call', hcall', hsame, _⟩ := h.exists_counterpart hids hn hmay hu hsummed hk
    exact List.any_eq_true.mpr ⟨call', hcall', by rw [hsame, hmakes, hallocates]⟩
  | false =>
    rw [List.any_eq_false]
    intro call' hcall'
    obtain ⟨u, _, t, _, hsummed, k, hk, hsame, _⟩ := h.exists_summed hids hn hmay hcall'
    rw [hsame, hsummed.plain hallocates k hk]
    exact Bool.false_ne_true

/-- What the units have noted for a node consists of what the calls that count return and of
    the types that variables have there. -/
theorem noted_iff {call : Resolution} (hcall : call ∈ ((e.report env).calls.find? n.id).getD [])
    {m : Ty} (hm : Proper m) :
    (∃ t ∈ e.notedTypes n.id, t.Has m) ↔
      ∃ t ∈ (Resolution.counted (((e.report env).calls.find? n.id).getD [])).map Resolution.ret ++
        e.readAt n.id, t.Has m := by
  have hany := h.any_allocates hids hn hmay hcall
  constructor
  · rintro ⟨t, ht, hhas⟩
    obtain ⟨u, hu, htype⟩ := List.mem_filterMap.mp ht
    by_cases hnone : (u.calls.find? n.id).getD [] = []
    · exact ⟨t, List.mem_append_right _ (Engine.mem_readAt.mpr ⟨u, hu, hnone, htype⟩), hhas⟩
    · obtain ⟨unit, hget⟩ := List.getElem?_of_mem hu
      obtain ⟨t', htype', hsummed⟩ := h.summed hids hn hmay hget (.inr hnone) (.inr hnone)
      cases htype.symm.trans htype'
      obtain ⟨k, hk, hallocates, hret⟩ := (hsummed.has_iff m hm).mp hhas
      obtain ⟨call', hcall', hsame, hwithin⟩ := h.exists_counterpart hids hn hmay hu hsummed hk
      refine ⟨call'.ret, List.mem_append_left _ (List.mem_map_of_mem ?_), ?_⟩
      · exact Resolution.mem_counted.mpr ⟨hcall', by rw [hsame, hallocates, hany]⟩
      · exact hret.mono hwithin
  · rintro ⟨t, ht, hhas⟩
    rcases List.mem_append.mp ht with ht | ht
    · obtain ⟨call', hcounted, rfl⟩ := List.mem_map.mp ht
      obtain ⟨hcall', hallocates⟩ := Resolution.mem_counted.mp hcounted
      obtain ⟨u, hu, t, htype, hsummed, k, hk, hsame, hret⟩ := h.exists_summed hids hn hmay hcall'
      refine ⟨t, List.mem_filterMap.mpr ⟨u, hu, htype⟩, (hsummed.has_iff m hm).mpr ⟨k, hk, ?_, ?_⟩⟩
      · rw [← hsame, hallocates, hany]
      · rw [← hret]
        exact hhas
    · obtain ⟨u, hu, _, htype⟩ := Engine.mem_readAt.mp ht
      exact ⟨t, List.mem_filterMap.mpr ⟨u, hu, htype⟩, hhas⟩

/-- A node with a reported call is reported with the union of what the calls that count return
    and of the types that variables have there. -/
theorem types_returned {call : Resolution}
    (hcall : call ∈ ((e.report env).calls.find? n.id).getD []) :
    ∃ t, (e.report env).types.find? n.id = some t ∧
      (t == Ty.unionAll ((Resolution.counted (((e.report env).calls.find? n.id).getD [])).map
        Resolution.ret ++ e.readAt n.id)) = true := by
  have hnoted : ∀ t ∈ e.notedTypes n.id, t.Over Proper := by
    intro t ht
    obtain ⟨u, hu, htype⟩ := List.mem_filterMap.mp ht
    obtain ⟨unit, hget⟩ := List.getElem?_of_mem hu
    exact h.over_noted hget htype
  have hparts : ∀ t ∈ (Resolution.counted (((e.report env).calls.find? n.id).getD [])).map
      Resolution.ret ++ e.readAt n.id, t.Over Proper := by
    intro t ht
    rcases List.mem_append.mp ht with ht | ht
    · obtain ⟨call', hcounted, rfl⟩ := List.mem_map.mp ht
      exact h.over_reported hids hn hmay (Resolution.mem_counted.mp hcounted).1
    · obtain ⟨u, hu, _, htype⟩ := Engine.mem_readAt.mp ht
      exact hnoted t (List.mem_filterMap.mpr ⟨u, hu, htype⟩)
  -- the node has a type, so there is nothing to settle
  obtain ⟨u, hu, t, htype, hsummed, _⟩ := h.exists_summed hids hn hmay hcall
  have ht : t ∈ e.notedTypes n.id := List.mem_filterMap.mpr ⟨u, hu, htype⟩
  have hover := Ty.over_unionAll hnoted
  have hknown : (Ty.unionAll (e.notedTypes n.id)).Known := by
    refine ⟨hover, fun hnil => ?_⟩
    obtain ⟨m, hm⟩ := List.exists_mem_of_ne_nil _ hsummed.known.inhabited
    have hhas := (Ty.has_unionAll_iff hnoted).mpr ⟨t, ht, .of_mem hm⟩
    rw [Ty.Has, hnil] at hhas
    cases hhas
  refine ⟨Ty.unionAll (e.notedTypes n.id), ?_, ?_⟩
  · rw [Engine.find?_types fun u hu => (h.ascending u hu).1, if_neg (List.ne_nil_of_mem ht),
      hknown.settled_eq]
  · refine hover.beq_of_has_iff (Ty.over_unionAll hparts) fun m hm => ?_
    rw [Ty.has_unionAll_iff hnoted, Ty.has_unionAll_iff hparts]
    exact h.noted_iff hids hn hmay hcall hm

/-- Only a name is read as a variable. -/
theorem readAt_eq_nil (hname : ∀ m name, n ≠ .ident m name) : e.readAt n.id = [] := by
  rw [List.eq_nil_iff_forall_not_mem]
  intro t ht
  obtain ⟨u, hu, hnone, htype⟩ := Engine.mem_readAt.mp ht
  obtain ⟨unit, hget⟩ := List.getElem?_of_mem hu
  have hnoted : u.types.find? n.id ≠ none := by
    rw [htype]
    exact Option.some_ne_none t
  obtain ⟨_, _, hsummed⟩ := h.summed hids hn hmay hget (.inl hnoted) (.inl hname)
  obtain ⟨k, hk, _⟩ := hsummed.exists_call
  rw [hnone] at hk
  cases hk

end

/-! ### What methods and programs return -/

omit hids in
/-- A reported call of a method returns what the instance is listed with. -/
theorem exists_instance {node : NodeId} {call : Resolution}
    (hcall : call ∈ ((e.report env).calls.find? node).getD []) {method : MethodId} {unit : UnitId}
    (hcallee : call.callee = .method method unit) :
    ∃ i, (e.report env).instances.filter (·.unit == unit) = [i] ∧ i.method = method ∧
      i.ret = call.ret := by
  obtain ⟨caller, u, hu, k, hk, rfl⟩ := h.exists_of_reported hcall
  change k.callee = .method method unit at hcallee
  obtain ⟨_, _, _, _, hcarried⟩ := h.carried hu hk
  obtain ⟨key, hkey, hmethod⟩ := hcarried.exists_key hcallee
  refine ⟨_, Engine.filter_instances hkey, hmethod, ?_⟩
  rw [Engine.finalCall, hcallee]
  rfl

end Accepted

/-- A body has the type that is noted for its last expression. -/
theorem Frozen.last_of_inferBody {c : Checking} {s : Engine} (hrest : Rest c s) {w w' : Walk}
    {first t : Ty} {es : List Expr} {last : Expr} (hlast : es.getLast? = some last)
    (h : Frozen s (c.inferBody first es) w t w') : w'.types.find? last.id = some t := by
  have L := hrest.lockstep .full
  induction es generalizing w first with
  | nil => cases hlast
  | cons e es ih =>
    rw [Checking.inferBody] at h
    obtain ⟨ty, w₁, _, hfirst, hrun⟩ := h.bind_typed hrest fun n ty _ hty =>
      L.inferBody es (Vocabulary.speaks_full _) n (.self hty)
    cases es with
    | nil =>
      cases hlast
      rw [Checking.inferBody] at hrun
      obtain ⟨rfl, rfl⟩ := hrun.of_pure
      obtain ⟨w₀, hinfer, rfl⟩ := hfirst.of_typed
      exact (NodeMap.find?_insert (hinfer.ascending hrest)).trans (if_pos rfl)
    | cons e' es => exact ih hlast hrun

/-- The result of a program is the type of its last expression outside of declarations. -/
theorem Accepted.result_eq {p : Program} {settings : Settings} {env : Env} {e : Engine}
    (h : Accepted p settings env e) (hids : (p.nodes.map Expr.id).Nodup) {last : Expr}
    (hlast : p.topLevel.getLast? = some last) :
    ∃ t, (e.report env).result = some t ∧ (e.report env).types.find? last.id = some t := by
  obtain ⟨u, _, _, hu, hkey, _, hreport⟩ := h.exists_top hids
  have htop := Env.topLevel_of_ofProgram h.declared
  have hrest := h.rest hu
  obtain ⟨scopes, depth, hrun⟩ := h.frozen hu
  rw [hkey] at hrun
  change Frozen e ((repeatedCheck env topUnit u).inferBody .nil env.topLevel) .start u.result _
    at hrun
  rw [htop] at hrun
  have hmem : last ∈ p.topLevel := List.mem_of_getLast? hlast
  have htype := hrun.last_of_inferBody hrest hlast
  have hknown : u.result.Known := by
    have hbody : Passes (repeatedCheck env topUnit u) e (fun _ => False) (fun _ _ => False) .start
        p.topLevel ⟨scopes, depth, [], u.types, u.calls⟩ ∧ u.result.Known :=
      hrun.of_inferBody hrest (fun e _ => hrest.valued e) (Ty.proper_plain "Nil").known
    exact hbody.2
  refine ⟨u.result, ?_, (hreport last (Expr.mem_nodesOf hmem)).2 u.result htype hknown⟩
  have hne : env.topLevel.isEmpty = false := by
    rw [htop, List.isEmpty_eq_false_iff]
    exact List.ne_nil_of_mem hmem
  change (if env.topLevel.isEmpty then none else e.units.head?.map (·.result.settled)) = _
  have hhead : e.units.head? = some u := List.head?_eq_getElem?.trans hu
  rw [hne, hhead, Option.map_some, hknown.settled_eq]
  rfl

/-! ### Accepted programs -/

/-- In an accepted program every node with reported calls has as its type the union of what
    those of the calls return that count and, for a name, of the types of the variables that
    it is read as in other instances.  A call of a method returns what the instance is listed
    with, and the result of the program is the type of its last expression outside of
    declarations. -/
theorem Program.check_types_returned {file : String} {items : List Item} {settings : Settings}
    {report : Report} (h : (Program.ofItems file items).check settings = .ok report) :
    ∃ env e, Env.ofProgram settings (Program.ofItems file items) = .ok env ∧
      Engine.final env = (.ok (), e) ∧
      (∀ node calls, report.calls.find? node = some calls → calls ≠ [] →
        ∃ n ∈ (Program.ofItems file items).nodes, n.id = node ∧
          (∃ t, report.types.find? node = some t ∧ (t == Ty.unionAll
            ((Resolution.counted calls).map Resolution.ret ++ e.readAt node)) = true) ∧
          ((∀ m name, n ≠ .ident m name) → e.readAt node = []) ∧
          ∀ call ∈ calls, ∀ method unit, call.callee = .method method unit →
            ∃ i, report.instances.filter (·.unit == unit) = [i] ∧ i.method = method ∧
              i.ret = call.ret) ∧
      ∀ last, (Program.ofItems file items).topLevel.getLast? = some last →
        ∃ t, report.result = some t ∧ report.types.find? last.id = some t := by
  obtain ⟨env, e, henv, hfinal, hsilent, rfl⟩ := Program.check_eq_ok.mp h
  have hkeeps := Env.keepsTo_proper (Env.plain_libraries henv)
  have haccepted : Accepted _ settings env e := ⟨henv, final_finished hkeeps hfinal, hsilent⟩
  have hids := Program.nodup_ids file items
  refine ⟨env, e, henv, hfinal, fun node calls hcalls hne => ?_,
    fun last hlast => haccepted.result_eq hids hlast⟩
  have hreported : ((e.report env).calls.find? node).getD [] = calls := by rw [hcalls]; rfl
  obtain ⟨call, hcall⟩ := List.exists_mem_of_ne_nil calls hne
  rw [← hreported] at hcall
  -- the call was carried out at a node of the program
  obtain ⟨unit, u, hu, k, hk, rfl⟩ := haccepted.exists_of_reported hcall
  obtain ⟨n, hn, rfl, hmay, _⟩ := haccepted.carried hu hk
  have hnode := haccepted.nodes_subset u.key hn
  have htypes := haccepted.types_returned hids hnode hmay hcall
  rw [hreported] at htypes
  refine ⟨n, hnode, rfl, htypes, haccepted.readAt_eq_nil hids hnode hmay, ?_⟩
  intro call' hcall' method unit' hcallee
  rw [← hreported] at hcall'
  exact haccepted.exists_instance hcall' hcallee

theorem inheritingProgram_types_returned :
    ∃ report, inheritingProgram.check {} = .ok report ∧
    ∃ env e, Env.ofProgram {} inheritingProgram = .ok env ∧ Engine.final env = (.ok (), e) ∧
      (∀ node calls, report.calls.find? node = some calls → calls ≠ [] →
        ∃ n ∈ inheritingProgram.nodes, n.id = node ∧
          (∃ t, report.types.find? node = some t ∧ (t == Ty.unionAll
            ((Resolution.counted calls).map Resolution.ret ++ e.readAt node)) = true) ∧
          ((∀ m name, n ≠ .ident m name) → e.readAt node = []) ∧
          ∀ call ∈ calls, ∀ method unit, call.callee = .method method unit →
            ∃ i, report.instances.filter (·.unit == unit) = [i] ∧ i.method = method ∧
              i.ret = call.ret) ∧
      ∀ last, inheritingProgram.topLevel.getLast? = some last →
        ∃ t, report.result = some t ∧ report.types.find? last.id = some t := by
  have hok : (inheritingProgram.check {}).toBool = true := by decide +kernel
  obtain ⟨report, h⟩ := exists_of_toBool hok
  exact ⟨report, h, Program.check_types_returned h⟩

/-- A name that is a variable only where a default value is used:
    `def y 'c' end; def f(a = (y = 1)) y end; f(); f(5)`. -/
def visitedNameProgram : Program :=
  let m : Mark := ⟨0, .unplaced⟩
  .ofItems "visited.qz" [
    .method ⟨"y", [], [.literal m .char], .unplaced⟩,
    .method ⟨"f", [⟨"a", none, some (.assign m (.local "y") (.literal m .int))⟩], [.ident m "y"],
      .unplaced⟩,
    .expr (.call m none "f" [] none true),
    .expr (.call m none "f" [.literal m .int] none true)]

def Report.exceedsCallsAt (report : Report) (node : NodeId) : Bool :=
  match report.types.find? node, report.calls.find? node with
  | some t, some calls =>
    !calls.isEmpty && !(t == Ty.unionAll ((Resolution.counted calls).map Resolution.ret))
  | _, _ => false

/-- In the body of `f` the name `y` is a call for one instance and a variable for the other, so
    its type is more than what its calls return. -/
theorem visitedName_exceeds_calls :
    ∃ report node t calls, visitedNameProgram.check {} = .ok report ∧
      report.types.find? node = some t ∧ report.calls.find? node = some calls ∧ calls ≠ [] ∧
      (t == Ty.unionAll ((Resolution.counted calls).map Resolution.ret)) = false := by
  have hexceeds : (match visitedNameProgram.check {} with
      | .ok report => report.exceedsCallsAt 3
      | .error _ => false) = true := by decide +kernel
  split at hexceeds
  · rename_i report hcheck
    unfold Report.exceedsCallsAt at hexceeds
    split at hexceeds
    · rename_i t calls htype hcalls
      obtain ⟨hne, hdiffers⟩ := Bool.and_eq_true_iff.mp hexceeds
      refine ⟨report, 3, t, calls, hcheck, htype, hcalls, fun hnil => ?_,
        Bool.not_eq_eq_eq_not.mp hdiffers⟩
      rw [hnil] at hne
      cases hne
    · cases hexceeds
  · cases hexceeds

end UnionTyping
