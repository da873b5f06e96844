/-
  UnionTyping/Proofs/Inference/Accepted.lean
  ==========================================
  **What is known when a program was accepted.**

  The run of an accepted program has come to its end, and no unit has a problem
  (`Accepted`).  The last check of every unit can be repeated there and changes
  nothing, so what is true of frozen checks is true of it (`Accepted.frozen`).  It goes
  through the expressions of the unit (`Accepted.passes`), so each call that a unit noted
  was carried out at one of these (`Accepted.carried`).  The report holds the calls of all
  units and no others (`exists_of_reported`).
-/
import UnionTyping.Proofs.Inference.TotalDispatch

namespace UnionTyping

open Ty (Over Proper Known)

/-! ### The calls of a unit -/

/-- The expressions of a unit, used or not. -/
def Env.exprsOf (env : Env) : Option Instantiation → List Expr
  | none => env.topLevel
  | some key => ((env.methods.get? key.method).map fun m => m.definition.exprs).getD []

def Def.omitted (d : Def) (given : Nat) : List Param := d.params.drop given

/-- The expressions that the check of a unit goes through: for an instance the default values
    of the parameters that it has no argument for, and the body. -/
def Env.checkedOf (env : Env) : Option Instantiation → List Expr
  | none => env.topLevel
  | some key => ((env.methods.get? key.method).map fun m =>
      (m.definition.omitted key.args.length).flatMap Param.exprs ++ m.definition.body).getD []

theorem Env.checkedOf_sublist (env : Env) (key : Option Instantiation) :
    (env.checkedOf key).Sublist (env.exprsOf key) := by
  cases key with
  | none => exact .refl _
  | some k =>
    rw [checkedOf, exprsOf]
    cases env.methods.get? k.method with
    | none => exact .refl _
    | some m =>
      apply List.Sublist.append _ (.refl _)
      exact (List.drop_sublist _ _).flatMap _

/-- The expressions of a unit are expressions of the program. -/
theorem Env.exprsOf_subset {p : Program} {settings : Settings} {env : Env}
    (henv : Env.ofProgram settings p = .ok env) (key : Option Instantiation) :
    env.exprsOf key ⊆ p.items.flatMap Item.exprs := by
  cases key with
  | none => exact topLevel_subset henv
  | some k =>
    rw [exprsOf]
    cases hm : env.methods.get? k.method with
    | none => exact List.nil_subset _
    | some m => exact exprs_subset henv (List.mem_of_getElem? hm)

/-- No two nodes of a unit share a number. -/
theorem Env.nodup_exprsOf {p : Program} {settings : Settings} {env : Env}
    (henv : Env.ofProgram settings p = .ok env) (hids : (p.nodes.map Expr.id).Nodup)
    (key : Option Instantiation) : (Expr.ids (env.exprsOf key)).Nodup := by
  cases key with
  | none =>
    rw [Env.exprsOf, Env.topLevel_of_ofProgram henv]
    exact Program.nodup_topLevel hids
  | some k =>
    rw [Env.exprsOf]
    cases hm : env.methods.get? k.method with
    | none => exact List.nodup_nil
    | some m =>
      obtain ⟨i, hi, hdef⟩ := Env.exists_item_of_get? henv hm
      exact Program.nodup_def hids hi hdef

namespace Frozen

variable {c : Checking} {s : Engine} {w w' : Walk}

/-- Giving the parameters their types goes through the default values of those that have no
    argument. -/
theorem passes_bindParams (hrest : Rest c s) {site : Location} {args : List Ty}
    {params : List Param} {u : Unit} (hargs : ∀ a ∈ args, a.Over Proper)
    (h : Frozen s (c.bindParams site args params) w u w') :
    Passes c s (fun _ => False) (fun _ _ => False) w
      ((params.drop args.length).flatMap Param.exprs) w' := by
  induction params generalizing w args with
  | nil =>
    unfold Checking.bindParams at h
    obtain ⟨_, rfl⟩ := h.of_pure
    rw [List.drop_nil]
    exact .done w'
  | cons p ps ih =>
    obtain ⟨t, i, w₁, w₂, w₃, _, _, hgiven, hbind, hassign, hothers⟩ :=
      h.parts_bindParams hrest hargs
    have hpasses := ih (fun a ha => hargs a (List.mem_of_mem_tail ha)) hothers
    -- declaring the parameter and giving it its type finds out nothing
    have hsame : ∀ node, w₃.found node = w₁.found node := fun node =>
      (hassign.keeps (p := (Walk.found · node)) (.assign _ _ _)).trans
        (hbind.keeps (p := (Walk.found · node)) (.bindLocal (fun _ _ => rfl) _))
    cases hgiven with
    | argument => exact .skip hsame hpasses
    | missing hdefault =>
      simp only [List.length_nil, List.drop_zero, List.flatMap_cons, Param.exprs, hdefault]
      exact .skip hsame hpasses
    | default hdefault hvalue =>
      simp only [List.length_nil, List.drop_zero, List.flatMap_cons, Param.exprs, hdefault]
      exact .child hvalue (.skip hsame hpasses)

/-- The check of a unit goes through its expressions, but for the default values of the
    parameters that have an argument. -/
theorem passes_unitBody (hrest : Rest c s) {key : Option Instantiation} {t : Ty}
    (hargs : ∀ k, key = some k → ∀ a ∈ k.args, a.Over Proper)
    (h : Frozen s (c.unitBody key) w t w') :
    Passes c s (fun _ => False) (fun _ _ => False) w (c.env.checkedOf key) w' := by
  have hbodies : ∀ {es : List Expr} {w w' : Walk} {t : Ty},
      Frozen s (c.inferBody .nil es) w t w' →
      Passes c s (fun _ => False) (fun _ _ => False) w es w' := fun hbody =>
    (hbody.of_inferBody hrest (fun e _ => hrest.valued e) (Ty.proper_plain "Nil").known).1
  cases key with
  | none => exact hbodies h
  | some k =>
    unfold Checking.unitBody at h
    rw [Env.checkedOf]
    simp only at h
    cases hm : c.env.methods.get? k.method with
    | none =>
      rw [hm] at h
      obtain ⟨_, rfl⟩ := h.of_pure
      exact .done w'
    | some m =>
      rw [hm] at h
      obtain ⟨i, w₁, w₂, _, _, hparams, hbody, hassign⟩ := h.parts_methodBody hrest (hargs k rfl)
      have hpasses := hparams.passes_bindParams hrest (hargs k rfl)
      have hsame : ∀ node, w'.found node = w₂.found node := fun node =>
        hassign.keeps (p := (Walk.found · node)) (.assign _ _ _)
      exact (hpasses.append (hbodies hbody)).then_own (fun node _ => hsame node) (.of_found hsame)

end Frozen

/-! ### Accepted programs -/

/-- The run of the program came to its end in the state `e`, and no unit has a problem. -/
structure Accepted (p : Program) (settings : Settings) (env : Env) (e : Engine) : Prop where
  declared : Env.ofProgram settings p = .ok env
  finished : Finished env Proper .full e
  silent : ∀ u ∈ e.units, u.diagnostics = []

theorem exists_accepted {p : Program} {settings : Settings} {report : Report}
    (h : p.check settings = .ok report) :
    ∃ env e, Accepted p settings env e ∧ report = e.report env := by
  obtain ⟨env, e, henv, hfinal, hnone, rfl⟩ := Program.check_eq_ok.mp h
  have hkeeps := Env.keepsTo_proper (Env.plain_libraries henv)
  exact ⟨env, e, ⟨henv, final_finished hkeeps hfinal, hnone⟩, rfl⟩

def repeatedCheck (env : Env) (unit : UnitId) (u : UnitRecord) : Checking :=
  idleCheck env unit (u.key.bind Instantiation.self)

namespace Accepted

variable {p : Program} {settings : Settings} {env : Env} {e : Engine} {unit : UnitId}
  {u : UnitRecord}

theorem libraries (h : Accepted p settings env e) : env.libraries.Plain :=
  Env.plain_libraries h.declared

theorem rest (h : Accepted p settings env e) (hu : e.units[unit]? = some u) :
    Rest (repeatedCheck env unit u) e :=
  h.finished.rest h.libraries h.silent hu

/-- The last check of a unit, repeated in the end. -/
theorem frozen (h : Accepted p settings env e) (hu : e.units[unit]? = some u) :
    ∃ scopes depth, Frozen e ((repeatedCheck env unit u).unitBody u.key) .start u.result
      ⟨scopes, depth, [], u.types, u.calls⟩ := by
  obtain ⟨scopes, depth, hrun⟩ :=
    h.finished.stands h.silent hu (repeatedCheck env unit u) (.refl env) rfl rfl
  exact ⟨scopes, depth, Walk.ok_start, hrun, rfl⟩

/-- The instance of a unit is one that a method can be entered with. -/
theorem keyOk (h : Accepted p settings env e) (hu : e.units[unit]? = some u) {k : Instantiation}
    (hkey : u.key = some k) : k.Ok env (Over Proper) :=
  h.finished.ok.keys k (Engine.mem_keys ((Engine.keyOf_of_getElem? hu).trans hkey))

/-- The last check of a unit goes through the expressions that it uses. -/
theorem passes (h : Accepted p settings env e) (hu : e.units[unit]? = some u) :
    ∃ scopes depth, Passes (repeatedCheck env unit u) e (fun _ => False) (fun _ _ => False) .start
      (env.checkedOf u.key) ⟨scopes, depth, [], u.types, u.calls⟩ := by
  obtain ⟨scopes, depth, hfrozen⟩ := h.frozen hu
  exact ⟨scopes, depth, hfrozen.passes_unitBody (h.rest hu) fun k hk => (h.keyOk hu hk).args⟩

/-- What the check of a unit does not go through it does not touch. -/
theorem untouched (h : Accepted p settings env e) (hu : e.units[unit]? = some u) {node : NodeId}
    (hnode : node ∉ Expr.ids (env.checkedOf u.key)) :
    u.types.find? node = none ∧ u.calls.find? node = none := by
  obtain ⟨scopes, depth, hpasses⟩ := h.passes hu
  have hsame := hpasses.found (h.rest hu) id hnode
  exact ⟨congrArg Prod.fst hsame, congrArg Prod.snd hsame⟩

/-- An instance has the number of a method that takes so many arguments. -/
theorem exists_method (h : Accepted p settings env e) (hu : e.units[unit]? = some u)
    {k : Instantiation} (hkey : u.key = some k) :
    ∃ m, env.methods.get? k.method = some m ∧ m.signature.takes k.args.length = true := by
  obtain ⟨entry, hlive, hid, htakes⟩ := (h.keyOk hu hkey).method
  have hdeclared := Env.declaredIn_of_ofProgram h.declared
  exact ⟨entry.method, hid ▸ hdeclared.numbered entry hlive, htakes⟩

/-- Each call that a unit noted was carried out at one of the nodes of the unit. -/
theorem carried (h : Accepted p settings env e) (hu : e.units[unit]? = some u) {node : NodeId}
    {call : Resolution} (hcall : call ∈ (u.calls.find? node).getD []) :
    ∃ n ∈ Expr.nodesOf (env.exprsOf u.key), n.id = node ∧ n.mayCall = true ∧
      Carried env e n.callArgs call := by
  obtain ⟨scopes, depth, hpasses⟩ := h.passes hu
  obtain ⟨n, hn, hmay, hnode, hcarried⟩ :=
    (hpasses.carried (h.rest hu) node call hcall).resolve_left fun hstart => nomatch hstart
  exact ⟨n, (Expr.nodesOf_sublist (env.checkedOf_sublist u.key)).subset hn, hnode.symm, hmay,
    hcarried⟩

/-- The nodes of a unit are nodes of the program. -/
theorem nodes_subset (h : Accepted p settings env e) (key : Option Instantiation) :
    Expr.nodesOf (env.exprsOf key) ⊆ p.nodes := by
  intro n hn
  obtain ⟨top, htop, hbelow⟩ := Expr.mem_nodesOf_iff.mp hn
  exact Expr.mem_nodesOf_iff.mpr ⟨top, Env.exprsOf_subset h.declared key htop, hbelow⟩

end Accepted

/-! ### The calls that are reported -/

theorem mem_of_mem_addCalls {known found : List Resolution} {call : Resolution}
    (h : call ∈ Engine.addCalls known found) : call ∈ known ∨ call ∈ found := by
  induction found generalizing known with
  | nil => exact Or.inl h
  | cons k found ih =>
    rw [Engine.addCalls] at h
    rcases ih h with h | h
    · split at h
      · exact Or.inl h
      · refine (List.mem_append.mp h).imp_right fun h => ?_
        rw [List.mem_singleton.mp h]
        exact List.mem_cons_self
    · exact Or.inr (List.mem_cons_of_mem _ h)

/-- A call that is there after the calls of several units were added was there before or was
    noted by one of the units. -/
theorem exists_of_merged {e : Engine} {us : List UnitRecord} {calls : NodeMap (List Resolution)}
    (hcalls : calls.Ascending) (hus : ∀ u ∈ us, u.calls.Ascending) {node : NodeId}
    {call : Resolution} (h : call ∈ ((us.foldl e.mergeCalls calls).find? node).getD []) :
    call ∈ (calls.find? node).getD [] ∨
      ∃ u ∈ us, ∃ k ∈ (u.calls.find? node).getD [], call = e.finalCall k := by
  induction us generalizing calls with
  | nil => exact Or.inl h
  | cons u us ih =>
    obtain ⟨hu, hus⟩ := List.forall_mem_cons.mp hus
    obtain ⟨hmerged, hfind⟩ := NodeMap.find?_foldl_alter (n := node) hu hcalls
      fun found known => Engine.addCalls (known.getD []) (found.map e.finalCall)
    rcases ih hmerged hus h with hadded | ⟨u', hu', hk⟩
    · change call ∈ ((NodeMap.find? _ node).getD []) at hadded
      rw [hfind] at hadded
      cases hfound : u.calls.find? node with
      | none =>
        rw [hfound] at hadded
        exact Or.inl hadded
      | some found =>
        rw [hfound, Option.getD_some] at hadded
        refine (mem_of_mem_addCalls hadded).imp_right fun hmem => ?_
        obtain ⟨k, hk, rfl⟩ := List.mem_map.mp hmem
        exact ⟨u, List.mem_cons_self, k, by rw [hfound]; exact hk, rfl⟩
    · exact Or.inr ⟨u', List.mem_cons_of_mem _ hu', hk⟩

namespace Accepted

variable {p : Program} {settings : Settings} {env : Env} {e : Engine}

theorem ascending (h : Accepted p settings env e) :
    ∀ u ∈ e.units, u.types.Ascending ∧ u.calls.Ascending := by
  intro u hu
  obtain ⟨unit, hget⟩ := List.getElem?_of_mem hu
  obtain ⟨htypes, hcalls, _⟩ := (h.finished.stands h.silent hget).noted h.libraries h.finished.ok
    hget (Vocabulary.speaksUnit_any env u.key)
  exact ⟨htypes, hcalls⟩

theorem callsAscending (h : Accepted p settings env e) : ∀ u ∈ e.units, u.calls.Ascending :=
  fun u hu => (h.ascending u hu).2

/-- A call that is reported was noted by some unit. -/
theorem exists_of_reported (h : Accepted p settings env e) {node : NodeId} {call : Resolution}
    (hcall : call ∈ ((e.report env).calls.find? node).getD []) :
    ∃ (unit : UnitId) (u : UnitRecord), e.units[unit]? = some u ∧
      ∃ k ∈ (u.calls.find? node).getD [], call = e.finalCall k := by
  obtain ⟨u, hu, k, hk, hcall⟩ := (exists_of_merged NodeMap.ascending_empty h.callsAscending
    hcall).resolve_left fun hnil => nomatch hnil
  obtain ⟨unit, hget⟩ := List.getElem?_of_mem hu
  exact ⟨unit, u, hget, k, hk, hcall⟩

end Accepted

end UnionTyping
