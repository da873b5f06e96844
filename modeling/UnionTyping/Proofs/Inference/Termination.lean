/-
  UnionTyping/Proofs/Inference/Termination.lean
  =============================================
  **Which programs are checked to the end.**

  The check of a program comes to its end under every limit that is large enough
  exactly when its types nest up to some depth however long the run goes on
  (`Program.check_terminates_iff`).  A program that takes no address has no types but
  those it is written with, so it is always checked to the end.  A variable that is
  assigned its own address is the other case: `p = 1; p = p.ptr` widens `p` again with
  every check (`growingProgram_never_terminates`).
-/
import UnionTyping.Inference.Outcome
import UnionTyping.Proofs.Inference.Universe

namespace UnionTyping

open Ty (Over Proper Known)

/-! ### Programs that are checked to the end -/

/-- The check answers under every limit that is large enough. -/
def Program.Terminates (p : Program) (settings : Settings) : Prop :=
  ∃ N, ∀ limit, N ≤ limit →
    ∀ stop, p.check (settings.withLimit limit) ≠ .error (.iterationLimit stop)

/-- The types that variables and instances of methods have when a run ends or is given up
    nest up to some depth, whatever the limit. -/
def Program.DepthBounded (p : Program) (settings : Settings) : Prop :=
  ∃ d, ∀ limit env, Env.ofProgram (settings.withLimit limit) p = .ok env →
    ∀ t ∈ (Engine.final env).2.types, t.depth ≤ d

namespace Engine

variable {env env' : Env} {C : Ty → Prop} {v : Vocabulary} {e : Engine}

/-- What is true of the states of a run speaks of the declarations only. -/
theorem Ok.of_sameDeclarations (henv : env.SameDeclarations env') (h : e.Ok env' C v) :
    e.Ok env C v := by
  refine h.mono henv.methods.symm (fun _ hm => hm) fun n slot hslot => ?_
  unfold Slot.Fits at hslot ⊢
  rw [henv.classes] at hslot
  exact hslot

/-- The types in a state are made of the instances in `C`. -/
theorem Ok.types (h : e.Ok env C v) : ∀ t ∈ e.types, t.Over C := by
  intro t ht
  rcases List.mem_append.mp ht with ht | ht
  · obtain ⟨b, hb, rfl⟩ := List.mem_map.mp ht
    exact (h.store.bindings b hb).isOver
  · obtain ⟨key, hkey, ht⟩ := List.mem_flatMap.mp ht
    obtain ⟨k, hk, ht⟩ := List.mem_flatMap.mp ht
    rw [Option.mem_toList.mp hk] at hkey
    have hok := h.keys k hkey
    rcases List.mem_append.mp ht with ht | ht
    · exact hok.self t (Option.mem_toList.mp ht)
    · exact hok.args t ht

end Engine

namespace Env

variable {env : Env}

theorem keepsTo_made_withLimit (hlibraries : env.libraries.Plain) (limit : Nat) :
    (env.withLimit limit).KeepsTo env.Made env.vocabulary := by
  have hplain : (env.withLimit limit).libraries.Plain := hlibraries
  exact keepsTo_made hplain

/-- The state in which a run ends or is given up. -/
theorem ok_final_withLimit (hlibraries : env.libraries.Plain) (limit : Nat) :
    (Engine.final (env.withLimit limit)).2.Ok env env.Made env.vocabulary :=
  (final_checks (keepsTo_made_withLimit hlibraries limit) rfl).1.of_sameDeclarations
    (env.sameDeclarations_withSettings _)

/-- A run comes to its end when its types do not nest deeper and deeper. -/
theorem ends_of_depth (hlibraries : env.libraries.Plain) {d : Nat}
    (hdepth : ∀ limit, ∀ t ∈ (Engine.final (env.withLimit limit)).2.types, t.depth ≤ d) :
    ∃ N, ∀ limit, N ≤ limit → (Engine.final (env.withLimit limit)).1 = .ok () := by
  obtain ⟨bound, hbound⟩ := exists_size_le env d
  refine ⟨bound * (bound + 4), fun limit hlimit => ?_⟩
  refine ends_of_bounded (keepsTo_made_withLimit hlibraries) (fun limit => ?_) hlimit
  exact hbound _ (ok_final_withLimit hlibraries limit) (hdepth limit)

/-- Only finitely many types come up in a run that comes to its end. -/
theorem depth_of_ends (hlibraries : env.libraries.Plain) {N : Nat}
    (hN : ∀ limit, N ≤ limit → (Engine.final (env.withLimit limit)).1 = .ok ()) :
    ∃ d, ∀ limit, ∀ t ∈ (Engine.final (env.withLimit limit)).2.types, t.depth ≤ d := by
  obtain ⟨d, hd⟩ := bounded_of_ends (keepsTo_made_withLimit hlibraries) hN
    fun e => Ty.depthOf e.types
  exact ⟨d, fun limit => Ty.depthOf_le_iff.mp (hd limit)⟩

/-- Without addresses a program has no types but its own. -/
theorem depth_of_no_address (hlibraries : env.libraries.Plain)
    (hnone : ∀ n ∈ env.nodes, n.takesAddress = false) :
    ∃ d, ∀ limit, ∀ t ∈ (Engine.final (env.withLimit limit)).2.types, t.depth ≤ d := by
  obtain ⟨d, hd⟩ := Ty.exists_depth_le env.seeds
  refine ⟨d, fun limit t ht => ?_⟩
  have hover := (ok_final_withLimit hlibraries limit).types t ht
  refine Ty.depth_le_iff.mpr fun m hm => ?_
  cases hover.all m hm with
  | seed h => exact hd m h
  | pointer h _ _ _ _ =>
    obtain ⟨n, hn, htakes⟩ := h
    rw [hnone n hn] at htakes
    cases htakes

theorem settings_of_ofProgram {settings : Settings} {p : Program}
    (h : ofProgram settings p = .ok env) : env.settings = settings := by
  obtain ⟨_, _, _, _, _, rfl⟩ := exists_of_ofProgram h
  rfl

theorem ofProgram_withLimit {settings : Settings} {p : Program}
    (h : ofProgram settings p = .ok env) (limit : Nat) :
    ofProgram (settings.withLimit limit) p = .ok (env.withLimit limit) := by
  rw [withLimit, settings_of_ofProgram h]
  exact ofProgram_withSettings h _

/-- What is checked are nodes of the program. -/
theorem nodes_subset {settings : Settings} {p : Program} (h : ofProgram settings p = .ok env) :
    env.nodes ⊆ p.nodes := by
  intro n hn
  rcases List.mem_append.mp hn with hn | hn
  · obtain ⟨e, he, hne⟩ := Expr.mem_nodesOf_iff.mp hn
    exact Expr.mem_nodesOf_iff.mpr ⟨e, topLevel_subset h he, hne⟩
  · obtain ⟨m, hm, hn⟩ := List.mem_flatMap.mp hn
    obtain ⟨e, he, hne⟩ := Expr.mem_nodesOf_iff.mp hn
    exact Expr.mem_nodesOf_iff.mpr ⟨e, exprs_subset h hm he, hne⟩

end Env

namespace Program

variable {p : Program} {settings : Settings}

theorem check_eq_iterationLimit {stop : Nat} :
    p.check settings = .error (.iterationLimit stop) ↔
      ∃ env, Env.ofProgram settings p = .ok env ∧ (Engine.final env).1 = .error ⟨stop⟩ := by
  rw [← answered_iff]
  constructor
  · intro h
    cases h with
    | givenUp declared final => exact ⟨_, declared, congrArg Prod.fst final⟩
  · rintro ⟨env, declared, final⟩
    exact .givenUp declared (Prod.ext final rfl)

/-- When the check of a program whose declarations are right comes to its end. -/
theorem terminates_iff {env : Env} (henv : Env.ofProgram settings p = .ok env) :
    p.Terminates settings ↔
      ∃ N, ∀ limit, N ≤ limit → (Engine.final (env.withLimit limit)).1 = .ok () := by
  unfold Terminates
  refine exists_congr fun N => forall_congr' fun limit => imp_congr_right fun _ => ?_
  constructor
  · intro h
    rcases hfinal : Engine.final (env.withLimit limit) with ⟨stop | _, e⟩
    · refine absurd (check_eq_iterationLimit.mpr ⟨_, Env.ofProgram_withLimit henv limit, ?_⟩)
        (h stop.limit)
      rw [hfinal]
    · rfl
  · intro h stop hstop
    obtain ⟨env', henv', hfinal⟩ := check_eq_iterationLimit.mp hstop
    rw [Env.ofProgram_withLimit henv limit] at henv'
    cases henv'
    rw [h] at hfinal
    cases hfinal

/-- A program whose declarations are wrong is not checked at all. -/
theorem terminates_of_error {d : Diagnostic} (h : Env.ofProgram settings p = .error d) :
    p.Terminates settings := by
  refine ⟨0, fun limit _ stop hstop => ?_⟩
  obtain ⟨env, henv, _⟩ := check_eq_iterationLimit.mp hstop
  rw [Env.ofProgram_withSettings henv settings] at h
  cases h

/-- The check of a program answers under every limit that is large enough exactly when its
    types nest up to some depth however long the run goes on; and it always does when
    the program takes no address. -/
theorem check_terminates_iff (p : Program) (settings : Settings) :
    (p.Terminates settings ↔ p.DepthBounded settings) ∧
      ((∀ n ∈ p.nodes, n.takesAddress = false) → p.Terminates settings) := by
  cases henv : Env.ofProgram settings p with
  | error d =>
    have hterminates := terminates_of_error henv
    refine ⟨iff_of_true hterminates ⟨0, fun limit env henv' => ?_⟩, fun _ => hterminates⟩
    rw [Env.ofProgram_withSettings henv' settings] at henv
    cases henv
  | ok env =>
    have hlibraries := Env.plain_libraries henv
    have hdepth : p.DepthBounded settings ↔
        ∃ d, ∀ limit, ∀ t ∈ (Engine.final (env.withLimit limit)).2.types, t.depth ≤ d := by
      refine exists_congr fun d => forall_congr' fun limit => ?_
      constructor
      · exact fun h => h _ (Env.ofProgram_withLimit henv limit)
      · intro h env' henv'
        rw [Env.ofProgram_withLimit henv limit] at henv'
        cases henv'
        exact h
    rw [terminates_iff henv, hdepth]
    refine ⟨⟨fun ⟨_, hN⟩ => Env.depth_of_ends hlibraries hN,
      fun ⟨_, hd⟩ => Env.ends_of_depth hlibraries hd⟩, fun hnone => ?_⟩
    obtain ⟨_, hd⟩ := Env.depth_of_no_address hlibraries fun n hn =>
      hnone n (Env.nodes_subset henv hn)
    exact Env.ends_of_depth hlibraries hd

end Program

/-! ### A program that is not checked to the end -/

/-- A variable that is assigned its own address: `p = 1; p = p.ptr`. -/
def growingProgram : Program :=
  let m : Mark := ⟨0, .unplaced⟩
  .ofItems "growing.qz" [
    .expr (.assign m (.local "p") (.literal m .int)),
    .expr (.assign m (.local "p") (.call m (some (.ident m "p")) "ptr" [] none true))]

namespace Growing

def line (n : Nat) : Location := ⟨"growing.qz", n, 1⟩

theorem topLevel_eq : growingProgram.topLevel =
    [.assign ⟨0, line 1⟩ (.local "p") (.literal ⟨1, line 1⟩ .int),
      .assign ⟨2, line 2⟩ (.local "p")
        (.call ⟨3, line 2⟩ (some (.ident ⟨4, line 2⟩ "p")) "ptr" [] none true)] := rfl

def started (c : Checking) (s : Store) : BindingId × Store :=
  let (p, s) := s.intern (.local c.unit .body "p")
  (p, (s.assign p (line 1) .int (c.cause.getD (line 1))).2)

def pointed (c : Checking) (p : BindingId) (s : Store) : Store :=
  let (t, s) := s.read p c.unit
  (s.assign p (line 2) (.pointer t) (c.cause.getD (line 2))).2

section

variable {c : Checking} {e : Engine}

theorem runWalk_pointer {w : Walk} {p : BindingId} (hp : w.scopes.lookup "p" = some p)
    (hknown : (e.store.typeOf p).isUnresolved = false) :
    ∃ w', runWalk (c.takePointer ⟨3, line 2⟩ (.ident ⟨4, line 2⟩ "p") 0 false) w e =
        (.ok (.pointer (e.store.typeOf p), w'), { e with store := (e.store.read p c.unit).2 }) ∧
      w'.scopes = w.scopes := by
  have hread : runWalk (c.read p) w e =
      (.ok (e.store.typeOf p, w), { e with store := (e.store.read p c.unit).2 }) := rfl
  rw [Checking.takePointer_ident, runWalk_bind_ok (runWalk_lookup "p" w e), hp]
  simp only [Checking.pointerTo, ne_eq, not_true_eq_false, if_false, Bool.false_eq_true]
  rw [runWalk_bind_ok hread, hknown]
  exact ⟨_, rfl, rfl⟩

/-- The check of the two assignments. -/
theorem runWalk_topLevel
    (hknown : ((started c e.store).2.typeOf (started c e.store).1).isUnresolved = false) :
    ∃ t w, runWalk (c.inferBody .nil growingProgram.topLevel) .start e =
      (.ok (t, w), { e with store := pointed c (started c e.store).1 (started c e.store).2 }) := by
  let scopes : Scopes := ⟨[], [("p", (started c e.store).1)]⟩
  let first : Walk := ⟨scopes, 0, [], ⟨[(0, .int), (1, .int)]⟩, .empty⟩
  have hfirst : runWalk (Checking.typed 0 (c.infer
      (.assign ⟨0, line 1⟩ (.local "p") (.literal ⟨1, line 1⟩ .int)))) .start e =
      (.ok (.int, first), { e with store := (started c e.store).2 }) := rfl
  obtain ⟨w', hpointer, hscopes⟩ := runWalk_pointer (c := c) (w := first)
    (p := (started c e.store).1) (e := { e with store := (started c e.store).2 }) rfl hknown
  obtain ⟨⟨_, _⟩, _, _, _, _⟩ := w'
  cases hscopes
  have hvalue : runWalk (Checking.typed 3 (c.infer
      (.call ⟨3, line 2⟩ (some (.ident ⟨4, line 2⟩ "p")) "ptr" [] none true))) first
      { e with store := (started c e.store).2 } = (.ok (_, _), _) := runWalk_bind_ok hpointer
  have hsecond : runWalk (Checking.typed 2 (c.infer (.assign ⟨2, line 2⟩ (.local "p")
      (.call ⟨3, line 2⟩ (some (.ident ⟨4, line 2⟩ "p")) "ptr" [] none true)))) first
      { e with store := (started c e.store).2 } = (.ok (_, _), _) :=
    runWalk_bind_ok (runWalk_bind_ok hvalue)
  rw [topLevel_eq]
  exact ⟨_, _, (runWalk_bind_ok hfirst).trans (runWalk_bind_ok hsecond)⟩

/-- After the first assignment the variable has a type. -/
theorem known_started {s : Store} {slotOk : Slot → Prop} {n : Nat} (h : s.Ok Proper slotOk n)
    (hslot : slotOk (.local c.unit .body "p")) :
    (started c s).2.Ok Proper slotOk n ∧ ∃ b, (started c s).2.bindings[(started c s).1]? = some b ∧
      b.current.Known := by
  have hcon : ∀ m, Proper m → m.IsCon := fun _ hm => hm.isCon
  have hint : Ty.int.Over Proper := (Ty.proper_plain "Int").isOver
  have hok := h.intern hslot
  obtain ⟨b₀, hb₀, _⟩ := Store.find_eq_some (Store.find_intern s (.local c.unit .body "p"))
  have hlt := (List.getElem?_eq_some_iff.mp hb₀).1
  have hok' := hok.assign hcon (s.intern (.local c.unit .body "p")).1 hint (line 1)
    (c.cause.getD (line 1))
  have hmem := Store.any_assign hcon hok hlt hint List.mem_cons_self (line 1)
    (c.cause.getD (line 1))
  obtain ⟨b, hb, _⟩ := (Store.grows_assign hcon hok (s.intern (.local c.unit .body "p")).1 hint
    (line 1) (c.cause.getD (line 1))).bindings _ _ hb₀
  refine ⟨hok', b, hb, (hok'.getElem? hb).isOver.known ?_⟩
  rw [Store.typeOf_eq hb] at hmem
  rw [← Bool.not_eq_true, (hok'.getElem? hb).isOver.isUnresolved_iff]
  intro hnil
  rw [hnil] at hmem
  cases hmem

/-- The second assignment widens the variable, so its unit has to be checked again. -/
theorem holds_pointed {s : Store} {p : BindingId} {b : Binding} (hb : s.bindings[p]? = some b)
    (hknown : b.current.Known) : (pointed c p s).queue.holds c.unit = true := by
  obtain ⟨b', hb', hmem, hcurrent⟩ := Store.mem_readers_read hb c.unit
  have htype : (s.read p c.unit).1 = b.current := Store.typeOf_eq hb
  unfold pointed
  simp only [htype]
  refine Store.holds_assign hb' rfl ?_ hmem _ _
  rw [hcurrent]
  exact Ty.union_pointer_ne hknown

end

variable {env : Env} {e : Engine}

/-- A check of the top level leaves it waiting. -/
theorem check_again (htop : env.topLevel = growingProgram.topLevel) (h : e.Ok env Proper .full)
    (hkeys : e.keys = [none]) (depth : Nat) (cause : Option Location) (recheck : Bool) :
    runEngine (Engine.checkNested env depth topUnit cause recheck) e =
        (.error ⟨env.settings.maxIterations⟩, e.count) ∨
      ∃ e', runEngine (Engine.checkNested env depth topUnit cause recheck) e = (.ok (), e') ∧
        e'.keys = [none] ∧ e'.store.queue ≠ [] := by
  rw [Engine.checkNested_eq, runEngine_checkOnce]
  by_cases hlimit : env.settings.maxIterations < e.checks + 1
  · exact Or.inl (if_pos hlimit)
  · right
    have hkey : e.keyOf topUnit = none := by
      rw [Engine.keyOf_eq, hkeys]
      rfl
    let c := e.checkingOf env (Engine.nestedBegin env depth) topUnit cause recheck
    have hlt : topUnit < e.units.length := by
      rw [← Engine.length_keys, hkeys]
      exact Nat.one_pos
    obtain ⟨_, b, hb, hknown⟩ := known_started (c := c) (s := e.count.store) h.store
      ⟨hlt, trivial, fun _ _ => trivial⟩
    obtain ⟨t, w, hrun⟩ := runWalk_topLevel (c := c) (e := e.count)
      (by rw [Store.typeOf_eq hb]; exact hknown.isUnresolved_eq_false)
    have hbody : c.unitBody (e.keyOf topUnit) = c.inferBody .nil growingProgram.topLevel := by
      rw [hkey, ← htop]
      rfl
    have hwaits := holds_pointed (c := c) hb hknown
    rw [if_neg hlimit, hbody, hrun]
    refine ⟨_, rfl, ?_, fun hnil => ?_⟩
    · rw [Engine.keys_record]
      exact hkeys
    · change (pointed c _ _).queue = [] at hnil
      rw [hnil] at hwaits
      cases hwaits

/-- However many rounds there are, the run is given up. -/
theorem settle_error (htop : env.topLevel = growingProgram.topLevel)
    (hkeeps : env.KeepsTo Proper .full) (rounds : Nat) (h : Between env Proper .full e)
    (hkeys : e.keys = [none]) (hwaits : e.store.queue ≠ []) :
    (runEngine (Engine.settle env rounds) e).1 = .error ⟨env.settings.maxIterations⟩ := by
  induction rounds generalizing e with
  | zero => rfl
  | succ rounds ih =>
    obtain ⟨next, rest, hq⟩ := List.exists_cons_of_ne_nil hwaits
    have hnext : runEngine Engine.nextUnit e = (.ok (some next), e.withQueue rest) := by
      rw [runEngine_nextUnit, hq]
    obtain ⟨p, hp, hok, _, hlt, _⟩ :=
      (nextUnit_spec hkeeps h hnext).resolve_right fun hnone => nomatch hnone.1
    cases hp
    -- the top level is the only unit
    have htopUnit : next.unit = topUnit := by
      rw [← Engine.length_keys] at hlt
      change next.unit < e.keys.length at hlt
      rw [hkeys] at hlt
      exact Nat.lt_one_iff.mp hlt
    rw [runEngine_settle_succ, hnext]
    simp only
    rcases check_again htop hok (e := e.withQueue rest) hkeys env.settings.maxNesting next.cause
      true
      with herror | ⟨e', hcheck, hkeys', hwaits'⟩
    · rw [Engine.recheck, htopUnit, herror]
    · rw [← htopUnit] at hcheck
      have hrecheck :
          runEngine (Engine.recheck env next) (e.withQueue rest) = (.ok (), e') := hcheck
      rw [hrecheck]
      exact ih (between_round hkeeps h hnext hrecheck) hkeys' hwaits'

theorem final_error (htop : env.topLevel = growingProgram.topLevel)
    (hlibraries : env.libraries.Plain) :
    (Engine.final env).1 = .error ⟨env.settings.maxIterations⟩ := by
  have hkeeps := Env.keepsTo_proper hlibraries
  rw [final_eq, runEngine_runAll]
  rcases check_again htop ok_start rfl env.settings.maxNesting none false
    with herror | ⟨e', hcheck, hkeys, hwaits⟩
  · rw [herror]
  · rw [hcheck]
    exact settle_error htop hkeeps _ (between_start hkeeps hcheck) hkeys hwaits

end Growing

/-- No limit is large enough for a program that keeps widening a variable with its own
    address. -/
theorem growingProgram_never_terminates : ¬ growingProgram.Terminates {} ∧
    ∀ settings : Settings,
      growingProgram.check settings = .error (.iterationLimit settings.maxIterations) := by
  have hok : (Env.ofProgram {} growingProgram).toBool = true := by decide +kernel
  have hcheck : ∀ settings : Settings,
      growingProgram.check settings = .error (.iterationLimit settings.maxIterations) := by
    intro settings
    obtain ⟨env, h⟩ := exists_of_toBool hok
    have henv := Env.ofProgram_withSettings h settings
    have hfinal := Growing.final_error (Env.topLevel_of_ofProgram henv) (Env.plain_libraries henv)
    exact Program.check_eq_iterationLimit.mpr ⟨_, henv, hfinal⟩
  refine ⟨fun ⟨limit, hterminates⟩ => ?_, hcheck⟩
  exact hterminates limit (Nat.le_refl _) limit (hcheck _)

end UnionTyping
