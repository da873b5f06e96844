/-
  UnionTyping/Proofs/Inference/LegalCalls.lean
  ============================================
  **Every reported call is legal.**

  In an accepted program a call of a method is reported only where the class of its
  receiver, or else the top level, finds the method and the method accepts the
  arguments.  The instance that the call names is listed exactly once, for the same
  receiver and arguments, and no two instances that are listed are the same
  (`Program.check_methodCalls_legal`).

  A native function that is called gets as many arguments as it declares, and what it
  is passed by value has the declared type, apart from an `out` of a local that is
  passed there before the local is declared: its type is still to come at every check
  and counts as nil in the end (`Program.check_nativeCalls_fit`,
  `misplacedOutProgram_accepted`).
-/
import UnionTyping.Proofs.Inference.Accepted

namespace UnionTyping

open Ty (Over Proper Known)

/-! ### Instances -/

def InstanceSummary.key (i : InstanceSummary) : Instantiation := ⟨i.method, i.self, i.args⟩

namespace Instantiation

theorem beq_iff {k k' : Instantiation} : (k == k') = true ↔
    k.method = k'.method ∧ (k.self == k'.self) = true ∧ (k.args == k'.args) = true := by
  have hsplit :
      (k == k') = (k.method == k'.method && (k.self == k'.self && k.args == k'.args)) := rfl
  rw [hsplit, Bool.and_eq_true_iff, Bool.and_eq_true_iff, beq_iff_eq]

theorem beq_toList (a b : Option Ty) : (a == b) = (a.toList == b.toList) := by
  cases a <;> cases b <;> simp

/-- Instances that are the same as a third are the same. -/
theorem beq_trans {k k' k'' : Instantiation} (h : (k == k') = true) (h' : (k' == k'') = true) :
    (k == k'') = true := by
  obtain ⟨hmethod, hself, hargs⟩ := beq_iff.mp h
  obtain ⟨hmethod', hself', hargs'⟩ := beq_iff.mp h'
  rw [beq_toList] at hself hself'
  refine beq_iff.mpr ⟨hmethod.trans hmethod', ?_, Ty.beq_list_trans hargs hargs'⟩
  rw [beq_toList]
  exact Ty.beq_list_trans hself hself'

/-- The types of the instance are in normal form. -/
structure Normal (key : Instantiation) : Prop where
  self : ∀ s, key.self = some s → s.Normal
  args : ∀ a ∈ key.args, a.Normal

theorem Ok.normal {env : Env} {k : Instantiation} (h : k.Ok env (Over Proper)) : k.Normal :=
  ⟨fun s hs => (h.self s hs).normal_of_proper, fun a ha => (h.args a ha).normal_of_proper⟩

/-- Instances for types in normal form can be compared in either order. -/
theorem Normal.beq_symm {k k' : Instantiation} (hk : k.Normal) (hk' : k'.Normal)
    (h : (k == k') = true) : (k' == k) = true := by
  obtain ⟨hmethod, hself, hargs⟩ := beq_iff.mp h
  refine beq_iff.mpr ⟨hmethod.symm, ?_, ?_⟩
  · rw [beq_toList] at hself ⊢
    rw [← hself]
    apply Ty.beq_list_comm_of_mem
    intro a ha b hb
    exact (hk'.self a (Option.mem_toList.mp ha)).beq_comm (hk.self b (Option.mem_toList.mp hb))
  · rw [← hargs]
    apply Ty.beq_list_comm_of_mem
    intro a ha b hb
    exact (hk'.args a ha).beq_comm (hk.args b hb)

end Instantiation

namespace Engine

variable {env : Env} {e : Engine}

def summaryOf (env : Env) (e : Engine) (unit : UnitId) (key : Instantiation) : InstanceSummary :=
  ⟨unit, key.method, ((env.methods.get? key.method).map Method.name).getD "", key.self, key.args,
    (e.returnedType unit).settled⟩

def instancesFrom (env : Env) (e : Engine) (us : List UnitRecord) (first : UnitId) :
    List InstanceSummary :=
  (us.zipIdx first).filterMap fun (u, unit) => u.key.map (summaryOf env e unit)

theorem instancesFrom_cons (u : UnitRecord) (us : List UnitRecord) (first : UnitId) :
    instancesFrom env e (u :: us) first =
      (u.key.map (summaryOf env e first)).toList ++ instancesFrom env e us (first + 1) := by
  rw [instancesFrom, List.zipIdx_cons, List.filterMap_cons]
  simp only
  cases u.key <;> rfl

theorem filter_instancesFrom (us : List UnitRecord) (first unit : UnitId) :
    (instancesFrom env e us first).filter (·.unit == unit) =
      if first ≤ unit then
        ((us[unit - first]?.bind UnitRecord.key).map (summaryOf env e unit)).toList
      else [] := by
  induction us generalizing first with
  | nil => split <;> rfl
  | cons u us ih =>
    have hone : (u.key.map (summaryOf env e first)).toList.filter (·.unit == unit) =
        if first = unit then (u.key.map (summaryOf env e first)).toList else [] := by
      cases u.key with
      | none => split <;> rfl
      | some k =>
        split
        · rename_i heq
          exact List.filter_cons_of_pos (beq_iff_eq.mpr heq)
        · rename_i hne
          exact List.filter_cons_of_neg (mt beq_iff_eq.mp hne)
    rw [instancesFrom_cons, List.filter_append, hone, ih]
    rcases Nat.lt_trichotomy first unit with hlt | rfl | hgt
    · have hnext : unit - first = unit - (first + 1) + 1 :=
        (Nat.succ_pred_eq_of_pos (Nat.sub_pos_of_lt hlt)).symm
      rw [if_neg (Nat.ne_of_lt hlt), if_pos (Nat.succ_le_of_lt hlt),
        if_pos (Nat.le_of_lt hlt), hnext,
        List.getElem?_cons_succ, List.nil_append]
    · rw [if_pos rfl, if_neg (Nat.not_succ_le_self _), if_pos (Nat.le_refl _), Nat.sub_self,
        List.getElem?_cons_zero, List.append_nil]
      rfl
    · rw [if_neg (Nat.ne_of_gt hgt), if_neg (Nat.not_le_of_gt (Nat.lt_succ_of_lt hgt)),
        if_neg (Nat.not_le_of_gt hgt), List.append_nil]

/-- The instance of a unit is listed once. -/
theorem filter_instances {unit : UnitId} {key : Instantiation} (h : e.keyOf unit = some key) :
    (instances env e).filter (·.unit == unit) = [summaryOf env e unit key] := by
  have hkey : e.units[unit]?.bind UnitRecord.key = some key := h
  change (instancesFrom env e e.units 0).filter (·.unit == unit) = _
  rw [filter_instancesFrom, if_pos (Nat.zero_le _), Nat.sub_zero, hkey]
  rfl

/-- What is listed is the instance of a unit. -/
theorem exists_unit_of_mem_instances {i : InstanceSummary} (h : i ∈ instances env e) :
    ∃ u, e.units[i.unit]? = some u ∧ u.key = some i.key := by
  obtain ⟨⟨u, unit⟩, hu, hsummary⟩ := List.mem_filterMap.mp h
  obtain ⟨key, hkey, rfl⟩ := Option.map_eq_some_iff.mp hsummary
  exact ⟨u, List.mem_zipIdx_iff_getElem?.mp hu, hkey⟩

/-- No two instances that are listed are the same. -/
theorem Ok.distinct_instances {v : Vocabulary} (h : e.Ok env Proper v) {i j : Nat}
    {a b : InstanceSummary} (ha : (instances env e)[i]? = some a)
    (hb : (instances env e)[j]? = some b) (hsame : (a.key == b.key) = true) : i = j := by
  have hkeys : ∀ a ∈ instances env e, a.key.Ok env (Over Proper) := by
    intro a ha
    obtain ⟨u, hu, hkey⟩ := exists_unit_of_mem_instances ha
    exact h.keys a.key (List.mem_map.mpr ⟨u, List.mem_of_getElem? hu, hkey⟩)
  have hpairs : (instances env e).Pairwise fun a b => (b.key == a.key) = false := by
    have hunits : e.units.zipIdx.Pairwise fun u u' => (u'.1.key == u.1.key) = false := by
      have hdistinct := h.distinct
      rw [Engine.keys, ← List.zipIdx_map_fst 0 e.units, List.pairwise_map,
        List.pairwise_map] at hdistinct
      exact hdistinct
    refine hunits.filterMap _ fun u u' hne a ha b hb => ?_
    obtain ⟨key, hkey, rfl⟩ := Option.map_eq_some_iff.mp ha
    obtain ⟨key', hkey', rfl⟩ := Option.map_eq_some_iff.mp hb
    rw [hkey, hkey'] at hne
    exact hne
  have hlater : ∀ {i j : Nat} {a b : InstanceSummary}, (instances env e)[i]? = some a →
      (instances env e)[j]? = some b → i < j → (b.key == a.key) = false := by
    intro i j a b ha hb hlt
    obtain ⟨hi, rfl⟩ := List.getElem?_eq_some_iff.mp ha
    obtain ⟨hj, rfl⟩ := List.getElem?_eq_some_iff.mp hb
    exact List.pairwise_iff_getElem.mp hpairs i j hi hj hlt
  rcases Nat.lt_trichotomy i j with hlt | heq | hgt
  · have hsame' := (hkeys a (List.mem_of_getElem? ha)).normal.beq_symm
      (hkeys b (List.mem_of_getElem? hb)).normal hsame
    rw [hlater ha hb hlt] at hsame'
    cases hsame'
  · exact heq
  · rw [hlater hb ha hgt] at hsame
    cases hsame

end Engine

/-! ### Calls of methods -/

/-- A call of a method is one of its instance: the method is found on the receiver and takes
    the arguments. -/
theorem Carried.of_method {env : Env} {s : Engine} {args : List Expr} {call : Resolution}
    (h : Carried env s args call) {method : MethodId} {unit : UnitId}
    (hcallee : call.callee = .method method unit) :
    ∃ (entry : MethodEntry) (key : Instantiation),
      entry.id = method ∧ entry.FoundOn env call.receiver ∧
      entry.method.signature.takes call.args.length = true ∧
      entry.method.signature.accepts env.hierarchy call.args = true ∧
      (∀ a ∈ call.args, Proper a) ∧ s.keyOf unit = some key ∧
      ((⟨method, call.receiver, call.args⟩ : Instantiation) == key) = true := by
  cases h with
  | method entry unit' key hcallee' hfound htakes haccepts hproper hkey hsame =>
    obtain ⟨rfl, rfl⟩ := Callee.method.inj (hcallee'.symm.trans hcallee)
    exact ⟨entry, key, rfl, hfound, htakes, haccepts, hproper, hkey, hsame⟩
  | primitive _ hcallee' => cases hcallee'.symm.trans hcallee
  | native _ _ _ hcallee' => cases hcallee'.symm.trans hcallee
  | allocate _ hcallee' => cases hcallee'.symm.trans hcallee
  | pointer hcallee' => cases hcallee'.symm.trans hcallee

/-- The unit that a call of a method is noted with is that of an instance of the method. -/
theorem Carried.exists_key {env : Env} {s : Engine} {args : List Expr} {call : Resolution}
    (h : Carried env s args call) {method : MethodId} {unit : UnitId}
    (hcallee : call.callee = .method method unit) :
    ∃ key, s.keyOf unit = some key ∧ key.method = method := by
  obtain ⟨_, key, _, _, _, _, _, hkey, hsame⟩ := h.of_method hcallee
  exact ⟨key, hkey, (Instantiation.beq_iff.mp hsame).1.symm⟩

/-- A call of a native function fits the function. -/
theorem Carried.of_native {env : Env} {s : Engine} {args : List Expr} {call : Resolution}
    (h : Carried env s args call) {lib name : String} (hcallee : call.callee = .native lib name) :
    ∃ f, env.native? lib name = some f ∧ f.Fits env.hierarchy args call.args := by
  cases h with
  | native lib' name' f hcallee' hdeclared hfits =>
    obtain ⟨rfl, rfl⟩ := Callee.native.inj (hcallee'.symm.trans hcallee)
    exact ⟨f, hdeclared, hfits⟩
  | method _ _ _ hcallee' => cases hcallee'.symm.trans hcallee
  | primitive _ hcallee' => cases hcallee'.symm.trans hcallee
  | allocate _ hcallee' => cases hcallee'.symm.trans hcallee
  | pointer hcallee' => cases hcallee'.symm.trans hcallee

/-- The method may be called like this: it is the one of its number, it is found on the
    receiver, and its written parameters take the arguments. -/
structure MethodEntry.Admits (env : Env) (entry : MethodEntry) (call : Resolution) : Prop where
  declared : env.methods.get? entry.id = some entry.method
  signature : Env.signatureOf env.classes entry.method.definition = .ok entry.method.signature
  foundOn : entry.FoundOn env call.receiver
  arity : entry.method.signature.arity.contains call.args.length = true
  /-- No argument is a union or unresolved. -/
  concrete : ∀ a ∈ call.args, a.IsCon
  assignable : ∀ (i : Nat) restriction arg,
    entry.method.signature.params[i]? = some (some restriction) →
    call.args[i]? = some arg → env.hierarchy.assignable arg restriction = true

theorem MethodEntry.FoundOn.live {env : Env} {entry : MethodEntry} {receiver : Option Ty}
    (h : entry.FoundOn env receiver) : entry ∈ env.methods.live := by
  cases receiver with
  | none => exact Methods.live_of_mem_topLevel h
  | some r =>
    obtain ⟨id, _, hlookup⟩ := h
    exact Methods.live_of_mem_lookup hlookup

theorem Signature.assignable_of_accepts {h : Hierarchy} {s : Signature} {args : List Ty}
    (haccepts : s.accepts h args = true) {i : Nat} {restriction arg : Ty}
    (hparam : s.params[i]? = some (some restriction)) (harg : args[i]? = some arg) :
    h.assignable arg restriction = true := by
  have hpair : (some restriction, arg) ∈ s.params.zip args :=
    List.mem_of_getElem? (i := i) (List.getElem?_zip_eq_some.mpr ⟨hparam, harg⟩)
  exact List.all_eq_true.mp haccepts _ hpair

/-- In an accepted program every reported call of a method is one that the declarations
    allow.  Its instance is listed exactly once, for the receiver and the arguments of
    the call, and no instance is listed twice. -/
theorem Program.check_methodCalls_legal {p : Program} {settings : Settings} {report : Report}
    (h : p.check settings = .ok report) :
    ∃ env, Env.ofProgram settings p = .ok env ∧
      (∀ node, ∀ call ∈ (report.calls.find? node).getD [], ∀ method unit,
        call.callee = .method method unit →
        (∃ entry : MethodEntry, entry.id = method ∧ entry.Admits env call) ∧
        ∃ i, report.instances.filter (·.unit == unit) = [i] ∧ i.method = method ∧
          (call.receiver == i.self) = true ∧ (call.args == i.args) = true) ∧
      ∀ (i j : Nat) a b, report.instances[i]? = some a → report.instances[j]? = some b →
        a.method = b.method → (a.self == b.self) = true → (a.args == b.args) = true → i = j := by
  obtain ⟨env, e, haccepted, rfl⟩ := exists_accepted h
  have hok := haccepted.finished.ok
  refine ⟨env, haccepted.declared, ?_, ?_⟩
  · intro node call hcall method unit hcallee
    obtain ⟨caller, u, hu, k, hk, rfl⟩ := haccepted.exists_of_reported hcall
    obtain ⟨_, _, _, _, hcarried⟩ := haccepted.carried hu hk
    change k.callee = .method method unit at hcallee
    obtain ⟨entry, key, rfl, hfound, htakes, haccepts, hproper, hkey, hsame⟩ :=
      hcarried.of_method hcallee
    have hargs : (e.finalCall k).args = k.args :=
      (List.map_congr_left fun a ha => (hproper a ha).settled_eq).trans (List.map_id _)
    have hdeclared := Env.declaredIn_of_ofProgram haccepted.declared
    have hget := hdeclared.numbered entry hfound.live
    obtain ⟨hmethod, hself, hgiven⟩ := Instantiation.beq_iff.mp hsame
    refine ⟨⟨entry, rfl, hget, hdeclared.signature _ (List.mem_of_getElem? hget), hfound, ?_, ?_,
      ?_⟩,
      Engine.summaryOf env e unit key, Engine.filter_instances hkey, hmethod.symm, hself, ?_⟩
    · rw [hargs]
      exact htakes
    · rw [hargs]
      exact fun a ha => (hproper a ha).isCon
    · rw [hargs]
      exact fun i restriction arg => Signature.assignable_of_accepts haccepts
    · rw [hargs]
      exact hgiven
  · intro i j a b ha hb hmethod hself hargs
    exact hok.distinct_instances ha hb (Instantiation.beq_iff.mpr ⟨hmethod, hself, hargs⟩)

/-- A method that a class inherits, called with a union and with a restricted parameter:

    ```text
    class Shape; def grow(by : Int) by end; end
    class Square < Shape; end
    def each(a, b = 1) a end
    each(1 or 2.0)
    Square.new.grow(each(2))
    ``` -/
def inheritingProgram : Program :=
  let m : Mark := ⟨0, .unplaced⟩
  let ref (name : String) : TypeRef := .mk name [] .unplaced
  let grow : Def := ⟨"grow", [⟨"by", some (ref "Int"), none⟩], [.ident m "by"], .unplaced⟩
  let each : Def :=
    ⟨"each", [⟨"a", none, none⟩, ⟨"b", none, some (.literal m .int)⟩], [.ident m "a"], .unplaced⟩
  .ofItems "shapes.qz" [
    .classDecl ⟨"Shape", none, false, [grow], .unplaced⟩,
    .classDecl ⟨"Square", some (ref "Shape"), false, [], .unplaced⟩,
    .method each,
    .expr (.call m none "each" [.connect m .or (.literal m .int) (.literal m .double)] none true),
    .expr (.call m (some (.call m (some (.path m (ref "Square"))) "new" [] none true)) "grow"
      [.call m none "each" [.literal m .int] none true] none true)]

theorem inheritingProgram_legal :
    ∃ report, inheritingProgram.check {} = .ok report ∧
    ∃ env, Env.ofProgram {} inheritingProgram = .ok env ∧
      (∀ node, ∀ call ∈ (report.calls.find? node).getD [], ∀ method unit,
        call.callee = .method method unit →
        (∃ entry : MethodEntry, entry.id = method ∧ entry.Admits env call) ∧
        ∃ i, report.instances.filter (·.unit == unit) = [i] ∧ i.method = method ∧
          (call.receiver == i.self) = true ∧ (call.args == i.args) = true) ∧
      ∀ (i j : Nat) a b, report.instances[i]? = some a → report.instances[j]? = some b →
        a.method = b.method → (a.self == b.self) = true → (a.args == b.args) = true → i = j := by
  have hok : (inheritingProgram.check {}).toBool = true := by decide +kernel
  obtain ⟨report, h⟩ := exists_of_toBool hok
  exact ⟨report, h, Program.check_methodCalls_legal h⟩

/-! ### Calls of native functions -/

/-- In an accepted program every reported call of a native function has as many arguments as
    the function declares.  The type of each that is passed by value can be used as the
    declared one, unless the argument is an `out` of a local that has no type. -/
theorem Program.check_nativeCalls_fit {p : Program} {settings : Settings} {report : Report}
    (h : p.check settings = .ok report) :
    ∃ env, Env.ofProgram settings p = .ok env ∧
      ∀ node, ∀ call ∈ (report.calls.find? node).getD [], ∀ lib name,
        call.callee = .native lib name →
        ∃ f, env.native? lib name = some f ∧ call.args.length = f.params.length ∧
          ∃ n ∈ p.nodes, n.id = node ∧ ∀ (i : Nat) param ty, f.params[i]? = some param →
            call.args[i]? = some ty → param.mode = .byValue →
            env.hierarchy.assignable ty param.ty = true ∨
              (ty = .nil ∧ ∃ m x, n.callArgs[i]? = some (.out m (.local x))) := by
  obtain ⟨env, e, haccepted, rfl⟩ := exists_accepted h
  refine ⟨env, haccepted.declared, ?_⟩
  intro node call hcall lib name hcallee
  obtain ⟨caller, u, hu, k, hk, rfl⟩ := haccepted.exists_of_reported hcall
  obtain ⟨n, hn, hnode, _, hcarried⟩ := haccepted.carried hu hk
  change k.callee = .native lib name at hcallee
  obtain ⟨f, hdeclared, hfits⟩ := hcarried.of_native hcallee
  refine ⟨f, hdeclared, (List.length_map _).trans hfits.length, n,
    haccepted.nodes_subset u.key hn, hnode, fun i param ty hparam hty hmode => ?_⟩
  change (k.args.map Ty.settled)[i]? = some ty at hty
  rw [List.getElem?_map] at hty
  obtain ⟨given, hgiven, rfl⟩ := Option.map_eq_some_iff.mp hty
  rcases hfits.assignable i param given hparam hgiven hmode with
    ⟨hknown, hassignable⟩ | ⟨rfl, hout⟩
  · rw [hknown.settled_eq]
    exact Or.inl hassignable
  · exact Or.inr ⟨rfl, hout⟩

/-- A native function that fills a variable, called in a loop:
    `lib Sensor; fun read(at : Int, out value : Double); end; x = 1;
    while true { Sensor.read(x, out v); x = x }; v`. -/
def sensorProgram : Program :=
  let m : Mark := ⟨0, .unplaced⟩
  let ref (name : String) : TypeRef := .mk name [] .unplaced
  .ofItems "sensor.qz" [
    .library ⟨"Sensor", [⟨"read", [⟨"at", ref "Int", false⟩, ⟨"value", ref "Double", true⟩], none,
      .unplaced⟩], .unplaced⟩,
    .expr (.assign m (.local "x") (.literal m .int)),
    .expr (.loop m (.literal m .bool) [
      .call m (some (.path m (ref "Sensor"))) "read" [.ident m "x", .out m (.local "v")] none true,
      .assign m (.local "x") (.ident m "x")]),
    .expr (.ident m "v")]

theorem sensorProgram_fits :
    ∃ report, sensorProgram.check {} = .ok report ∧
    ∃ env, Env.ofProgram {} sensorProgram = .ok env ∧
      ∀ node, ∀ call ∈ (report.calls.find? node).getD [], ∀ lib name,
        call.callee = .native lib name →
        ∃ f, env.native? lib name = some f ∧ call.args.length = f.params.length ∧
          ∃ n ∈ sensorProgram.nodes, n.id = node ∧ ∀ (i : Nat) param ty,
            f.params[i]? = some param → call.args[i]? = some ty → param.mode = .byValue →
            env.hierarchy.assignable ty param.ty = true ∨
              (ty = .nil ∧ ∃ m x, n.callArgs[i]? = some (.out m (.local x))) := by
  have hok : (sensorProgram.check {}).toBool = true := by decide +kernel
  obtain ⟨report, h⟩ := exists_of_toBool hok
  exact ⟨report, h, Program.check_nativeCalls_fit h⟩

/-- An `out` that is passed by value: `lib Sensor; fun scale(by : Int) : Int; end;
    Sensor.scale(out x)`. -/
def misplacedOutProgram : Program :=
  let m : Mark := ⟨0, .unplaced⟩
  let ref (name : String) : TypeRef := .mk name [] .unplaced
  .ofItems "sensor.qz" [
    .library ⟨"Sensor", [⟨"scale", [⟨"by", ref "Int", false⟩], some (ref "Int"), .unplaced⟩],
      .unplaced⟩,
    .expr (.call m (some (.path m (ref "Sensor"))) "scale" [.out m (.local "x")] none true)]

/-- Whether the report holds a call of a native function with an argument that is passed by
    value and cannot be used as the declared type. -/
def Report.misfitAt (report : Report) (env : Env) (node : NodeId) (lib name : String) : Bool :=
  ((report.calls.find? node).getD []).any fun call =>
    decide (call.callee = .native lib name) && (env.native? lib name).any fun f =>
      (f.params.zip call.args).any fun (param, ty) =>
        decide (param.mode = .byValue) && !env.hierarchy.assignable ty param.ty

/-- The type of a local that is not declared yet is waited for but never comes: nil is
    accepted for an integer. -/
theorem misplacedOutProgram_accepted :
    ∃ env report, Env.ofProgram {} misplacedOutProgram = .ok env ∧
      misplacedOutProgram.check {} = .ok report ∧
      ∃ call ∈ (report.calls.find? 0).getD [], call.callee = .native "Sensor" "scale" ∧
        ∃ f, env.native? "Sensor" "scale" = some f ∧ ∃ (i : Nat) (param : NativeParam) (ty : Ty),
          f.params[i]? = some param ∧ call.args[i]? = some ty ∧ param.mode = .byValue ∧
          env.hierarchy.assignable ty param.ty = false := by
  have hmisfit : (match Env.ofProgram {} misplacedOutProgram, misplacedOutProgram.check {} with
      | .ok env, .ok report => report.misfitAt env 0 "Sensor" "scale"
      | _, _ => false) = true := by decide +kernel
  split at hmisfit
  · rename_i env report henv hcheck
    obtain ⟨call, hcall, hmisfit⟩ := List.any_eq_true.mp hmisfit
    obtain ⟨hcallee, hmisfit⟩ := Bool.and_eq_true_iff.mp hmisfit
    obtain ⟨f, hf, hmisfit⟩ := (Option.any_eq_true _ _).mp hmisfit
    obtain ⟨⟨param, ty⟩, hpair, hmisfit⟩ := List.any_eq_true.mp hmisfit
    obtain ⟨hmode, hassignable⟩ := Bool.and_eq_true_iff.mp hmisfit
    obtain ⟨i, hi⟩ := List.getElem?_of_mem hpair
    obtain ⟨hparam, hty⟩ := List.getElem?_zip_eq_some.mp hi
    exact ⟨env, report, henv, hcheck, call, hcall, of_decide_eq_true hcallee, f, hf, i, param, ty,
      hparam, hty, of_decide_eq_true hmode, Bool.not_eq_eq_eq_not.mp hassignable⟩
  · cases hmisfit

end UnionTyping
