/-
  UnionTyping/Proofs/Inference/Carried.lean
  =========================================
  **How the calls are carried out that the last check of a unit notes.**

  A call is noted when a candidate was entered, when a class was asked for a new
  instance, when the address of a variable was taken, or when a native function was
  called (`Carried`).  A method that was entered is found on the class of the
  receiver or at the top level, its signature accepts the arguments, and the unit
  that is noted is that of the same instance.  Everything else that a check does
  notes no call (`NotesNoCall`).
-/
import UnionTyping.Proofs.Inference.Dispatch
import UnionTyping.Proofs.NativeCalls

namespace UnionTyping

open Ty (Over Proper Known)

/-! ### The calls noted for a node -/

/-- The ways of carrying out a call that were noted for a node. -/
def Walk.callsAt (walk : Walk) (node : NodeId) : List Resolution :=
  (walk.calls.find? node).getD []

theorem Walk.callsAt_congr {walk walk' : Walk} {node : NodeId}
    (h : walk'.calls.find? node = walk.calls.find? node) :
    walk'.callsAt node = walk.callsAt node := by
  rw [callsAt, callsAt, h]

theorem Walk.callsAt_eq {walk walk' : Walk} (h : walk'.calls = walk.calls) (node : NodeId) :
    walk'.callsAt node = walk.callsAt node :=
  callsAt_congr (by rw [h])

theorem Walk.mem_callsAt_noted {walk : Walk} (hwalk : walk.calls.Ascending) {node other : NodeId}
    {call k : Resolution} (hk : k ∈ (walk.noted node call).callsAt other) :
    k ∈ walk.callsAt other ∨ (other = node ∧ k = call) := by
  rw [callsAt, noted, NodeMap.find?_alter hwalk] at hk
  split at hk
  · rename_i heq
    subst heq
    rw [Option.getD_some] at hk
    simp only at hk
    split at hk
    · exact Or.inl hk
    · exact (List.mem_append.mp hk).imp_right fun hk => ⟨rfl, List.mem_singleton.mp hk⟩
  · exact Or.inl hk

theorem Walk.mem_callsAt_of_mem {walk : Walk} (hwalk : walk.calls.Ascending) {node other : NodeId}
    {call k : Resolution} (hk : k ∈ walk.callsAt other) :
    k ∈ (walk.noted node call).callsAt other := by
  rw [callsAt, noted, NodeMap.find?_alter hwalk]
  split
  · rename_i heq
    subst heq
    rw [Option.getD_some]
    simp only
    split
    · exact hk
    · exact List.mem_append_left _ hk
  · exact hk

/-- A call that is noted is there, or one that cannot be told from it was there before. -/
theorem Walk.exists_callsAt_noted {walk : Walk} (hwalk : walk.calls.Ascending) (node : NodeId)
    (call : Resolution) :
    ∃ k ∈ (walk.noted node call).callsAt node, k = call ∨ (k == call) = true := by
  rw [callsAt, noted, NodeMap.find?_alter hwalk, if_pos rfl, Option.getD_some]
  simp only
  split
  · rename_i hany
    obtain ⟨k, hk, hsame⟩ := List.any_eq_true.mp hany
    exact ⟨k, hk, Or.inr hsame⟩
  · exact ⟨call, List.mem_append_right _ List.mem_cons_self, Or.inl rfl⟩

/-- Carrying out calls loses no call. -/
theorem keepsCalls : CallFrame fun w w' => w.calls.Ascending → w'.calls.Ascending ∧
    ∀ node, ∀ call ∈ w.callsAt node, call ∈ w'.callsAt node where
  refl := fun _ hw => ⟨hw, fun _ _ hcall => hcall⟩
  trans := fun _ _ _ h h' hw =>
    ⟨(h' (h hw).1).1, fun node call hcall => (h' (h hw).1).2 node call ((h hw).2 node call hcall)⟩
  diagnostics := fun _ _ hw => ⟨hw, fun _ _ hcall => hcall⟩
  noted := fun _ _ _ hw => ⟨hw.alter _ _, fun _ _ hcall => Walk.mem_callsAt_of_mem hw hcall⟩

/-- The calls that were noted between two states of the findings satisfy `L`. -/
def Adds (L : NodeId → Resolution → Prop) (w w' : Walk) : Prop :=
  ∀ node, ∀ call ∈ w'.callsAt node, call ∈ w.callsAt node ∨ L node call

namespace Adds

variable {L L' : NodeId → Resolution → Prop} {w w₁ w' : Walk}

theorem of_calls (h : w'.calls = w.calls) : Adds L w w' := by
  intro node call hcall
  rw [Walk.callsAt_eq h] at hcall
  exact Or.inl hcall

theorem of_found (h : ∀ node, w'.found node = w.found node) : Adds L w w' := by
  intro node call hcall
  rw [Walk.callsAt_congr (congrArg Prod.snd (h node))] at hcall
  exact Or.inl hcall

theorem trans (h : Adds L w w₁) (h' : Adds L w₁ w') : Adds L w w' := fun node call hcall =>
  (h' node call hcall).elim (h node call) Or.inr

theorem mono (h : Adds L w w') (hL : ∀ node call, L node call → L' node call) : Adds L' w w' :=
  fun node call hcall => (h node call hcall).imp_right (hL node call)

theorem noted (hw : w.calls.Ascending) {node : NodeId} {call : Resolution} (hL : L node call) :
    Adds L w (w.noted node call) := fun _ _ hk =>
  (Walk.mem_callsAt_noted hw hk).imp_right fun ⟨hnode, hcall⟩ => by rw [hnode, hcall]; exact hL

end Adds

theorem Frozen.adds_nothing {s : Engine} {w w' : Walk} {α : Type} {x : WalkM α} {a : α}
    {L : NodeId → Resolution → Prop} (h : Frozen s x w a w') (hx : NotesNoCall x) : Adds L w w' :=
  .of_calls (hx _ _ _ _ _ h.run)

theorem Frozen.callsAt_subset {s : Engine} {w w' : Walk} {α : Type} {x : WalkM α} {a : α}
    (h : Frozen s x w a w') (hx : Relates (fun w w' => w.calls.Ascending → w'.calls.Ascending ∧
      ∀ node, ∀ call ∈ w.callsAt node, call ∈ w'.callsAt node) x) {node : NodeId} :
    w.callsAt node ⊆ w'.callsAt node := fun call hcall =>
  (hx _ _ _ _ _ h.run h.start.callsAscending).2 node call hcall

/-! ### Ways of carrying out a call -/

/-- The class of the receiver finds the method, and without receiver the top level does. -/
def MethodEntry.FoundOn (env : Env) (entry : MethodEntry) : Option Ty → Prop
  | none => entry ∈ env.methods.topLevel entry.method.name
  | some r => ∃ id, env.classes.classOf r = some id ∧
      entry ∈ env.methods.lookup env.classes id entry.method.name

def Candidate.FoundOn (env : Env) (self : Option Ty) : Candidate → Prop
  | .method entry => entry.FoundOn env self
  | .primitive _ => True

def Env.native? (env : Env) (lib name : String) : Option NativeFunction :=
  ((env.libraries.lookup lib).bind env.libraries.get?).bind (·.find? name)

/-- There are as many types as parameters, and those that are passed by value can be used as
    the declared ones.  Only an `out` of a local can be without a type. -/
structure NativeFunction.Fits (h : Hierarchy) (f : NativeFunction) (args : List Expr)
    (types : List Ty) : Prop where
  length : types.length = f.params.length
  assignable : ∀ (i : Nat) (param : NativeParam) (ty : Ty), f.params[i]? = some param →
    types[i]? = some ty → param.mode = .byValue → (ty.Known ∧ h.assignable ty param.ty = true) ∨
      (ty = .unresolved ∧ ∃ m x, args[i]? = some (.out m (.local x)))

/-- How a call with the arguments `args` was carried out in the state `s`. -/
inductive Carried (env : Env) (s : Engine) (args : List Expr) (call : Resolution) : Prop where
  | method (entry : MethodEntry) (unit : UnitId) (key : Instantiation)
    (callee : call.callee = .method entry.id unit) (found : entry.FoundOn env call.receiver)
    (takes : entry.method.signature.takes call.args.length = true)
    (accepts : entry.method.signature.accepts env.hierarchy call.args = true)
    (proper : ∀ a ∈ call.args, Proper a) (unitKey : s.keyOf unit = some key)
    (same : ((⟨entry.id, call.receiver, call.args⟩ : Instantiation) == key) = true)
  | primitive (name : String) (callee : call.callee = .primitive name)
  | native (lib name : String) (f : NativeFunction) (callee : call.callee = .native lib name)
    (declared : env.native? lib name = some f) (fits : f.Fits env.hierarchy args call.args)
  | allocate (className : String) (callee : call.callee = .allocate className)
  | pointer (callee : call.callee = .pointer)

def CarriedAt (env : Env) (s : Engine) (node : NodeId) (args : List Expr) (other : NodeId)
    (call : Resolution) : Prop :=
  other = node ∧ Carried env s args call

namespace Methods

theorem name_of_mem_ownedBy {ms : Methods} {owner : Owner} {name : String} {entry : MethodEntry}
    (h : entry ∈ ms.ownedBy owner name) : entry.method.name = name := by
  have hkeep := (List.mem_filter.mp h).2
  exact eq_of_beq (Bool.and_eq_true_iff.mp hkeep).2

/-- A lookup finds methods of the name that was looked up. -/
theorem name_of_mem_lookup {ms : Methods} {classes : ClassTable} {id : ClassId} {name : String}
    {entry : MethodEntry} (h : entry ∈ ms.lookup classes id name) : entry.method.name = name := by
  obtain ⟨ancestor, _, howned⟩ := exists_ancestor_of_mem_lookup h
  exact name_of_mem_ownedBy howned

end Methods

theorem Candidate.foundOn_of_mem_topLevel {env : Env} {name : String} {k : Candidate}
    (h : k ∈ (env.methods.topLevel name).map .method) : k.FoundOn env none := by
  obtain ⟨entry, hentry, rfl⟩ := List.mem_map.mp h
  have hname : entry.method.name = name := Methods.name_of_mem_ownedBy hentry
  change entry ∈ env.methods.topLevel entry.method.name
  rw [hname]
  exact hentry

theorem Candidate.foundOn_of_mem_lookup {env : Env} {ty : Ty} {id : ClassId} {name : String}
    {k : Candidate} (hid : env.classes.classOf ty = some id)
    (h : k ∈ (env.methods.lookup env.classes id name).map .method) : k.FoundOn env (some ty) := by
  obtain ⟨entry, hentry, rfl⟩ := List.mem_map.mp h
  refine ⟨id, hid, ?_⟩
  rw [Methods.name_of_mem_lookup hentry]
  exact hentry

theorem Env.foundOn_of_mem_candidates {env : Env} {member : Ty} {name : String} {k : Candidate}
    (h : k ∈ env.candidates member name) : k.FoundOn env (some member) := by
  rcases mem_candidates h with ⟨id, hid, h⟩ | ⟨_, _, p, _, _, rfl⟩
  · exact Candidate.foundOn_of_mem_lookup hid h
  · trivial

namespace Frozen

variable {c : Checking} {s : Engine} {w w' : Walk}

/-- What is entered is noted. -/
theorem adds_enterAll (hrest : Rest c s) {L : NodeId → Resolution → Prop} {mark : Mark}
    {self : Option Ty} {name : String} {candidates : List Candidate}
    (hself : ∀ t, self = some t → t.Over Proper)
    (hcandidates : ∀ k ∈ candidates, k.Offered c.env (SameType Known))
    {result t : Ty} {found : List Overload.Match} (hfound : Fitting candidates found)
    (hresult : result.Over Proper)
    (hL : ∀ m ∈ found, ∀ k, candidates[m.candidate]? = some k → ∀ callee ret,
      k.EnteredAs s self m.args callee ret → L mark.id ⟨self, callee, m.args, ret⟩)
    (h : Frozen s (c.enterAll mark self name candidates result found) w t w') : Adds L w w' := by
  induction found generalizing w result with
  | nil =>
    obtain ⟨_, rfl⟩ := h.of_pure
    exact .of_calls rfl
  | cons m rest ih =>
    obtain ⟨⟨receiver, callee, args, ret⟩, w₁, hchoice, hret, ⟨k, hk, hentered⟩, hsame,
      hok, hrun⟩ :=
      h.of_enterAll_cons hrest hself hcandidates hfound hresult
    obtain ⟨rfl, rfl⟩ := Prod.mk.inj hchoice
    obtain ⟨hhead, htail⟩ := List.forall_mem_cons.mp hL
    have hknown := Known.union hresult hret.isOver (Or.inr hret)
    have hnoted := Adds.noted hok.callsAscending (hhead k hk callee ret hentered)
    refine (Adds.of_found hsame).trans (hnoted.trans ?_)
    exact ih (List.forall_mem_cons.mp hfound).2 hknown.isOver htail hrun

section

variable (hrest : Rest c s) {mark : Mark} {name : String} {args : List Ty} {exprs : List Expr}
  (hargs : ∀ a ∈ args, a.Known)
include hrest hargs

/-- A call among candidates is carried out with those that are found and accept the
    arguments. -/
theorem adds_callAmong {self : Option Ty} {candidates : List Candidate} {o : Option Ty}
    (hself : ∀ t, self = some t → t.Over Proper)
    (hcandidates : ∀ k ∈ candidates, k.Offered c.env (SameType Known))
    (hfoundOn : ∀ k ∈ candidates, k.FoundOn c.env self)
    (h : Frozen s (c.callAmong mark self name candidates args) w o w') :
    Adds (CarriedAt c.env s mark.id exprs) w w' := by
  obtain ⟨t, found, rfl, hr, h⟩ := h.of_callAmong hargs
  have hover : ∀ a ∈ args, a.Over Proper := fun a ha => (hargs a ha).isOver
  refine h.adds_enterAll hrest hself hcandidates (fitting_of_resolve hr hover) Over.unresolved
    fun m hm k hk callee ret hentered => ⟨rfl, ?_⟩
  obtain ⟨hchoice, signature, hget, htakes, haccepts⟩ := Overload.exists_signature_of_resolve hr hm
  rw [List.getElem?_map, hk] at hget
  cases hget
  cases k with
  | primitive p =>
    obtain ⟨⟨name, rfl⟩, _⟩ := hentered
    exact .primitive name rfl
  | method entry =>
    obtain ⟨unit, key, rfl, hkey, hsame, _⟩ := hentered
    refine .method entry unit key rfl (hfoundOn _ (List.mem_of_getElem? hk)) ?_ haccepts
      (fun a ha => ?_) hkey hsame
    · rw [Overload.length_of_mem_choices hchoice]
      exact htakes
    · obtain ⟨t, ht, hat⟩ := Overload.exists_members_of_mem_choices hchoice ha
      exact (hover t ht).all a hat

theorem adds_getD {self : Option Ty} {candidates : List Candidate} {t : Ty}
    (hself : ∀ t, self = some t → t.Over Proper)
    (hcandidates : ∀ k ∈ candidates, k.Offered c.env (SameType Known))
    (hfoundOn : ∀ k ∈ candidates, k.FoundOn c.env self)
    (h : Frozen s (do return (← c.callAmong mark self name candidates args).getD .unresolved)
      w t w') :
    Adds (CarriedAt c.env s mark.id exprs) w w' := by
  obtain ⟨o, rfl, hcall⟩ := h.of_map
  exact hcall.adds_callAmong hrest hargs hself hcandidates hfoundOn

theorem adds_callOnEach {result t : Ty} {receivers : List Ty} (hr : ∀ m ∈ receivers, Proper m)
    (hresult : result.Over Proper)
    (h : Frozen s (c.callOnEach mark name args result receivers) w t w') :
    Adds (CarriedAt c.env s mark.id exprs) w w' := by
  induction receivers generalizing w result with
  | nil =>
    obtain ⟨_, rfl⟩ := h.of_pure
    exact .of_calls rfl
  | cons r rest ih =>
    obtain ⟨ty, w₁, hty, hone, hrun⟩ := h.of_callOnEach_cons hrest hargs hr hresult
    obtain ⟨hhead, htail⟩ := List.forall_mem_cons.mp hr
    have hself : ∀ t, some r = some t → t.Over Proper := by
      rintro t ⟨⟩
      exact hhead.isOver
    refine (hone.adds_callAmong hrest hargs hself (hhead.isOver.offered name)
      fun _ => Env.foundOn_of_mem_candidates).trans ?_
    exact ih htail (Known.union hresult hty.isOver (Or.inr hty)).isOver hrun

theorem adds_callOn {receiver t : Ty} (hreceiver : receiver.Known)
    (h : Frozen s (c.callOn mark receiver name args) w t w') :
    Adds (CarriedAt c.env s mark.id exprs) w w' :=
  h.adds_callOnEach hrest hargs hreceiver.isOver.all Over.unresolved

theorem adds_callTopLevel {bare : Bool} {t : Ty}
    (h : Frozen s (c.callTopLevel mark name args bare) w t w') :
    Adds (CarriedAt c.env s mark.id exprs) w w' := by
  obtain ⟨_, hcall⟩ := h.of_callTopLevel
  have hself : ∀ t, (none : Option Ty) = some t → t.Over Proper := fun _ ht => nomatch ht
  exact hcall.adds_getD hrest hargs hself (fun _ => Candidate.offered_of_mem_topLevel)
    fun _ => Candidate.foundOn_of_mem_topLevel

theorem adds_callOnSelf {bare : Bool} {t : Ty}
    (h : Frozen s (c.callOnSelf mark name args bare) w t w') :
    Adds (CarriedAt c.env s mark.id exprs) w w' := by
  rcases h.of_callOnSelf with ⟨self, hself, _, hcall⟩ | ⟨_, hcall⟩
  · have hover := hrest.self self hself
    exact hcall.adds_getD hrest hargs (fun _ ht => Option.some.inj ht ▸ hover) (hover.offered name)
      fun _ => Env.foundOn_of_mem_candidates
  · exact hcall.adds_callTopLevel hrest hargs

theorem adds_callNew {ref : TypeRef} {ty t : Ty} (hty : c.env.classes.typeOf ref = .ok ty)
    (h : Frozen s (c.callNew mark ty args) w t w') :
    Adds (CarriedAt c.env s mark.id exprs) w w' := by
  obtain ⟨_, id, w₁, hid, hok, rfl, hinitialized⟩ :=
    h.of_callNew hrest (fun a ha => (hargs a ha).isOver) hty
  refine Adds.trans ?_ (.noted hok.callsAscending ⟨rfl, .allocate _ rfl⟩)
  rcases hinitialized with ⟨_, _, rfl⟩ | ⟨_, _, hcall⟩
  · exact .of_calls rfl
  · have hover : ty.Over Proper := (c.env.classes.plain_typeOf ref hty).proper.isOver
    exact hcall.adds_callAmong hrest hargs (fun t ht => Option.some.inj ht ▸ hover)
      (fun _ => Candidate.offered_of_mem_lookup) fun _ => Candidate.foundOn_of_mem_lookup hid

theorem adds_callMalloc {ref : TypeRef} {ty t : Ty} (hty : c.env.classes.typeOf ref = .ok ty)
    (h : Frozen s (c.callMalloc mark ty args) w t w') :
    Adds (CarriedAt c.env s mark.id exprs) w w' := by
  have hproper : Proper ty := (c.env.classes.plain_typeOf ref hty).proper
  obtain ⟨className, params, p, rfl, hp, hcall⟩ := h.of_callMalloc hproper.isCon
  refine hcall.adds_getD hrest hargs (fun _ ht => Option.some.inj ht ▸ hproper.isOver)
    (Candidate.offered_of_malloc hproper hp) fun k hk => ?_
  rw [List.mem_singleton.mp hk]
  trivial

theorem adds_callOnClass {className : String} {ref : TypeRef} {ty t : Ty}
    (hty : c.env.classes.typeOf ref = .ok ty)
    (h : Frozen s (c.callOnClass mark className ty name args) w t w') :
    Adds (CarriedAt c.env s mark.id exprs) w w' := by
  rcases h.of_callOnClass with ⟨_, hcall⟩ | ⟨_, _, hcall⟩
  · exact hcall.adds_callNew hrest hargs hty
  · exact hcall.adds_callMalloc hrest hargs hty

end

/-! ### Addresses and native calls -/

theorem adds_takePointer {mark : Mark} {receiver : Expr} {given : Nat} {hasBlock : Bool} {t : Ty}
    {exprs : List Expr} (hrest : Rest c s)
    (h : Frozen s (c.takePointer mark receiver given hasBlock) w t w') :
    Adds (CarriedAt c.env s mark.id exprs) w w' := by
  obtain ⟨_, _, _, _, _, _, _, hcalls, hok, rfl⟩ := h.of_takePointer hrest
  exact (Adds.of_calls hcalls).trans (.noted hok.callsAscending ⟨rfl, .pointer rfl⟩)

end Frozen

/-! ### Native calls -/

/-- Only an `out` of a local is without a type. -/
def GivenFor (args : List Expr) (given : List NativeArg) : Prop :=
  List.Forall₂ (fun arg g => g.ty.Over Proper ∧
    (g.ty.isUnresolved = true → ∃ m x, arg = .out m (.local x))) args given

namespace NativeFunction

/-- A native call without a problem has fitting arguments. -/
theorem fits_of_check {h : Hierarchy} {lib : String} {f : NativeFunction} {args : List Expr}
    {given : List NativeArg} {verdict : NativeVerdict} (hr : f.check h lib given = .ok verdict)
    (hgiven : GivenFor args given) : f.Fits h args (given.map NativeArg.ty) := by
  have hlen := length_of_check hr
  refine ⟨by rw [List.length_map, hlen], fun i param ty hparam hty hmode => ?_⟩
  rw [List.getElem?_map] at hty
  obtain ⟨g, hg, rfl⟩ := Option.map_eq_some_iff.mp hty
  have hpair : (param, g) ∈ f.params.zip given := by
    refine List.mem_of_getElem? (i := i) ?_
    rw [List.getElem?_zip_eq_some]
    exact ⟨hparam, hg⟩
  have hfits := ((check_eq_ok_iff hlen).mp hr).1 _ hpair
  obtain ⟨hargsLen, hall⟩ := List.forall₂_iff_get.mp hgiven
  obtain ⟨hi, rfl⟩ := List.getElem?_eq_some_iff.mp hg
  have hi' : i < args.length := by rw [hargsLen]; exact hi
  obtain ⟨hover, hout⟩ := hall i hi' hi
  cases hu : given[i].ty.isUnresolved with
  | true =>
    obtain ⟨m, x, harg⟩ := hout hu
    exact Or.inr ⟨hover.eq_unresolved (hover.isUnresolved_iff.mp hu), m, x,
      List.getElem?_eq_some_iff.mpr ⟨hi', harg⟩⟩
  | false =>
    rw [misfits_byValue_iff hmode hu, Bool.not_eq_false] at hfits
    exact Or.inl ⟨hover.known hu, hfits⟩

end NativeFunction

namespace Frozen

variable {c : Checking} {s : Engine} {w w' : Walk}

theorem adds_callNative {mark : Mark} {lib : String} {f : NativeFunction} {args : List Expr}
    {given : List NativeArg} {t : Ty} (hdeclared : c.env.native? lib f.name = some f)
    (hgiven : GivenFor args given) (h : Frozen s (c.callNative mark lib f args given) w t w') :
    Adds (CarriedAt c.env s mark.id args) w w' := by
  obtain ⟨verdict, w₁, hcheck, _, houts, rfl⟩ := h.of_callNative
  have hcalls := houts.keeps (p := Walk.calls) (NotesNoCall.assignOuts _)
  refine (Adds.of_calls hcalls).trans (.noted ?_ ⟨rfl, .native lib f.name f rfl hdeclared ?_⟩)
  · rw [hcalls]
    exact h.start.callsAscending
  · exact NativeFunction.fits_of_check hcheck hgiven

end Frozen

/-- The functions of a library in front of the dot are those of the library of that name. -/
theorem Env.native?_of_receiverKind {env : Env} {receiver : Expr} {library : Library}
    {name : String}
    {f : NativeFunction} (hkind : env.receiverKind receiver = .ofLibrary library)
    (hf : library.find? name = some f) :
    f.name = name ∧ env.native? library.name f.name = some f := by
  have hname : f.name = name := by
    unfold Library.find? at hf
    have hsame := List.find?_some hf
    exact eq_of_beq hsame
  refine ⟨hname, ?_⟩
  cases receiver with
  | path m ref =>
    unfold receiverKind at hkind
    simp only at hkind
    split at hkind
    · cases hkind
    · split at hkind
      · rename_i library' hlibrary
        cases hkind
        obtain ⟨id, hid, hget⟩ := Option.bind_eq_some_iff.mp hlibrary
        have hlibraryName : library.name = ref.name := by
          obtain ⟨hlt, hsame, _⟩ := List.findIdx?_eq_some_iff_getElem.mp hid
          have hat : env.libraries.libraries[id] = library := by
            rw [LibraryTable.get?, List.getElem?_eq_getElem hlt] at hget
            exact Option.some.inj hget
          rw [hat] at hsame
          exact eq_of_beq hsame
        rw [native?, hlibraryName, hlibrary, hname]
        exact hf
      · cases hkind
  | _ => cases hkind

end UnionTyping
