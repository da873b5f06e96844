/-
  UnionTyping/Proofs/Inference/Universe.lean
  ==========================================
  **All that can come up in the runs of one program.**

  The names, blocks and written types of a program are those of its nodes, and its
  types are made from a finite list of instances (`Env.seeds`).  So there are
  finitely many slots for each unit, and up to a depth of types finitely many
  instances of methods and members of variables.  A run can only get larger and
  larger by nesting types deeper and deeper (`exists_size_le`).
-/
import UnionTyping.Proofs.Classes
import UnionTyping.Proofs.Inference.Limit
import UnionTyping.Proofs.Ty.Depth

namespace UnionTyping

open Ty (Over Made)

/-! ### Parts of plain types -/

namespace Ty

mutual

/-- The arguments of a part of a type are parts of it. -/
theorem arg_of_parts (t : Ty) {name : String} {args : List Ty} {a : Ty}
    (h : con name args ∈ t.parts) (ha : a ∈ args) : a.parts ⊆ t.parts := by
  match t with
  | unresolved => cases h
  | con name' args' =>
    rw [parts] at h ⊢
    rcases List.mem_cons.mp h with heq | h
    · cases heq
      exact List.subset_cons_of_subset _ (parts_subset_partsOf ha)
    · exact List.subset_cons_of_subset _ (arg_of_partsOf args' h ha)
  | oneOf ms =>
    rw [parts] at h ⊢
    exact arg_of_partsOf ms h ha
termination_by structural t

theorem arg_of_partsOf (ts : List Ty) {name : String} {args : List Ty} {a : Ty}
    (h : con name args ∈ partsOf ts) (ha : a ∈ args) : a.parts ⊆ partsOf ts := by
  match ts with
  | [] => cases h
  | t :: ts =>
    rw [partsOf] at h ⊢
    rcases List.mem_append.mp h with h | h
    · exact List.subset_append_of_subset_left _ (arg_of_parts t h ha)
    · exact List.subset_append_of_subset_right _ (arg_of_partsOf ts h ha)
termination_by structural ts

end

theorem Plain.mem_parts {m : Ty} (h : Plain m) : m ∈ m.parts := by
  obtain ⟨name, args, rfl⟩ := h.isCon
  rw [parts]
  exact List.mem_cons_self

mutual

theorem plain_of_parts (t : Ty) (ht : ∀ m ∈ t.members, Plain m) : ∀ m ∈ t.parts, Plain m := by
  match t with
  | unresolved => exact fun m hm => nomatch hm
  | con name args =>
    have hplain : Plain (con name args) := ht _ List.mem_cons_self
    rw [parts]
    exact List.forall_mem_cons.mpr ⟨hplain, plain_of_partsOf args hplain.arg⟩
  | oneOf ms =>
    rw [parts]
    exact plain_of_partsOf ms ht
termination_by structural t

theorem plain_of_partsOf (ts : List Ty) (hts : ∀ t ∈ ts, Plain t) : ∀ m ∈ partsOf ts, Plain m := by
  match ts with
  | [] => exact fun m hm => nomatch hm
  | t :: ts =>
    obtain ⟨ht, hts⟩ := List.forall_mem_cons.mp hts
    have htm : ∀ m ∈ t.members, Plain m := by
      rw [ht.isCon.members_eq]
      exact fun m hm => List.mem_singleton.mp hm ▸ ht
    rw [partsOf]
    intro m hm
    rcases List.mem_append.mp hm with hm | hm
    · exact plain_of_parts t htm m hm
    · exact plain_of_partsOf ts hts m hm
termination_by structural ts

end

end Ty

/-! ### What a program is written with -/

def Expr.ownNames : Expr → List String
  | ivar _ name => [name]
  | assign _ target _ | opAssign _ target _ _ | out _ target => [target.name]
  | call _ _ _ _ (some (.mk params _)) _ => params
  | _ => []

/-- The type that a constant is written with and, if it is that of a pointer, the type
    of what it allocates. -/
def ClassTable.pathTypes (t : ClassTable) : Expr → List Ty
  | .path _ ref =>
    match t.typeOf ref with
    | .ok (.con name (element :: args)) => [.con name (element :: args), .pointer element]
    | .ok ty => [ty]
    | .error _ => []
  | _ => []

namespace Env

def nodes (env : Env) : List Expr :=
  Expr.nodesOf env.topLevel ++ env.methods.declared.flatMap fun m => Expr.nodesOf m.definition.exprs

def names (env : Env) : List String :=
  (env.methods.declared.flatMap fun m => m.definition.params.map Param.name) ++
    env.nodes.flatMap Expr.ownNames

def ownTypes (env : Env) : List Ty :=
  [.int, .double, .char, .bool, .nil, .string, .classObject] ++
    env.nodes.flatMap env.classes.pathTypes ++
    env.libraries.libraries.flatMap fun library =>
      library.functions.flatMap fun f => f.ret :: f.params.map NativeParam.ty

def seeds (env : Env) : List Ty := Ty.partsOf env.ownTypes

def vocabulary (env : Env) : Vocabulary where
  ids := fun _ => True
  names := fun name => name ∈ env.names
  blocks := fun id => id ∈ env.nodes.map Expr.id
  refs := fun ref => ∃ m, .path m ref ∈ env.nodes
  pointers := ∃ n ∈ env.nodes, n.takesAddress = true

/-- The instances that types of the program can have as members. -/
abbrev Made (env : Env) : Ty → Prop := Ty.Made env.seeds env.vocabulary.pointers

variable {env : Env}

theorem admits_of_mem_nodes {n : Expr} (h : n ∈ env.nodes) : env.vocabulary.admits n := by
  refine ⟨trivial, ?_⟩
  have hname : ∀ name ∈ n.ownNames, name ∈ env.names := fun name hn =>
    List.mem_append_right _ (List.mem_flatMap.mpr ⟨n, h, hn⟩)
  cases n with
  | ivar m name => exact hname name List.mem_cons_self
  | assign m target value => exact hname target.name List.mem_cons_self
  | opAssign m target op value => exact hname target.name List.mem_cons_self
  | out m target => exact hname target.name List.mem_cons_self
  | path m ref => exact ⟨m, h⟩
  | call m receiver name args block parens =>
    constructor
    · rintro hsome rfl
      exact ⟨_, h, by simp [Expr.takesAddress, hsome]⟩
    · rintro params body rfl
      exact ⟨List.mem_map_of_mem h, fun p hp => hname p hp⟩
  | _ => trivial

theorem speaks_vocabulary (env : Env) (key : Option Instantiation) :
    env.vocabulary.speaksUnit env key := by
  cases key with
  | none => exact fun n hn => admits_of_mem_nodes (List.mem_append_left _ hn)
  | some key =>
    intro m hm
    have hmem : m ∈ env.methods.declared := List.mem_of_getElem? hm
    constructor
    · intro p hp
      exact List.mem_append_left _
        (List.mem_flatMap.mpr ⟨m, hmem, List.mem_map_of_mem hp⟩)
    · intro n hn
      exact admits_of_mem_nodes (List.mem_append_right _ (List.mem_flatMap.mpr ⟨m, hmem, hn⟩))

theorem plain_ownTypes (hlibraries : env.libraries.Plain) : ∀ t ∈ env.ownTypes, t.Plain := by
  intro t ht
  rcases List.mem_append.mp ht with ht | ht
  · rcases List.mem_append.mp ht with ht | ht
    · simp only [List.mem_cons, List.not_mem_nil, or_false] at ht
      rcases ht with rfl | rfl | rfl | rfl | rfl | rfl | rfl <;> exact Ty.plain_atom _
    · obtain ⟨n, _, hn⟩ := List.mem_flatMap.mp ht
      unfold ClassTable.pathTypes at hn
      split at hn
      · split at hn
        · rename_i hty
          have hplain := env.classes.plain_typeOf _ hty
          rcases List.mem_cons.mp hn with rfl | hn
          · exact hplain
          · rw [List.mem_singleton.mp hn]
            refine .con _ _ fun a ha => ?_
            rw [List.mem_singleton.mp ha]
            exact hplain.arg _ List.mem_cons_self
        · rename_i hty
          rw [List.mem_singleton.mp hn]
          exact env.classes.plain_typeOf _ hty
        · cases hn
      · cases hn
  · obtain ⟨library, hl, ht⟩ := List.mem_flatMap.mp ht
    obtain ⟨f, hf, ht⟩ := List.mem_flatMap.mp ht
    obtain ⟨hparams, hret⟩ := hlibraries library hl f hf
    rcases List.mem_cons.mp ht with rfl | ht
    · exact hret
    · obtain ⟨p, hp, rfl⟩ := List.mem_map.mp ht
      exact hparams p hp

theorem seed_of_ownType (hlibraries : env.libraries.Plain) {t : Ty} (h : t ∈ env.ownTypes) :
    env.Made t :=
  .seed (Ty.parts_subset_partsOf h (plain_ownTypes hlibraries t h).mem_parts)

theorem plain_seeds (hlibraries : env.libraries.Plain) : ∀ m ∈ env.seeds, m.Plain :=
  Ty.plain_of_partsOf env.ownTypes (plain_ownTypes hlibraries)

/-- What a program makes is closed under all that it does. -/
theorem closed_made (hlibraries : env.libraries.Plain) : env.Closed env.vocabulary env.Made where
  con := fun m hm => hm.isCon fun m hm => (plain_seeds hlibraries m hm).isCon
  literal := by
    intro l
    apply seed_of_ownType hlibraries
    apply List.mem_append_left
    apply List.mem_append_left
    cases l <;> simp [Literal.ty]
  classObject := by
    apply seed_of_ownType hlibraries
    apply List.mem_append_left
    apply List.mem_append_left
    simp
  written := by
    intro ref ty href hty
    obtain ⟨m, hm⟩ := href
    apply seed_of_ownType hlibraries
    refine List.mem_append_left _ (List.mem_append_right _ (List.mem_flatMap.mpr ⟨_, hm, ?_⟩))
    simp only [ClassTable.pathTypes, hty]
    split
    · rename_i heq
      cases heq
      exact List.mem_cons_self
    · rename_i heq
      cases heq
      exact List.mem_singleton_self _
    · rename_i heq
      cases heq
  allocated := by
    intro ref name element args href hty
    obtain ⟨m, hm⟩ := href
    apply seed_of_ownType hlibraries
    refine List.mem_append_left _ (List.mem_append_right _ (List.mem_flatMap.mpr ⟨_, hm, ?_⟩))
    simp only [ClassTable.pathTypes, hty]
    exact List.mem_cons_of_mem _ List.mem_cons_self
  nativeParam := by
    intro library hl f hf p hp
    apply seed_of_ownType hlibraries
    refine List.mem_append_right _ (List.mem_flatMap.mpr ⟨library, hl, ?_⟩)
    exact List.mem_flatMap.mpr ⟨f, hf, List.mem_cons_of_mem _ (List.mem_map_of_mem hp)⟩
  nativeRet := by
    intro library hl f hf
    apply seed_of_ownType hlibraries
    refine List.mem_append_right _ (List.mem_flatMap.mpr ⟨library, hl, ?_⟩)
    exact List.mem_flatMap.mpr ⟨f, hf, List.mem_cons_self⟩
  arg := by
    intro name element args h
    generalize hm : Ty.con name (element :: args) = m at h
    cases h with
    | seed hseed =>
      subst hm
      have hplain := (plain_seeds hlibraries _ hseed).arg element List.mem_cons_self
      exact .of_isCon hplain.isCon
        (.seed (Ty.arg_of_partsOf _ hseed List.mem_cons_self hplain.mem_parts))
    | pointer _ t shape distinct members =>
      cases hm
      exact ⟨shape, distinct, members⟩
  pointer := fun hv ht _ => .pointer hv _ ht.shape ht.distinct ht.all

theorem keepsTo_made (hlibraries : env.libraries.Plain) :
    env.KeepsTo env.Made env.vocabulary where
  con := (closed_made hlibraries).con
  domain := (closed_made hlibraries).domain
  speaks := env.speaks_vocabulary

end Env

/-! ### How large a state can be -/

def Instantiation.types (key : Instantiation) : List Ty := key.self.toList ++ key.args

def Engine.types (e : Engine) : List Ty :=
  e.store.bindings.map Binding.current ++
    e.keys.flatMap fun key => key.toList.flatMap Instantiation.types

section

variable {env : Env}

/-- There are finitely many slots for a number of units. -/
theorem finite_slots (env : Env) (n : Nat) :
    {slot : Slot | slot.Fits env env.vocabulary n}.Finite := by
  have hunits : {unit : UnitId | unit < n}.Finite := Set.finite_lt_nat n
  have hnames : {name | name ∈ env.names}.Finite := List.finite_toSet _
  have hscopes : {scope | scope ∈ Scope.body :: (env.nodes.map Expr.id).map Scope.block}.Finite :=
    List.finite_toSet _
  have howners : {owner : ClassId | owner < env.classes.classes.length}.Finite :=
    Set.finite_lt_nat _
  have hlocals := (hunits.prod (hscopes.prod hnames)).image fun p => Slot.local p.1 p.2.1 p.2.2
  have hivars := (howners.prod hnames).image fun p => Slot.ivar p.1 p.2
  have hreturned := hunits.image Slot.returned
  refine ((hlocals.union hivars).union hreturned).subset fun slot hslot => ?_
  cases slot with
  | «local» unit scope name =>
    obtain ⟨hunit, hname, hblock⟩ := hslot
    refine Or.inl (Or.inl ⟨(unit, scope, name), ⟨hunit, ?_, hname⟩, rfl⟩)
    cases scope with
    | body => exact List.mem_cons_self
    | block call => exact List.mem_cons_of_mem _ (List.mem_map_of_mem (hblock call rfl))
  | ivar owner name =>
    obtain ⟨⟨self, hclass⟩, hname⟩ := hslot
    obtain ⟨_, _, hlookup⟩ := Option.bind_eq_some_iff.mp hclass
    exact Or.inl (Or.inr ⟨(owner, name), ⟨ClassTable.lookup_lt hlookup, hname⟩, rfl⟩)
  | returned unit => exact Or.inr ⟨unit, hslot, rfl⟩

/-- For finitely many types there are finitely many instances of methods. -/
theorem finite_keys (env : Env) {T : Ty → Prop} (hT : {t | T t}.Finite) :
    {key : Instantiation | key.Ok env T}.Finite := by
  have hself : {self : Option Ty | ∀ s, self = some s → T s}.Finite := by
    refine ((Set.finite_singleton none).union (hT.image some)).subset fun self h => ?_
    cases self with
    | none => exact Or.inl rfl
    | some s => exact Or.inr ⟨s, h s rfl, rfl⟩
  have hentries : {entry | entry ∈ env.methods.live}.Finite := by
    classical exact List.finite_toSet _
  refine (hentries.biUnion (t := fun entry => (fun p : Option Ty × List Ty =>
      Instantiation.mk entry.id p.1 p.2) '' ({self | ∀ s, self = some s → T s} ×ˢ
        {args | args.length ≤ entry.method.signature.params.length ∧ ∀ a ∈ args, T a}))
    fun entry _ => (hself.prod (Ty.finite_lists hT _)).image _).subset fun key hkey => ?_
  obtain ⟨entry, hentry, hid, htakes⟩ := hkey.method
  have hcount : key.args.length ≤ entry.method.signature.params.length :=
    of_decide_eq_true (Bool.and_eq_true_iff.mp htakes).2
  refine Set.mem_biUnion hentry ⟨(key.self, key.args), ⟨hkey.self, hcount, hkey.args⟩, ?_⟩
  rw [hid]

/-- The members of all bindings, when none has more than `k`. -/
theorem Store.weight_le {s : Store} {k : Nat}
    (h : ∀ b ∈ s.bindings, b.current.members.length ≤ k) : s.weight ≤ s.bindings.length * k := by
  have hle := List.sum_le_card_nsmul (s.bindings.map fun b => b.current.members.length) k
    fun n hn => by
      obtain ⟨b, hb, rfl⟩ := List.mem_map.mp hn
      exact h b hb
  rw [List.length_map] at hle
  exact hle

/-- States whose types nest up to a depth stay below a size. -/
theorem exists_size_le (env : Env) (d : Nat) : ∃ bound, ∀ e : Engine,
    e.Ok env env.Made env.vocabulary → (∀ t ∈ e.types, t.depth ≤ d) → e.size ≤ bound := by
  have hmade := Ty.finite_made env.seeds env.vocabulary.pointers d
  have htypes : {t : Ty | t.Over env.Made ∧ t.depth ≤ d}.Finite :=
    (Ty.finite_over hmade).subset fun t ⟨hover, hdepth⟩ =>
      ⟨hover.shape, hover.distinct, fun m hm => ⟨hover.all m hm, Ty.depth_le_iff.mp hdepth m hm⟩⟩
  have hkeys := finite_keys env htypes
  have hunits := (Set.finite_singleton none).union (hkeys.image some)
  obtain ⟨width, hwidth⟩ := Ty.exists_length_le hmade
  obtain ⟨units, hunits⟩ := Ty.exists_length_le hunits
  obtain ⟨slots, hslots⟩ := Ty.exists_length_le (finite_slots env units)
  refine ⟨units + slots * width, fun e hok hdepth => ?_⟩
  have hbinding : ∀ b ∈ e.store.bindings, b.current.depth ≤ d := fun b hb =>
    hdepth _ (List.mem_append_left _ (List.mem_map_of_mem hb))
  have hkey : ∀ key, some key ∈ e.keys → ∀ t ∈ key.types, t.depth ≤ d := fun key hk t ht =>
    hdepth _ (List.mem_append_right _ (List.mem_flatMap.mpr ⟨some key, hk,
      List.mem_flatMap.mpr ⟨key, List.mem_singleton_self _, ht⟩⟩))
  have hlength : e.units.length ≤ units := by
    rw [← Engine.length_keys]
    refine hunits e.keys hok.nodup fun key hk => ?_
    cases key with
    | none => exact Or.inl rfl
    | some key =>
      have hkeyOk := hok.keys key hk
      refine Or.inr ⟨key, ⟨hkeyOk.method, fun s hs => ⟨hkeyOk.self s hs, ?_⟩,
        fun a ha => ⟨hkeyOk.args a ha, ?_⟩⟩, rfl⟩
      · exact hkey key hk s (List.mem_append_left _ (by rw [hs]; exact List.mem_singleton_self _))
      · exact hkey key hk a (List.mem_append_right _ ha)
  have hstore : e.store.bindings.length ≤ slots := by
    rw [← List.length_map (f := Binding.slot)]
    refine hslots _ hok.store.slots fun slot hslot => ?_
    obtain ⟨b, hb, rfl⟩ := List.mem_map.mp hslot
    exact (hok.store.bindings b hb).slot.mono hlength
  have hweight : e.store.weight ≤ e.store.bindings.length * width := by
    refine Store.weight_le fun b hb => ?_
    have hover := (hok.store.bindings b hb).isOver
    exact hwidth _ hover.distinct.nodup fun m hm =>
      ⟨hover.all m hm, Ty.depth_le_iff.mp (hbinding b hb) m hm⟩
  exact Nat.add_le_add hlength (Nat.le_trans hweight (Nat.mul_le_mul_right _ hstore))

end

end UnionTyping
