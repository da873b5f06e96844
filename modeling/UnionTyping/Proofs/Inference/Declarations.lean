/-
  UnionTyping/Proofs/Inference/Declarations.lean
  ==============================================
  **The types that a program writes.**

  No union stands anywhere in a written type.  The types of native functions are
  written ones or nil.  Hence every environment of a program keeps to proper
  types (`Env.keepsTo_proper`).  The settings of a run play no part in its
  declarations.
-/
import UnionTyping.Proofs.Inference.Stability
import UnionTyping.Proofs.ReferencedTypes
import UnionTyping.Proofs.Syntax.Numbering

namespace UnionTyping

/-- A result that is there, as it is found by evaluation. -/
theorem exists_of_toBool {ε α : Type} {x : Except ε α} (h : x.toBool = true) : ∃ a, x = .ok a := by
  cases x with
  | error err => cases h
  | ok a => exact ⟨a, rfl⟩

theorem exists_of_bind_eq_ok {ε α β : Type} {x : Except ε α} {f : α → Except ε β} {b : β}
    (h : (x >>= f) = .ok b) : ∃ a, x = .ok a ∧ f a = .ok b := by
  cases x with
  | error err => cases h
  | ok a => exact ⟨a, rfl, h⟩

/-- What is mapped goes with its image. -/
theorem forall₂_of_mapM_eq_ok {ε α β : Type} {f : α → Except ε β} {as : List α} {bs : List β}
    (h : as.mapM f = .ok bs) : List.Forall₂ (fun a b => f a = .ok b) as bs := by
  induction as generalizing bs with
  | nil =>
    cases h
    exact .nil
  | cons a as ih =>
    rw [List.mapM_cons] at h
    obtain ⟨b, hb, h⟩ := exists_of_bind_eq_ok h
    obtain ⟨bs₀, hbs₀, h⟩ := exists_of_bind_eq_ok h
    cases h
    exact .cons hb (ih hbs₀)

theorem mem_of_mapM_eq_ok {ε α β : Type} {f : α → Except ε β} {as : List α} {bs : List β}
    (h : as.mapM f = .ok bs) : ∀ b ∈ bs, ∃ a ∈ as, f a = .ok b := by
  intro b hb
  obtain ⟨i, hi, rfl⟩ := List.getElem_of_mem hb
  have hall := List.forall₂_iff_get.mp (forall₂_of_mapM_eq_ok h)
  exact ⟨_, List.get_mem as ⟨i, hall.1 ▸ hi⟩, hall.2 i (hall.1 ▸ hi) hi⟩

/-- What every step of a fold keeps is kept by the fold. -/
theorem foldlM_keeps {ε α β : Type} {P : β → Prop} {f : β → α → Except ε β} {as : List α} {b b' : β}
    (hf : ∀ b, ∀ a ∈ as, ∀ b', P b → f b a = .ok b' → P b') (hb : P b)
    (h : as.foldlM f b = .ok b') : P b' := by
  induction as generalizing b with
  | nil =>
    cases h
    exact hb
  | cons a as ih =>
    rw [List.foldlM_cons] at h
    obtain ⟨b₁, hb₁, h⟩ := exists_of_bind_eq_ok h
    exact ih (fun b x hx => hf b x (List.mem_cons_of_mem _ hx))
      (hf b a List.mem_cons_self b₁ hb hb₁) h

/-! ### Written types -/

theorem Literal.plain (l : Literal) : l.ty.Plain := by
  cases l <;> exact Ty.plain_atom _

def LibraryTable.All (P : NativeFunction → Prop) (t : LibraryTable) : Prop :=
  ∀ library ∈ t.libraries, ∀ f ∈ library.functions, P f

def LibraryTable.Plain (t : LibraryTable) : Prop :=
  ∀ library ∈ t.libraries, ∀ f ∈ library.functions, (∀ p ∈ f.params, p.ty.Plain) ∧ f.ret.Plain

namespace Env

/-- The types of a native function are those written in its declaration; without a result
    it returns nil. -/
theorem written_nativeFunction {classes : ClassTable} {decl : FunctionDecl} {f : NativeFunction}
    (h : nativeFunction classes decl = .ok f) :
    (∀ p ∈ f.params, ∃ q ∈ decl.params, classes.typeOf q.ty = .ok p.ty) ∧
      (f.ret = .nil ∨ ∃ ref ∈ decl.ret, classes.typeOf ref = .ok f.ret) := by
  obtain ⟨params, hparams, h⟩ := exists_of_bind_eq_ok h
  obtain ⟨ret, hret, h⟩ := exists_of_bind_eq_ok h
  cases h
  constructor
  · intro p hp
    obtain ⟨q, hq, hone⟩ := mem_of_mapM_eq_ok hparams p hp
    obtain ⟨ty, hty, hone⟩ := exists_of_bind_eq_ok hone
    cases hone
    exact ⟨q, hq, hty⟩
  · cases hdecl : decl.ret with
    | none =>
      rw [hdecl] at hret
      cases hret
      exact Or.inl rfl
    | some ref =>
      rw [hdecl] at hret
      obtain ⟨ty, hty, hret⟩ := exists_of_bind_eq_ok hret
      cases hret
      exact Or.inr ⟨ref, rfl, hty⟩

theorem plain_nativeFunction {classes : ClassTable} {decl : FunctionDecl} {f : NativeFunction}
    (h : nativeFunction classes decl = .ok f) : (∀ p ∈ f.params, p.ty.Plain) ∧ f.ret.Plain := by
  obtain ⟨hparams, hret⟩ := written_nativeFunction h
  constructor
  · intro p hp
    obtain ⟨q, _, hty⟩ := hparams p hp
    exact classes.plain_typeOf _ hty
  · rcases hret with hnil | ⟨ref, _, hty⟩
    · rw [hnil]
      exact Literal.plain .nil
    · exact classes.plain_typeOf _ hty

theorem forall_declare {P : NativeFunction → Prop} {t : LibraryTable} (h : t.All P)
    (name : String) : (t.declare name).2.All P := by
  unfold LibraryTable.declare
  split
  · exact h
  · intro library hmem
    rcases List.mem_append.mp hmem with hmem | hmem
    · exact h library hmem
    · rw [List.mem_singleton.mp hmem]
      exact fun _ hf => nomatch hf

theorem forall_addFunction {P : NativeFunction → Prop} {t : LibraryTable} (h : t.All P)
    (id : LibraryId) {f : NativeFunction} (hf : P f) : (t.addFunction id f).All P := by
  refine Store.forall_mem_modify h fun library hlibrary g hg => ?_
  rcases List.mem_append.mp hg with hg | hg
  · exact h library (List.mem_of_getElem? hlibrary) g (List.mem_filter.mp hg).1
  · rw [List.mem_singleton.mp hg]
    exact hf

/-- What holds of each native function as it is declared holds of all in the table. -/
theorem forall_declareMembers {P : NativeFunction → Prop} {classes : ClassTable}
    {items : List Item} {methods methods' : Methods} {t t' : LibraryTable}
    (hP : ∀ decl, .library decl ∈ items → ∀ f ∈ decl.functions, ∀ g,
      nativeFunction classes f = .ok g → P g)
    (h : t.All P) (ht : declareMembers classes methods t items = .ok (methods', t')) :
    t'.All P := by
  induction items generalizing methods t with
  | nil =>
    cases ht
    exact h
  | cons item rest ih =>
    obtain ⟨⟨methods₁, t₁⟩, hitem, ht⟩ := exists_of_bind_eq_ok ht
    refine ih (fun decl hdecl => hP decl (List.mem_cons_of_mem _ hdecl)) ?_ ht
    cases item with
    | method d =>
      obtain ⟨_, _, hitem⟩ := exists_of_bind_eq_ok hitem
      cases hitem
      exact h
    | classDecl decl =>
      rw [declareItem] at hitem
      split at hitem
      · cases hitem
        exact h
      · obtain ⟨_, _, hitem⟩ := exists_of_bind_eq_ok hitem
        cases hitem
        exact h
    | library decl =>
      obtain ⟨_, hlibrary, hitem⟩ := exists_of_bind_eq_ok hitem
      cases hitem
      refine foldlM_keeps (fun t f hf t' hall hstep => ?_) (forall_declare h decl.name) hlibrary
      obtain ⟨g, hg, hstep⟩ := exists_of_bind_eq_ok hstep
      cases hstep
      exact forall_addFunction hall _ (hP decl List.mem_cons_self f hf g hg)
    | expr _ =>
      cases hitem
      exact h

/-- What the environment of a program consists of. -/
theorem exists_of_ofProgram {settings : Settings} {p : Program} {env : Env}
    (h : ofProgram settings p = .ok env) :
    ∃ classes methods libraries,
      declareClasses ClassTable.empty.addBuiltins.1 ClassTable.empty.addBuiltins.2 p.items =
        .ok classes ∧
      declareMembers classes .empty .empty p.items = .ok (methods, libraries) ∧
      env = ⟨settings, classes, classes.hierarchy, libraries, methods, p.topLevel⟩ := by
  obtain ⟨classes, hclasses, h⟩ := exists_of_bind_eq_ok h
  obtain ⟨⟨methods, libraries⟩, hmembers, h⟩ := exists_of_bind_eq_ok h
  cases h
  exact ⟨classes, methods, libraries, hclasses, hmembers, rfl⟩

/-- Every native function is declared by a library of the program. -/
theorem exists_functionDecl {settings : Settings} {p : Program} {env : Env}
    (h : ofProgram settings p = .ok env) : env.libraries.All fun g =>
      ∃ decl, .library decl ∈ p.items ∧ ∃ f ∈ decl.functions,
        nativeFunction env.classes f = .ok g := by
  obtain ⟨classes, methods, libraries, _, hmembers, rfl⟩ := exists_of_ofProgram h
  refine forall_declareMembers (fun decl hdecl f hf g hg => ?_) (fun library hl => ?_) hmembers
  · exact ⟨decl, hdecl, f, hf, hg⟩
  · cases hl

theorem plain_libraries {settings : Settings} {p : Program} {env : Env}
    (h : ofProgram settings p = .ok env) : env.libraries.Plain := by
  intro library hl f hf
  obtain ⟨_, _, _, _, hdeclared⟩ := exists_functionDecl h library hl f hf
  exact plain_nativeFunction hdeclared

/-! ### Methods -/

theorem mem_declareMethod {classes : ClassTable} {owner : Owner} {methods methods' : Methods}
    {d : Def} (h : declareMethod classes owner methods d = .ok methods') {m : Method}
    (hm : m ∈ methods'.declared) : m ∈ methods.declared ∨ m.definition = d := by
  obtain ⟨signature, _, h⟩ := exists_of_bind_eq_ok h
  cases h
  rcases List.mem_append.mp hm with hm | hm
  · exact Or.inl hm
  · rw [List.mem_singleton.mp hm]
    exact Or.inr rfl

/-- What the declaration of each method keeps is kept by the declarations of all items. -/
theorem declareMembers_keeps {P : Methods → Prop} {classes : ClassTable} {items : List Item}
    {methods methods' : Methods} {t t' : LibraryTable}
    (hP : ∀ i ∈ items, ∀ d ∈ i.defs, ∀ owner ms ms', P ms →
      declareMethod classes owner ms d = .ok ms' → P ms')
    (hmethods : P methods) (h : declareMembers classes methods t items = .ok (methods', t')) :
    P methods' := by
  induction items generalizing methods t with
  | nil =>
    cases h
    exact hmethods
  | cons item rest ih =>
    obtain ⟨⟨methods₁, t₁⟩, hitem, h⟩ := exists_of_bind_eq_ok h
    obtain ⟨hhead, htail⟩ := List.forall_mem_cons.mp hP
    refine ih htail ?_ h
    cases item with
    | method d =>
      obtain ⟨_, hmethod, hitem⟩ := exists_of_bind_eq_ok hitem
      cases hitem
      exact hhead d (List.mem_singleton_self _) _ _ _ hmethods hmethod
    | classDecl decl =>
      rw [declareItem] at hitem
      split at hitem
      · cases hitem
        exact hmethods
      · obtain ⟨_, hfold, hitem⟩ := exists_of_bind_eq_ok hitem
        cases hitem
        exact foldlM_keeps (fun ms d hd ms' => hhead d hd _ ms ms') hmethods hfold
    | library decl =>
      obtain ⟨_, _, hitem⟩ := exists_of_bind_eq_ok hitem
      cases hitem
      exact hmethods
    | expr _ =>
      cases hitem
      exact hmethods

/-- Every method is declared by an item. -/
theorem exists_item_of_declareMembers {classes : ClassTable} {items : List Item}
    {methods methods' : Methods} {t t' : LibraryTable}
    (h : declareMembers classes methods t items = .ok (methods', t')) {m : Method}
    (hm : m ∈ methods'.declared) :
    m ∈ methods.declared ∨ ∃ i ∈ items, m.definition ∈ i.defs := by
  refine declareMembers_keeps (P := fun ms => m ∈ ms.declared →
    m ∈ methods.declared ∨ ∃ i ∈ items, m.definition ∈ i.defs) ?_ Or.inl h hm
  intro i hi d hd owner ms ms' hms hstep hm'
  rcases mem_declareMethod hstep hm' with hm' | rfl
  · exact hms hm'
  · exact Or.inr ⟨i, hi, hd⟩

theorem exists_item_of_get? {settings : Settings} {p : Program} {env : Env}
    (h : ofProgram settings p = .ok env) {id : MethodId} {m : Method}
    (hm : env.methods.get? id = some m) : ∃ i ∈ p.items, m.definition ∈ i.defs := by
  obtain ⟨classes, methods, libraries, _, hmembers, rfl⟩ := exists_of_ofProgram h
  exact (exists_item_of_declareMembers hmembers (List.mem_of_getElem? hm)).resolve_left
    fun hnil => nomatch hnil

/-- The expressions of a method are expressions of the program. -/
theorem exprs_subset {settings : Settings} {p : Program} {env : Env}
    (h : ofProgram settings p = .ok env) {m : Method} (hm : m ∈ env.methods.declared) :
    m.definition.exprs ⊆ p.items.flatMap Item.exprs := by
  intro e he
  obtain ⟨id, hid⟩ := List.mem_iff_getElem?.mp hm
  obtain ⟨i, hi, hdef⟩ := exists_item_of_get? h hid
  exact List.mem_flatMap.mpr ⟨i, hi, Item.mem_exprs_of_mem_defs hdef he⟩

/-- The methods that can be found are declared under their numbers, and every declared
    method has the signature that its definition writes. -/
structure DeclaredIn (classes : ClassTable) (ms : Methods) : Prop where
  numbered : ∀ entry ∈ ms.live, ms.get? entry.id = some entry.method
  signature : ∀ m ∈ ms.declared, signatureOf classes m.definition = .ok m.signature

theorem DeclaredIn.declareMethod {classes : ClassTable} {owner : Owner} {ms ms' : Methods} {d : Def}
    (h : DeclaredIn classes ms) (hstep : declareMethod classes owner ms d = .ok ms') :
    DeclaredIn classes ms' := by
  obtain ⟨signature, hsignature, hstep⟩ := exists_of_bind_eq_ok hstep
  cases hstep
  refine ⟨fun entry hentry => ?_, fun m hm => ?_⟩
  · change (ms.declared ++ [_])[entry.id]? = _
    rcases Methods.mem_of_mem_supersede hentry with rfl | hlive
    · exact List.getElem?_concat_length
    · have hget : ms.declared[entry.id]? = some entry.method := h.numbered entry hlive
      rw [List.getElem?_append_left (List.getElem?_eq_some_iff.mp hget).1, hget]
  · rcases List.mem_append.mp hm with hm | hm
    · exact h.signature m hm
    · rw [List.mem_singleton.mp hm]
      exact hsignature

theorem declaredIn_of_ofProgram {settings : Settings} {p : Program} {env : Env}
    (h : ofProgram settings p = .ok env) : DeclaredIn env.classes env.methods := by
  obtain ⟨classes, methods, libraries, _, hmembers, rfl⟩ := exists_of_ofProgram h
  exact declareMembers_keeps (fun _ _ _ _ _ _ _ hms hstep => hms.declareMethod hstep)
    ⟨fun _ hentry => absurd hentry List.not_mem_nil, fun _ hm => absurd hm List.not_mem_nil⟩
      hmembers

theorem topLevel_of_ofProgram {settings : Settings} {p : Program} {env : Env}
    (h : ofProgram settings p = .ok env) : env.topLevel = p.topLevel := by
  obtain ⟨_, _, _, _, _, rfl⟩ := exists_of_ofProgram h
  rfl

/-- The expressions outside of declarations are expressions of the program. -/
theorem topLevel_subset {settings : Settings} {p : Program} {env : Env}
    (h : ofProgram settings p = .ok env) : env.topLevel ⊆ p.items.flatMap Item.exprs := by
  intro e he
  rw [topLevel_of_ofProgram h] at he
  exact List.mem_flatMap.mpr ⟨.expr e, Program.mem_topLevel.mp he, List.mem_singleton_self e⟩

/-! ### Settings -/

def withSettings (env : Env) (settings : Settings) : Env := { env with settings }

theorem sameDeclarations_withSettings (env : Env) (settings : Settings) :
    env.SameDeclarations (env.withSettings settings) :=
  ⟨rfl, rfl, rfl, rfl, rfl⟩

/-- The declarations of a program do not depend on the settings. -/
theorem ofProgram_eq_map (settings settings' : Settings) (p : Program) :
    ofProgram settings' p = (ofProgram settings p).map (·.withSettings settings') := by
  let declared := declareClasses ClassTable.empty.addBuiltins.1 ClassTable.empty.addBuiltins.2
    p.items
  change (declared >>= _) = Except.map _ (declared >>= _)
  cases declared with
  | error d => rfl
  | ok classes =>
    let members := declareMembers classes .empty .empty p.items
    change (members >>= _) = Except.map _ (members >>= _)
    cases members with
    | error d => rfl
    | ok members => rfl

theorem ofProgram_withSettings {settings : Settings} {p : Program} {env : Env}
    (h : ofProgram settings p = .ok env) (settings' : Settings) :
    ofProgram settings' p = .ok (env.withSettings settings') := by
  rw [ofProgram_eq_map settings, h]
  rfl

end Env

/-! ### Environments keep to proper types -/

namespace Primitive

/-- The primitives of a number give a literal's type. -/
theorem ret_of_mem_ofNumber {l : Literal} {name : String} {p : Primitive}
    (h : p ∈ ofNumber l.ty name) : ∃ l : Literal, p.ret = l.ty := by
  unfold ofNumber at h
  split at h
  · rcases List.mem_cons.mp h with rfl | h
    · exact ⟨l, rfl⟩
    · rw [List.mem_singleton.mp h]
      exact ⟨.double, rfl⟩
  · split at h
    · rcases List.mem_cons.mp h with rfl | h
      · exact ⟨.bool, rfl⟩
      · rw [List.mem_singleton.mp h]
        exact ⟨.bool, rfl⟩
    · split at h
      · rw [List.mem_singleton.mp h]
        exact ⟨.int, rfl⟩
      · split at h
        · rw [List.mem_singleton.mp h]
          exact ⟨.double, rfl⟩
        · cases h

/-- Those of a pointer give the pointer or what it points to. -/
theorem ret_of_mem_ofPointer {self element : Ty} {name : String} {p : Primitive}
    (h : p ∈ ofPointer self element name) : p.ret = self ∨ p.ret = element := by
  unfold ofPointer at h
  split at h
  · rw [List.mem_singleton.mp h]
    exact Or.inr rfl
  · split at h
    · rw [List.mem_singleton.mp h]
      exact Or.inr rfl
    · split at h
      · rw [List.mem_singleton.mp h]
        exact Or.inl rfl
      · cases h

theorem mem_on_cases {className name : String} {args : List Ty} {p : Primitive}
    (h : p ∈ Primitive.on className args name) :
    (∃ l : Literal, p.ret = l.ty) ∨ p.ret = .con className args ∨ args.head? = some p.ret := by
  unfold on at h
  split at h
  · split at h
    · rw [List.mem_singleton.mp h]
      exact Or.inl ⟨.char, rfl⟩
    · exact Or.inl (ret_of_mem_ofNumber (l := .int) h)
  · exact Or.inl (ret_of_mem_ofNumber (l := .double) h)
  · split at h
    · rw [List.mem_singleton.mp h]
      exact Or.inl ⟨.int, rfl⟩
    · split at h
      · rw [List.mem_singleton.mp h]
        exact Or.inl ⟨.bool, rfl⟩
      · cases h
  · split at h
    · rw [List.mem_singleton.mp h]
      exact Or.inl ⟨.bool, rfl⟩
    · cases h
  · split at h
    · cases h
    · rcases ret_of_mem_ofPointer h with hself | helement
      · exact Or.inr (Or.inl hself)
      · exact Or.inr (Or.inr (congrArg some helement.symm))
  · cases h

end Primitive

theorem Primitive.malloc_eq_ok {className : String} {args : List Ty} {p : Primitive}
    (h : Primitive.malloc className args = .ok p) :
    ∃ element, args.head? = some element ∧ p.ret = .pointer element := by
  cases args with
  | nil => cases h
  | cons element rest =>
    cases h
    exact ⟨element, rfl, rfl⟩

/-- Memory that is allocated for values is a value. -/
theorem Primitive.known_malloc {className : String} {args : List Ty} {p : Primitive}
    (h : Ty.Proper (.con className args)) (hp : Primitive.malloc className args = .ok p) :
    p.ret.Known := by
  obtain ⟨element, hhead, hret⟩ := malloc_eq_ok hp
  rw [hret]
  exact (h.known_arg (List.mem_of_head? hhead)).proper_pointer.known

/-- The instances in `C` are closed under all that a program does. -/
structure Env.Closed (env : Env) (v : Vocabulary) (C : Ty → Prop) : Prop where
  con : ∀ m, C m → m.IsCon
  literal : ∀ l : Literal, C l.ty
  classObject : C .classObject
  written : ∀ {ref ty}, v.refs ref → env.classes.typeOf ref = .ok ty → C ty
  allocated : ∀ {ref name element args}, v.refs ref →
    env.classes.typeOf ref = .ok (.con name (element :: args)) → C (.pointer element)
  nativeParam : ∀ library ∈ env.libraries.libraries, ∀ f ∈ library.functions,
    ∀ p ∈ f.params, C p.ty
  nativeRet : ∀ library ∈ env.libraries.libraries, ∀ f ∈ library.functions, C f.ret
  arg : ∀ {name element args}, C (.con name (element :: args)) → element.Over C
  pointer : ∀ {t : Ty}, v.pointers → t.Over C → t.isUnresolved = false → C (.pointer t)

namespace Env

open Ty (Over Proper)

variable {env : Env} {v : Vocabulary} {C : Ty → Prop}

theorem Closed.over (h : env.Closed v C) {m : Ty} (hm : C m) : m.Over C := .of_isCon (h.con m hm) hm

theorem Closed.arg_of_head (h : env.Closed v C) {name : String} {args : List Ty} {a : Ty}
    (hcon : C (.con name args)) (ha : args.head? = some a) : a.Over C := by
  cases args with
  | nil => cases ha
  | cons element rest =>
    cases ha
    exact h.arg hcon

/-- Types over closed instances are closed under all that an expression does. -/
theorem Closed.domain (h : env.Closed v C) : TypeDomain env v (Over C) where
  literal := fun l => .self (h.over (h.literal l))
  classObject := .self (h.over h.classObject)
  unresolved := .self .unresolved
  union := by
    rintro a a' b b' ⟨rfl, ha⟩ ⟨rfl, hb⟩
    exact .self (ha.union h.con hb)
  written := fun href hty => .self (h.over (h.written href hty))
  allocated := by
    intro ref className args p href hty hp
    obtain ⟨element, hhead, hret⟩ := Primitive.malloc_eq_ok hp
    obtain ⟨rest, rfl⟩ := List.head?_eq_some_iff.mp hhead
    rw [hret]
    exact .self (h.over (h.allocated href hty))
  nativeParam := fun library hl f hf p hp => .self (h.over (h.nativeParam library hl f hf p hp))
  nativeRet := fun library hl f hf => .self (h.over (h.nativeRet library hl f hf))
  members := fun ht hm => h.over (ht.all _ hm)
  primitive := by
    intro className args name p ht hp
    have hcon : C (.con className args) := ht.all _ List.mem_cons_self
    rcases Primitive.mem_on_cases hp with ⟨l, hl⟩ | hself | hhead
    · rw [hl]
      exact h.over (h.literal l)
    · rw [hself]
      exact ht
    · exact h.arg_of_head hcon hhead
  pointer := fun hv ht hne => h.over (h.pointer hv ht hne)

/-- Proper types are closed under all that a program does. -/
theorem closed_proper (hlibraries : env.libraries.Plain) (v : Vocabulary) :
    env.Closed v Proper where
  con := fun _ h => h.isCon
  literal := fun l => l.plain.proper
  classObject := Ty.proper_plain "Class"
  written := fun _ h => (env.classes.plain_typeOf _ h).proper
  allocated := fun _ h =>
    ((env.classes.plain_typeOf _ h).proper.known_arg List.mem_cons_self).proper_pointer
  nativeParam := fun library hl f hf p hp => ((hlibraries library hl f hf).1 p hp).proper
  nativeRet := fun library hl f hf => (hlibraries library hl f hf).2.proper
  arg := fun h => (h.known_arg List.mem_cons_self).isOver
  pointer := fun _ h hne => (h.known hne).proper_pointer

/-- Every program keeps to proper types. -/
theorem keepsTo_proper (hlibraries : env.libraries.Plain) : env.KeepsTo Proper .full where
  con := fun _ h => h.isCon
  domain := (closed_proper hlibraries .full).domain
  speaks := fun key => Vocabulary.speaksUnit_full env key

end Env

end UnionTyping
