/-
  UnionTyping/Proofs/Inference/WrittenTypes.lean
  ==============================================
  **Without addresses no type is invented.**

  Only taking the address of a variable makes types that stand nowhere in a program.
  In a program that takes no address, the members of all types that come up in a run
  are among finitely many instances: those of the language itself and the parts of the
  types that the program is written with (`Program.writtenTypes`).  That holds at every
  moment of the run (`Program.run_invents_no_type`).

  Memory is allocated only for written types, and such a type is already the type of
  the pointer, since no other class has type parameters.  Operations on a pointer give
  the pointer itself or what it points to, which is part of its type.
-/
import UnionTyping.Proofs.Inference.Execution
import UnionTyping.Proofs.Inference.Moments
import UnionTyping.Proofs.Inference.Termination

namespace UnionTyping

open Ty (Over Plain)

/-! ### The types that a program is written with -/

def Expr.typeRef? : Expr → Option TypeRef
  | path _ ref => some ref
  | _ => none

def Def.typeRefs (d : Def) : List TypeRef := d.params.filterMap Param.restriction

def FunctionDecl.typeRefs (f : FunctionDecl) : List TypeRef :=
  f.params.map FunctionParam.ty ++ f.ret.toList

/-- The types that a declaration is written with.  A superclass is named and has no type
    arguments. -/
def Item.typeRefs : Item → List TypeRef
  | .method d => d.typeRefs
  | .classDecl c => c.methods.flatMap Def.typeRefs
  | .library l => l.functions.flatMap FunctionDecl.typeRefs
  | .expr _ => []

def Program.typeRefs (p : Program) : List TypeRef :=
  p.items.flatMap Item.typeRefs ++ p.nodes.filterMap Expr.typeRef?

/-- The parts of a written type; none if there is no such type. -/
def ClassTable.partsOf (classes : ClassTable) (ref : TypeRef) : List Ty :=
  match classes.typeOf ref with
  | .ok ty => ty.parts
  | .error _ => []

/-- The types of the language and the parts of the types that the program is written with. -/
def Program.writtenTypes (p : Program) (classes : ClassTable) : List Ty :=
  [.nil, .bool, .int, .double, .char, .string, .classObject] ++ p.typeRefs.flatMap classes.partsOf

namespace Program

variable {p : Program} {classes : ClassTable}

theorem mem_writtenTypes {ref : TypeRef} {ty : Ty} (href : ref ∈ p.typeRefs)
    (hty : classes.typeOf ref = .ok ty) {m : Ty} (hm : m ∈ ty.parts) :
    m ∈ p.writtenTypes classes := by
  apply List.mem_append_right
  refine List.mem_flatMap.mpr ⟨ref, href, ?_⟩
  simpa [ClassTable.partsOf, hty] using hm

/-- A written type is among the types that the program is written with. -/
theorem self_mem_writtenTypes {ref : TypeRef} {ty : Ty} (href : ref ∈ p.typeRefs)
    (hty : classes.typeOf ref = .ok ty) : ty ∈ p.writtenTypes classes :=
  mem_writtenTypes href hty (classes.plain_typeOf ref hty).mem_parts

theorem plain_writtenTypes : ∀ m ∈ p.writtenTypes classes, m.Plain := by
  intro m hm
  rcases List.mem_append.mp hm with hm | hm
  · simp only [List.mem_cons, List.not_mem_nil, or_false] at hm
    rcases hm with rfl | rfl | rfl | rfl | rfl | rfl | rfl <;> exact Ty.plain_atom _
  · obtain ⟨ref, _, hm⟩ := List.mem_flatMap.mp hm
    unfold ClassTable.partsOf at hm
    split at hm
    · rename_i ty hty
      have hplain := classes.plain_typeOf ref hty
      refine Ty.plain_of_parts ty (fun a ha => ?_) m hm
      rw [hplain.isCon.members_eq] at ha
      exact List.mem_singleton.mp ha ▸ hplain
    · cases hm

/-- The type arguments of a written type are written too. -/
theorem arg_mem_writtenTypes {name : String} {args : List Ty} {a : Ty}
    (h : Ty.con name args ∈ p.writtenTypes classes) (ha : a ∈ args) :
    a ∈ p.writtenTypes classes := by
  have hplain := (plain_writtenTypes _ h).arg a ha
  rcases List.mem_append.mp h with h | h
  · simp only [List.mem_cons, List.not_mem_nil, or_false, Ty.nil, Ty.bool, Ty.int, Ty.double,
      Ty.char, Ty.string, Ty.classObject, Ty.con.injEq] at h
    rcases h with ⟨_, rfl⟩ | ⟨_, rfl⟩ | ⟨_, rfl⟩ | ⟨_, rfl⟩ | ⟨_, rfl⟩ | ⟨_, rfl⟩ | ⟨_, rfl⟩ <;>
      cases ha
  · obtain ⟨ref, href, h⟩ := List.mem_flatMap.mp h
    apply List.mem_append_right
    refine List.mem_flatMap.mpr ⟨ref, href, ?_⟩
    unfold ClassTable.partsOf at h ⊢
    split at h
    · rename_i ty _
      exact Ty.arg_of_parts ty h ha hplain.mem_parts
    · cases h

end Program

/-! ### What a run does leads to no other types -/

namespace Env

variable {settings : Settings} {p : Program} {env : Env}

/-- The constants that are checked are written in the program. -/
theorem mem_typeRefs_of_path (h : ofProgram settings p = .ok env) {m : Mark} {ref : TypeRef}
    (hpath : .path m ref ∈ env.nodes) : ref ∈ p.typeRefs := by
  apply List.mem_append_right
  exact List.mem_filterMap.mpr ⟨_, nodes_subset h hpath, rfl⟩

theorem mem_typeRefs_of_function {decl : LibraryDecl} (hdecl : .library decl ∈ p.items)
    {f : FunctionDecl} (hf : f ∈ decl.functions) {ref : TypeRef} (href : ref ∈ f.typeRefs) :
    ref ∈ p.typeRefs := by
  apply List.mem_append_left
  exact List.mem_flatMap.mpr ⟨_, hdecl, List.mem_flatMap.mpr ⟨f, hf, href⟩⟩

/-- The types of a native function are among those that the program is written with. -/
theorem written_function (h : ofProgram settings p = .ok env) : env.libraries.All fun g =>
    (∀ q ∈ g.params, q.ty ∈ p.writtenTypes env.classes) ∧ g.ret ∈ p.writtenTypes env.classes := by
  intro library hl g hg
  obtain ⟨decl, hdecl, f, hf, hdeclared⟩ := exists_functionDecl h library hl g hg
  obtain ⟨hparams, hret⟩ := written_nativeFunction hdeclared
  constructor
  · intro q hq
    obtain ⟨param, hparam, hty⟩ := hparams q hq
    refine Program.self_mem_writtenTypes (mem_typeRefs_of_function hdecl hf ?_) hty
    exact List.mem_append_left _ (List.mem_map_of_mem hparam)
  · rcases hret with hnil | ⟨ref, href, hty⟩
    · rw [hnil]
      exact List.mem_append_left _ (by simp)
    · refine Program.self_mem_writtenTypes (mem_typeRefs_of_function hdecl hf ?_) hty
      exact List.mem_append_right _ (Option.mem_toList.mpr href)

/-- Without addresses the written types are closed under all that a program does. -/
theorem closed_written (h : ofProgram settings p = .ok env)
    (haddress : ∀ n ∈ p.nodes, n.takesAddress = false) :
    env.Closed env.vocabulary (· ∈ p.writtenTypes env.classes) where
  con := fun m hm => (Program.plain_writtenTypes m hm).isCon
  literal := by
    intro l
    apply List.mem_append_left
    cases l <;> simp [Literal.ty]
  classObject := List.mem_append_left _ (by simp)
  written := by
    rintro ref ty ⟨m, hpath⟩ hty
    exact Program.self_mem_writtenTypes (mem_typeRefs_of_path h hpath) hty
  allocated := by
    rintro ref name element args ⟨m, hpath⟩ hty
    rw [← pointer_of_typeOf h hty]
    exact Program.self_mem_writtenTypes (mem_typeRefs_of_path h hpath) hty
  nativeParam := fun library hl f hf => (written_function h library hl f hf).1
  nativeRet := fun library hl f hf => (written_function h library hl f hf).2
  arg := by
    intro name element args hwritten
    have harg := Program.arg_mem_writtenTypes hwritten List.mem_cons_self
    exact .of_isCon (Program.plain_writtenTypes _ harg).isCon harg
  pointer := by
    rintro t ⟨n, hn, htakes⟩
    rw [haddress n (nodes_subset h hn)] at htakes
    cases htakes

theorem keepsTo_written (h : ofProgram settings p = .ok env)
    (haddress : ∀ n ∈ p.nodes, n.takesAddress = false) :
    env.KeepsTo (· ∈ p.writtenTypes env.classes) env.vocabulary where
  con := (closed_written h haddress).con
  domain := (closed_written h haddress).domain
  speaks := env.speaks_vocabulary

end Env

/-! ### Moments -/

/-- The members of all types that are held at a moment are in `S`, and so are the types that
    methods are entered with. -/
structure Moment.Within (S : List Ty) (m : Moment) : Prop where
  types : m.Holds fun t => ∀ a ∈ t.members, a ∈ S
  self : ∀ key, some key ∈ m.engine.keys → ∀ s, key.self = some s → s ∈ S
  args : ∀ key, some key ∈ m.engine.keys → ∀ a ∈ key.args, a ∈ S

theorem Moment.Ok.within {env : Env} {v : Vocabulary} {S : List Ty} {m : Moment}
    (h : m.Ok env (· ∈ S) v) : m.Within S where
  types := h.holds.mono fun _ ht => ht.all
  self := by
    intro key hkey s hs
    have hcon := (h.concrete key hkey).self s hs
    exact ((h.engine.keys key hkey).self s hs).all s (by simp [hcon.members_eq])
  args := by
    intro key hkey a ha
    have hcon := (h.concrete key hkey).args a ha
    exact ((h.engine.keys key hkey).args a ha).all a (by simp [hcon.members_eq])

/-- The run of a program that takes no address goes only through moments with types that
    the program is written with, up to the state in which it ends or gives up.  The moments
    are told by the journal, which leaves out no step. -/
theorem Program.run_invents_no_type {p : Program} {settings : Settings} {env : Env}
    (h : Env.ofProgram settings p = .ok env) (haddress : ∀ n ∈ p.nodes, n.takesAddress = false) :
    Execution (Engine.journal env) ∧
      (∀ past, past <+: Engine.journal env →
        (Moment.after past).Within (p.writtenTypes env.classes)) ∧
      (Moment.after (Engine.journal env)).engine = (Engine.final env).2 := by
  have hruns := runsThrough_runAll (Env.keepsTo_written h haddress)
  exact ⟨Engine.execution_journal env, fun past hpast => (hruns.meets past hpast).within,
    Engine.after_journal env⟩

/-- Memory that is allocated, moved and read: `p = Pointer(Char).malloc(8)`,
    `p = p.realloc(16)`, `c = p.value`. -/
def allocatingProgram : Program :=
  let m : Mark := ⟨0, .unplaced⟩
  let pointer : TypeRef := .mk "Pointer" [.mk "Char" [] .unplaced] .unplaced
  .ofItems "allocating.qz" [
    .expr (.assign m (.local "p")
      (.call m (some (.path m pointer)) "malloc" [.literal m .int] none true)),
    .expr (.assign m (.local "p")
      (.call m (some (.ident m "p")) "realloc" [.literal m .int] none true)),
    .expr (.assign m (.local "c") (.call m (some (.ident m "p")) "value" [] none true))]

theorem allocatingProgram_invents_no_type :
    ∃ env, Env.ofProgram {} allocatingProgram = .ok env ∧
      (∀ n ∈ allocatingProgram.nodes, n.takesAddress = false) ∧
      Execution (Engine.journal env) ∧
      (∀ past, past <+: Engine.journal env →
        (Moment.after past).Within (allocatingProgram.writtenTypes env.classes)) ∧
      (Moment.after (Engine.journal env)).engine = (Engine.final env).2 := by
  have hdeclared : (Env.ofProgram {} allocatingProgram).toBool = true := by decide +kernel
  have haddress : ∀ n ∈ allocatingProgram.nodes, n.takesAddress = false := by decide +kernel
  obtain ⟨env, h⟩ := exists_of_toBool hdeclared
  exact ⟨env, h, haddress, Program.run_invents_no_type h haddress⟩

end UnionTyping
