/-
  UnionTyping/Proofs/Syntax/Renaming.lean
  =======================================
  **Giving the nodes of a program other numbers.**

  `Expr.rename f` puts `f n` in the place of each node number `n` and changes nothing
  else.  An expression that was numbered from `n` on is renamed to the same expression
  numbered from `n'` on by every `f` that shifts the numbers it takes up
  (`Expr.rename_numberFrom`), and likewise for methods.
-/
import UnionTyping.Methods
import UnionTyping.Proofs.Syntax.Numbering

namespace UnionTyping

def Mark.rename (f : NodeId → NodeId) (m : Mark) : Mark := ⟨f m.id, m.loc⟩

namespace Expr

mutual

def rename (f : NodeId → NodeId) : Expr → Expr
  | literal m value => literal (m.rename f) value
  | ident m name => ident (m.rename f) name
  | ivar m name => ivar (m.rename f) name
  | assign m target value => assign (m.rename f) target (rename f value)
  | opAssign m target op value => opAssign (m.rename f) target op (rename f value)
  | call m receiver name args block parens =>
    call (m.rename f)
      (match receiver with
        | none => none
        | some r => some (rename f r))
      name (renameAll f args)
      (match block with
        | none => none
        | some (.mk params body) => some (.mk params (renameAll f body)))
      parens
  | path m ref => path (m.rename f) ref
  | out m target => out (m.rename f) target
  | connect m op lhs rhs => connect (m.rename f) op (rename f lhs) (rename f rhs)
  | ite m cond thenBody elseBody =>
    ite (m.rename f) (rename f cond) (renameAll f thenBody) (renameAll f elseBody)
  | loop m cond body => loop (m.rename f) (rename f cond) (renameAll f body)
  | control m keyword => control (m.rename f) keyword
termination_by structural e => e

def renameAll (f : NodeId → NodeId) : List Expr → List Expr
  | [] => []
  | e :: es => rename f e :: renameAll f es
termination_by structural es => es

end

end Expr

def Block.rename (f : NodeId → NodeId) : Block → Block
  | .mk params body => .mk params (Expr.renameAll f body)

namespace Expr

variable {f : NodeId → NodeId}

theorem rename_call (m : Mark) (receiver : Option Expr) (name : String) (args : List Expr)
    (block : Option Block) (parens : Bool) :
    (call m receiver name args block parens).rename f =
      call (m.rename f) (receiver.map (·.rename f)) name (renameAll f args)
        (block.map (·.rename f)) parens := by
  cases receiver <;> rcases block with _ | ⟨params, body⟩ <;> rfl

theorem mark_rename (e : Expr) : (e.rename f).mark = e.mark.rename f := by
  cases e with
  | call m receiver name args block parens =>
    cases receiver <;> rcases block with _ | ⟨params, body⟩ <;> rfl
  | _ => rfl

theorem loc_rename (e : Expr) : (e.rename f).loc = e.loc := by
  rw [loc, mark_rename]
  rfl

theorem isVariable_rename (e : Expr) : (e.rename f).isVariable = e.isVariable := by
  cases e with
  | call m receiver name args block parens =>
    cases receiver <;> rcases block with _ | ⟨params, body⟩ <;> rfl
  | _ => rfl

theorem renameAll_eq_map (es : List Expr) : renameAll f es = es.map (·.rename f) := by
  induction es with
  | nil => rfl
  | cons e es ih => rw [renameAll, ih, List.map_cons]

theorem length_renameAll (es : List Expr) : (renameAll f es).length = es.length := by
  rw [renameAll_eq_map, List.length_map]

theorem isEmpty_renameAll (es : List Expr) : (renameAll f es).isEmpty = es.isEmpty := by
  cases es <;> rfl

mutual

theorem rename_id (e : Expr) : e.rename (fun n => n) = e := by
  match e with
  | .literal _ _ | .ident _ _ | .ivar _ _ | .path _ _ | .out _ _ | .control _ _ => rfl
  | .assign m target value => rw [rename, rename_id value]; rfl
  | .opAssign m target op value => rw [rename, rename_id value]; rfl
  | .connect m op lhs rhs => rw [rename, rename_id lhs, rename_id rhs]; rfl
  | .ite m cond thenBody elseBody =>
    rw [rename, rename_id cond, renameAll_id thenBody, renameAll_id elseBody]; rfl
  | .loop m cond body => rw [rename, rename_id cond, renameAll_id body]; rfl
  | .call m none name args none parens => rw [rename, renameAll_id args]; rfl
  | .call m (some r) name args none parens => rw [rename, renameAll_id args, rename_id r]; rfl
  | .call m none name args (some (.mk params body)) parens =>
    rw [rename, renameAll_id args, renameAll_id body]; rfl
  | .call m (some r) name args (some (.mk params body)) parens =>
    rw [rename, renameAll_id args, rename_id r, renameAll_id body]; rfl
termination_by structural e

theorem renameAll_id (es : List Expr) : renameAll (fun n => n) es = es := by
  match es with
  | [] => rfl
  | e :: es => rw [renameAll, rename_id e, renameAll_id es]
termination_by structural es

end

mutual

/-- Giving other numbers twice. -/
theorem rename_rename (g : NodeId → NodeId) (e : Expr) :
    (e.rename f).rename g = e.rename fun n => g (f n) := by
  match e with
  | .literal _ _ | .ident _ _ | .ivar _ _ | .path _ _ | .out _ _ | .control _ _ => rfl
  | .assign m target value => rw [rename, rename, rename_rename g value]; rfl
  | .opAssign m target op value => rw [rename, rename, rename_rename g value]; rfl
  | .connect m op lhs rhs => rw [rename, rename, rename_rename g lhs, rename_rename g rhs]; rfl
  | .ite m cond thenBody elseBody =>
    rw [rename, rename, rename_rename g cond, renameAll_renameAll g thenBody,
      renameAll_renameAll g elseBody]
    rfl
  | .loop m cond body =>
    rw [rename, rename, rename_rename g cond, renameAll_renameAll g body]; rfl
  | .call m none name args none parens => rw [rename, rename, renameAll_renameAll g args]; rfl
  | .call m (some r) name args none parens =>
    rw [rename, rename, renameAll_renameAll g args, rename_rename g r]; rfl
  | .call m none name args (some (.mk params body)) parens =>
    rw [rename, rename, renameAll_renameAll g args, renameAll_renameAll g body]; rfl
  | .call m (some r) name args (some (.mk params body)) parens =>
    rw [rename, rename, renameAll_renameAll g args, rename_rename g r, renameAll_renameAll g body]
    rfl
termination_by structural e

theorem renameAll_renameAll (g : NodeId → NodeId) (es : List Expr) :
    renameAll g (renameAll f es) = renameAll (fun n => g (f n)) es := by
  match es with
  | [] => rfl
  | e :: es => rw [renameAll, renameAll, rename_rename g e, renameAll_renameAll g es]; rfl
termination_by structural es

end

end Expr

/-! ### Shifted numbers -/

/-- The numbers from `n` on, `count` of them, are taken to those from `n'` on. -/
def Shifts (f : NodeId → NodeId) (n n' count : Nat) : Prop := ∀ i < count, f (n + i) = n' + i

namespace Shifts

variable {f : NodeId → NodeId} {n n' count : Nat}

theorem head (h : Shifts f n n' count) (hpos : 0 < count) : f n = n' := h 0 hpos

theorem part (h : Shifts f n n' count) {start size : Nat} (hle : start + size ≤ count) :
    Shifts f (n + start) (n' + start) size := by
  intro i hi
  have hshift := h (start + i) (by omega)
  rwa [← Nat.add_assoc, ← Nat.add_assoc] at hshift

theorem left {a b : Nat} (h : Shifts f n n' (a + b)) : Shifts f n n' a :=
  h.part (show 0 + a ≤ a + b by omega)

theorem right {a b : Nat} (h : Shifts f n n' (a + b)) : Shifts f (n + a) (n' + a) b :=
  h.part (Nat.le_refl _)

theorem third {a b c : Nat} (h : Shifts f n n' (a + b + c)) :
    Shifts f (n + a + b) (n' + a + b) c := by
  rw [Nat.add_assoc, Nat.add_assoc]
  exact h.right

end Shifts

namespace Expr

variable {f : NodeId → NodeId}

mutual

/-- A numbered expression is renamed to what it would be with other numbers. -/
theorem rename_numberFrom {n n' : Nat} (e : Expr) (h : Shifts f n n' e.size) :
    (e.numberFrom n).rename f = e.numberFrom n' := by
  match e with
  | .literal m _ | .ident m _ | .ivar m _ | .path m _ | .out m _ | .control m _ =>
    have hn : f n = n' := h.head (by simp [size])
    simp only [numberFrom, rename, Mark.rename, hn]
  | .assign m target value =>
    rw [size] at h
    simp only [numberFrom, rename, Mark.rename, h.left.head Nat.one_pos,
      rename_numberFrom value h.right]
  | .opAssign m target op value =>
    rw [size] at h
    simp only [numberFrom, rename, Mark.rename, h.left.head Nat.one_pos,
      rename_numberFrom value h.right]
  | .connect m op lhs rhs =>
    rw [size] at h
    simp only [numberFrom, rename, Mark.rename, h.left.head Nat.one_pos,
      rename_numberFrom lhs h.right.left, rename_numberFrom rhs h.right.right]
  | .ite m cond thenBody elseBody =>
    rw [size] at h
    simp only [numberFrom, rename, Mark.rename, h.left.head Nat.one_pos,
      rename_numberFrom cond h.right.left.left, renameAll_numberAllFrom thenBody h.right.left.right,
      renameAll_numberAllFrom elseBody h.right.third]
  | .loop m cond body =>
    rw [size] at h
    simp only [numberFrom, rename, Mark.rename, h.left.head Nat.one_pos,
      rename_numberFrom cond h.right.left, renameAll_numberAllFrom body h.right.right]
  | .call m none name args none parens =>
    rw [size] at h
    simp only [numberFrom, rename, Mark.rename, h.left.head Nat.one_pos,
      renameAll_numberAllFrom args h.right.left.right, Option.toList, sizes]
  | .call m (some r) name args none parens =>
    rw [size] at h
    simp only [numberFrom, rename, Mark.rename, h.left.head Nat.one_pos,
      rename_numberFrom r h.right.left.left, renameAll_numberAllFrom args h.right.left.right,
      Option.toList,
      sizes, Nat.add_zero]
  | .call m none name args (some (.mk params body)) parens =>
    rw [size] at h
    simp only [numberFrom, rename, Mark.rename, h.left.head Nat.one_pos,
      renameAll_numberAllFrom args h.right.left.right, renameAll_numberAllFrom body h.right.third,
      Option.toList, sizes]
  | .call m (some r) name args (some (.mk params body)) parens =>
    rw [size] at h
    simp only [numberFrom, rename, Mark.rename, h.left.head Nat.one_pos,
      rename_numberFrom r h.right.left.left, renameAll_numberAllFrom args h.right.left.right,
      renameAll_numberAllFrom body h.right.third, Option.toList, sizes, Nat.add_zero]
termination_by structural e

theorem renameAll_numberAllFrom {n n' : Nat} (es : List Expr) (h : Shifts f n n' (sizes es)) :
    renameAll f (numberAllFrom n es) = numberAllFrom n' es := by
  match es with
  | [] => rfl
  | e :: es =>
    rw [sizes] at h
    rw [numberAllFrom, renameAll, rename_numberFrom e h.left, renameAll_numberAllFrom es h.right,
      numberAllFrom]
termination_by structural es

end

end Expr

/-! ### Methods -/

def Param.rename (f : NodeId → NodeId) (p : Param) : Param :=
  { p with default := p.default.map (·.rename f) }

def Def.rename (f : NodeId → NodeId) (d : Def) : Def :=
  { d with params := d.params.map (·.rename f), body := Expr.renameAll f d.body }

def Method.rename (f : NodeId → NodeId) (m : Method) : Method :=
  { m with definition := m.definition.rename f }

theorem Param.rename_id (p : Param) : p.rename (fun n => n) = p := by
  obtain ⟨name, restriction, default⟩ := p
  cases default with
  | none => rfl
  | some value => simp only [Param.rename, Option.map_some, Expr.rename_id]

theorem Def.rename_id (d : Def) : d.rename (fun n => n) = d := by
  simp only [Def.rename, Expr.renameAll_id, Param.rename_id, List.map_id']

theorem Method.rename_id (m : Method) : m.rename (fun n => n) = m := by
  rw [Method.rename, Def.rename_id]

def Method.unnumbered (m : Method) : Method := m.rename fun _ => 0

theorem Method.unnumbered_rename (f : NodeId → NodeId) (m : Method) :
    (m.rename f).unnumbered = m.unnumbered := by
  have hparam : ∀ p : Param, (p.rename f).rename (fun _ => 0) = p.rename fun _ => 0 := by
    intro p
    obtain ⟨name, restriction, default⟩ := p
    cases default with
    | none => rfl
    | some value => simp only [Param.rename, Option.map_some, Expr.rename_rename]
  simp only [unnumbered, rename, Def.rename, Expr.renameAll_renameAll, List.map_map]
  congr 3
  exact funext hparam

section

variable {f : NodeId → NodeId}

theorem Param.rename_numberAllFrom {n n' : Nat} (ps : List Param)
    (h : Shifts f n n' (Expr.sizes (ps.flatMap Param.exprs))) :
    (Param.numberAllFrom n ps).map (·.rename f) = Param.numberAllFrom n' ps := by
  induction ps generalizing n n' with
  | nil => rfl
  | cons p ps ih =>
    rw [List.flatMap_cons, Expr.sizes_append] at h
    rw [Param.numberAllFrom, Param.numberAllFrom, List.map_cons, ih h.right]
    congr 1
    obtain ⟨name, restriction, default⟩ := p
    cases default with
    | none => rfl
    | some value =>
      have hvalue : Shifts f n n' value.size := h.left.left
      simp only [Param.rename, Option.map_some, Expr.rename_numberFrom value hvalue]

/-- A numbered method is renamed to what it would be with other numbers. -/
theorem Def.rename_numberFrom {n n' : Nat} (d : Def) (h : Shifts f n n' (Expr.sizes d.exprs)) :
    (d.numberFrom n).rename f = d.numberFrom n' := by
  rw [Def.exprs, Expr.sizes_append] at h
  simp only [Def.numberFrom, Def.rename, Param.rename_numberAllFrom d.params h.left,
    Expr.renameAll_numberAllFrom d.body h.right]

theorem Def.rename_numberAllFrom {n n' : Nat} (ds : List Def)
    (h : Shifts f n n' (Expr.sizes (ds.flatMap Def.exprs))) :
    (Def.numberAllFrom n ds).map (·.rename f) = Def.numberAllFrom n' ds := by
  induction ds generalizing n n' with
  | nil => rfl
  | cons d ds ih =>
    rw [List.flatMap_cons, Expr.sizes_append] at h
    rw [Def.numberAllFrom, Def.numberAllFrom, List.map_cons, ih h.right, d.rename_numberFrom h.left]

end

end UnionTyping
