/-
  UnionTyping/Proofs/ReferencedTypes.lean
  =======================================
  **What a written type stands for.**

  A written type is a tree of names.  Each of its nodes can be wrong in two ways
  (`ClassTable.Flaw`): the name is not that of a class, or there are type arguments but not as
  many as the class takes.  A written type without flaws stands for the type with the same names
  in the same shape (`TypeRef.spelled`).  Any other is refused for the first node that has a
  flaw, where a node comes before its arguments and these come from left to right
  (`ClassTable.typeOf_exact`).
-/
import UnionTyping.ClassTable
import UnionTyping.Proofs.Ty.Proper

namespace UnionTyping

/-! ### What is written -/

namespace TypeRef

mutual

def nodes : TypeRef → List TypeRef
  | .mk name args loc => .mk name args loc :: nodesOf args
termination_by structural r => r

def nodesOf : List TypeRef → List TypeRef
  | [] => []
  | r :: rs => r.nodes ++ nodesOf rs
termination_by structural rs => rs

end

mutual

/-- The type with the names and the shape of what is written. -/
def spelled : TypeRef → Ty
  | .mk name args _ => .con name (spelledAll args)
termination_by structural r => r

def spelledAll : List TypeRef → List Ty
  | [] => []
  | r :: rs => r.spelled :: spelledAll rs
termination_by structural rs => rs

end

mutual

theorem plain_spelled (r : TypeRef) : r.spelled.Plain := by
  match r with
  | .mk name args loc => exact .con name _ (plain_spelledAll args)
termination_by structural r

theorem plain_spelledAll (rs : List TypeRef) : ∀ ty ∈ spelledAll rs, ty.Plain := by
  match rs with
  | [] => exact List.forall_mem_nil _
  | r :: rs => exact List.forall_mem_cons.mpr ⟨plain_spelled r, plain_spelledAll rs⟩
termination_by structural rs

end

theorem mem_nodes_self (r : TypeRef) : r ∈ r.nodes := by
  obtain ⟨name, args, loc⟩ := r
  exact List.mem_cons_self

end TypeRef

/-! ### Looking classes up -/

section

variable {α : Type} {p : α → Bool} {l : List α}

theorem exists_of_lastIdx? {i : Nat} (h : lastIdx? p l = some i) :
    ∃ x, l[i]? = some x ∧ p x = true := by
  induction l generalizing i with
  | nil => cases h
  | cons x xs ih =>
    rw [lastIdx?] at h
    cases hlast : lastIdx? p xs with
    | some j =>
      rw [hlast] at h
      cases h
      exact ih hlast
    | none =>
      rw [hlast] at h
      simp only at h
      split at h
      · cases h
        exact ⟨x, rfl, by assumption⟩
      · cases h

theorem lastIdx?_eq_none (h : lastIdx? p l = none) : ∀ x ∈ l, p x = false := by
  induction l with
  | nil => exact List.forall_mem_nil _
  | cons x xs ih =>
    rw [lastIdx?] at h
    cases hlast : lastIdx? p xs with
    | some j =>
      rw [hlast] at h
      cases h
    | none =>
      rw [hlast] at h
      simp only at h
      split at h
      · cases h
      · rename_i hx
        exact List.forall_mem_cons.mpr ⟨Bool.eq_false_iff.mpr hx, ih hlast⟩

end

namespace ClassTable

variable {t : ClassTable} {r : TypeRef}

theorem exists_of_lookup {name : String} {id : ClassId} (h : t.lookup name = some id) :
    ∃ c, t.classes[id]? = some c ∧ c.name = name := by
  obtain ⟨c, hc, hname⟩ := exists_of_lastIdx? h
  exact ⟨c, hc, beq_iff_eq.mp hname⟩

/-- A name is not found, or it is found with the entry of the class. -/
theorem lookup_cases (t : ClassTable) (name : String) :
    t.lookup name = none ∨ ∃ id info, t.lookup name = some id ∧ t.get? id = some info := by
  cases hlookup : t.lookup name with
  | none => exact .inl rfl
  | some id =>
    obtain ⟨info, hinfo, -⟩ := exists_of_lookup hlookup
    exact .inr ⟨id, info, rfl, hinfo⟩

/-! ### One node -/

/-- The written type names a class and has no arguments or as many as the class takes. -/
def Accepts (t : ClassTable) (r : TypeRef) : Prop :=
  ∃ id info, t.lookup r.name = some id ∧ t.get? id = some info ∧
    (r.args = [] ∨ r.args.length = info.typeParams.length)

/-- What is wrong with a written type itself, whatever its arguments are. -/
inductive Flaw (t : ClassTable) (r : TypeRef) : Problem → Prop where
  | undeclared (unknown : t.lookup r.name = none) : Flaw t r (.uninitializedConstant r.name)
  | argumentCount (id : ClassId) (info : ClassEntry) (known : t.lookup r.name = some id)
      (entry : t.get? id = some info) (generic : r.args ≠ [])
      (count : r.args.length ≠ info.typeParams.length) :
      Flaw t r (.wrongTypeArgumentCount (genericName info) r.args.length info.typeParams.length)

def flaw? (t : ClassTable) (r : TypeRef) : Option Problem :=
  match (t.lookup r.name).bind t.get? with
  | none => some (.uninitializedConstant r.name)
  | some info =>
    if !r.args.isEmpty && r.args.length != info.typeParams.length then
      some (.wrongTypeArgumentCount (genericName info) r.args.length info.typeParams.length)
    else none

theorem flaw?_of_lookup {id : ClassId} {info : ClassEntry} (hid : t.lookup r.name = some id)
    (hinfo : t.get? id = some info) :
    t.flaw? r =
      if !r.args.isEmpty && r.args.length != info.typeParams.length then
        some (.wrongTypeArgumentCount (genericName info) r.args.length info.typeParams.length)
      else none := by
  simp [flaw?, hid, hinfo]

theorem accepts_iff_of_lookup {id : ClassId} {info : ClassEntry} (hid : t.lookup r.name = some id)
    (hinfo : t.get? id = some info) :
    t.Accepts r ↔ r.args = [] ∨ r.args.length = info.typeParams.length := by
  constructor
  · rintro ⟨id', info', hid', hinfo', hcount⟩
    rw [hid] at hid'
    cases hid'
    rw [hinfo] at hinfo'
    cases hinfo'
    exact hcount
  · exact fun hcount => ⟨id, info, hid, hinfo, hcount⟩

theorem flaw?_eq_none_iff : t.flaw? r = none ↔ t.Accepts r := by
  rcases t.lookup_cases r.name with hnone | ⟨id, info, hid, hinfo⟩
  · simp [flaw?, Accepts, hnone]
  · rw [flaw?_of_lookup hid hinfo, accepts_iff_of_lookup hid hinfo]
    by_cases hargs : r.args = [] <;> simp [hargs]

theorem flaw?_eq_some_iff {problem : Problem} : t.flaw? r = some problem ↔ t.Flaw r problem := by
  constructor
  · intro h
    rcases t.lookup_cases r.name with hnone | ⟨id, info, hid, hinfo⟩
    · simp only [flaw?, hnone, Option.bind_none, Option.some.injEq] at h
      exact h ▸ .undeclared hnone
    · rw [flaw?_of_lookup hid hinfo] at h
      split at h
      · rename_i hcount
        simp only [Bool.and_eq_true, Bool.not_eq_true', List.isEmpty_eq_false_iff, bne_iff_ne]
          at hcount
        cases h
        exact .argumentCount id info hid hinfo hcount.1 hcount.2
      · cases h
  · rintro (hnone | ⟨id, info, hid, hinfo, hgeneric, hcount⟩)
    · simp [flaw?, hnone]
    · simp [flaw?_of_lookup hid hinfo, hgeneric, hcount]

/-- A written type is refused for its own flaw, and otherwise it depends on its arguments. -/
theorem typeOf_node (t : ClassTable) (r : TypeRef) :
    t.typeOf r =
      match t.flaw? r with
      | some problem => .error (.of problem r.loc)
      | none => (t.typesOf r.args).map (.con r.name) := by
  obtain ⟨name, args, loc⟩ := r
  rw [typeOf]
  rcases t.lookup_cases name with hnone | ⟨id, info, hid, hinfo⟩
  · have hflaw : t.flaw? (.mk name args loc) = some (.uninitializedConstant name) := by
      simp [flaw?, TypeRef.name, hnone]
    rw [hflaw, hnone]
    rfl
  · have hflaw := flaw?_of_lookup (r := .mk name args loc) hid hinfo
    simp only [hid, hinfo, Option.bind_some]
    by_cases hcount : (!args.isEmpty && args.length != info.typeParams.length) = true
    · rw [hflaw.trans (if_pos hcount), if_pos hcount]
      rfl
    · rw [hflaw.trans (if_neg hcount), if_neg hcount]
      change _ = (t.typesOf args).map (Ty.con name)
      cases t.typesOf args <;> rfl

/-! ### All nodes -/

def firstFlaw? (t : ClassTable) (rs : List TypeRef) : Option Diagnostic :=
  rs.findSome? fun r => (t.flaw? r).map fun problem => .of problem r.loc

theorem firstFlaw?_append (t : ClassTable) (rs rs' : List TypeRef) :
    t.firstFlaw? (rs ++ rs') = (t.firstFlaw? rs).or (t.firstFlaw? rs') :=
  List.findSome?_append

theorem firstFlaw?_eq_none_iff {rs : List TypeRef} :
    t.firstFlaw? rs = none ↔ ∀ n ∈ rs, t.Accepts n := by
  simp only [firstFlaw?, List.findSome?_eq_none_iff, Option.map_eq_none_iff, flaw?_eq_none_iff]

theorem firstFlaw?_eq_some_iff {rs : List TypeRef} {d : Diagnostic} :
    t.firstFlaw? rs = some d ↔ ∃ before n after problem, rs = before ++ n :: after ∧
      (∀ m ∈ before, t.Accepts m) ∧ t.Flaw n problem ∧ d = .of problem n.loc := by
  simp only [firstFlaw?, List.findSome?_eq_some_iff, Option.map_eq_some_iff,
    Option.map_eq_none_iff, flaw?_eq_none_iff, flaw?_eq_some_iff]
  constructor
  · rintro ⟨before, n, after, hrs, ⟨problem, hflaw, rfl⟩, hbefore⟩
    exact ⟨before, n, after, problem, hrs, hbefore, hflaw, rfl⟩
  · rintro ⟨before, n, after, problem, hrs, hbefore, hflaw, rfl⟩
    exact ⟨before, n, after, hrs, ⟨problem, hflaw, rfl⟩, hbefore⟩

mutual

/-- A written type stands for what is spelled unless there is a flaw in it. -/
theorem typeOf_eq (t : ClassTable) (r : TypeRef) :
    t.typeOf r = (t.firstFlaw? r.nodes).elim (.ok r.spelled) .error := by
  match r with
  | .mk name args loc =>
    rw [typeOf_node, TypeRef.nodes, firstFlaw?, List.findSome?_cons]
    cases t.flaw? (.mk name args loc) with
    | some problem => rfl
    | none =>
      have hargs := typesOf_eq t args
      simp only [TypeRef.args, TypeRef.name, hargs, Option.map_none, TypeRef.spelled, firstFlaw?]
      cases List.findSome? _ (TypeRef.nodesOf args) <;> rfl
termination_by structural r

theorem typesOf_eq (t : ClassTable) (rs : List TypeRef) :
    t.typesOf rs =
      (t.firstFlaw? (TypeRef.nodesOf rs)).elim (.ok (TypeRef.spelledAll rs)) .error := by
  match rs with
  | [] => rfl
  | r :: rs =>
    rw [typesOf, typeOf_eq t r, typesOf_eq t rs, TypeRef.nodesOf, firstFlaw?_append]
    cases t.firstFlaw? r.nodes with
    | some d => rfl
    | none => cases t.firstFlaw? (TypeRef.nodesOf rs) <;> rfl
termination_by structural rs

end

theorem typeOf_eq_ok_iff {ty : Ty} :
    t.typeOf r = .ok ty ↔ (∀ n ∈ r.nodes, t.Accepts n) ∧ ty = r.spelled := by
  rw [typeOf_eq, ← firstFlaw?_eq_none_iff]
  cases t.firstFlaw? r.nodes <;> simp [eq_comm]

theorem typeOf_eq_error_iff {d : Diagnostic} :
    t.typeOf r = .error d ↔ ∃ before n after problem, r.nodes = before ++ n :: after ∧
      (∀ m ∈ before, t.Accepts m) ∧ t.Flaw n problem ∧ d = .of problem n.loc := by
  rw [typeOf_eq, ← firstFlaw?_eq_some_iff]
  cases t.firstFlaw? r.nodes <;> simp [eq_comm]

theorem plain_typeOf (t : ClassTable) (ref : TypeRef) {ty : Ty} (h : t.typeOf ref = .ok ty) :
    ty.Plain := by
  obtain ⟨-, rfl⟩ := typeOf_eq_ok_iff.mp h
  exact ref.plain_spelled

/-- The class of a written type is declared. -/
theorem exists_classOf_of_typeOf (t : ClassTable) (ref : TypeRef) {ty : Ty}
    (h : t.typeOf ref = .ok ty) : ∃ id, t.classOf ty = some id := by
  obtain ⟨haccepts, rfl⟩ := typeOf_eq_ok_iff.mp h
  obtain ⟨id, info, hid, -⟩ := haccepts ref ref.mem_nodes_self
  obtain ⟨name, args, loc⟩ := ref
  exact ⟨id, hid⟩

/-- A written type is resolved exactly when each of its nodes names a class and has no type
    arguments or as many as the class takes.  It stands for the type with the same names in the
    same shape, in which there is no union and nothing unresolved.  Otherwise the report is about
    the first node with a flaw, at its place, and tells an undeclared name from a wrong number of
    arguments. -/
theorem typeOf_exact (t : ClassTable) (r : TypeRef) :
    (∀ ty, t.typeOf r = .ok ty ↔ (∀ n ∈ r.nodes, t.Accepts n) ∧ ty = r.spelled) ∧
      r.spelled.Plain ∧ r.spelled.Normal ∧
      ∀ d, t.typeOf r = .error d ↔ ∃ before n after problem, r.nodes = before ++ n :: after ∧
        (∀ m ∈ before, t.Accepts m) ∧ t.Flaw n problem ∧ d = .of problem n.loc := by
  have hplain := r.plain_spelled
  exact ⟨fun _ => typeOf_eq_ok_iff, hplain, hplain.proper.normal, fun _ => typeOf_eq_error_iff⟩

end ClassTable

end UnionTyping
