/-
  UnionTyping/Proofs/Binding/History.lean
  =======================================
  **The type of a binding is what its history says.**

  A binding remembers each assignment once, and apart from that its type is widened in
  place or given to it by sealing.  In every session with types in normal form the two agree:
  the type is the union of what the binding was sealed to and of the types in its history, with
  the members in the order in which they came (`history_accounts`).

  The argument follows one binding.  An operation leaves it alone, assigns it or seals it
  (`touches_perform`).  An assignment that is new puts its type at the end, and joining types
  is associative to the letter, not only up to the order of the members; one that was
  remembered before adds nothing.  Only a binding that remembers no assignment can be sealed
  (`Accounts.never_assigned`), so sealing does not lose anything.
-/
import UnionTyping.Binding.Session
import UnionTyping.Proofs.Binding.Growth
import UnionTyping.Proofs.Ty.Semilattice

namespace UnionTyping

def Operation.InNormalForm : Operation → Prop
  | .assign _ _ ty _ => ty.Normal
  | .sealStarved ty => ty.Normal
  | _ => True

instance : DecidablePred Operation.InNormalForm
  | .assign _ _ ty _ => inferInstanceAs (Decidable ty.Normal)
  | .sealStarved ty => inferInstanceAs (Decidable ty.Normal)
  | .intern _ | .find _ | .read _ _ | .peek _ | .enqueue _ _ | .pop | .isIdle => isTrue trivial

namespace Store

variable {s s' t : Store} {op : Operation} {ops : List Operation} {answer : Answer} {log : Log}
  {id : BindingId} {settled : Ty}

/-! ### Sessions with types in normal form -/

/-- The bindings belong to different slots and have types in normal form, and no unit waits
    twice. -/
def Sound (s : Store) : Prop := ∃ n, s.Ok Ty.NormalInstance (fun _ => True) n

theorem sound_empty : empty.Sound :=
  ⟨0, List.forall_mem_nil _, List.nodup_nil, List.forall_mem_nil _, List.nodup_nil⟩

theorem Sound.perform (h : s.Sound) (hop : op.InNormalForm)
    (hstep : s.perform op = some (answer, s')) : s'.Sound := by
  obtain ⟨n, hok⟩ := h
  -- a unit that has not been seen before makes the bound larger
  have hroom : ∀ unit, s.Ok Ty.NormalInstance (fun _ => True) (max n (unit + 1)) :=
    fun unit => hok.weaken (fun _ hm => hm) (fun _ _ => trivial) (Nat.le_max_left _ _)
  have hunit : ∀ unit, unit < max n (unit + 1) := by omega
  cases perform_iff.mp hstep with
  | intern slot => exact ⟨n, hok.intern trivial⟩
  | read id reader => exact ⟨_, (hroom reader).read id (hunit reader)⟩
  | assign id site ty cause => exact ⟨n, hok.assign (fun _ hm => hm.isCon) id hop.isOver site cause⟩
  | enqueue unit cause => exact ⟨_, (hroom unit).enqueue (hunit unit) cause⟩
  | pop => exact ⟨n, hok.pop⟩
  | sealStarved ty => exact ⟨n, hok.sealStarved hop.isOver⟩
  | find | peek | isIdle => exact ⟨n, hok⟩

/-- No operation takes anything away from a binding. -/
theorem Sound.extends (h : s.Sound) (hop : op.InNormalForm)
    (hstep : s.perform op = some (answer, s')) : s.Extends s' := by
  obtain ⟨n, hok⟩ := h
  cases perform_iff.mp hstep with
  | intern slot => exact (grows_intern s slot).bindings
  | read id reader => exact (grows_read s id reader).bindings
  | assign id site ty cause =>
    exact (grows_assign (fun _ hm => hm.isCon) hok id hop.isOver site cause).bindings
  | sealStarved ty => exact (grows_sealStarved hok ty).bindings
  | pop =>
    intro i b hb
    exact ⟨b, by rw [bindings_pop]; exact hb, .refl b⟩
  | find | peek | isIdle | enqueue => exact .refl s

/-! ### One binding and one operation -/

/-- The assignments made to a binding, each once. -/
def historyOf (s : Store) (id : BindingId) : List Assignment :=
  (s.bindings[id]?.map Binding.history).getD []

def sealing? (s : Store) (id : BindingId) : Operation → Option Ty
  | .sealStarved ty => if s.bindings[id]?.any Binding.isStarved then some ty else none
  | _ => none

end Store

/-- The assignment of a known type that an operation makes to a binding, if it makes one. -/
def Operation.assignmentTo? (op : Operation) (id : BindingId) : Option Assignment :=
  match op with
  | .assign id' site ty _ => if id' = id ∧ ty.isUnresolved = false then some ⟨site, ty⟩ else none
  | _ => none

def remember (history : List Assignment) (a : Assignment) : List Assignment :=
  if history.any (· == a) then history else history ++ [a]

namespace Store

variable {s s' t : Store} {op : Operation} {ops : List Operation} {answer : Answer} {log : Log}
  {id : BindingId} {settled : Ty}

theorem historyOf_eq {b : Binding} (hb : s.bindings[id]? = some b) :
    s.historyOf id = b.history := by
  rw [historyOf, hb]
  rfl

inductive Touches (s s' : Store) (id : BindingId) (op : Operation) : Prop where
  | nothing (unassigned : op.assignmentTo? id = none) (unsealed : s.sealing? id op = none)
      (type : s'.typeOf id = s.typeOf id) (history : s'.historyOf id = s.historyOf id)
  | assigned (b : Binding) (a : Assignment) (assignment : op.assignmentTo? id = some a)
      (unsealed : s.sealing? id op = none) (before : s.bindings[id]? = some b)
      (after : s'.bindings[id]? = some (b.assigned a))
  | sealed (b : Binding) (ty : Ty) (unassigned : op.assignmentTo? id = none)
      (sealing : s.sealing? id op = some ty) (before : s.bindings[id]? = some b)
      (starved : b.isStarved = true) (after : s'.bindings[id]? = some { b with current := ty })

theorem typeOf_intern (s : Store) (slot : Slot) (id : BindingId) :
    (s.intern slot).2.typeOf id = s.typeOf id ∧
      (s.intern slot).2.historyOf id = s.historyOf id := by
  unfold intern
  cases s.find slot with
  | some i => exact ⟨rfl, rfl⟩
  | none =>
    by_cases hid : id < s.bindings.length
    · simp [typeOf, historyOf, List.getElem?_append_left hid]
    · by_cases hnew : id = s.bindings.length
      · simp [typeOf, historyOf, hnew, Binding.fresh]
      · have hbefore : s.bindings[id]? = none := List.getElem?_eq_none (Nat.le_of_not_lt hid)
        have hafter : (s.bindings ++ [.fresh slot])[id]? = none := by
          apply List.getElem?_eq_none
          rw [List.length_append, List.length_singleton]
          exact Nat.lt_of_le_of_ne (Nat.le_of_not_lt hid) (Ne.symm hnew)
        simp [typeOf, historyOf, hbefore, hafter]

theorem touches_assign {site cause : Location} {ty : Ty} {i : BindingId}
    (hknown : ty.isUnresolved = true ∨ i < s.bindings.length) :
    Touches s (s.assign i site ty cause).2 id (.assign i site ty cause) := by
  cases hty : ty.isUnresolved with
  | true =>
    have hsame : (s.assign i site ty cause).2 = s := by simp [assign, hty]
    rw [hsame]
    exact .nothing (by simp [Operation.assignmentTo?, hty]) rfl rfl rfl
  | false =>
    have hi : i < s.bindings.length := by simpa [hty] using hknown
    have hb := List.getElem?_eq_getElem hi
    by_cases hid : i = id
    · subst hid
      exact .assigned s.bindings[i] ⟨site, ty⟩ (by simp [Operation.assignmentTo?, hty]) rfl hb
        (getElem?_assign hb hty site cause)
    · have hsame : (s.assign i site ty cause).2.bindings[id]? = s.bindings[id]? := by
        simp [bindings_assign hb hty, hid]
      refine .nothing (by simp [Operation.assignmentTo?, hid]) rfl ?_ ?_
      · rw [typeOf, hsame, typeOf]
      · rw [historyOf, hsame, historyOf]

theorem touches_sealStarved (s : Store) (id : BindingId) (ty : Ty) :
    Touches s (s.sealStarved ty).2 id (.sealStarved ty) := by
  have hafter : (s.sealStarved ty).2.bindings[id]? =
      s.bindings[id]?.map fun b => if b.isStarved then { b with current := ty } else b :=
    List.getElem?_map
  cases hb : s.bindings[id]? with
  | none =>
    refine .nothing rfl (by simp [sealing?, hb]) ?_ ?_
    · simp [typeOf, hafter, hb]
    · simp [historyOf, hafter, hb]
  | some b =>
    by_cases hstarved : b.isStarved = true
    · exact .sealed b ty rfl (by simp [sealing?, hb, hstarved]) hb hstarved
        (by simp [hafter, hb, hstarved])
    · refine .nothing rfl (by simp [sealing?, hb, hstarved]) ?_ ?_
      · simp [typeOf, hafter, hb, hstarved]
      · simp [historyOf, hafter, hb, hstarved]

theorem touches_perform (hstep : s.perform op = some (answer, s')) : Touches s s' id op := by
  cases perform_iff.mp hstep with
  | intern slot => exact .nothing rfl rfl (typeOf_intern s slot id).1 (typeOf_intern s slot id).2
  | read i reader =>
    have hsame : ∀ {α : Type} (f : Binding → α), (∀ b, f (b.readBy reader) = f b) →
        (s.read i reader).2.bindings[id]?.map f = s.bindings[id]?.map f := by
      intro α f hf
      rw [← List.getElem?_map, ← List.getElem?_map]
      exact congrArg (·[id]?) (map_modify_eq hf s.bindings i)
    refine .nothing rfl rfl ?_ ?_
    · rw [typeOf, hsame _ fun _ => rfl, typeOf]
    · rw [historyOf, hsame _ fun _ => rfl, historyOf]
  | assign i site ty cause known => exact touches_assign known
  | pop =>
    refine .nothing rfl rfl ?_ ?_
    · rw [typeOf, bindings_pop, typeOf]
    · rw [historyOf, bindings_pop, historyOf]
  | sealStarved ty => exact touches_sealStarved s id ty
  | find | peek | isIdle | enqueue => exact .nothing rfl rfl rfl rfl

/-! ### Accounting for the type of a binding -/

/-- The type of the binding is the union of the type it was sealed to and of those in its
    history, which are all known. -/
structure Accounts (s : Store) (id : BindingId) (settled : Ty) : Prop where
  normal : settled.Normal
  known : ∀ a ∈ s.historyOf id, a.ty.Normal ∧ a.ty.isUnresolved = false
  type : s.typeOf id = settled.union (.unionAll ((s.historyOf id).map Assignment.ty))

theorem Accounts.normal_history (h : s.Accounts id settled) :
    ∀ ty ∈ (s.historyOf id).map Assignment.ty, ty.Normal := by
  intro ty hty
  obtain ⟨a, ha, rfl⟩ := List.mem_map.mp hty
  exact (h.known a ha).1

/-- A binding holds what is in its history. -/
theorem Accounts.has (h : s.Accounts id settled) {a : Assignment} (ha : a ∈ s.historyOf id)
    {m : Ty} (hm : a.ty.Has m) : (s.typeOf id).Has m := by
  rw [h.type, h.normal.has_union_iff (.joined h.normal_history),
    Ty.Normal.has_unionAll_iff h.normal_history]
  exact .inr ⟨a.ty, List.mem_map_of_mem ha, hm⟩

/-- A binding that holds nothing remembers no assignment. -/
theorem Accounts.never_assigned (h : s.Accounts id settled)
    (hnothing : (s.typeOf id).members = []) : s.historyOf id = [] := by
  cases hhistory : s.historyOf id with
  | nil => rfl
  | cons a rest =>
    have ha : a ∈ s.historyOf id := by simp [hhistory]
    obtain ⟨hnormal, hknown⟩ := h.known a ha
    obtain ⟨m, hm⟩ := List.exists_mem_of_ne_nil _ (hnormal.members_ne_nil hknown)
    have hhas := h.has ha (.of_mem hm)
    rw [Ty.Has, hnothing] at hhas
    cases hhas

/-- An assignment like one in the history does not change the type. -/
theorem Accounts.union_eq (h : s.Accounts id settled) {a : Assignment} (ha : a.ty.Normal)
    (hagain : (s.historyOf id).any (· == a) = true) : (s.typeOf id).union a.ty = s.typeOf id := by
  obtain ⟨a', ha', hsame⟩ := List.any_eq_true.mp hagain
  obtain ⟨-, hty⟩ := Assignment.beq_iff.mp hsame
  have hnormal : (s.typeOf id).Normal := by
    rw [h.type]
    exact h.normal.union (.joined h.normal_history)
  refine Ty.union_eq_left (fun _ hm => hm.isCon) hnormal.isOver ha.isOver fun m hm => ?_
  have ha'normal := (h.known a' ha').1
  exact h.has ha' (ha.within_of_beq ha'normal (ha'normal.beq_symm ha hty) m hm)

theorem Accounts.remembered (h : s.Accounts id settled) {a : Assignment} (ha : a.ty.Normal)
    (hknown : a.ty.isUnresolved = false) (htype : s'.typeOf id = (s.typeOf id).union a.ty)
    (hhistory : s'.historyOf id = remember (s.historyOf id) a) : s'.Accounts id settled := by
  by_cases hagain : (s.historyOf id).any (· == a) = true
  · rw [remember, if_pos hagain] at hhistory
    rw [h.union_eq ha hagain] at htype
    exact ⟨h.normal, by rw [hhistory]; exact h.known, by rw [htype, hhistory]; exact h.type⟩
  · rw [remember, if_neg hagain] at hhistory
    refine ⟨h.normal, ?_, ?_⟩
    · rw [hhistory]
      exact List.forall_mem_append.mpr ⟨h.known, List.forall_mem_singleton.mpr ⟨ha, hknown⟩⟩
    · calc s'.typeOf id
        _ = (settled.union (.unionAll ((s.historyOf id).map Assignment.ty))).union a.ty := by
          rw [htype, h.type]
        _ = settled.union ((Ty.unionAll ((s.historyOf id).map Assignment.ty)).union a.ty) :=
          h.normal.union_assoc (.joined h.normal_history) ha
        _ = settled.union (.unionAll ((s'.historyOf id).map Assignment.ty)) := by
          simp [hhistory, Ty.unionAll]

theorem normal_of_assignmentTo? {a : Assignment} (hop : op.InNormalForm)
    (ha : op.assignmentTo? id = some a) : a.ty.Normal ∧ a.ty.isUnresolved = false := by
  cases op with
  | assign i site ty cause =>
    obtain ⟨⟨-, hknown⟩, heq⟩ := Option.ite_none_right_eq_some.mp ha
    cases heq
    exact ⟨hop, hknown⟩
  | _ => cases ha

theorem normal_of_sealing? {ty : Ty} (hop : op.InNormalForm) (hty : s.sealing? id op = some ty) :
    ty.Normal := by
  cases op with
  | sealStarved ty' =>
    obtain ⟨-, heq⟩ := Option.ite_none_right_eq_some.mp hty
    cases heq
    exact hop
  | _ => cases hty

theorem historyOf_touched (htouch : Touches s s' id op) :
    s'.historyOf id = (op.assignmentTo? id).elim (s.historyOf id) (remember (s.historyOf id)) := by
  cases htouch with
  | nothing unassigned _ _ history => rw [history, unassigned, Option.elim_none]
  | assigned b a assignment _ before after =>
    rw [historyOf_eq after, historyOf_eq before, assignment]
    rfl
  | sealed b ty unassigned _ before _ after =>
    rw [historyOf_eq after, historyOf_eq before, unassigned, Option.elim_none]

theorem Accounts.touched (h : s.Accounts id settled) (hsound : s.Sound) (hop : op.InNormalForm)
    (htouch : Touches s s' id op) : s'.Accounts id ((s.sealing? id op).getD settled) := by
  obtain ⟨n, hok⟩ := hsound
  have hhistory := historyOf_touched htouch
  cases htouch with
  | nothing _ unsealed type history =>
    rw [unsealed]
    exact ⟨h.normal, by rw [history]; exact h.known, by rw [type, history]; exact h.type⟩
  | assigned b a assignment unsealed before after =>
    obtain ⟨ha, hknown⟩ := normal_of_assignmentTo? hop assignment
    rw [unsealed]
    rw [assignment] at hhistory
    refine h.remembered ha hknown ?_ hhistory
    rw [typeOf_eq after, typeOf_eq before]
    exact Binding.current_assigned (fun _ hm => hm.isCon) (hok.getElem? before) ha.isOver
  | sealed b ty unassigned sealing before starved after =>
    have hnothing : (s.typeOf id).members = [] := by
      rw [typeOf_eq before]
      exact (hok.getElem? before).isOver.isUnresolved_iff.mp (isStarved_iff.mp starved).1
    have hty := normal_of_sealing? hop sealing
    rw [unassigned, Option.elim_none, h.never_assigned hnothing] at hhistory
    rw [sealing]
    refine ⟨hty, by simp [hhistory], ?_⟩
    rw [hhistory, typeOf_eq after]
    exact hty.union_unresolved.symm

/-! ### Sessions -/

/-- The type that a binding is sealed to in a session, the last one if there are several, and
    `settled` if there is none. -/
def sealedTo (s : Store) (id : BindingId) (settled : Ty) : List Operation → Ty
  | [] => settled
  | op :: ops =>
    match s.perform op with
    | none => settled
    | some (_, next) => next.sealedTo id ((s.sealing? id op).getD settled) ops

def assignmentsTo (id : BindingId) (ops : List Operation) : List Assignment :=
  ops.filterMap (·.assignmentTo? id)

theorem sound_of_performAll (hsound : s.Sound) (hops : ∀ op ∈ ops, op.InNormalForm)
    (hrun : s.performAll ops = some (log, t)) : t.Sound := by
  induction ops generalizing s log with
  | nil =>
    cases hrun
    exact hsound
  | cons op ops ih =>
    obtain ⟨hop, hops⟩ := List.forall_mem_cons.mp hops
    obtain ⟨answer, next, rest, hstep, hrest, rfl⟩ := performAll_cons_iff.mp hrun
    exact ih (hsound.perform hop hstep) hops hrest

/-- What is true of a binding at the start of a session is true of it at the end, with what
    was assigned and what it was sealed to in between. -/
theorem Accounts.performAll (hsound : s.Sound) (hops : ∀ op ∈ ops, op.InNormalForm)
    (hrun : s.performAll ops = some (log, t)) (h : s.Accounts id settled) :
    t.Accounts id (s.sealedTo id settled ops) ∧
      t.historyOf id = (assignmentsTo id ops).foldl remember (s.historyOf id) := by
  induction ops generalizing s settled log with
  | nil =>
    cases hrun
    exact ⟨h, rfl⟩
  | cons op ops ih =>
    obtain ⟨hop, hops⟩ := List.forall_mem_cons.mp hops
    obtain ⟨answer, next, rest, hstep, hrest, rfl⟩ := performAll_cons_iff.mp hrun
    have htouch : Touches s next id op := touches_perform hstep
    obtain ⟨haccounts, hhistory⟩ :=
      ih (hsound.perform hop hstep) hops hrest (h.touched hsound hop htouch)
    refine ⟨?_, ?_⟩
    · simpa only [sealedTo, hstep] using haccounts
    · rw [hhistory, historyOf_touched htouch, assignmentsTo, assignmentsTo, List.filterMap_cons]
      cases op.assignmentTo? id <;> rfl

theorem pairwise_remember {history : List Assignment} (a : Assignment)
    (h : history.Pairwise fun a a' => (a == a') = false) :
    (remember history a).Pairwise fun a a' => (a == a') = false := by
  unfold remember
  split
  · exact h
  · rename_i hnew
    refine List.pairwise_append.mpr ⟨h, List.pairwise_singleton _ _, ?_⟩
    simpa using hnew

/-- No assignment is remembered twice. -/
theorem pairwise_foldl_remember (as : List Assignment) {history : List Assignment}
    (h : history.Pairwise fun a a' => (a == a') = false) :
    (as.foldl remember history).Pairwise fun a a' => (a == a') = false := by
  induction as generalizing history with
  | nil => exact h
  | cons a as ih => exact ih (pairwise_remember a h)

/-- An assignment answers whether it changed the type of the binding. -/
theorem Sound.assign_fst (h : s.Sound) {site cause : Location} {ty : Ty} (hty : ty.Normal)
    (hknown : ty.isUnresolved = true ∨ id < s.bindings.length) :
    (s.assign id site ty cause).1 = ((s.assign id site ty cause).2.typeOf id != s.typeOf id) := by
  obtain ⟨n, hok⟩ := h
  cases hu : ty.isUnresolved with
  | true => simp [assign, hu, bne]
  | false =>
    have hid : id < s.bindings.length := by simpa [hu] using hknown
    have hb := List.getElem?_eq_getElem hid
    rw [typeOf_eq (getElem?_assign hb hu site cause), typeOf_eq hb,
      Binding.current_assigned (fun _ hm => hm.isCon) (hok.getElem? hb) hty.isOver]
    cases hsame : (s.bindings[id].current.union ty == s.bindings[id].current) with
    | true => simp [assign, hu, hb, hsame, bne]
    | false => simp [assign, hu, hb, hsame, bne]

/-- In every session with types in normal form, the type of a binding is the union of what it
    was sealed to last, if it was, and of the types in its history, with the members in this
    order.  The history lists the assignments of known types to the binding, each at the first
    time, and no two of them have the same place and the same type.  Whatever is done next, the
    members of each type stay where they are, and an assignment answers whether the type of the
    binding is another one.  Since a session may end anywhere, so it is at each point. -/
theorem history_accounts (hops : ∀ op ∈ ops, op.InNormalForm)
    (hrun : empty.performAll ops = some (log, t)) :
    (∀ (id : BindingId) (b : Binding), t.bindings[id]? = some b →
      b.current =
          (empty.sealedTo id .unresolved ops).union (.unionAll (b.history.map Assignment.ty)) ∧
        b.history = (assignmentsTo id ops).foldl remember [] ∧
        b.history.Pairwise fun a a' => a.site = a'.site → (a.ty == a'.ty) = false) ∧
    ∀ (op : Operation) (answer : Answer) (t' : Store), op.InNormalForm →
      t.perform op = some (answer, t') →
        (∀ id, (t.typeOf id).members <+: (t'.typeOf id).members) ∧
          ∀ id site ty cause, op = .assign id site ty cause →
            answer = .flag (t'.typeOf id != t.typeOf id) := by
  have hsound := sound_of_performAll sound_empty hops hrun
  constructor
  · intro id b hb
    have hstart : empty.Accounts id .unresolved := ⟨.unresolved, List.forall_mem_nil _, rfl⟩
    obtain ⟨haccounts, hhistory⟩ := hstart.performAll sound_empty hops hrun
    have htype := haccounts.type
    rw [typeOf_eq hb, historyOf_eq hb] at htype
    rw [historyOf_eq hb] at hhistory
    refine ⟨htype, hhistory, ?_⟩
    rw [hhistory]
    refine (pairwise_foldl_remember _ List.Pairwise.nil).imp fun {a a'} hapart hsite => ?_
    rw [← Bool.not_eq_true] at hapart ⊢
    exact fun hty => hapart (Assignment.beq_iff.mpr ⟨hsite, hty⟩)
  · intro op answer t' hop hstep
    refine ⟨(hsound.extends hop hstep).prefix_members, ?_⟩
    rintro id site ty cause rfl
    cases perform_iff.mp hstep with
    | assign _ _ _ _ known => exact congrArg Answer.flag (hsound.assign_fst hop known)

/-- A variable is assigned the same union twice at one place, with the members in another
    order, and the unresolved type in between.  Another variable is read and sealed before it is
    assigned, and then assigned what it was sealed to and more. -/
def accounting : List Operation :=
  [.intern (.ivar 0 "a"), .assign 0 default (.oneOf [.int, .char]) default,
    .assign 0 default .unresolved default, .assign 0 default (.oneOf [.char, .int]) default,
    .intern (.ivar 0 "b"), .read 1 1, .sealStarved .nil, .pop,
    .assign 1 default (.oneOf [.int, .nil]) default]

/-- The first variable has one assignment in its history, and the second holds what it was
    sealed to before what it was assigned.  A further member comes after these. -/
theorem accounting_accounts :
    ∃ log t, empty.performAll accounting = some (log, t) ∧
      (∀ op ∈ accounting, op.InNormalForm) ∧
      (∃ b, t.bindings[0]? = some b ∧ b.history = [⟨default, .oneOf [.int, .char]⟩] ∧
        b.current = .oneOf [.int, .char]) ∧
      (∃ b, t.bindings[1]? = some b ∧ b.history = [⟨default, .oneOf [.int, .nil]⟩] ∧
        b.current = .oneOf [.nil, .int]) ∧
      ∃ t', t.perform (.assign 1 default .char default) = some (.flag true, t') ∧
        (t.typeOf 1).members <+: (t'.typeOf 1).members := by
  have hops : ∀ op ∈ accounting, op.InNormalForm := by decide +kernel
  refine ⟨_, _, rfl, hops, ?_⟩
  obtain ⟨hbindings, hnext⟩ := history_accounts hops rfl
  refine ⟨⟨_, rfl, ?_, ?_⟩, ⟨_, rfl, ?_, ?_⟩, ⟨_, rfl, ?_⟩⟩
  · exact (hbindings 0 _ rfl).2.1.trans (by rfl)
  · exact (hbindings 0 _ rfl).1.trans (by rfl)
  · exact (hbindings 1 _ rfl).2.1.trans (by rfl)
  · exact (hbindings 1 _ rfl).1.trans (by rfl)
  · exact (hnext (.assign 1 default .char default) _ _ (by decide +kernel) rfl).1 1

end Store

end UnionTyping
