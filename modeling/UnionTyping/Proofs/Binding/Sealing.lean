/-
  UnionTyping/Proofs/Binding/Sealing.lean
  =======================================
  **Sealing gives a type to what was read and has none.**

  Once no unit is waiting, sealing changes the bindings that are starved and nothing else, and
  puts each of their readers on the worklist once, in ascending order (`sealStarved_settles`).
  What it leaves behind is a store in which no binding is starved (`Fed`), and sealing such a
  store again does nothing (`Fed.sealStarved_eq`).

  Being fed lasts.  A new binding has no reader, an assignment leaves a type behind that is
  known, and a binding that is known does not starve when it is read.  So only a unit that
  reads a binding that is still unresolved makes another sealing necessary (`Fed.perform`).
  The types that are assigned have to have an instance of a class among their members for that:
  joining a union without members to another such union gives the unresolved type.
-/
import Mathlib.Data.List.Forall2
import UnionTyping.Binding.Session
import UnionTyping.Proofs.Binding.Growth

namespace UnionTyping

theorem Binding.isStarved_assigned (b : Binding) {a : Assignment} {m : Ty}
    (hm : m ∈ a.ty.members) (hcon : m.IsCon) : (b.assigned a).isStarved = false := by
  have hwidened := Ty.isUnresolved_union b.current hm hcon
  have hcurrent : (b.assigned a).current.isUnresolved = false := by
    unfold Binding.assigned
    simp only
    split
    · rename_i hsame
      rw [← Ty.isUnresolved_of_beq hsame, hwidened]
    · exact hwidened
  rw [isStarved, hcurrent, Bool.false_and]

/-- What sealing makes of a binding.  One that holds nothing and was read gets the type, and
    keeps its slot, its history and its readers; any other stays as it is. -/
structure Binding.Settles (ty : Ty) (b b' : Binding) : Prop where
  starved : b.current = .unresolved → b.readers ≠ [] → b' = { b with current := ty }
  other : b.current ≠ .unresolved ∨ b.readers = [] → b' = b

/-! ### The worklist -/

/-- Units that are not waiting are put at the end in their order. -/
theorem Worklist.enqueueAll_of_new {w : Worklist} {units : List UnitId} (cause : Option Location)
    (hnodup : units.Nodup) (hnew : ∀ u ∈ units, w.holds u = false) :
    w.enqueueAll units cause = w ++ units.map (⟨·, cause⟩) := by
  induction units generalizing w with
  | nil => simp [enqueueAll]
  | cons u us ih =>
    obtain ⟨hu, hus⟩ := List.nodup_cons.mp hnodup
    obtain ⟨hfirst, hrest⟩ := List.forall_mem_cons.mp hnew
    have hadded : w.enqueue u cause = w ++ [⟨u, cause⟩] := by simp [enqueue, hfirst]
    have hlater : ∀ v ∈ us, Worklist.holds (w ++ [⟨u, cause⟩]) v = false := by
      intro v hv
      have hne : u ≠ v := fun heq => hu (heq ▸ hv)
      simpa [holds, hne] using hrest v hv
    calc w.enqueueAll (u :: us) cause
      _ = enqueueAll (w ++ [⟨u, cause⟩]) us cause := by rw [← hadded]; rfl
      _ = w ++ (u :: us).map (⟨·, cause⟩) := by rw [ih hus hlater]; simp

namespace Store

variable {s s' t : Store} {op : Operation} {ops : List Operation} {answer : Answer} {log : Log}

/-- Popping all that is waiting answers the entries of the worklist in order. -/
theorem performAll_pops (bindings : List Binding) (queue : Worklist) :
    performAll ⟨bindings, queue⟩ (List.replicate queue.length .pop) =
      some (queue.map fun next => (.pop, .next (some next)), ⟨bindings, []⟩) := by
  induction queue with
  | nil => rfl
  | cons next rest ih => simp [List.replicate_succ, performAll, perform, pop, ih]

/-! ### What is starved -/

theorem sorted_starvedReaders (bindings : List Binding) :
    (starvedReaders bindings).Pairwise (· < ·) := by
  refine List.foldlRecOn _ _ List.Pairwise.nil fun units hunits b _ => ?_
  exact List.foldlRecOn _ _ hunits fun units hunits u _ => Binding.sorted_insertUnit hunits

/-- No binding is starved. -/
def Fed (s : Store) : Prop := ∀ b ∈ s.bindings, b.isStarved = false

theorem starvedReaders_eq_nil_iff : starvedReaders s.bindings = [] ↔ s.Fed := by
  rw [List.eq_nil_iff_forall_not_mem]
  constructor
  · intro hnone b hb
    by_contra hstarved
    rw [Bool.not_eq_false] at hstarved
    obtain ⟨u, hu⟩ := List.exists_mem_of_ne_nil _ (isStarved_iff.mp hstarved).2
    exact hnone u (mem_starvedReaders.mpr ⟨b, hb, hstarved, hu⟩)
  · intro hfed u hu
    obtain ⟨b, hb, hstarved, -⟩ := mem_starvedReaders.mp hu
    simp [hfed b hb] at hstarved

/-- Sealing does nothing when no binding is starved. -/
theorem Fed.sealStarved_eq (h : s.Fed) (ty : Ty) : s.sealStarved ty = (false, s) := by
  have hbindings : (s.bindings.map fun b => if b.isStarved then { b with current := ty } else b) =
      s.bindings := by
    refine (List.map_congr_left fun b hb => ?_).trans (List.map_id _)
    simp [h b hb]
  simp [sealStarved, hbindings, starvedReaders_eq_nil_iff.mpr h, Worklist.enqueueAll]

/-- Sealing leaves no binding starved. -/
theorem fed_sealStarved (s : Store) {ty : Ty} (hty : ty.isUnresolved = false) :
    (s.sealStarved ty).2.Fed := by
  intro b hb
  obtain ⟨b', -, rfl⟩ := List.mem_map.mp hb
  split
  · simp [Binding.isStarved, hty]
  · rename_i hfed
    exact Bool.eq_false_iff.mpr hfed

/-- No operation starves a binding except the reading of one that is unresolved. -/
theorem Fed.perform (h : s.Fed) (hstep : s.perform op = some (answer, s'))
    (hassigned : ∀ id site ty cause, op = .assign id site ty cause → ty.isUnresolved = false →
      ∃ m ∈ ty.members, m.IsCon)
    (hread : ∀ id reader, (op, answer) ≠ (.read id reader, .type .unresolved)) : s'.Fed := by
  cases perform_iff.mp hstep with
  | intern slot => exact forall_intern h rfl
  | read id reader known =>
    refine forall_read h fun b hb => ?_
    have hcurrent : b.current.isUnresolved = false := by
      have hne := hread id reader
      rw [typeOf_eq hb] at hne
      cases hcur : b.current with
      | unresolved => exact absurd (by rw [hcur]) hne
      | con | oneOf => rfl
    simp [Binding.isStarved, Binding.readBy, hcurrent]
  | assign id site ty cause =>
    refine forall_assign h fun hknown b _ => ?_
    obtain ⟨m, hm, hcon⟩ := hassigned id site ty cause rfl hknown
    exact b.isStarved_assigned hm hcon
  | pop =>
    rw [Fed, bindings_pop]
    exact h
  | sealStarved ty =>
    rw [h.sealStarved_eq]
    exact h
  | find | peek | isIdle | enqueue => exact h

/-- In a session in which no unit reads a binding that is unresolved, none becomes starved. -/
theorem Fed.performAll (h : s.Fed) (hrun : s.performAll ops = some (log, t))
    (hassigned : ∀ id site ty cause, .assign id site ty cause ∈ ops → ty.isUnresolved = false →
      ∃ m ∈ ty.members, m.IsCon)
    (hread : ∀ id reader, (.read id reader, .type .unresolved) ∉ log) : t.Fed := by
  refine performAll_keeps (I := Fed) hrun h fun r r' op answer hmem hr hstep => ?_
  apply hr.perform hstep
  · rintro id site ty cause rfl
    rw [← map_fst_of_performAll hrun] at hassigned
    exact hassigned id site ty cause (List.mem_map_of_mem (f := Prod.fst) hmem)
  · rintro id reader heq
    exact hread id reader (heq ▸ hmem)

/-! ### Sealing -/

theorem Fed.perform_sealStarved (h : s.Fed) (hidle : s.isIdle = true) (ty : Ty) :
    s.perform (.sealStarved ty) = some (.flag false, s) := by
  have hsealed := Performs.sealStarved ty hidle
  rw [h.sealStarved_eq] at hsealed
  exact perform_iff.mpr hsealed

theorem isStarved_iff_eq {b : Binding} :
    b.isStarved = true ↔ b.current = .unresolved ∧ b.readers ≠ [] := by
  rw [isStarved_iff]
  cases b.current <;> simp [Ty.isUnresolved]

theorem settles_sealStarved (s : Store) (ty : Ty) :
    List.Forall₂ (Binding.Settles ty) s.bindings (s.sealStarved ty).2.bindings := by
  refine List.forall₂_map_right_iff.mpr (List.forall₂_same.mpr fun b _ => ⟨?_, ?_⟩)
  · intro hcurrent hreaders
    exact if_pos (isStarved_iff_eq.mpr ⟨hcurrent, hreaders⟩)
  · intro hother
    refine if_neg fun hstarved => ?_
    obtain ⟨hcurrent, hreaders⟩ := isStarved_iff_eq.mp hstarved
    simp [hcurrent, hreaders] at hother

/-- Sealing a store in which no unit is waiting settles the bindings that were read and hold
    nothing, and no others.  It answers whether there was one, and each reader of such a binding
    waits once, in ascending order and without a cause.  Once they are popped, sealing again, to
    whatever type, answers no and changes nothing.  So it is after any session in which no unit
    reads a binding that is unresolved, if the known types that are assigned there have an
    instance of a class among their members, as every type in normal form has. -/
theorem sealStarved_settles {ty : Ty} (hidle : s.isIdle = true) (hty : ty.isUnresolved = false) :
    ∃ (any : Bool) (units : List UnitId) (settled popped : Store),
      s.perform (.sealStarved ty) = some (.flag any, settled) ∧
      (any = true ↔ ∃ b ∈ s.bindings, b.current = .unresolved ∧ b.readers ≠ []) ∧
      List.Forall₂ (Binding.Settles ty) s.bindings settled.bindings ∧
      settled.queue = units.map (⟨·, none⟩) ∧ units.Pairwise (· < ·) ∧
      (∀ u, u ∈ units ↔ ∃ b ∈ s.bindings, b.current = .unresolved ∧ u ∈ b.readers) ∧
      settled.performAll (List.replicate units.length .pop) =
        some (units.map fun u => (.pop, .next (some ⟨u, none⟩)), popped) ∧
      popped = ⟨settled.bindings, []⟩ ∧
      (∀ ty', popped.perform (.sealStarved ty') = some (.flag false, popped)) ∧
      ∀ (ops : List Operation) (log : Log) (t : Store) (ty' : Ty),
        popped.performAll ops = some (log, t) → t.isIdle = true →
        (∀ id site ty cause, .assign id site ty cause ∈ ops → ty.isUnresolved = false →
          ∃ m ∈ ty.members, m.IsCon) →
        (∀ id reader, (.read id reader, .type .unresolved) ∉ log) →
          t.perform (.sealStarved ty') = some (.flag false, t) := by
  have hempty : s.queue = [] := List.isEmpty_iff.mp hidle
  have hqueue : (s.sealStarved ty).2.queue = (starvedReaders s.bindings).map (⟨·, none⟩) := by
    have hnodup := (sorted_starvedReaders s.bindings).imp Nat.ne_of_lt
    have hadded := Worklist.enqueueAll_of_new (w := s.queue) none hnodup
      (by simp [hempty, Worklist.holds])
    simpa [sealStarved, hempty] using hadded
  have hfed : Fed ⟨(s.sealStarved ty).2.bindings, []⟩ := fed_sealStarved s hty
  have hpops := performAll_pops (s.sealStarved ty).2.bindings (s.sealStarved ty).2.queue
  rw [hqueue, List.length_map, List.map_map, ← hqueue] at hpops
  refine ⟨_, starvedReaders s.bindings, _, ⟨(s.sealStarved ty).2.bindings, []⟩,
    perform_iff.mpr (.sealStarved ty hidle), ?_, settles_sealStarved s ty, hqueue,
    sorted_starvedReaders _, ?_, hpops, rfl, ?_, ?_⟩
  · have hany : (s.sealStarved ty).1 = true ↔ ¬ s.Fed := by
      rw [← starvedReaders_eq_nil_iff]
      simp [sealStarved]
    rw [hany]
    simp [Fed, isStarved_iff_eq]
  · intro u
    rw [mem_starvedReaders]
    constructor
    · rintro ⟨b, hb, hstarved, hu⟩
      exact ⟨b, hb, (isStarved_iff_eq.mp hstarved).1, hu⟩
    · rintro ⟨b, hb, hcurrent, hu⟩
      exact ⟨b, hb, isStarved_iff_eq.mpr ⟨hcurrent, List.ne_nil_of_mem hu⟩, hu⟩
  · exact hfed.perform_sealStarved rfl
  · intro ops log t ty' hrun htidle hassigned hread
    exact (hfed.performAll hrun hassigned hread).perform_sealStarved htidle ty'

/-- Two of the variables were read by several units and never assigned, one was assigned and
    one was never read. -/
def awaiting : Store where
  bindings :=
    [⟨.ivar 0 "a", [], .unresolved, [1, 3]⟩, ⟨.ivar 0 "b", [⟨default, .int⟩], .int, [2]⟩,
      .fresh (.ivar 0 "c"), ⟨.ivar 0 "d", [], .unresolved, [1, 2]⟩]
  queue := []

/-- The readers of the two variables wait.  After that, variables are read only when they hold
    something, and there is nothing left to seal. -/
theorem awaiting_settles :
    ∃ settled popped log t, awaiting.perform (.sealStarved .nil) = some (.flag true, settled) ∧
      settled.bindings.map Binding.current = [.nil, .int, .unresolved, .nil] ∧
      settled.queue = [⟨1, none⟩, ⟨2, none⟩, ⟨3, none⟩] ∧
      settled.performAll [.pop, .pop, .pop] = some (log, popped) ∧
      popped.performAll [.read 0 4, .assign 2 default .char default, .read 2 4] =
        some ([(.read 0 4, .type .nil), (.assign 2 default .char default, .flag true),
          (.read 2 4, .type .char)], t) ∧
      t.perform (.sealStarved .int) = some (.flag false, t) := by
  have hidle : awaiting.isIdle = true := rfl
  have hnil : Ty.nil.isUnresolved = false := rfl
  obtain ⟨any, units, settled, popped, hseal, -, -, -, -, -, -, rfl, -, hlater⟩ :=
    sealStarved_settles hidle hnil
  cases hseal
  refine ⟨_, _, _, _, rfl, rfl, rfl, rfl, rfl, ?_⟩
  refine hlater [.read 0 4, .assign 2 default .char default, .read 2 4]
    [(.read 0 4, .type .nil), (.assign 2 default .char default, .flag true),
      (.read 2 4, .type .char)] _ .int rfl rfl ?_ ?_
  · intro id site ty cause hassign
    simp only [List.mem_cons, reduceCtorEq, false_or, Operation.assign.injEq, List.not_mem_nil,
      or_false] at hassign
    obtain ⟨-, -, rfl, -⟩ := hassign
    intro
    exact ⟨.char, List.mem_singleton_self _, "Char", [], rfl⟩
  · intro id reader
    simp [Ty.nil, Ty.char]

end Store

end UnionTyping
