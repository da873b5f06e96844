/-
  UnionTyping/Proofs/Binding/Freshness.lean
  =========================================
  **No reader misses an update.**

  A unit that has read a binding keeps what it read until it is checked again.  However the
  store is used, what a unit has read since it was last taken off the worklist is what the
  binding still holds, unless the unit is waiting (`read_upToDate`).

  The argument follows one read.  It makes the unit a reader of the binding (`upToDate_read`).
  From then on no operation makes the store forget the reader or change the type of the
  binding without putting the unit on the worklist (`Notifies`), and only popping the unit
  takes it off again (`holds_perform`).
-/
import UnionTyping.Binding.Session
import UnionTyping.Proofs.Binding.Growth

namespace UnionTyping.Store

variable {s s' t : Store} {op : Operation} {answer : Answer} {unit : UnitId}

/-! ### What one operation keeps -/

/-- No reader of a binding is forgotten, and when its type is another all its readers are
    waiting. -/
def Notifies (s s' : Store) : Prop :=
  ∀ (i : BindingId) (b : Binding), s.bindings[i]? = some b →
    ∃ b', s'.bindings[i]? = some b' ∧ b.readers ⊆ b'.readers ∧
      (b'.current ≠ b.current → ∀ u ∈ b.readers, s'.queue.holds u = true)

theorem Grows.notifies (h : s.Grows s') : s.Notifies s' := by
  intro i b hb
  obtain ⟨b', hb', hgrows⟩ := h.bindings i b hb
  exact ⟨b', hb', hgrows.readers, h.queued i b b' hb hb'⟩

theorem notifies_of_bindings_eq (h : s'.bindings = s.bindings) : s.Notifies s' := by
  intro i b hb
  exact ⟨b, h ▸ hb, List.Subset.refl _, fun hne => absurd rfl hne⟩

theorem notifies_assign (s : Store) (id : BindingId) (site : Location) (ty : Ty)
    (cause : Location) : s.Notifies (s.assign id site ty cause).2 := by
  rcases bindings_assign_cases s id site ty cause with hsame | hmodified
  · exact notifies_of_bindings_eq hsame
  · intro i b hb
    have hafter := (congrArg (·[i]?) hmodified).trans (getElem?_modify_eq_some hb)
    refine ⟨_, hafter, ?_, queued_assign hb hafter⟩
    split
    · exact List.Subset.refl _
    · exact List.Subset.refl _

theorem notifies_sealStarved (s : Store) (ty : Ty) : s.Notifies (s.sealStarved ty).2 := by
  intro i b hb
  have hafter : (s.sealStarved ty).2.bindings[i]? =
      some (if b.isStarved then { b with current := ty } else b) := by
    simp [sealStarved, hb]
  refine ⟨_, hafter, ?_, queued_sealStarved hb hafter⟩
  split
  · exact List.Subset.refl _
  · exact List.Subset.refl _

theorem notifies_perform (hstep : s.perform op = some (answer, s')) : s.Notifies s' := by
  cases perform_iff.mp hstep with
  | intern slot => exact (grows_intern s slot).notifies
  | read id reader => exact (grows_read s id reader).notifies
  | assign id site ty cause => exact notifies_assign s id site ty cause
  | enqueue waiting cause => exact (grows_enqueue s waiting cause).notifies
  | pop => exact notifies_of_bindings_eq (bindings_pop s)
  | sealStarved ty => exact notifies_sealStarved s ty
  | find | peek | isIdle => exact notifies_of_bindings_eq rfl

/-- A unit is waiting until it is popped. -/
theorem holds_perform (hstep : s.perform op = some (answer, s'))
    (hwaiting : s.queue.holds unit = true)
    (hkept : ∀ cause, (op, answer) ≠ (.pop, .next (some ⟨unit, cause⟩))) :
    s'.queue.holds unit = true := by
  cases perform_iff.mp hstep with
  | intern slot => exact Worklist.holds_of_prefix (grows_intern s slot).queue hwaiting
  | read id reader => exact hwaiting
  | assign id site ty cause =>
    exact Worklist.holds_of_prefix (prefix_queue_assign s id site ty cause) hwaiting
  | enqueue other cause =>
    exact Worklist.holds_of_prefix (grows_enqueue s other cause).queue hwaiting
  | pop =>
    cases hqueue : s.queue with
    | nil => simp [hqueue, Worklist.holds] at hwaiting
    | cons first rest =>
      have hother : first.unit ≠ unit := by
        rintro rfl
        exact hkept first.cause (by simp [Store.pop, hqueue])
      simpa [Store.pop, hqueue, Worklist.holds, hother] using hwaiting
  | sealStarved ty => exact Worklist.holds_of_prefix (Worklist.prefix_enqueueAll _ _ _) hwaiting
  | find | peek | isIdle => exact hwaiting

/-! ### One read -/

/-- The unit is a reader of the binding, and it is waiting or else what it has read is still
    the type of the binding. -/
def UpToDate (s : Store) (id : BindingId) (unit : UnitId) (ty : Ty) : Prop :=
  ∃ b, s.bindings[id]? = some b ∧ unit ∈ b.readers ∧
    (s.queue.holds unit = true ∨ b.current = ty)

theorem upToDate_read {id : BindingId} {ty : Ty}
    (hstep : s.perform (.read id unit) = some (.type ty, s')) : s'.UpToDate id unit ty := by
  cases perform_iff.mp hstep with
  | read _ _ known =>
    have hb := List.getElem?_eq_getElem known
    obtain ⟨b', hb', hreader, hcurrent⟩ := mem_readers_read hb unit
    exact ⟨b', hb', hreader, .inr (hcurrent.trans (typeOf_eq hb).symm)⟩

theorem UpToDate.perform {id : BindingId} {ty : Ty} (h : s.UpToDate id unit ty)
    (hstep : s.perform op = some (answer, s'))
    (hkept : ∀ cause, (op, answer) ≠ (.pop, .next (some ⟨unit, cause⟩))) :
    s'.UpToDate id unit ty := by
  obtain ⟨b, hb, hreader, hread⟩ := h
  obtain ⟨b', hb', hreaders, hnotified⟩ := notifies_perform hstep id b hb
  refine ⟨b', hb', hreaders hreader, ?_⟩
  rcases hread with hwaiting | hcurrent
  · exact .inl (holds_perform hstep hwaiting hkept)
  · by_cases hsame : b'.current = b.current
    · exact .inr (hsame.trans hcurrent)
    · exact .inl (hnotified hsame unit hreader)

/-! ### Sessions -/

/-- At the end of any session, a unit that is not waiting has read nothing since it was last
    taken off the worklist that is not still the type of the binding.  Since a session may
    end anywhere, so it is at each point of a session. -/
theorem read_upToDate {ops : List Operation} {log : Log} {k : Nat} {id : BindingId} {ty : Ty}
    (hrun : empty.performAll ops = some (log, t)) (hidle : t.queue.holds unit = false)
    (hread : log[k]? = some (.read id unit, .type ty))
    (hkept : ∀ cause, (.pop, .next (some ⟨unit, cause⟩)) ∉ log.drop (k + 1)) :
    t.typeOf id = ty := by
  obtain ⟨r, r', later, hperform, hlater⟩ := exists_perform_of_log hrun hread
  have hend : t.UpToDate id unit ty := by
    refine performAll_keeps (I := fun p => p.UpToDate id unit ty) hlater
      (upToDate_read hperform) ?_
    intro p p' op answer hmem hdate hstep
    refine hdate.perform hstep fun cause heq => hkept cause ?_
    rw [← heq]
    exact hmem
  obtain ⟨b, hb, -, hwaiting | hcurrent⟩ := hend
  · simp [hidle] at hwaiting
  · rw [typeOf_eq hb, hcurrent]

/-- Two units read a variable before it is widened and another before it is sealed.  The first
    unit is checked again each time; the second still waits at the end. -/
def rereading : List Operation :=
  [.intern (.ivar 0 "a"), .intern (.ivar 0 "b"), .assign 0 default .char default,
    .read 0 1, .read 0 2, .assign 0 default .int default, .pop, .read 0 1, .read 1 1, .pop,
    .read 1 2, .sealStarved .nil, .pop, .read 0 1, .read 1 1, .assign 0 default .int default,
    .enqueue 2 none]

/-- What the first unit read last is up to date, and what the second read is not. -/
theorem rereading_upToDate :
    ∃ log t, empty.performAll rereading = some (log, t) ∧
      t.queue.holds 1 = false ∧ log[14]? = some (.read 1 1, .type .nil) ∧
      (∀ cause, (.pop, .next (some ⟨1, cause⟩)) ∉ log.drop 15) ∧ t.typeOf 1 = .nil ∧
      t.queue.holds 2 = true ∧ log[10]? = some (.read 1 2, .type .unresolved) := by
  refine ⟨_, _, rfl, rfl, rfl, ?_, ?_, rfl, rfl⟩
  · simp
  · refine @read_upToDate _ 1 rereading _ 14 _ _ rfl rfl rfl fun cause => ?_
    simp

end UnionTyping.Store
