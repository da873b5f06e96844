/-
  UnionTyping/Proofs/Rendering/ArgumentCounts.lean
  ================================================
  **A wrong number of arguments can be put right.**

  The help on a wrong number of arguments says how many are missing or too many, so there is
  none for a number within the reported range (`Problem.countHelp`).  The range is that of the
  first overload, while a call is rejected only when no overload takes the number
  (`Overload.requireArity`); since the first one does not take it either, the number lies
  outside of its range.  For addresses, new instances and native functions the range is a
  single number that differs from the one that was given.  So no problem for which a program is
  rejected lacks its help (`Program.check_miscounts`).
-/
import UnionTyping.Proofs.Inference.Reports
import UnionTyping.Rendering.Diagnostic

namespace UnionTyping

/-- If the problem is a number of arguments, the number is outside of the range that is asked
    for. -/
def Problem.Miscounted (problem : Problem) : Prop :=
  ∀ name given expected, problem = .wrongArgumentCount name given expected →
    given < expected.min ∨ expected.max < given

/-! ### Ranges -/

theorem Arity.contains_eq_false_iff {a : Arity} {given : Nat} :
    a.contains given = false ↔ given < a.min ∨ a.max < given := by
  rw [contains, Bool.and_eq_false_iff, decide_eq_false_iff_not, decide_eq_false_iff_not,
    Nat.not_le, Nat.not_le]

theorem Problem.miscounted_of_isOrdinary {problem : Problem} (h : problem.isOrdinary = true) :
    problem.Miscounted := by
  rintro name given expected rfl
  rw [isOrdinary, Bool.not_eq_true'] at h
  exact Arity.contains_eq_false_iff.mp h

/-- The number that no signature takes is outside of the range that is reported for it. -/
theorem Overload.miscounted_of_requireArity {signatures : List Signature} {given : Nat}
    {failure : Failure} (hsome : signatures ≠ [])
    (h : requireArity signatures given = .error failure) :
    ∃ expected, failure = .wrongArity given expected ∧
      (given < expected.min ∨ expected.max < given) := by
  have hmiscounted := Problem.miscounted_of_isOrdinary (isOrdinary_of_requireArity hsome h "")
  unfold requireArity at h
  split at h
  · cases h
  · cases h
    exact ⟨_, rfl, hmiscounted "" given _ rfl⟩

/-! ### Help -/

theorem Problem.exists_countHelp {given : Nat} {expected : Arity}
    (h : given < expected.min ∨ expected.max < given) :
    ∃ help, countHelp given expected = .ok help := by
  unfold countHelp
  by_cases hmissing : given < expected.min
  · rw [if_pos hmissing]
    exact ⟨_, rfl⟩
  · have hextra : expected.max < given := h.resolve_left hmissing
    rw [if_neg hmissing, if_neg (Nat.lt_asymm hextra)]
    exact ⟨_, rfl⟩

theorem Problem.Miscounted.exists_help {problem : Problem} (h : problem.Miscounted) :
    ∃ help, problem.help = .ok help := by
  cases problem with
  | wrongArgumentCount name given expected =>
    obtain ⟨help, hhelp⟩ := exists_countHelp (h name given expected rfl)
    exact ⟨some help, by rw [Problem.help, hhelp]; rfl⟩
  | _ => exact ⟨_, rfl⟩

theorem Span.ofLocation_ne_acceptedCount {source : String} {loc : Location} :
    ofLocation source loc ≠ .error .acceptedCount := by
  unfold ofLocation
  split <;> exact nofun

theorem Diagnostic.relatedLabel_ne_acceptedCount {d : Diagnostic} {source : String} :
    d.relatedLabel source ≠ .error .acceptedCount := by
  unfold relatedLabel
  split
  · exact nofun
  · split
    · cases hspan : Span.ofLocation source _ with
      | error err =>
        intro herror
        cases herror
        exact Span.ofLocation_ne_acceptedCount hspan
      | ok span => exact nofun
    · exact nofun

/-- Only a place outside of the text can keep a diagnostic from being shown. -/
theorem Diagnostic.render_ne_acceptedCount {d : Diagnostic} (h : d.problem.Miscounted)
    (source fileName : String) : d.render source fileName ≠ .error .acceptedCount := by
  obtain ⟨help, hhelp⟩ := h.exists_help
  intro herror
  unfold render at herror
  rcases bind_eq_error herror with hspan | ⟨span, -, herror⟩
  · exact Span.ofLocation_ne_acceptedCount hspan
  · rw [hhelp] at herror
    rcases bind_eq_error herror with hnone | ⟨_, -, herror⟩
    · cases hnone
    · rcases bind_eq_error herror with hrelated | ⟨_, -, herror⟩
      · exact relatedLabel_ne_acceptedCount hrelated
      · cases herror

/-! ### Answers -/

theorem Program.miscounted_of_rejected {p : Program} {settings : Settings} {d : Diagnostic}
    (h : p.check settings = .error (.rejected d)) : d.problem.Miscounted :=
  reported_of_rejected (P := Problem.Miscounted) (fun _ => Problem.miscounted_of_isOrdinary)
    (fun _ _ _ _ _ => nofun) h

/-- A number of arguments for which a program is rejected is less than what is asked for, or
    more, wherever it comes up; and so is a number that no signature of a nonempty set takes,
    with the range that is reported for it.  The error of a check is therefore never kept from
    being shown by a number of arguments that is accepted. -/
theorem Program.check_miscounts (p : Program) (settings : Settings) :
    (∀ d, p.check settings = .error (.rejected d) →
      ∀ name given expected, d.problem = .wrongArgumentCount name given expected →
        given < expected.min ∨ expected.max < given) ∧
    (∀ e, p.check settings = .error e →
      ∀ source shown, e.render source shown ≠ .error .acceptedCount) ∧
    ∀ signatures given failure, signatures ≠ [] →
      Overload.requireArity signatures given = .error failure →
        ∃ expected, failure = .wrongArity given expected ∧
          (given < expected.min ∨ expected.max < given) := by
  refine ⟨fun d h => miscounted_of_rejected h, fun e h source shown => ?_,
    fun signatures given failure => Overload.miscounted_of_requireArity⟩
  cases e with
  | rejected d => exact Diagnostic.render_ne_acceptedCount (miscounted_of_rejected h) _ _
  | iterationLimit limit => exact nofun

def CheckError.countOf : Except CheckError Report → Option (Nat × Arity)
  | .error (.rejected ⟨.wrongArgumentCount _ given expected, _, _⟩) => some (given, expected)
  | _ => none

theorem CheckError.exists_of_countOf {r : Except CheckError Report} {given : Nat} {expected : Arity}
    (h : countOf r = some (given, expected)) :
    ∃ d name, r = .error (.rejected d) ∧ d.problem = .wrongArgumentCount name given expected := by
  unfold countOf at h
  split at h
  · cases h
    exact ⟨_, _, rfl, rfl⟩
  · cases h

/-- Two overloads, and a number of arguments between theirs:
    `def f(a) end; def f(a, b, c = 1) end; f(1, 2)` is fine, and `f()` and `f(1, 2, 3, 4)` are
    not. -/
def overloadedProgram (given : Nat) : Program :=
  let m : Mark := ⟨0, .unplaced⟩
  .ofItems "overloaded.qz" [
    .method ⟨"f", [⟨"a", none, none⟩], [], .unplaced⟩,
    .method ⟨"f", [⟨"a", none, none⟩, ⟨"b", none, none⟩, ⟨"c", none, some (.literal m .int)⟩], [],
      .unplaced⟩,
    .expr (.call m none "f" (List.replicate given (.literal m .int)) none true)]

theorem overloadedProgram_miscounts :
    ((overloadedProgram 2).check {}).toBool = true ∧
    (∃ d name, (overloadedProgram 4).check {} = .error (.rejected d) ∧
      d.problem = .wrongArgumentCount name 4 ⟨1, 1⟩ ∧
      (4 < (Arity.exactly 1).min ∨ (Arity.exactly 1).max < 4) ∧
      (CheckError.rejected d).render "f(1, 2, 3, 4)" {} ≠ .error .acceptedCount) ∧
    Overload.requireArity [⟨[none], 1⟩, ⟨[none, none, none], 2⟩] 0 =
      .error (.wrongArity 0 ⟨1, 1⟩) ∧
    ∃ expected, Overload.Failure.wrongArity 0 ⟨1, 1⟩ = .wrongArity 0 expected ∧
      (0 < expected.min ∨ expected.max < 0) := by
  obtain ⟨hcount, hshown, harity⟩ := Program.check_miscounts (overloadedProgram 4) {}
  refine ⟨by decide +kernel, ?_, rfl, harity [⟨[none], 1⟩, ⟨[none, none, none], 2⟩] 0 _ nofun rfl⟩
  have hfour : CheckError.countOf ((overloadedProgram 4).check {}) = some (4, ⟨1, 1⟩) := by
    decide +kernel
  obtain ⟨d, name, hrejected, hproblem⟩ := CheckError.exists_of_countOf hfour
  exact ⟨d, name, hrejected, hproblem, hcount d hrejected name 4 _ hproblem,
    hshown _ hrejected _ _⟩

end UnionTyping
