/-
  UnionTyping/Journal.lean
  ========================
  **Values with a log of what was noted on the way to them.**

  Steps in a row note one after the other.  A step gets the values of the steps before it
  and not their log.
-/
namespace UnionTyping

/-- A value, and what was noted on the way to it. -/
structure Logged (ε α : Type) where
  value : α
  log : List ε

namespace Logged

variable {ε : Type}

instance : Monad (Logged ε) where
  pure a := ⟨a, []⟩
  bind x f :=
    match f x.value with
    | ⟨b, log⟩ => ⟨b, x.log ++ log⟩

def note (entry : ε) : Logged ε Unit := ⟨(), [entry]⟩

instance : LawfulMonad (Logged ε) :=
  .mk' _ (fun x => congrArg (mk x.value) (List.append_nil x.log)) (fun _ _ => rfl)
    fun x _ _ => congrArg (mk _) (List.append_assoc x.log _ _)

end Logged

end UnionTyping
