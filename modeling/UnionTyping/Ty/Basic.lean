/-
  UnionTyping/Ty/Basic.lean
  =========================
  **Types of expressions and when two of them are the same.**

  A type is the instance of a class (`Int`, `Pointer(Char)`), a union of such
  types (`Int | Char`), or `unresolved` while nothing is known about an
  expression.  Unions are sets that remember the order in which their members
  were first seen: the order shows in the text of a type and in the order in
  which members are tried, and nowhere else.  So `==` on types is not equality
  of terms.  Two unions are the same when they have equally many members and
  each member of the first is a member of the second, at every depth.

  The test compares members the other way round from the unions that hold them
  (a member of the second union stands on the left).  For unions without
  duplicates the side makes no difference; for others it does, so `Ty.agree`
  carries it along.  `con_beq_con` and `oneOf_beq_oneOf` state the rule without
  that bookkeeping.
-/
namespace UnionTyping

/-- A type: not known yet, an instance of a class with type arguments, or one of
    several types.  A generic class without arguments leaves its parameters
    open. -/
inductive Ty where
  | unresolved
  | con (name : String) (args : List Ty)
  | oneOf (members : List Ty)
deriving Repr, Inhabited

namespace Ty

/-! ### The types that the language itself speaks of -/

def int : Ty := con "Int" []
def double : Ty := con "Double" []
def char : Ty := con "Char" []
def bool : Ty := con "Bool" []
def nil : Ty := con "Nil" []
def string : Ty := con "String" []

/-- The type of a class that is used as a value. -/
def classObject : Ty := con "Class" []

def pointer (element : Ty) : Ty := con "Pointer" [element]

/-! ### Members -/

/-- What a value of this type can be: the type itself for an instance of a
    class, each member of a union, and nothing while the type is unresolved. -/
def members : Ty → List Ty
  | unresolved => []
  | con name args => [con name args]
  | oneOf ms => ms

def isUnresolved : Ty → Bool
  | unresolved => true
  | _ => false

def className? : Ty → Option String
  | con name _ => some name
  | _ => none

/-! ### Sameness -/

mutual

/-- Whether `a` and `b` are the same type.  The test is `b == a` when `turned`
    and `a == b` otherwise. -/
def agree (turned : Bool) : (a b : Ty) → Bool
  | unresolved, unresolved => true
  | con n as, con m bs => n == m && agreeArgs turned as bs
  | oneOf as, oneOf bs =>
    as.length == bs.length &&
      (if turned then bs.all fun b => anyAgrees as b else allAgree as bs)
  | _, _ => false
termination_by structural x => x

def agreeArgs (turned : Bool) : (as bs : List Ty) → Bool
  | [], [] => true
  | a :: as, b :: bs => agree turned a b && agreeArgs turned as bs
  | _, _ => false
termination_by structural x => x

def allAgree : (as bs : List Ty) → Bool
  | [], _ => true
  | a :: as, bs => (bs.any fun b => agree true a b) && allAgree as bs
termination_by structural x => x

def anyAgrees : (as : List Ty) → (b : Ty) → Bool
  | [], _ => false
  | a :: as, b => agree false a b || anyAgrees as b
termination_by structural x => x

end

/-- The same type, whatever the order of the members of its unions. -/
def same (a b : Ty) : Bool := agree false a b

instance : BEq Ty := ⟨same⟩

theorem allAgree_eq (as bs : List Ty) :
    allAgree as bs = as.all fun a => bs.any fun b => agree true a b := by
  induction as with
  | nil => simp [allAgree]
  | cons a as ih => simp [allAgree, ih]

theorem anyAgrees_eq (as : List Ty) (b : Ty) :
    anyAgrees as b = as.any fun a => agree false a b := by
  induction as with
  | nil => simp [anyAgrees]
  | cons a as ih => simp [anyAgrees, ih]

mutual

/-- Turning the test round exchanges its sides. -/
theorem agree_not (turned : Bool) (a b : Ty) : agree (!turned) a b = agree turned b a := by
  match a, b with
  | unresolved, b => cases b <;> simp [agree]
  | con n as, unresolved => simp [agree]
  | con n as, oneOf bs => simp [agree]
  | con n as, con m bs => rw [agree, agree, agreeArgs_not turned as bs, Bool.beq_comm]
  | oneOf as, unresolved => simp [agree]
  | oneOf as, con m bs => simp [agree]
  | oneOf as, oneOf bs =>
    have h := all_any_agree_not as bs
    have h' := any_agree_not as
    cases turned <;> simp [agree, allAgree_eq, anyAgrees_eq, h, h', Bool.beq_comm]
termination_by structural a

theorem agreeArgs_not (turned : Bool) (as bs : List Ty) :
    agreeArgs (!turned) as bs = agreeArgs turned bs as := by
  match as, bs with
  | [], bs => cases bs <;> simp [agreeArgs]
  | a :: as, [] => simp [agreeArgs]
  | a :: as, b :: bs => rw [agreeArgs, agreeArgs, agree_not turned a b, agreeArgs_not turned as bs]
termination_by structural as

theorem all_any_agree_not (as bs : List Ty) :
    (as.all fun a => bs.any fun b => agree true a b) =
      as.all fun a => bs.any fun b => agree false b a := by
  match as with
  | [] => rfl
  | a :: as =>
    rw [List.all_cons, List.all_cons, all_any_agree_not as bs]
    congr 2
    funext b
    exact agree_not false a b
termination_by structural as

theorem any_agree_not (as : List Ty) (b : Ty) :
    (as.any fun a => agree false a b) = as.any fun a => agree true b a := by
  match as with
  | [] => rfl
  | a :: as =>
    rw [List.any_cons, List.any_cons, any_agree_not as b]
    congr 1
    exact agree_not true a b
termination_by structural as

end

theorem agreeArgs_eq_beq (as bs : List Ty) : agreeArgs false as bs = (as == bs) := by
  induction as generalizing bs with
  | nil => cases bs <;> rfl
  | cons a as ih =>
    cases bs with
    | nil => rfl
    | cons b bs => rw [agreeArgs, ih]; rfl

/-- Instances of one class with the same arguments are the same type. -/
theorem con_beq_con (n m : String) (as bs : List Ty) :
    (con n as == con m bs) = (n == m && as == bs) := by
  rw [← agreeArgs_eq_beq]; rfl

/-- Unions are the same when they have equally many members and the second holds
    every member of the first. -/
theorem oneOf_beq_oneOf (as bs : List Ty) :
    (oneOf as == oneOf bs) =
      (as.length == bs.length && as.all fun a => bs.any fun b => b == a) := by
  have h : (oneOf as == oneOf bs) = (as.length == bs.length && allAgree as bs) := rfl
  rw [h, allAgree_eq, all_any_agree_not]; rfl

/-! ### The text of a type -/

mutual

/-- How a type is written: `?` for the unresolved type, `Name(A, B)` for an
    instance of a class, and `A | B` for a union. -/
def text : Ty → String
  | unresolved => "?"
  | con name [] => name
  | con name args => name ++ "(" ++ String.intercalate ", " (texts args) ++ ")"
  | oneOf ms => String.intercalate " | " (texts ms)
termination_by structural x => x

def texts : List Ty → List String
  | [] => []
  | t :: ts => text t :: texts ts
termination_by structural x => x

end

end Ty

end UnionTyping
