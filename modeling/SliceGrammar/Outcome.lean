import SliceGrammar.Cursor
/-! The result of one parse: a value with the cursor after it, or a failure that may carry a reason.
A failure without a reason differs from one with a reason, but both read as the same error text. -/
namespace SliceGrammar

/-- Why nothing matched. There is one reason, so two of them are always equal. -/
structure Reason where
  deriving DecidableEq, Repr, Inhabited

def Reason.message (_ : Reason) : String := "no match"

inductive Outcome (α : Type) where
  | success (value : α) (tail : Cursor)
  | failure (reason : Option Reason)
  deriving DecidableEq, Repr

namespace Outcome

def toExcept {α : Type} : Outcome α → Except Reason (α × Cursor)
  | .success value tail => .ok (value,tail)
  | .failure reason => .error (reason.getD default)

def isSuccess {α : Type} : Outcome α → Bool
  | .success _ _ => true
  | .failure _ => false

def tail? {α : Type} : Outcome α → Option Cursor
  | .success _ tail => some tail
  | .failure _ => none

def forgetReason {α : Type} : Outcome α → Outcome α
  | .success value tail => .success value tail
  | .failure _ => .failure none

end Outcome

end SliceGrammar
