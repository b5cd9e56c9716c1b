import SliceGrammar.Decimal
import SliceGrammar.Expr.Basic
/-! Functions for the places where an expression takes one: on a value, on a value with its tail, and
from a value to the next expression. A function on values that does not know the shape at hand gives
the value back. -/
namespace SliceGrammar.Action

def length (value : Value) : Value :=
  match value.content? with
  | some bytes => .int bytes.length
  | none => value

def digit (value : Value) : Value :=
  match value.content? with
  | some (b :: _) => .int ((b.toNat : Int) - 48)
  | _ => value

def swap : Value → Value
  | .pair first second => .pair second first
  | value => value

def first : Value → Value
  | .pair first _ => first
  | value => value

def second : Value → Value
  | .pair _ second => second
  | value => value

def sum (value : Value) : Value := .int value.total

def constant (result : Value) (_ : Value) : Value := result

def integer (value : Value) (tail : Cursor) : Outcome Value :=
  match value.content? with
  | none => .failure none
  | some bytes =>
      match Decimal.int64? bytes with
      | some n => .success (.int n) tail
      | none => .failure none

def accept (value : Value) (tail : Cursor) : Outcome Value := .success value tail

def reject (reason : Option Reason) (_ : Value) (_ : Cursor) : Outcome Value := .failure reason

def skip (n : Nat) (value : Value) (tail : Cursor) : Outcome Value := .success value (tail.advance n)

def seek (n : Nat) (value : Value) (tail : Cursor) : Outcome Value :=
  .success value ((Cursor.start tail.source tail.position.label).advance n)

def jump (source : Bytes) (label : Option String) (n : Nat) (value : Value) (_ : Cursor) : Outcome Value :=
  .success value ((Cursor.start source label).advance n)

variable {ρ : Type}

def count (body : Expr ρ) (value : Value) : Expr ρ :=
  match value.content? with
  | some (b :: _) =>
      if Decimal.isDigit b then .repeated body (b.toNat - 48) (some (b.toNat - 48)) else .fail none
  | _ => .fail none

def same : Value → Expr ρ
  | .char char => .codePoint char
  | .text text => .literal text
  | _ => .fail none

def select (entries : List (Bytes × Expr ρ)) (value : Value) : Expr ρ :=
  match value.content? with
  | none => .fail none
  | some bytes =>
      match entries.find? (fun entry => entry.1 == bytes) with
      | some entry => entry.2
      | none => .fail none

end SliceGrammar.Action
