import SliceGrammar.Outcome
import SliceGrammar.Value
/-! Grammars as data. An expression is built from primitives and combinators and may refer to rules by
name; what the names stand for is given beside it, so rules may refer to each other and to themselves.
Functions inside an expression are arbitrary. -/
namespace SliceGrammar

/-- How an expression keeps hold of a part of it. No way of holding changes what the part matches. -/
inductive Holding where
  | owned
  | shared
  | sharedAcrossThreads
  | borrowed
  | deferred
  deriving DecidableEq, Repr

inductive Expr (ρ : Type) where
  | literal (text : String)
  | range (low high : Char)
  | anyChar
  | atEnd
  | advance (n : Nat)
  | fail (reason : Option Reason)
  | repeated (body : Expr ρ) (min : Nat) (max : Option Nat)
  | concat (first second : Expr ρ)
  | text (body : Expr ρ)
  | recognize (body : Expr ρ)
  | choice (first second : Expr ρ)
  | pair (first second : Expr ρ)
  | keepLeft (first second : Expr ρ)
  | keepRight (first second : Expr ρ)
  | optional (body : Expr ρ)
  | absent (body : Expr ρ)
  | present (body : Expr ρ)
  | spanned (body : Expr ρ)
  | held (holding : Holding) (body : Expr ρ)
  | rule (name : ρ)
  | map (f : Value → Value) (body : Expr ρ)
  | bind (f : Value → Cursor → Outcome Value) (body : Expr ρ)
  | andThen (next : Value → Expr ρ) (body : Expr ρ)

abbrev Rules (ρ : Type) := ρ → Expr ρ

namespace Expr

variable {ρ : Type}

def codePoint (char : Char) : Expr ρ := .range char char

def many (body : Expr ρ) : Expr ρ := .repeated body 0 none

def many1 (body : Expr ρ) : Expr ρ := .repeated body 1 none

def atMostOne (body : Expr ρ) : Expr ρ := .repeated body 0 (some 1)

end Expr

end SliceGrammar
