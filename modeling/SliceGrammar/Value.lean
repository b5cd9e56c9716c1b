import SliceGrammar.Span
/-! Values that a grammar yields. A grammar is data, so the shape of its values is known only when it
has run. The parsers it is made of carry the types of their values. -/
namespace SliceGrammar

inductive Value where
  | unit
  | bytes (slice : Bytes)
  | text (content : String)
  | char (c : Char)
  | int (n : Int)
  | nothing
  | just (value : Value)
  | pair (first second : Value)
  | spanned (value : Value) (span : Span)
  deriving DecidableEq, Repr

namespace Value

def content? : Value → Option Bytes
  | .bytes slice => some slice
  | .text content => some (Utf8.bytes content)
  | _ => none

def ofOption : Option Value → Value
  | none => .nothing
  | some value => .just value

def total : Value → Int
  | .int n => n
  | .just value => value.total
  | .pair first second => first.total + second.total
  | .spanned value _ => value.total
  | _ => 0

end Value

end SliceGrammar
