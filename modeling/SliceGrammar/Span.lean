import SliceGrammar.Position
/-! A stretch of input with the positions at which it starts and stops. The three parts are
independent: a span that a parse makes ties them together, one that is written down need not. -/
namespace SliceGrammar

structure Span where
  start : Position
  stop : Position
  slice : Bytes
  deriving DecidableEq, Repr

namespace Span

def length (s : Span) : Nat := s.slice.length

def isEmpty (s : Span) : Bool := s.slice.isEmpty

end Span

end SliceGrammar
