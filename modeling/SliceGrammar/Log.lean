import SliceGrammar.Cursor
import SliceGrammar.Utf8.Text
/-! What parsers report while they work, kept as data beside the outcome. A run over an input opens
one bracket and closes it; all else are events. The texts and fields of an entry are fixed here, so
that a log can be shown without knowing who wrote it. -/
namespace SliceGrammar

inductive Level where
  | trace
  | debug
  deriving DecidableEq, Repr

def Level.name : Level → String
  | .trace => "TRACE"
  | .debug => "DEBUG"

inductive Event where
  -- A run matched; its tail stands at offset `consumed`.
  | succeeded (consumed : Nat)
  | failed
  | noCodePoint (position : Position) (error : Utf8.DecodeError)
  | stopped (count min : Nat) (max : Option Nat)
  | notText (position : Position) (fault : Utf8.Fault)
  deriving DecidableEq, Repr

inductive Entry where
  | opened (label : Option String) (length : Nat)
  | entered
  | left
  | event (event : Event)
  deriving DecidableEq, Repr

abbrev Log := List Entry

namespace Event

def level : Event → Level
  | .succeeded _ => .debug
  | .failed => .debug
  | .noCodePoint _ _ => .trace
  | .stopped _ _ _ => .trace
  | .notText _ _ => .trace

def message : Event → String
  | .succeeded _ => "parse succeeded"
  | .failed => "parse failed"
  | .noCodePoint _ _ => "no code point"
  | .stopped _ _ _ => "repeat stopped"
  | .notText _ _ => "matched bytes are not UTF-8"

def bound : Option Nat → String
  | none => "None"
  | some n => "Some(" ++ toString n ++ ")"

def fields : Event → List (String × String)
  | .succeeded consumed => [("consumed",toString consumed)]
  | .failed => []
  | .noCodePoint position error => [("at",position.display),("error",error.message)]
  | .stopped count min max => [("count",toString count),("max",bound max),("min",toString min)]
  | .notText position fault => [("at",position.display),("error",fault.message)]

end Event

namespace Entry

def bracket : String := "run"

def bracketLevel : Level := .trace

def bracketFields (label : Option String) (length : Nat) : List (String × String) :=
  match label with
  | some label => [("label",label),("len",toString length)]
  | none => [("len",toString length)]

end Entry

end SliceGrammar
