import SliceGrammar.Parser.Basic
/-! Parsers that look at the input themselves. A character is read from a window of four bytes, the
longest encoding there is. Only a window that holds no character is reported: a character outside
the wanted range fails in silence, and so does a literal. -/
namespace SliceGrammar.Parser

def literal (text : String) : Parser Bytes := fun c =>
  let expected := Utf8.bytes text
  let found := c.peek (some expected.length)
  if found = expected then succeed found (c.advance expected.length) else refuse none

def anyChar : Parser Char := fun c =>
  match Utf8.decode (c.peek (some 4)) with
  | .ok (char,length) => succeed char (c.advance length)
  | .error error => some ⟨[.event (.noCodePoint c.position error)],.failure none⟩

def range (low high : Char) : Parser Bytes := fun c =>
  anyChar.follow
    (fun char tail => if low ≤ char ∧ char ≤ high then succeed (c.sliceTo tail) tail else refuse none)
    refuse c

def atEnd : Parser Unit := fun c => if c.isEmpty then succeed () c else refuse none

def advance (n : Nat) : Parser Bytes := fun c => succeed (c.sliceTo (c.advance n)) (c.advance n)

def fail {α : Type} (reason : Option Reason) : Parser α := fun _ => refuse reason

end SliceGrammar.Parser
