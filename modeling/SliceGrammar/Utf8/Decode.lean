import SliceGrammar.Utf8.Encoding
/-! Reading one character from the front of a byte sequence. The first byte announces how many bytes
belong to the character; the checks then run in a fixed order (enough bytes, continuation bytes, no
shorter form, no surrogate, in range), so every malformed beginning has exactly one error. -/
namespace SliceGrammar.Utf8

inductive DecodeError where
  | endOfInput
  | invalidStartByte (byte : UInt8)
  | incomplete
  | invalidContinuation
  | overlong
  | surrogate
  | outOfRange
  deriving DecidableEq, Repr

def hexDigit (n : Nat) : Char := if n < 10 then Char.ofNat (n + 48) else Char.ofNat (n + 55)

def hexByte (b : UInt8) : String := String.ofList [hexDigit (b.toNat / 16),hexDigit (b.toNat % 16)]

def DecodeError.message : DecodeError → String
  | .endOfInput => "end of input"
  | .invalidStartByte byte => "invalid UTF-8 start byte 0x" ++ hexByte byte
  | .incomplete => "incomplete UTF-8 sequence"
  | .invalidContinuation => "invalid UTF-8 continuation byte"
  | .overlong => "overlong UTF-8 encoding"
  | .surrogate => "UTF-16 surrogate in UTF-8"
  | .outOfRange => "codepoint beyond Unicode range"

/-- What a first byte announces: its own payload bits, the number of bytes that follow it, and the
least number that needs so many bytes. -/
structure Lead where
  payload : Nat
  following : Nat
  least : Nat
  deriving DecidableEq, Repr

def lead (b : UInt8) : Option Lead :=
  if b.toNat < 0x80 then some ⟨b.toNat,0,0⟩
  else if b.toNat < 0xC0 then none
  else if b.toNat < 0xE0 then some ⟨b.toNat % 32,1,0x80⟩
  else if b.toNat < 0xF0 then some ⟨b.toNat % 16,2,0x800⟩
  else if b.toNat < 0xF8 then some ⟨b.toNat % 8,3,0x10000⟩
  else none

def gather : Nat → Bytes → Option Nat
  | number, [] => some number
  | number, b :: rest =>
      if isContinuation b then gather (number * 64 + b.toNat % 64) rest else none

def scalar (least number : Nat) : Except DecodeError Char :=
  if number < least then .error .overlong
  else if 0xD800 ≤ number ∧ number ≤ 0xDFFF then .error .surrogate
  else if 0x10FFFF < number then .error .outOfRange
  else .ok (Char.ofNat number)

def decode : Bytes → Except DecodeError (Char × Nat)
  | [] => .error .endOfInput
  | b :: rest =>
      match lead b with
      | none => .error (.invalidStartByte b)
      | some l =>
          let window := rest.take l.following
          if window.length < l.following then .error .incomplete
          else match gather l.payload window with
            | none => .error .invalidContinuation
            | some number =>
                match scalar l.least number with
                | .error e => .error e
                | .ok c => .ok (c,l.following + 1)

def decodeEach : Bytes → List (Except DecodeError (Char × Nat))
  | [] => [decode []]
  | b :: rest => decode (b :: rest) :: decodeEach rest

theorem decodeEachLength (bytes : Bytes) : (decodeEach bytes).length = bytes.length + 1 := by
  induction bytes with
  | nil => rfl
  | cons b rest ih => simp [decodeEach,ih]

theorem decodeEachAt (bytes : Bytes) (i : Nat) (inside : i ≤ bytes.length) :
    (decodeEach bytes)[i]? = some (decode (bytes.drop i)) := by
  induction bytes generalizing i with
  | nil => have zero : i = 0 := by simpa using inside
           subst zero; rfl
  | cons b rest ih =>
      cases i with
      | zero => rfl
      | succ i => simpa [decodeEach] using ih i (by simpa using inside)

end SliceGrammar.Utf8
